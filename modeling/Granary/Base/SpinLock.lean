import Granary.Base.Run

namespace Granary.Base.SpinLock

open Function Granary.Base.Run

inductive Phase where
  /-- Outside, and then `next_ticket.fetch_add`. -/
  | outside
  | spinning (ticket : BitVec 32)
  /-- Between `Acquire` and `Release`, and then `serving_ticket.fetch_add`. -/
  | holding
  deriving DecidableEq, Repr

variable {T : Type*}

/-- The two counters and the phase of each thread. The threads that took a ticket, and those that
entered, are in `taken` and `entered` one after the other. -/
structure State (T : Type*) where
  servingTicket : BitVec 32
  nextTicket : BitVec 32
  phase : T → Phase
  taken : List T
  entered : List T

def initial : State T where
  servingTicket := 0
  nextTicket := 0
  phase := fun _ ↦ .outside
  taken := []
  entered := []

section Step

variable [DecidableEq T]

def operate (s : State T) (t : T) : State T :=
  match s.phase t with
  | .outside =>
    { s with
      nextTicket := s.nextTicket + 1
      phase := update s.phase t (.spinning s.nextTicket)
      taken := s.taken ++ [t] }
  | .spinning ticket =>
    if ticket ≠ s.servingTicket then s
    else { s with phase := update s.phase t .holding, entered := s.entered ++ [t] }
  | .holding =>
    { s with servingTicket := s.servingTicket + 1, phase := update s.phase t .outside }

def step (s : State T) (t : T) : Option (State T) :=
  some (operate s t)

end Step

/-- The threads of `queue` have a ticket, those of `past` had one before them. -/
structure Inv (s : State T) (past queue : List T) : Prop where
  taken_eq : s.taken = past ++ queue
  nodup : queue.Nodup
  mem_queue (t : T) : t ∈ queue ↔ s.phase t ≠ .outside
  servingTicket_eq : s.servingTicket = BitVec.ofNat 32 past.length
  nextTicket_eq : s.nextTicket = BitVec.ofNat 32 s.taken.length
  ticket {t : T} {ticket : BitVec 32} {i : ℕ} : s.phase t = .spinning ticket → queue[i]? = some t →
    ticket = BitVec.ofNat 32 (past.length + i)
  entered_eq : s.entered = past ++ queue.takeWhile fun t ↦ s.phase t = .holding
  holding {t : T} : s.phase t = .holding → queue.head? = some t

theorem inv_initial : Inv (initial : State T) [] [] where
  taken_eq := rfl
  nodup := List.nodup_nil
  mem_queue := by simp [initial]
  servingTicket_eq := rfl
  nextTicket_eq := rfl
  ticket := by simp
  entered_eq := rfl
  holding := by simp [initial]

section Preserved

variable {s : State T} {t : T} {past queue : List T}

theorem takeWhile_holding_eq_nil (h : ∀ u ∈ queue, s.phase u ≠ .holding) :
    (queue.takeWhile fun u ↦ s.phase u = .holding) = [] := by
  cases queue with
  | nil => rfl
  | cons u us => exact List.takeWhile_cons_of_neg (by simpa using h u List.mem_cons_self)

theorem place_eq_zero [Fintype T] (hfew : Fintype.card T < 2 ^ 32) (hi : Inv s past queue) {i : ℕ}
    (hlt : i < queue.length)
    (h : BitVec.ofNat 32 (past.length + i) = BitVec.ofNat 32 past.length) : i = 0 := by
  have hcard : queue.length ≤ Fintype.card T := hi.nodup.length_le_card
  have hmod := congrArg BitVec.toNat h
  simp only [BitVec.toNat_ofNat] at hmod
  omega

variable [DecidableEq T]

theorem ofNat_succ (n : ℕ) : BitVec.ofNat 32 n + 1 = BitVec.ofNat 32 (n + 1) := by
  rw [BitVec.ofNat_add]
  rfl

theorem takeWhile_update (p : Phase) (ht : t ∉ queue) :
    (queue.takeWhile fun u ↦ update s.phase t p u = .holding) =
      queue.takeWhile fun u ↦ s.phase u = .holding := by
  induction queue with
  | nil => rfl
  | cons u us ih =>
    have hu : u ≠ t := by
      rintro rfl
      exact ht List.mem_cons_self
    simp only [List.takeWhile_cons, update_of_ne hu]
    rw [ih fun h ↦ ht (List.mem_cons_of_mem u h)]

theorem inv_take (hi : Inv s past queue) (ht : s.phase t = .outside) :
    Inv (operate s t) past (queue ++ [t]) := by
  have hnot : t ∉ queue := fun h ↦ (hi.mem_queue t).1 h ht
  have hlength : s.taken.length = past.length + queue.length := by
    rw [hi.taken_eq, List.length_append]
  have hop : operate s t =
      { s with
        nextTicket := s.nextTicket + 1
        phase := update s.phase t (.spinning s.nextTicket)
        taken := s.taken ++ [t] } := by
    simp only [operate, ht]
  rw [hop]
  constructor
  · simp [hi.taken_eq]
  · exact List.nodup_append.2 ⟨hi.nodup, List.nodup_singleton t, by
      intro u hu v hv
      rw [List.mem_singleton.1 hv]
      rintro rfl
      exact hnot hu⟩
  · intro u
    by_cases hu : u = t
    · simp [hu]
    · simp [hu, hi.mem_queue]
  · exact hi.servingTicket_eq
  · simp only [hi.nextTicket_eq, ofNat_succ, List.length_append, List.length_singleton]
  · intro u ticket i hphase hplace
    by_cases hu : u = t
    · -- the newcomer is the last one of the queue
      subst hu
      simp only [update_self] at hphase
      have hlast : i = queue.length := by
        by_contra hne
        have hlt : i < queue.length := by
          have hbound := (List.getElem?_eq_some_iff.1 hplace).1
          rw [List.length_append, List.length_singleton] at hbound
          omega
        rw [List.getElem?_append_left hlt] at hplace
        exact hnot (List.mem_of_getElem? hplace)
      cases hphase
      rw [hi.nextTicket_eq, hlength, hlast]
    · simp only [update_of_ne hu] at hphase
      have hlt : i < queue.length := by
        by_contra hle
        rw [List.getElem?_append_right (by omega)] at hplace
        exact hu (List.mem_singleton.1 (List.mem_of_getElem? hplace))
      rw [List.getElem?_append_left hlt] at hplace
      exact hi.ticket hphase hplace
  · have htake : ((queue ++ [t]).takeWhile
        fun u ↦ update s.phase t (.spinning s.nextTicket) u = .holding) =
          queue.takeWhile fun u ↦ s.phase u = .holding := by
      rw [← takeWhile_update _ hnot, List.takeWhile_append]
      split_ifs with hall
      · rw [List.takeWhile_cons_of_neg (by simp), List.append_nil]
        exact ((List.takeWhile_prefix _).eq_of_length hall).symm
      · rfl
    exact hi.entered_eq.trans (congrArg (past ++ ·) htake.symm)
  · intro u hu
    have hut : u ≠ t := by
      rintro rfl
      simp at hu
    simp only [update_of_ne hut] at hu
    simp [List.head?_append, hi.holding hu]

theorem inv_release (hi : Inv s past queue) (ht : s.phase t = .holding) :
    Inv (operate s t) (past ++ [t]) queue.tail := by
  obtain ⟨rest, rfl⟩ : ∃ rest, queue = t :: rest := List.head?_eq_some_iff.1 (hi.holding ht)
  have hrest : t ∉ rest := (List.nodup_cons.1 hi.nodup).1
  have hop : operate s t =
      { s with servingTicket := s.servingTicket + 1, phase := update s.phase t .outside } := by
    simp only [operate, ht]
  have hnone (u : T) (hu : u ≠ t) : s.phase u ≠ .holding := by
    intro hholding
    have hhead := hi.holding hholding
    simp only [List.head?_cons, Option.some.injEq] at hhead
    exact hu hhead.symm
  rw [hop, List.tail_cons]
  constructor
  · simp [hi.taken_eq]
  · exact (List.nodup_cons.1 hi.nodup).2
  · intro u
    by_cases hu : u = t
    · simp [hu, hrest]
    · simp [hu, ← hi.mem_queue]
  · rw [hi.servingTicket_eq, ofNat_succ, List.length_append, List.length_singleton]
  · exact hi.nextTicket_eq
  · intro u ticket i hphase hplace
    have hut : u ≠ t := by
      rintro rfl
      simp at hphase
    simp only [update_of_ne hut] at hphase
    have hticket := hi.ticket hphase (i := i + 1) (by simpa using hplace)
    rw [hticket, List.length_append, List.length_singleton]
    congr 1
    omega
  · have hstop : (rest.takeWhile fun u ↦ s.phase u = .holding) = [] := by
      apply takeWhile_holding_eq_nil
      intro u hu
      apply hnone
      rintro rfl
      exact hrest hu
    have hentered := hi.entered_eq
    rw [List.takeWhile_cons_of_pos (by simpa using ht), hstop] at hentered
    rw [takeWhile_update _ hrest, hstop, List.append_nil]
    exact hentered
  · intro u hu
    by_cases hut : u = t
    · simp [hut] at hu
    · simp only [update_of_ne hut] at hu
      exact absurd hu (hnone u hut)

variable [Fintype T]

theorem inv_spin (hfew : Fintype.card T < 2 ^ 32) (hi : Inv s past queue) {ticket : BitVec 32}
    (ht : s.phase t = .spinning ticket) : Inv (operate s t) past queue := by
  have hmem : t ∈ queue := (hi.mem_queue t).2 (by simp [ht])
  obtain ⟨i, hplace⟩ := List.mem_iff_getElem?.1 hmem
  have hticket := hi.ticket ht hplace
  unfold operate
  simp only [ht]
  split_ifs with hserving
  · exact hi
  · -- its turn has come, so it is the first one of the queue
    rw [not_not, hi.servingTicket_eq, hticket] at hserving
    have hzero := place_eq_zero hfew hi (List.getElem?_eq_some_iff.1 hplace).1 hserving
    subst hzero
    obtain ⟨rest, rfl⟩ : ∃ rest, queue = t :: rest := by
      cases queue with
      | nil => simp at hplace
      | cons u us =>
        simp only [List.getElem?_cons_zero, Option.some.injEq] at hplace
        exact ⟨us, by rw [hplace]⟩
    have hrest : t ∉ rest := (List.nodup_cons.1 hi.nodup).1
    have hnone (u : T) (hu : u ∈ rest) : s.phase u ≠ .holding := by
      intro hholding
      have hhead := hi.holding hholding
      simp only [List.head?_cons, Option.some.injEq] at hhead
      exact hrest (hhead ▸ hu)
    constructor
    · exact hi.taken_eq
    · exact hi.nodup
    · intro u
      by_cases hu : u = t
      · simp [hu]
      · simp [hu, ← hi.mem_queue]
    · exact hi.servingTicket_eq
    · exact hi.nextTicket_eq
    · intro u ticket i hphase hplace
      have hut : u ≠ t := by
        rintro rfl
        simp at hphase
      simp only [update_of_ne hut] at hphase
      exact hi.ticket hphase hplace
    · have hentered := hi.entered_eq
      rw [List.takeWhile_cons_of_neg (by simp [ht]), List.append_nil] at hentered
      have hstop := takeWhile_holding_eq_nil hnone
      simp only [List.takeWhile_cons, update_self, decide_true, if_true]
      rw [takeWhile_update _ hrest, hstop, hentered]
    · intro u hu
      by_cases hut : u = t
      · rw [hut]
        rfl
      · simp only [update_of_ne hut] at hu
        exact hi.holding hu

theorem inv_operate (hfew : Fintype.card T < 2 ^ 32) (h : ∃ past queue, Inv s past queue) (t : T) :
    ∃ past queue, Inv (operate s t) past queue := by
  obtain ⟨past, queue, hi⟩ := h
  cases ht : s.phase t with
  | outside => exact ⟨past, queue ++ [t], inv_take hi ht⟩
  | spinning ticket => exact ⟨past, queue, inv_spin hfew hi ht⟩
  | holding => exact ⟨past ++ [t], queue.tail, inv_release hi ht⟩

end Preserved

/-- In no state of an interleaving are two threads between `Acquire` and `Release`, and the threads
enter in the order in which they took their tickets, whatever the counters wrapped around to. -/
theorem spinLock_excludes_in_order [Fintype T] [DecidableEq T] {s : State T}
    (hfew : Fintype.card T < 2 ^ 32) (actions : List T) (h : run step initial actions = some s) :
    (∀ t u, s.phase t = .holding → s.phase u = .holding → t = u) ∧ s.entered <+: s.taken := by
  have hinv : ∃ past queue, Inv s past queue := by
    refine run_invariant (I := fun s ↦ ∃ past queue, Inv s past queue) (fun s t s' hi hs ↦ ?_)
      ⟨[], [], inv_initial⟩ h
    exact Option.some_inj.1 hs ▸ inv_operate hfew hi t
  obtain ⟨past, queue, hi⟩ := hinv
  constructor
  · intro t u ht hu
    exact Option.some_inj.1 ((hi.holding ht).symm.trans (hi.holding hu))
  · rw [hi.entered_eq, hi.taken_eq]
    exact List.prefix_append_right_inj past |>.2 (List.takeWhile_prefix _)

/-- The second thread waits for the first one, and enters after it. -/
theorem spinLock_excludes_in_order_bool :
    ∃ s : State Bool,
      run step initial [true, false, false, true, true, false] = some s ∧
      s.phase false = .holding ∧ s.phase true ≠ .holding ∧ s.entered <+: [true, false] := by
  have h := spinLock_excludes_in_order (T := Bool) (by simp)
    [true, false, false, true, true, false] rfl
  refine ⟨_, rfl, by decide, ?_, h.2⟩
  intro ht
  exact absurd (h.1 true false ht (by decide)) (by decide)

end Granary.Base.SpinLock
