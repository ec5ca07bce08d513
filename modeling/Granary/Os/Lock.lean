import Granary.Base.Run

namespace Granary.Os.Lock

open Function Granary.Base.Run

def kLockUncontended : BitVec 32 := 0

def kLockAcquired : BitVec 32 := 1

def kLockContended : BitVec 32 := 2

inductive Phase where
  /-- Outside, and then the exchange that `Acquire` starts with. -/
  | outside
  | readState
  | setContended
  /-- About to enter `FUTEX_WAIT`. -/
  | wait
  /-- Asleep in `FUTEX_WAIT`, and then a return for no reason. -/
  | asleep
  | acquireContended
  /-- Between `Acquire` and `Release`, and then the subtraction that `Release` starts with. -/
  | holding
  | store
  | wake
  deriving DecidableEq, Repr

variable {T : Type*}

/-- The word of the lock, the queue of the threads asleep on it, and the phase of each thread. -/
structure State (T : Type*) where
  state : BitVec 32
  sleepers : List T
  phase : T → Phase

structure Action (T : Type*) where
  thread : T
  /-- Which one of the sleepers `FUTEX_WAKE` wakes. -/
  choice : ℕ

def initial : State T where
  state := kLockUncontended
  sleepers := []
  phase := fun _ ↦ .outside

section Step

variable [DecidableEq T]

def State.goto (s : State T) (t : T) (p : Phase) (state : BitVec 32) : State T :=
  { s with state := state, phase := update s.phase t p }

def State.compareAndSwap (s : State T) (t : T) (expected desired : BitVec 32)
    (success failure : Phase) : State T :=
  if s.state = expected then s.goto t success desired else s.goto t failure s.state

def State.sleep (s : State T) (t : T) : State T :=
  { s with sleepers := s.sleepers ++ [t], phase := update s.phase t .asleep }

def State.awaken (s : State T) (t : T) : State T :=
  { s with sleepers := s.sleepers.erase t, phase := update s.phase t .acquireContended }

def futexWait (s : State T) (t : T) : State T :=
  if s.state = kLockContended then s.sleep t else s.goto t .acquireContended s.state

def futexWake (s : State T) (choice : ℕ) : State T :=
  match s.sleepers[choice % s.sleepers.length]? with
  | some u => s.awaken u
  | none => s

def operate (s : State T) (a : Action T) : State T :=
  match s.phase a.thread with
  | .outside =>
    s.compareAndSwap a.thread kLockUncontended kLockAcquired .holding .readState
  | .readState =>
    s.goto a.thread (if kLockContended = s.state then .wait else .setContended) s.state
  | .setContended =>
    s.compareAndSwap a.thread kLockAcquired kLockContended .wait .acquireContended
  | .wait => futexWait s a.thread
  | .asleep => s.awaken a.thread
  | .acquireContended =>
    s.compareAndSwap a.thread kLockUncontended kLockContended .holding .readState
  | .holding =>
    s.goto a.thread (if kLockContended = s.state then .store else .outside) (s.state - 1)
  | .store => s.goto a.thread .wake kLockUncontended
  | .wake => (futexWake s a.choice).goto a.thread .outside s.state

def step (s : State T) (a : Action T) : Option (State T) :=
  some (operate s a)

end Step

/-- The thread is after the end of `Acquire`, and `Release` has not yet left zero in the word. -/
def Holds (p : Phase) : Prop := p = .holding ∨ p = .store

def WakePending (p : Phase) : Prop := p = .store ∨ p = .wake

def InLoop (p : Phase) : Prop :=
  p = .readState ∨ p = .setContended ∨ p = .wait ∨ p = .acquireContended

def Minds (p : Phase) : Prop := WakePending p ∨ InLoop p

structure Inv (s : State T) : Prop where
  state_cases : s.state = kLockUncontended ∨ s.state = kLockAcquired ∨ s.state = kLockContended
  held : s.state ≠ kLockUncontended ↔ ∃ t, Holds (s.phase t)
  alone (t u : T) : Holds (s.phase t) → Holds (s.phase u) → t = u
  asleep (t : T) : t ∈ s.sleepers ↔ s.phase t = .asleep
  nodup : s.sleepers.Nodup
  minded : s.sleepers ≠ [] → s.state = kLockContended ∨ ∃ t, Minds (s.phase t)

theorem inv_initial : Inv (initial : State T) where
  state_cases := Or.inl rfl
  held := by simp [initial, Holds]
  alone := by simp [initial, Holds]
  asleep := by simp [initial]
  nodup := List.nodup_nil
  minded := fun h ↦ absurd rfl h

section Preserved

variable [DecidableEq T] {s : State T} {t : T}

theorem exists_update {P : Phase → Prop} {p : Phase} (h : ∃ u, u ≠ t ∧ P (s.phase u)) :
    ∃ u, P (update s.phase t p u) := by
  obtain ⟨u, hu, hP⟩ := h
  refine ⟨u, ?_⟩
  rwa [update_of_ne hu]

theorem exists_update_self {P : Phase → Prop} {p : Phase} (h : P p) :
    ∃ u, P (update s.phase t p u) := by
  refine ⟨t, ?_⟩
  rwa [update_self]

/-- Who holds the lock after thread `t` went on to `p`. -/
structure Passes (s : State T) (t : T) (p : Phase) (state : BitVec 32) : Prop where
  held : state ≠ kLockUncontended ↔ ∃ u, Holds (update s.phase t p u)
  alone (u v : T) : Holds (update s.phase t p u) → Holds (update s.phase t p v) → u = v

theorem passes_same (hi : Inv s) {p : Phase} {state : BitVec 32}
    (hp : Holds p ↔ Holds (s.phase t))
    (hstate : state = kLockUncontended ↔ s.state = kLockUncontended) : Passes s t p state := by
  have hholds (u : T) : Holds (update s.phase t p u) ↔ Holds (s.phase u) := by
    by_cases hu : u = t
    · rw [hu, update_self]
      exact hp
    · rw [update_of_ne hu]
  constructor
  · simp only [hholds]
    exact (not_congr hstate).trans hi.held
  · intro u v hu hv
    exact hi.alone u v ((hholds u).1 hu) ((hholds v).1 hv)

theorem passes_acquire (hi : Inv s) {p : Phase} {state : BitVec 32} (hp : Holds p)
    (hfree : s.state = kLockUncontended) (hstate : state ≠ kLockUncontended) :
    Passes s t p state := by
  have hnone (u : T) : ¬Holds (s.phase u) := by
    intro hu
    exact hi.held.2 ⟨u, hu⟩ hfree
  have honly (u : T) (hu : Holds (update s.phase t p u)) : u = t := by
    by_contra hne
    rw [update_of_ne hne] at hu
    exact hnone u hu
  constructor
  · exact iff_of_true hstate (exists_update_self hp)
  · intro u v hu hv
    exact (honly u hu).trans (honly v hv).symm

theorem passes_release (hi : Inv s) {p : Phase} (hp : ¬Holds p) (ht : Holds (s.phase t)) :
    Passes s t p kLockUncontended := by
  have hnone (u : T) : ¬Holds (update s.phase t p u) := by
    intro hu
    by_cases hut : u = t
    · rw [hut, update_self] at hu
      exact hp hu
    · rw [update_of_ne hut] at hu
      exact hut (hi.alone u t hu ht)
  constructor
  · apply iff_of_false
    · exact fun h ↦ h rfl
    · rintro ⟨u, hu⟩
      exact hnone u hu
  · intro u v hu
    exact absurd hu (hnone u)

theorem inv_goto (hi : Inv s) {p : Phase} {state : BitVec 32} (hpass : Passes s t p state)
    (hstate : state = kLockUncontended ∨ state = kLockAcquired ∨ state = kLockContended)
    (ht : s.phase t ≠ .asleep) (hp : p ≠ .asleep)
    (hmind : s.sleepers ≠ [] → state = kLockContended ∨ Minds p ∨
      (∃ u, u ≠ t ∧ Minds (s.phase u)) ∨
      ¬Minds (s.phase t) ∧ (s.state = kLockContended → state = kLockContended)) :
    Inv (s.goto t p state) := by
  refine ⟨hstate, hpass.held, hpass.alone, fun u ↦ ?_, hi.nodup, fun hs ↦ ?_⟩
  · by_cases hu : u = t
    · subst hu
      simp only [State.goto, update_self]
      exact iff_of_false (fun h ↦ ht ((hi.asleep u).1 h)) hp
    · simp only [State.goto, update_of_ne hu]
      exact hi.asleep u
  · obtain hcontended | hp | hother | ⟨hnot, hsame⟩ := hmind hs
    · exact Or.inl hcontended
    · exact Or.inr (exists_update_self hp)
    · exact Or.inr (exists_update hother)
    · obtain h | ⟨u, hu⟩ := hi.minded hs
      · exact Or.inl (hsame h)
      · refine Or.inr (exists_update ⟨u, ?_, hu⟩)
        rintro rfl
        exact hnot hu

theorem inv_compareAndSwap {expected desired : BitVec 32} {success failure : Phase}
    (hsuccess : s.state = expected → Inv (s.goto t success desired))
    (hfailure : s.state ≠ expected → Inv (s.goto t failure s.state)) :
    Inv (s.compareAndSwap t expected desired success failure) := by
  unfold State.compareAndSwap
  split_ifs with h
  · exact hsuccess h
  · exact hfailure h

theorem not_holds_of_inLoop {p : Phase} (h : InLoop p) : ¬Holds p := by
  obtain rfl | rfl | rfl | rfl := h <;> simp [Holds]

theorem ne_asleep_of_inLoop {p : Phase} (h : InLoop p) : p ≠ .asleep := by
  obtain rfl | rfl | rfl | rfl := h <;> simp

/-- A thread that does not hold the lock goes on in the loop, and does not free the lock. -/
theorem inv_goto_inLoop (hi : Inv s) {p : Phase} {state : BitVec 32}
    (ht : ¬Holds (s.phase t)) (hawake : s.phase t ≠ .asleep) (hp : InLoop p)
    (hstate : state = s.state ∨ s.state ≠ kLockUncontended ∧ state = kLockContended) :
    Inv (s.goto t p state) := by
  have hsame : state = kLockUncontended ↔ s.state = kLockUncontended := by
    obtain rfl | ⟨hne, rfl⟩ := hstate
    · rfl
    · exact iff_of_false (by decide) hne
  have hcases : state = kLockUncontended ∨ state = kLockAcquired ∨ state = kLockContended := by
    obtain rfl | ⟨-, rfl⟩ := hstate
    · exact hi.state_cases
    · exact Or.inr (Or.inr rfl)
  apply inv_goto hi
  · exact passes_same hi (iff_of_false (not_holds_of_inLoop hp) ht) hsame
  · exact hcases
  · exact hawake
  · exact ne_asleep_of_inLoop hp
  · intro _
    exact Or.inr (Or.inl (Or.inr hp))

theorem inv_sleep (hi : Inv s) (ht : s.phase t = .wait) (hcontended : s.state = kLockContended) :
    Inv (s.sleep t) := by
  have hpass : Passes s t .asleep s.state :=
    passes_same hi (by simp [ht, Holds]) Iff.rfl
  have hnot : t ∉ s.sleepers := by
    intro h
    rw [hi.asleep, ht] at h
    cases h
  refine ⟨hi.state_cases, hpass.held, hpass.alone, fun u ↦ ?_, ?_, fun _ ↦ Or.inl hcontended⟩
  · by_cases hu : u = t
    · simp [State.sleep, hu]
    · simp [State.sleep, hu, hi.asleep]
  · exact List.nodup_append.2 ⟨hi.nodup, List.nodup_singleton t, by
      intro u hu v hv
      rw [List.mem_singleton.1 hv]
      rintro rfl
      exact hnot hu⟩

theorem inv_awaken (hi : Inv s) (ht : s.phase t = .asleep) : Inv (s.awaken t) := by
  have hpass : Passes s t .acquireContended s.state :=
    passes_same hi (by simp [ht, Holds]) Iff.rfl
  refine ⟨hi.state_cases, hpass.held, hpass.alone, fun u ↦ ?_, hi.nodup.erase t, fun _ ↦ ?_⟩
  · by_cases hu : u = t
    · subst hu
      simp [State.awaken, hi.nodup.mem_erase_iff]
    · simp [State.awaken, hu, hi.nodup.mem_erase_iff, hi.asleep]
  · exact Or.inr (exists_update_self (Or.inr (Or.inr (Or.inr (Or.inr rfl)))))

theorem inv_futexWait (hi : Inv s) (ht : s.phase t = .wait) : Inv (futexWait s t) := by
  unfold futexWait
  split_ifs with h
  · exact inv_sleep hi ht h
  · exact inv_goto_inLoop hi (by simp [ht, Holds]) (by simp [ht]) (by simp [InLoop]) (Or.inl rfl)

/-- After `FUTEX_WAKE` there are no sleepers, or one thread that was asleep is awake. -/
theorem futexWake_cases (hi : Inv s) (choice : ℕ) :
    (s.sleepers = [] ∧ futexWake s choice = s) ∨
      ∃ u, s.phase u = .asleep ∧ futexWake s choice = s.awaken u := by
  unfold futexWake
  split
  next u hu => exact Or.inr ⟨u, (hi.asleep u).1 (List.mem_of_getElem? hu), rfl⟩
  next hnone =>
    left
    rw [List.getElem?_eq_none_iff] at hnone
    refine ⟨?_, rfl⟩
    by_contra hne
    have hlt := Nat.mod_lt choice (List.length_pos_iff.2 hne)
    omega

theorem inv_futexWake (hi : Inv s) (ht : s.phase t = .wake) (choice : ℕ) :
    Inv ((futexWake s choice).goto t .outside s.state) := by
  have hfalse : Holds Phase.outside ↔ Holds Phase.wake := by simp [Holds]
  obtain ⟨hnone, heq⟩ | ⟨u, hu, heq⟩ := futexWake_cases hi choice <;> rw [heq]
  · apply inv_goto hi
    · exact passes_same hi (by rw [ht, hfalse]) Iff.rfl
    · exact hi.state_cases
    · simp [ht]
    · simp
    · exact fun hsome ↦ absurd hnone hsome
  · have hne : t ≠ u := by
      rintro rfl
      rw [ht] at hu
      cases hu
    have hphase : (s.awaken u).phase t = .wake := by
      simp [State.awaken, hne, ht]
    have hminds : Minds ((s.awaken u).phase u) := by
      simp [State.awaken, Minds, InLoop]
    have hawake := inv_awaken hi hu
    apply inv_goto hawake
    · exact passes_same hawake (by rw [hphase, hfalse]) Iff.rfl
    · exact hi.state_cases
    · simp [hphase]
    · simp
    · exact fun _ ↦ Or.inr (Or.inr (Or.inl ⟨u, hne.symm, hminds⟩))

theorem inv_release (hi : Inv s) (ht : s.phase t = .holding) :
    Inv (s.goto t (if kLockContended = s.state then .store else .outside) (s.state - 1)) := by
  have hholds : Holds (s.phase t) := Or.inl ht
  have hnonzero : s.state ≠ kLockUncontended := hi.held.2 ⟨t, hholds⟩
  have hone : s.state = kLockAcquired ∨ s.state = kLockContended :=
    hi.state_cases.resolve_left hnonzero
  obtain hacquired | hcontended := hone
  · have hnot : kLockContended ≠ kLockAcquired := by decide
    have hzero : kLockAcquired - 1 = kLockUncontended := by decide
    rw [hacquired, if_neg hnot, hzero]
    apply inv_goto hi
    · exact passes_release hi (by simp [Holds]) hholds
    · exact Or.inl rfl
    · simp [ht]
    · simp
    · intro _
      refine Or.inr (Or.inr (Or.inr ⟨by simp [ht, Minds, WakePending, InLoop], ?_⟩))
      rw [hacquired]
      exact fun h ↦ absurd h.symm hnot
  · have hone : kLockContended - 1 = kLockAcquired := by decide
    rw [hcontended, if_pos rfl, hone]
    apply inv_goto hi
    · exact passes_same hi (iff_of_true (Or.inr rfl) hholds)
        (iff_of_false (by decide) hnonzero)
    · exact Or.inr (Or.inl rfl)
    · simp [ht]
    · simp
    · exact fun _ ↦ Or.inr (Or.inl (Or.inl (Or.inl rfl)))

theorem inv_store (hi : Inv s) (ht : s.phase t = .store) :
    Inv (s.goto t .wake kLockUncontended) := by
  apply inv_goto hi
  · exact passes_release hi (by simp [Holds]) (Or.inr ht)
  · exact Or.inl rfl
  · simp [ht]
  · simp
  · exact fun _ ↦ Or.inr (Or.inl (Or.inl (Or.inr rfl)))

theorem inv_acquire (hi : Inv s) {desired : BitVec 32} (hawake : s.phase t ≠ .asleep)
    (hnot : ¬Holds (s.phase t)) (hdesired : desired = kLockAcquired ∨ desired = kLockContended)
    (hmind : Minds (s.phase t) → desired = kLockContended) :
    Inv (s.compareAndSwap t kLockUncontended desired .holding .readState) := by
  apply inv_compareAndSwap
  · intro hfree
    have hnonzero : desired ≠ kLockUncontended := by
      obtain rfl | rfl := hdesired <;> decide
    apply inv_goto hi
    · exact passes_acquire hi (Or.inl rfl) hfree hnonzero
    · exact Or.inr hdesired
    · exact hawake
    · simp
    · intro _
      by_cases hm : Minds (s.phase t)
      · exact Or.inl (hmind hm)
      · refine Or.inr (Or.inr (Or.inr ⟨hm, ?_⟩))
        rw [hfree]
        exact fun h ↦ absurd h (by decide)
  · intro _
    exact inv_goto_inLoop hi hnot hawake (Or.inl rfl) (Or.inl rfl)

theorem inv_setContended (hi : Inv s) (ht : s.phase t = .setContended) :
    Inv (s.compareAndSwap t kLockAcquired kLockContended .wait .acquireContended) := by
  have hnot : ¬Holds (s.phase t) := by simp [ht, Holds]
  have hawake : s.phase t ≠ .asleep := by simp [ht]
  apply inv_compareAndSwap
  · intro hacquired
    have hnonzero : s.state ≠ kLockUncontended := by
      rw [hacquired]
      decide
    exact inv_goto_inLoop hi hnot hawake (by simp [InLoop]) (Or.inr ⟨hnonzero, rfl⟩)
  · intro _
    exact inv_goto_inLoop hi hnot hawake (by simp [InLoop]) (Or.inl rfl)

theorem inv_operate (hi : Inv s) (a : Action T) : Inv (operate s a) := by
  unfold operate
  cases ht : s.phase a.thread with
  | outside =>
    refine inv_acquire hi (by simp [ht]) (by simp [ht, Holds]) (Or.inl rfl) ?_
    simp [ht, Minds, WakePending, InLoop]
  | readState =>
    apply inv_goto_inLoop hi (by simp [ht, Holds]) (by simp [ht])
    · split_ifs <;> simp [InLoop]
    · exact Or.inl rfl
  | setContended => exact inv_setContended hi ht
  | wait => exact inv_futexWait hi ht
  | asleep => exact inv_awaken hi ht
  | acquireContended =>
    exact inv_acquire hi (by simp [ht]) (by simp [ht, Holds]) (Or.inr rfl) fun _ ↦ rfl
  | holding => exact inv_release hi ht
  | store => exact inv_store hi ht
  | wake => exact inv_futexWake hi ht a.choice

end Preserved

/-- In no state of an interleaving do two threads hold the lock. While a thread sleeps, the word
is two, or a thread that releases the lock has yet to wake one, or a thread is awake in the loop of
`Acquire`. So none sleeps while the lock is free and nobody minds it. -/
theorem lock_excludes_and_wakes [DecidableEq T] {s : State T} (actions : List (Action T))
    (h : run step initial actions = some s) :
    (∀ t u, Holds (s.phase t) → Holds (s.phase u) → t = u) ∧
      ((∃ t, s.phase t = .asleep) → s.state = kLockContended ∨
        (∃ t, WakePending (s.phase t)) ∨ ∃ t, InLoop (s.phase t)) ∧
      ¬((∃ t, s.phase t = .asleep) ∧ s.state = kLockUncontended ∧
        ∀ t, ¬WakePending (s.phase t) ∧ ¬InLoop (s.phase t)) := by
  have hi : Inv s := by
    refine run_invariant (I := Inv) (fun s a s' hi hs ↦ ?_) inv_initial h
    exact Option.some_inj.1 hs ▸ inv_operate hi a
  have hminded : (∃ t, s.phase t = .asleep) → s.state = kLockContended ∨
      (∃ t, WakePending (s.phase t)) ∨ ∃ t, InLoop (s.phase t) := by
    rintro ⟨t, ht⟩
    have hsome : s.sleepers ≠ [] := List.ne_nil_of_mem ((hi.asleep t).2 ht)
    obtain hcontended | ⟨u, hwake | hloop⟩ := hi.minded hsome
    · exact Or.inl hcontended
    · exact Or.inr (Or.inl ⟨u, hwake⟩)
    · exact Or.inr (Or.inr ⟨u, hloop⟩)
  refine ⟨hi.alone, hminded, ?_⟩
  rintro ⟨hasleep, hfree, hnobody⟩
  obtain hcontended | ⟨t, hwake⟩ | ⟨t, hloop⟩ := hminded hasleep
  · rw [hfree] at hcontended
    exact absurd hcontended (by decide)
  · exact (hnobody t).1 hwake
  · exact (hnobody t).2 hloop

/-- The second thread sleeps while the first one, which held the lock, has yet to wake it. -/
theorem lock_excludes_and_wakes_bool :
    ∃ s : State Bool,
      run step initial
        [⟨true, 0⟩, ⟨false, 0⟩, ⟨false, 0⟩, ⟨false, 0⟩, ⟨false, 0⟩, ⟨true, 0⟩, ⟨true, 0⟩] =
          some s ∧
      s.phase false = .asleep ∧ s.state = kLockUncontended ∧ ∃ t, WakePending (s.phase t) := by
  refine ⟨_, rfl, by decide, by decide, ?_⟩
  obtain hcontended | hwake | ⟨t, hloop⟩ := (lock_excludes_and_wakes
    [⟨true, 0⟩, ⟨false, 0⟩, ⟨false, 0⟩, ⟨false, 0⟩, ⟨false, 0⟩, ⟨true, 0⟩, ⟨true, 0⟩] rfl).2.1
      ⟨false, by decide⟩
  · exact absurd hcontended (by decide)
  · exact hwake
  · revert hloop
    cases t <;> simp +decide [InLoop]

end Granary.Os.Lock
