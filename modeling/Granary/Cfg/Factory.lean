import Granary.Cfg.Trace

namespace Granary.Cfg.Factory

open Granary.Base.ListHead Function Relation

/-- `for (auto block : trace->Blocks())`, for at most `fuel` blocks. -/
def forBlocks (body : Trace → BlockId → Option Trace) : ℕ → Trace → Option BlockId → Option Trace
  | _, t, none => some t
  | 0, _, some _ => none
  | fuel + 1, t, some b => do
    let t ← body t b
    forBlocks body fuel t (t.links b).next

/-- The end of `MaterializeBlock`, once the block `m` has been found for the
direct block `b`. -/
def materializeBlock (fuel : ℕ) (t : Trace) (b m : BlockId) : Option Trace :=
  let t := t.setBlock b ({ · with materializedBlock := some m })
  let t := if (t.heap m).id = -1 then t.setBlock m ({ · with id := (t.heap b).id }) else t
  t.addBlock fuel m

/-- The block that `RelinkCFIs` makes a control-flow instruction go to. -/
def relinked (t : Trace) (s : BlockId) : BlockId :=
  if (t.heap s).isDirect then (t.heap s).materializedBlock.getD s else s

def relinkCFIs (fuel : ℕ) (t : Trace) : Option Trace :=
  forBlocks (fun t b ↦ some (t.setBlock b fun block ↦
    { block with successors := block.successors.map (relinked t) })) fuel t t.blocks.first

inductive Queue
  | blocks | oldBlocks | newBlocks | workList
deriving DecidableEq, Repr

structure Sweep where
  links : Memory BlockId
  heap : BlockId → Block
  ends : Queue → Ends BlockId

namespace Sweep

/-- `i.Remove(b); j.Append(b);`. -/
def move (w : Sweep) (i j : Queue) (b : BlockId) : Sweep :=
  let r := remove w.links (w.ends i) b
  let a := append r.1 (w.ends j) b
  { w with links := a.1, ends := update (update w.ends i r.2) j a.2 }

def setReachable (w : Sweep) (b : BlockId) : Sweep :=
  { w with heap := update w.heap b { w.heap b with isReachable := true } }

def visitSuccessor (w : Sweep) (s : BlockId) : Sweep :=
  if (w.heap s).isReachable then w else (w.setReachable s).move .blocks .workList s

def processBlock (newGen : ℕ) (w : Sweep) (b : BlockId) : Sweep :=
  let w := w.move .workList
    (if (w.heap b).generation < newGen then .oldBlocks else .newBlocks) b
  (w.heap b).successors.foldl visitSuccessor w

def drain (newGen : ℕ) : ℕ → Sweep → Option Sweep
  | 0, w => if (w.ends .workList).first.isNone then some w else none
  | fuel + 1, w =>
    match (w.ends .workList).first with
    | none => some w
    | some b => drain newGen fuel (w.processBlock newGen b)

def deleteBlock (w : Sweep) (b : BlockId) : Sweep :=
  let r := remove w.links (w.ends .blocks) b
  { w with links := r.1, ends := update w.ends .blocks r.2 }

def deleteRemaining : ℕ → Sweep → Option Sweep
  | 0, w => if (w.ends .blocks).first.isNone then some w else none
  | fuel + 1, w =>
    match (w.ends .blocks).first with
    | none => some w
    | some b => deleteRemaining fuel (w.deleteBlock b)

end Sweep

def addSuccessors (fuel : ℕ) (t : Trace) : Option Trace :=
  forBlocks (fun t b ↦ (t.heap b).successors.foldlM (Trace.addBlock fuel) t) fuel t t.blocks.first

def markUnreachable (fuel : ℕ) (t : Trace) : Option Trace :=
  forBlocks (fun t b ↦ some (t.setBlock b ({ · with isReachable := false }))) fuel t t.blocks.first

/-- `RemoveUnreachableBlocks`, where each loop runs at most `fuel` times. -/
def removeUnreachableBlocks (fuel : ℕ) (t : Trace) (entry : BlockId) : Option Trace := do
  let t ← addSuccessors fuel t
  let t ← markUnreachable fuel t
  let w : Sweep := {
    links := t.links
    heap := t.heap
    ends := fun i ↦ if i = .blocks then t.blocks else {} }
  let w := (w.setReachable entry).move .blocks .workList entry
  let w ← w.drain t.generation fuel
  let w ← w.deleteRemaining fuel
  let r := extend w.links (w.ends .oldBlocks) (w.ends .newBlocks)
  return { t with
    links := r.1
    heap := w.heap
    blocks := r.2
    firstNewBlock := (w.ends .newBlocks).first }

/-- A loop over the blocks keeps an invariant on the blocks it has met, those
that it has still to meet, and the trace. -/
theorem forBlocks_spec (body : Trace → BlockId → Option Trace)
    {I : List BlockId → List BlockId → Trace → Prop} {N : ℕ}
    (hrep : ∀ d r t, I d r t → Rep t.links t.blocks (d ++ r) ∧ (d ++ r).length ≤ N)
    (hstep : ∀ d b r t, I d (b :: r) t → ∃ t' r', body t b = some t' ∧ I (d ++ [b]) r' t')
    {fuel : ℕ} {d r : List BlockId} {t : Trace} (h : I d r t) (hfuel : N ≤ fuel + d.length) :
    ∃ t' l, forBlocks body fuel t r.head? = some t' ∧ I l [] t' := by
  induction fuel generalizing d r t with
  | zero =>
    cases r with
    | nil => exact ⟨t, d, rfl, h⟩
    | cons b r =>
      have hlen := (hrep d (b :: r) t h).2
      simp only [List.length_append, List.length_cons] at hlen
      omega
  | succ fuel ih =>
    cases r with
    | nil => exact ⟨t, d, rfl, h⟩
    | cons b r =>
      obtain ⟨t₁, r₁, he, h₁⟩ := hstep d b r t h
      have hrep₁ := (hrep _ _ _ h₁).1
      rw [List.append_assoc] at hrep₁
      have hnext : (t₁.links b).next = r₁.head? := hrep₁.next
      obtain ⟨t₂, l, he₂, h₂⟩ := ih h₁ (by
        rw [List.length_append, List.length_singleton]
        omega)
      refine ⟨t₂, l, ?_, h₂⟩
      simp only [List.head?_cons, forBlocks, he, Option.bind_eq_bind, Option.bind_some, hnext]
      exact he₂

theorem forBlocks_setBlock (body : Trace → BlockId → Option Trace) {t : Trace} {l : List BlockId}
    (hl : Rep t.links t.blocks l) (g : Block → Block)
    (hbody : ∀ t' b, (∀ c, t'.heap c = t.heap c ∨ t'.heap c = g (t.heap c)) →
      body t' b = some (t'.setBlock b g)) (fuel : ℕ) (hfuel : l.length ≤ fuel) :
    forBlocks body fuel t t.blocks.first =
      some { t with heap := fun b ↦ if b ∈ l then g (t.heap b) else t.heap b } := by
  obtain ⟨t', d, he, hd, rfl⟩ := forBlocks_spec body (N := l.length)
    (I := fun d r t' ↦ d ++ r = l ∧
      t' = { t with heap := fun b ↦ if b ∈ d then g (t.heap b) else t.heap b })
    (fun d r t' h ↦ by
      obtain ⟨h, rfl⟩ := h
      rw [h]
      exact ⟨hl, le_rfl⟩)
    (fun d b r t' h ↦ by
      obtain ⟨h, rfl⟩ := h
      have hb : b ∉ d := by
        have hn := hl.nodup
        rw [← h] at hn
        exact fun hbd ↦ (List.nodup_append.mp hn).2.2 b hbd b List.mem_cons_self rfl
      refine ⟨_, r, hbody _ b fun c ↦ ?_, by simpa using h, ?_⟩
      · simp only
        split_ifs
        · exact Or.inr rfl
        · exact Or.inl rfl
      · simp only [Trace.setBlock, Trace.mk.injEq, true_and, and_true]
        funext c
        by_cases hc : c = b
        · subst hc
          simp [hb]
        · simp [hc])
    (d := []) (r := l) (t := t) ⟨rfl, by simp⟩ (by simpa using hfuel)
  rw [hl.first, he]
  rw [List.append_nil] at hd
  simp only [hd]

/-- The only block of the trace does not come first among its own successors. -/
def NotAlone (t : Trace) : Prop :=
  ∀ a, t.blocks = ⟨some a, some a⟩ → (t.heap a).successors.head? ≠ some a

theorem addSuccessors_spec {t : Trace} {l : List BlockId} (h : t.Listed l) (ha : NotAlone t)
    {fuel : ℕ} (hfuel : t.next ≤ fuel) :
    ∃ t' new, addSuccessors fuel t = some t' ∧ t'.Listed (l ++ new) ∧ Trace.Grown t t' new ∧
      ∀ b ∈ l ++ new, ∀ s ∈ (t.heap b).successors, s ∈ l ++ new := by
  obtain ⟨t', d, he, new, hd, hlist, hgrown, hclosed, -⟩ := forBlocks_spec
    (fun t b ↦ (t.heap b).successors.foldlM (Trace.addBlock fuel) t) (N := t.next)
    (I := fun d r t' ↦ ∃ new, d ++ r = l ++ new ∧ t'.Listed (d ++ r) ∧ Trace.Grown t t' new ∧
      (∀ b ∈ d, ∀ s ∈ (t.heap b).successors, s ∈ d ++ r) ∧
      ∀ a, d = [] → r = [a] → (t.heap a).successors.head? ≠ some a)
    (fun d r t' h ↦ by
      obtain ⟨new, -, hlist, hgrown, -⟩ := h
      refine ⟨hlist.rep, ?_⟩
      rw [← hgrown.next]
      exact hlist.length_le)
    (fun d b r t₁ h ↦ by
      obtain ⟨new, hd, hlist, hgrown, hclosed, hfirst⟩ := h
      have hb : b ∈ d ++ b :: r := by simp
      have hlen := hlist.length_le
      obtain ⟨t₂, he, new₂, hlist₂, hgrown₂, hbs, hnew₂⟩ := Trace.addBlocks_spec fuel
        (fun t l b h hb hl hne hf ↦ Trace.addBlock_spec _ h hb hne (fun he ↦ absurd he hl) hf)
        (t₁.heap b).successors hlist (fun s hs ↦ hlist.succ_lt b (hlist.lt_next b hb) s hs)
        (by simp) (fun a ha' ↦ by
          rcases List.append_eq_singleton_iff.mp ha' with ⟨hnil, hsingle⟩ | ⟨-, hnil⟩
          · rw [hgrown.successors]
            obtain ⟨rfl, rfl⟩ := List.cons_eq_cons.mp hsingle
            exact hfirst b hnil rfl
          · simp at hnil)
        (by
          rw [hgrown.next] at hlen ⊢
          simp only [List.length_append, List.length_cons] at hlen ⊢
          omega)
      refine ⟨t₂, r ++ new₂, he, new ++ new₂, ?_, ?_, hgrown.trans hgrown₂, fun c hc s hs ↦ ?_, ?_⟩
      · rw [← List.append_assoc l, ← hd]
        simp
      · simpa using hlist₂
      · rw [List.append_assoc, List.singleton_append, ← List.cons_append, ← List.append_assoc]
        rcases List.mem_append.mp hc with hc | hc
        · exact List.mem_append_left _ (hclosed c hc s hs)
        · rw [List.mem_singleton.mp hc, ← hgrown.successors] at hs
          exact hbs s hs
      · intro a hnil
        simp at hnil)
    (d := []) (r := l) (t := t)
    ⟨[], by simp, h, .refl t, fun _ h ↦ absurd h List.not_mem_nil, fun a _ hl ↦ ha a (by
      have hfirst := h.rep.first
      have hlast := h.rep.last
      rw [hl] at hfirst hlast
      cases hb : t.blocks
      rw [hb] at hfirst hlast
      simp_all)⟩
    (by simpa using hfuel)
  rw [List.append_nil] at hd hlist
  subst hd
  refine ⟨t', new, ?_, hlist, hgrown, fun b hb s hs ↦ ?_⟩
  · rw [addSuccessors, h.rep.first]
    exact he
  · simpa using hclosed b hb s hs

def Edge (t : Trace) (a b : BlockId) : Prop := b ∈ (t.heap a).successors

/-- The state of the search for reachable blocks: the blocks `l` are spread over
the four lists, and those that have left the trace are marked. -/
structure Searching (t : Trace) (l : List BlockId) (entry : BlockId) (w : Sweep)
    (L : Queue → List BlockId) : Prop where
  family : Family w.links w.ends L
  mem : ∀ b, b ∈ l ↔ ∃ i, b ∈ L i
  length : (L .blocks).length + (L .oldBlocks).length + (L .newBlocks).length +
    (L .workList).length = l.length
  marked : ∀ b ∈ l, (w.heap b).isReachable = true ↔ b ∉ L .blocks
  same : ∀ b, (w.heap b).successors = (t.heap b).successors ∧
    (w.heap b).generation = (t.heap b).generation ∧
    (w.heap b).materializedBlock = (t.heap b).materializedBlock
  sound : ∀ b ∈ l, b ∉ L .blocks → ReflTransGen (Edge t) entry b
  old : ∀ b ∈ L .oldBlocks, (t.heap b).generation < t.generation
  new : ∀ b ∈ L .newBlocks, t.generation ≤ (t.heap b).generation
  entry : (L .oldBlocks).head? = some entry ∨ L .oldBlocks = [] ∧ L .workList = [entry]

theorem searching_visit {t : Trace} {l : List BlockId} {entry : BlockId} {w : Sweep}
    {L : Queue → List BlockId} (h : Searching t l entry w L) {s : BlockId} (hs : s ∈ l)
    (hr : ReflTransGen (Edge t) entry s) (he : (L .oldBlocks).head? = some entry) :
    ∃ L', Searching t l entry (w.visitSuccessor s) L' ∧ L' .oldBlocks = L .oldBlocks ∧
      L' .newBlocks = L .newBlocks ∧ (∀ b, b ∈ L' .blocks → b ∈ L .blocks) ∧ s ∉ L' .blocks := by
  unfold Sweep.visitSuccessor
  split_ifs with hm
  · exact ⟨L, h, rfl, rfl, fun _ ↦ id, (h.marked s hs).mp hm⟩
  · have hsb : s ∈ L .blocks := by
      by_contra hsb
      exact hm ((h.marked s hs).mpr hsb)
    obtain ⟨u, v, huv⟩ := List.append_of_mem hsb
    have hsuv : s ∉ u ++ v := by
      have hn := (h.family.rep .blocks).nodup
      rw [huv, List.nodup_middle, List.nodup_cons] at hn
      exact hn.1
    have hfam := h.family.move (i := .blocks) (j := .workList) (by decide) huv
    have hlen := h.length
    have hmem (b : BlockId) : b ∈ L .blocks ↔ b ∈ u ++ v ∨ b = s := by
      rw [huv]
      simp only [List.mem_append, List.mem_cons]
      tauto
    refine ⟨update (update L .blocks (u ++ v)) .workList (L .workList ++ [s]),
      ⟨hfam, fun b ↦ ?_, ?_, fun b hb ↦ ?_, fun b ↦ ?_, fun b hb hbb ↦ ?_, h.old, h.new,
        Or.inl he⟩, rfl, rfl, fun b hb ↦ (hmem b).mpr (Or.inl hb), hsuv⟩
    · exact (h.mem b).trans (mem_move (by decide) huv b).symm
    · simp only [huv, List.length_append, List.length_cons] at hlen
      simp [update]
      omega
    · by_cases hbs : b = s
      · subst hbs
        simp only [Sweep.move, Sweep.setReachable, update_self, true_iff]
        exact hsuv
      · simp only [Sweep.move, Sweep.setReachable, update_of_ne hbs]
        rw [h.marked b hb, hmem]
        simp [update, hbs]
    · by_cases hbs : b = s
      · subst hbs
        simpa only [Sweep.move, Sweep.setReachable, update_self] using h.same b
      · simpa only [Sweep.move, Sweep.setReachable, update_of_ne hbs] using h.same b
    · by_cases hbs : b = s
      · rwa [hbs]
      · refine h.sound b hb fun hbb' ↦ hbb ?_
        exact ((hmem b).mp hbb').resolve_right hbs

theorem searching_visits {t : Trace} {l : List BlockId} {entry : BlockId} (ss : List BlockId)
    {w : Sweep} {L : Queue → List BlockId} (h : Searching t l entry w L)
    (hs : ∀ s ∈ ss, s ∈ l ∧ ReflTransGen (Edge t) entry s)
    (he : (L .oldBlocks).head? = some entry) :
    ∃ L', Searching t l entry (ss.foldl Sweep.visitSuccessor w) L' ∧
      L' .oldBlocks = L .oldBlocks ∧ L' .newBlocks = L .newBlocks ∧
      (∀ b, b ∈ L' .blocks → b ∈ L .blocks) ∧ ∀ s ∈ ss, s ∉ L' .blocks := by
  induction ss generalizing w L with
  | nil => exact ⟨L, h, rfl, rfl, fun _ ↦ id, fun s hs ↦ absurd hs List.not_mem_nil⟩
  | cons s ss ih =>
    obtain ⟨hsl, hr⟩ := hs s List.mem_cons_self
    obtain ⟨L₁, h₁, hold₁, hnew₁, hsub₁, hs₁⟩ := searching_visit h hsl hr he
    obtain ⟨L₂, h₂, hold₂, hnew₂, hsub₂, hs₂⟩ := ih h₁
      (fun c hc ↦ hs c (List.mem_cons_of_mem s hc)) (by rwa [hold₁])
    refine ⟨L₂, h₂, hold₂.trans hold₁, hnew₂.trans hnew₁, fun b hb ↦ hsub₁ b (hsub₂ b hb),
      fun c hc ↦ ?_⟩
    rcases List.mem_cons.mp hc with rfl | hc
    · exact fun hmem ↦ hs₁ (hsub₂ c hmem)
    · exact hs₂ c hc

def Expanded (t : Trace) (L : Queue → List BlockId) : Prop :=
  ∀ b, b ∈ L .oldBlocks ∨ b ∈ L .newBlocks → ∀ s ∈ (t.heap b).successors, s ∉ L .blocks

def target (t : Trace) (b : BlockId) : Queue :=
  if (t.heap b).generation < t.generation then .oldBlocks else .newBlocks

theorem searching_dequeue {t : Trace} {l : List BlockId} {entry : BlockId} {w : Sweep}
    {L : Queue → List BlockId} (h : Searching t l entry w L)
    (hentry : (t.heap entry).generation < t.generation) {b : BlockId} {r : List BlockId}
    (hb : L .workList = b :: r) :
    ∃ L', Searching t l entry (w.move .workList (target t b) b) L' ∧ L' .blocks = L .blocks ∧
      (L' .oldBlocks).head? = some entry ∧
      (∀ c, c ∈ L' .oldBlocks ∨ c ∈ L' .newBlocks ↔
        c ∈ L .oldBlocks ∨ c ∈ L .newBlocks ∨ c = b) ∧
      (L' .oldBlocks).length + (L' .newBlocks).length =
        (L .oldBlocks).length + (L .newBlocks).length + 1 := by
  have hwork : L .workList = [] ++ b :: r := hb
  have hlen := h.length
  rw [hb, List.length_cons] at hlen
  have hfirst : (L .oldBlocks).head? = some entry ∨ L .oldBlocks = [] ∧ b = entry := by
    rcases h.entry with he | ⟨hnil, he⟩
    · exact Or.inl he
    · rw [hb] at he
      exact Or.inr ⟨hnil, (List.cons_eq_cons.mp he).1⟩
  by_cases hgen : (t.heap b).generation < t.generation
  · have hfam := h.family.move (i := .workList) (j := .oldBlocks) (by decide) hwork
    have htarget : target t b = .oldBlocks := if_pos hgen
    have hhead : (L .oldBlocks ++ [b]).head? = some entry := by
      rcases hfirst with he | ⟨hnil, rfl⟩
      · rw [List.head?_append, he]
        rfl
      · rw [hnil]
        rfl
    rw [htarget]
    refine ⟨update (update L .workList r) .oldBlocks (L .oldBlocks ++ [b]),
      ⟨hfam, fun c ↦ ?_, ?_, h.marked, h.same, h.sound, fun c hc ↦ ?_, h.new, Or.inl hhead⟩,
      rfl, hhead, fun c ↦ ?_, ?_⟩
    · exact (h.mem c).trans (mem_move (by decide) hwork c).symm
    · simp [update]
      omega
    · rcases List.mem_append.mp hc with hc | hc
      · exact h.old c hc
      · rwa [List.mem_singleton.mp hc]
    · simp [update]
      tauto
    · simp [update]
      omega
  · have hfam := h.family.move (i := .workList) (j := .newBlocks) (by decide) hwork
    have htarget : target t b = .newBlocks := if_neg hgen
    have hhead : (L .oldBlocks).head? = some entry := by
      rcases hfirst with he | ⟨-, rfl⟩
      · exact he
      · exact absurd hentry hgen
    rw [htarget]
    refine ⟨update (update L .workList r) .newBlocks (L .newBlocks ++ [b]),
      ⟨hfam, fun c ↦ ?_, ?_, h.marked, h.same, h.sound, h.old, fun c hc ↦ ?_, Or.inl hhead⟩,
      rfl, hhead, fun c ↦ ?_, ?_⟩
    · exact (h.mem c).trans (mem_move (by decide) hwork c).symm
    · simp [update]
      omega
    · rcases List.mem_append.mp hc with hc | hc
      · exact h.new c hc
      · rw [List.mem_singleton.mp hc]
        exact Nat.not_lt.mp hgen
    · simp [update]
    · simp [update, Nat.add_assoc]

theorem searching_process {t : Trace} {l : List BlockId} {entry : BlockId} {w : Sweep}
    {L : Queue → List BlockId} (h : Searching t l entry w L) (hx : Expanded t L)
    (hclosed : ∀ b ∈ l, ∀ s ∈ (t.heap b).successors, s ∈ l)
    (hentry : (t.heap entry).generation < t.generation) {b : BlockId} {r : List BlockId}
    (hb : L .workList = b :: r) :
    ∃ L', Searching t l entry (w.processBlock t.generation b) L' ∧ Expanded t L' ∧
      (L' .oldBlocks).length + (L' .newBlocks).length =
        (L .oldBlocks).length + (L .newBlocks).length + 1 := by
  have hbwork : b ∈ L .workList := by rw [hb]; exact List.mem_cons_self
  have hbl : b ∈ l := (h.mem b).mpr ⟨.workList, hbwork⟩
  have hreach := h.sound b hbl (h.family.disjoint .workList .blocks (by decide) b hbwork)
  obtain ⟨L₁, h₁, hblocks, hhead, hdone, hlen⟩ := searching_dequeue h hentry hb
  have hprocess : w.processBlock t.generation b =
      (t.heap b).successors.foldl Sweep.visitSuccessor (w.move .workList (target t b) b) := by
    rw [Sweep.processBlock, (h.same b).2.1, ← (h.same b).1]
    rfl
  obtain ⟨L₂, h₂, hold, hnew, hsub, hvisited⟩ := searching_visits (t.heap b).successors h₁
    (fun s hs ↦ ⟨hclosed b hbl s hs, hreach.tail hs⟩) hhead
  refine ⟨L₂, ?_, fun c hc s hs ↦ ?_, by rw [hold, hnew, hlen]⟩
  · rw [hprocess]
    exact h₂
  · rw [hold, hnew, hdone] at hc
    rcases hc with hc | hc | rfl
    · exact fun hmem ↦ hx c (Or.inl hc) s hs (hblocks ▸ hsub s hmem)
    · exact fun hmem ↦ hx c (Or.inr hc) s hs (hblocks ▸ hsub s hmem)
    · exact hvisited s hs

theorem drain_spec {t : Trace} {l : List BlockId} {entry : BlockId}
    (hclosed : ∀ b ∈ l, ∀ s ∈ (t.heap b).successors, s ∈ l)
    (hentry : (t.heap entry).generation < t.generation) (fuel : ℕ) {w : Sweep}
    {L : Queue → List BlockId} (h : Searching t l entry w L) (hx : Expanded t L)
    (hfuel : l.length ≤ fuel + ((L .oldBlocks).length + (L .newBlocks).length)) :
    ∃ w' L', w.drain t.generation fuel = some w' ∧ Searching t l entry w' L' ∧ Expanded t L' ∧
      L' .workList = [] := by
  induction fuel generalizing w L with
  | zero =>
    have hnil : L .workList = [] := by
      rw [← List.length_eq_zero_iff]
      have hlen := h.length
      omega
    refine ⟨w, L, ?_, h, hx, hnil⟩
    rw [Sweep.drain, (h.family.rep .workList).first, hnil]
    rfl
  | succ fuel ih =>
    have hfirst := (h.family.rep .workList).first
    cases hwork : L .workList with
    | nil =>
      refine ⟨w, L, ?_, h, hx, hwork⟩
      rw [hwork] at hfirst
      simp only [Sweep.drain, hfirst, List.head?_nil]
    | cons b r =>
      obtain ⟨L₁, h₁, hx₁, hlen⟩ := searching_process h hx hclosed hentry hwork
      obtain ⟨w', L', he, h', hx', hnil⟩ := ih h₁ hx₁ (by omega)
      refine ⟨w', L', ?_, h', hx', hnil⟩
      rw [hwork] at hfirst
      simp only [Sweep.drain, hfirst, List.head?_cons]
      exact he

theorem deleteRemaining_spec (fuel : ℕ) {w : Sweep} {L : Queue → List BlockId}
    (h : Family w.links w.ends L) (hfuel : (L .blocks).length ≤ fuel) :
    ∃ w', w.deleteRemaining fuel = some w' ∧ w'.heap = w.heap ∧
      (∀ i, i ≠ .blocks → w'.ends i = w.ends i) ∧
      Family w'.links w'.ends (update L .blocks []) := by
  induction fuel generalizing w L with
  | zero =>
    have hnil : L .blocks = [] := List.length_eq_zero_iff.mp (Nat.le_zero.mp hfuel)
    refine ⟨w, ?_, rfl, fun _ _ ↦ rfl, ?_⟩
    · rw [Sweep.deleteRemaining, (h.rep .blocks).first, hnil]
      rfl
    · rwa [← hnil, update_eq_self]
  | succ fuel ih =>
    have hrep := h.rep .blocks
    have hfirst := hrep.first
    cases hblocks : L .blocks with
    | nil =>
      refine ⟨w, ?_, rfl, fun _ _ ↦ rfl, ?_⟩
      · rw [hblocks] at hfirst
        simp only [Sweep.deleteRemaining, hfirst, List.head?_nil]
      · rwa [← hblocks, update_eq_self]
    | cons b r =>
      rw [hblocks] at hrep hfirst hfuel
      have hfam : Family (w.deleteBlock b).links (w.deleteBlock b).ends (update L .blocks r) :=
        h.drop (l := []) hblocks
      obtain ⟨w', he, hheap, hends, hfam'⟩ := ih hfam (by
        rw [update_self]
        simpa using hfuel)
      refine ⟨w', ?_, hheap, fun i hi ↦ ?_, ?_⟩
      · simp only [Sweep.deleteRemaining, hfirst, List.head?_cons]
        exact he
      · exact (hends i hi).trans (update_of_ne hi _ _)
      · rwa [update_idem] at hfam'

theorem searching_start {t : Trace} {l : List BlockId} {entry : BlockId} (h : t.Listed l)
    (hentry : entry ∈ l) (hmark : ∀ b ∈ l, (t.heap b).isReachable = false) :
    ∃ L, Searching t l entry ((Sweep.setReachable ⟨t.links, t.heap,
      fun i ↦ if i = .blocks then t.blocks else {}⟩ entry).move .blocks .workList entry) L ∧
      Expanded t L := by
  obtain ⟨u, v, huv⟩ := List.append_of_mem hentry
  have hnot : entry ∉ u ++ v := by
    have hn := h.rep.nodup
    rw [huv, List.nodup_middle, List.nodup_cons] at hn
    exact hn.1
  have hfam : Family t.links (fun i : Queue ↦ if i = .blocks then t.blocks else {})
      (fun i : Queue ↦ if i = .blocks then l else []) := by
    refine ⟨fun i ↦ ?_, fun i j hij b hb ↦ ?_, fun b hb ↦ h.free b (hb .blocks)⟩
    · split_ifs
      · exact h.rep
      · exact rep_nil _
    · by_cases hi : i = .blocks
      · rw [if_neg (hi ▸ hij.symm)]
        exact List.not_mem_nil
      · rw [if_neg hi] at hb
        exact absurd hb List.not_mem_nil
  have hmove := hfam.move (i := .blocks) (j := .workList) (by decide) huv
  refine ⟨_, ⟨hmove, fun b ↦ ?_, ?_, fun b hb ↦ ?_, fun b ↦ ?_, fun b hb hbb ↦ ?_, ?_, ?_, ?_⟩, ?_⟩
  · rw [mem_move (by decide) huv b]
    constructor
    · exact fun hb ↦ ⟨.blocks, hb⟩
    · rintro ⟨i, hi⟩
      split_ifs at hi
      · exact hi
      · exact absurd hi List.not_mem_nil
  · simp [update, huv]
    omega
  · by_cases hbe : b = entry
    · subst hbe
      simp only [Sweep.move, Sweep.setReachable, update_self, true_iff]
      exact hnot
    · simp only [Sweep.move, Sweep.setReachable, update_of_ne hbe, hmark b hb]
      rw [huv] at hb
      simp only [List.mem_append, List.mem_cons] at hb
      simp only [update, Bool.false_eq_true, false_iff, not_not]
      simp only [reduceCtorEq, dite_false, dite_true, List.mem_append]
      tauto
  · by_cases hbe : b = entry
    · subst hbe
      simp [Sweep.move, Sweep.setReachable]
    · simp [Sweep.move, Sweep.setReachable, update_of_ne hbe]
  · have hbe : b = entry := by
      by_contra hbe
      apply hbb
      rw [huv] at hb
      simp only [List.mem_append, List.mem_cons] at hb
      simp only [update, reduceCtorEq, dite_false, dite_true, List.mem_append]
      tauto
    rw [hbe]
  · exact fun b hb ↦ absurd hb List.not_mem_nil
  · exact fun b hb ↦ absurd hb List.not_mem_nil
  · exact Or.inr ⟨rfl, rfl⟩
  · rintro b (hb | hb)
    · exact absurd hb List.not_mem_nil
    · exact absurd hb List.not_mem_nil

/-- The trace `t'` that `RemoveUnreachableBlocks` leaves behind for `t`. -/
structure Swept (t t' : Trace) (entry : BlockId) (olds news : List BlockId) : Prop where
  listed : t'.Listed (olds ++ news)
  reachable : ∀ b, b ∈ olds ++ news ↔ ReflTransGen (Edge t) entry b
  first : olds.head? = some entry
  old : ∀ b ∈ olds, (t'.heap b).generation < t'.generation
  new : ∀ b ∈ news, (t'.heap b).generation = t'.generation
  firstNewBlock : t'.firstNewBlock = news.head?
  next : t'.next = t.next
  entryBlock : t'.entryBlock = t.entryBlock
  generation : t'.generation = t.generation
  successors : ∀ b, (t'.heap b).successors = (t.heap b).successors
  materialized : ∀ b, (t'.heap b).materializedBlock = (t.heap b).materializedBlock

theorem removeUnreachableBlocks_spec {t : Trace} {l : List BlockId} (h : t.Listed l)
    (ha : NotAlone t) {entry : BlockId} (hentry : entry ∈ l)
    (hgen : (t.heap entry).generation < t.generation) {fuel : ℕ} (hfuel : t.next ≤ fuel) :
    ∃ t' old new, removeUnreachableBlocks fuel t entry = some t' ∧ Swept t t' entry old new := by
  obtain ⟨t₁, added, he₁, h₁, hg₁, hclosed⟩ := addSuccessors_spec h ha hfuel
  generalize hm : l ++ added = m at h₁ hclosed
  have hem : entry ∈ m := by rw [← hm]; exact List.mem_append_left _ hentry
  have hlen : m.length ≤ fuel := by
    have hle := h₁.length_le
    rw [hg₁.next] at hle
    omega
  have he₂ := forBlocks_setBlock
    (fun t b ↦ some (t.setBlock b ({ · with isReachable := false }))) h₁.rep
    ({ · with isReachable := false }) (fun _ _ _ ↦ rfl) fuel hlen
  generalize hh₂ : (fun b ↦ if b ∈ m then { t₁.heap b with isReachable := false }
    else t₁.heap b) = h₂ at he₂
  have hsame (b : BlockId) : (h₂ b).successors = (t₁.heap b).successors ∧
      (h₂ b).generation = (t₁.heap b).generation ∧
      (h₂ b).materializedBlock = (t₁.heap b).materializedBlock := by
    rw [← hh₂]
    by_cases hb : b ∈ m
    · simp [hb]
    · simp [hb]
  have hlist₂ : Trace.Listed { t₁ with heap := h₂ } m := by
    refine ⟨h₁.rep, h₁.free, h₁.lt_next, fun b hb s hs ↦ ?_, fun b hb ↦ ?_⟩
    · exact h₁.succ_lt b hb s (by rwa [← (hsame b).1])
    · rw [(hsame b).2.1]
      exact h₁.generation b hb
  have hclosed₂ (b : BlockId) (hb : b ∈ m) (s : BlockId) (hs : s ∈ (h₂ b).successors) : s ∈ m := by
    rw [(hsame b).1, hg₁.successors] at hs
    exact hclosed b hb s hs
  have hgen₂ : (h₂ entry).generation < t₁.generation := by
    rw [(hsame entry).2.1, hg₁.generation, hg₁.old entry fun hadd ↦ ?_]
    · exact hgen
    · have hn := h₁.rep.nodup
      rw [← hm] at hn
      exact (List.nodup_append.mp hn).2.2 entry hentry entry hadd rfl
  obtain ⟨L₃, hs₃, hx₃⟩ := searching_start hlist₂ hem fun b hb ↦ by rw [← hh₂]; simp [hb]
  obtain ⟨w₄, L₄, he₄, hs₄, hx₄, hwork⟩ :=
    drain_spec hclosed₂ hgen₂ fuel hs₃ hx₃ (by omega)
  have hlen₄ := hs₄.length
  obtain ⟨w₅, he₅, hheap₅, hends₅, hfam₅⟩ :=
    deleteRemaining_spec fuel hs₄.family (by omega)
  have hold := hfam₅.rep .oldBlocks
  have hnew := hfam₅.rep .newBlocks
  obtain ⟨hrep, hframe⟩ := hold.extend hnew
    (hfam₅.disjoint .oldBlocks .newBlocks (by decide))
  have hupd (i : Queue) (hi : i ≠ .blocks) : update L₄ .blocks [] i = L₄ i := update_of_ne hi _ _
  rw [hupd .oldBlocks (by decide)] at hold hrep hframe
  rw [hupd .newBlocks (by decide)] at hnew hrep hframe
  have hmem (b : BlockId) : b ∈ L₄ .oldBlocks ++ L₄ .newBlocks ↔ b ∈ m ∧ b ∉ L₄ .blocks := by
    rw [hs₄.mem, List.mem_append]
    constructor
    · rintro (hb | hb)
      · exact ⟨⟨.oldBlocks, hb⟩, hs₄.family.disjoint .oldBlocks .blocks (by decide) b hb⟩
      · exact ⟨⟨.newBlocks, hb⟩, hs₄.family.disjoint .newBlocks .blocks (by decide) b hb⟩
    · rintro ⟨⟨i, hi⟩, hb⟩
      cases i with
      | blocks => exact absurd hi hb
      | oldBlocks => exact Or.inl hi
      | newBlocks => exact Or.inr hi
      | workList =>
        rw [hwork] at hi
        exact absurd hi List.not_mem_nil
  have hfirst : (L₄ .oldBlocks).head? = some entry := by
    rcases hs₄.entry with he | ⟨-, he⟩
    · exact he
    · rw [hwork] at he
      simp at he
  have hheap (b : BlockId) : (w₅.heap b).successors = (t.heap b).successors ∧
      (w₅.heap b).generation = (h₂ b).generation ∧
      (w₅.heap b).materializedBlock = (t.heap b).materializedBlock := by
    rw [hheap₅, (hs₄.same b).1, (hs₄.same b).2.1, (hs₄.same b).2.2, (hsame b).1, (hsame b).2.2,
      hg₁.successors, hg₁.materialized]
    exact ⟨rfl, rfl, rfl⟩
  have hedge : Edge { t₁ with heap := h₂ } = Edge t := by
    funext a b
    simp only [Edge, (hsame a).1, hg₁.successors]
  refine ⟨{ t₁ with
    links := (extend w₅.links (w₅.ends .oldBlocks) (w₅.ends .newBlocks)).1
    heap := w₅.heap
    blocks := (extend w₅.links (w₅.ends .oldBlocks) (w₅.ends .newBlocks)).2
    firstNewBlock := (w₅.ends .newBlocks).first },
    L₄ .oldBlocks, L₄ .newBlocks, ?_, ⟨⟨hrep, fun b hb ↦ ?_, fun b hb ↦ ?_,
    fun b hb s hs ↦ ?_, fun b hb ↦ ?_⟩, fun b ↦ ?_, hfirst, fun b hb ↦ ?_, fun b hb ↦ ?_, ?_,
    hg₁.next, hg₁.entryBlock, hg₁.generation, fun b ↦ (hheap b).1, fun b ↦ (hheap b).2.2⟩⟩
  · simp only [removeUnreachableBlocks, he₁, markUnreachable, he₂, Option.bind_eq_bind,
      Option.bind_some, he₄, he₅]
    rfl
  · refine (hframe b hb).trans (hfam₅.free b fun i hi ↦ hb ?_)
    cases i with
    | blocks => exact absurd hi List.not_mem_nil
    | oldBlocks => exact List.mem_append_left _ hi
    | newBlocks => exact List.mem_append_right _ hi
    | workList =>
      rw [hupd .workList (by decide), hwork] at hi
      exact absurd hi List.not_mem_nil
  · exact hlist₂.lt_next b ((hmem b).mp hb).1
  · have hs' : s ∈ (h₂ b).successors := by
      rw [(hsame b).1, hg₁.successors, ← (hheap b).1]
      exact hs
    exact hlist₂.succ_lt b hb s hs'
  · exact (hheap b).2.1.trans_le (hlist₂.generation b ((hmem b).mp hb).1)
  · rw [← hedge]
    constructor
    · intro hb
      obtain ⟨hbm, hbb⟩ := (hmem b).mp hb
      exact hs₄.sound b hbm hbb
    · intro hb
      induction hb with
      | refl => exact List.mem_append_left _ (List.mem_of_head? hfirst)
      | tail _ hbc ih =>
        refine (hmem _).mpr ⟨hclosed₂ _ ((hmem _).mp ih).1 _ hbc, ?_⟩
        exact hx₄ _ (List.mem_append.mp ih) _ hbc
  · exact (hheap b).2.1.trans_lt (hs₄.old b hb)
  · refine (hheap b).2.1.trans (le_antisymm ?_ (hs₄.new b hb))
    exact hlist₂.generation b ((hmem b).mp (List.mem_append_right _ hb)).1
  · exact hnew.first

/-- The block is not the only one of the trace already, and does not become it with an edge to
itself first. -/
structure Addable (t : Trace) (b : BlockId) : Prop where
  lt_next : b < t.next
  not_alone : t.blocks ≠ ⟨some b, some b⟩
  not_self : t.blocks.first = none → (t.heap b).successors.head? ≠ some b

/-- What happens to a trace: blocks are created, decoded or instrumented (which
changes their successors), added and materialized, and unreachable blocks are
removed. The only block of a trace is not added to it again. -/
inductive Step : Trace → Trace → Prop
  | create {t : Trace} (successors : List BlockId) (isDirect : Bool)
      (hs : ∀ s ∈ successors, s < t.next + 1) :
      Step t (t.createBlock { successors := successors, isDirect := isDirect })
  | edit {t : Trace} (b : BlockId) (successors : List BlockId) (hs : ∀ s ∈ successors, s < t.next) :
      Step t (t.setBlock b ({ · with successors := successors }))
  | addEntryBlock {t t' : Trace} (b : BlockId) (hb : Addable t b)
      (h : t.addEntryBlock (t.next + 1) b = some t') : Step t t'
  | addBlock {t t' : Trace} (b : BlockId) (hb : Addable t b)
      (h : t.addBlock (t.next + 1) b = some t') : Step t t'
  | materializeBlock {t t' : Trace} (b m : BlockId) (l : List BlockId)
      (hl : Rep t.links t.blocks l) (hb : b ∈ l) (hm : m < t.next) (hbm : m ≠ b)
      (h : materializeBlock (t.next + 1) t b m = some t') : Step t t'
  | relinkCFIs {t t' : Trace} (h : relinkCFIs (t.next + 1) t = some t') : Step t t'
  | removeUnreachableBlocks {t t' : Trace} (entry : BlockId) (hentry : t.entryBlock = some entry)
      (halone : NotAlone t) (h : removeUnreachableBlocks (t.next + 1) t entry = some t') : Step t t'
  | beginRequests {t : Trace} : Step t { t with firstNewBlock := none }
  | endRequests {t : Trace} : Step t { t with generation := t.generation + 1 }

structure Sane (t : Trace) (l : List BlockId) : Prop where
  listed : t.Listed l
  entry : ∀ e, t.entryBlock = some e → e ∈ l ∧ (t.heap e).generation < t.generation
  materialized : ∀ b m, (t.heap b).materializedBlock = some m → m < t.next

theorem ends_singleton {m : Memory BlockId} {L : Ends BlockId} {b : BlockId} (h : Rep m L [b]) :
    L = ⟨some b, some b⟩ := by
  have hfirst := h.first
  have hlast := h.last
  cases L
  simp_all

/-- Changes to blocks that keep their generations, and that make no successor up,
keep the list. -/
theorem listed_heap {t : Trace} {l : List BlockId} (h : t.Listed l) {heap : BlockId → Block}
    (hs : ∀ b < t.next, ∀ s ∈ (heap b).successors, s < t.next)
    (hg : ∀ b ∈ l, (heap b).generation = (t.heap b).generation) :
    Trace.Listed { t with heap := heap } l :=
  ⟨h.rep, h.free, h.lt_next, hs, fun b hb ↦ (hg b hb).trans_le (h.generation b hb)⟩

theorem sane_added {t t' : Trace} {l bs : List BlockId} (h : Sane t l) (ha : Trace.Added t t' l bs) :
    ∃ l', Sane t' l' := by
  obtain ⟨new, hlist, hg, -, -⟩ := ha
  refine ⟨l ++ new, hlist, fun e he ↦ ?_, fun b m hm ↦ ?_⟩
  · obtain ⟨hel, hgen⟩ := h.entry e (hg.entryBlock ▸ he)
    refine ⟨List.mem_append_left _ hel, ?_⟩
    have henew : e ∉ new := fun henew ↦
      (List.nodup_append.mp hlist.rep.nodup).2.2 e hel e henew rfl
    rwa [hg.old e henew, hg.generation]
  · rw [hg.materialized] at hm
    exact (h.materialized b m hm).trans_eq hg.next.symm

theorem Addable.addBlock {t : Trace} {l : List BlockId} {b : BlockId} (hb : Addable t b)
    (h : t.Listed l) :
    ∃ t', t.addBlock (t.next + 1) b = some t' ∧ Trace.Added t t' l [b] := by
  refine Trace.addBlock_spec _ h hb.lt_next (fun hlb ↦ ?_) (fun hnil ↦ hb.not_self ?_)
    (Nat.lt_succ_of_le (Nat.sub_le _ _))
  · exact hb.not_alone (ends_singleton (hlb ▸ h.rep))
  · rw [h.rep.first, hnil]
    rfl

theorem sane_addEntryBlock {t t' : Trace} {l : List BlockId} (h : Sane t l) {b : BlockId}
    (hb : Addable t b) (he : t.addEntryBlock (t.next + 1) b = some t') : ∃ l', Sane t' l' := by
  have hlist : Trace.Listed { t with entryBlock := some b } l :=
    ⟨h.listed.rep, h.listed.free, h.listed.lt_next, h.listed.succ_lt, h.listed.generation⟩
  have hadd : Addable { t with entryBlock := some b } b := ⟨hb.lt_next, hb.not_alone, hb.not_self⟩
  obtain ⟨t₁, he₁, new, hl₁, hg₁, hmem, -⟩ := hadd.addBlock hlist
  generalize l ++ new = blocks at hl₁ hmem
  have hbnew := hmem b (List.mem_singleton_self b)
  have hmat (c m : BlockId) (hm : (t₁.heap c).materializedBlock = some m) : m < t₁.next := by
    rw [hg₁.materialized] at hm
    exact (h.materialized c m hm).trans_eq hg₁.next.symm
  have hgen : (t₁.heap b).generation < t₁.generation + 1 :=
    Nat.lt_succ_of_le (hl₁.generation b hbnew)
  have hentry (e : BlockId) (hentry : t₁.entryBlock = some e) : e = b := by
    rw [hg₁.entryBlock] at hentry
    exact (Option.some_inj.mp hentry).symm
  simp only [Trace.addEntryBlock, he₁, Option.bind_eq_bind, Option.bind_some] at he
  by_cases hfirst : t₁.blocks.first = some b
  · simp only [if_pos hfirst, Option.pure_def, Option.some_inj] at he
    subst he
    refine ⟨blocks, ⟨hl₁.rep, hl₁.free, hl₁.lt_next, hl₁.succ_lt, fun c hc ↦ ?_⟩,
      fun e hee ↦ ?_, hmat⟩
    · exact Nat.le_succ_of_le (hl₁.generation c hc)
    · rw [hentry e hee]
      exact ⟨hbnew, hgen⟩
  · simp only [if_neg hfirst, Option.pure_def, Option.some_inj] at he
    subst he
    obtain ⟨u, v, huv⟩ := List.append_of_mem hbnew
    rw [huv] at hl₁
    obtain ⟨hrem, hbfree, hframe⟩ := hl₁.rep.remove
    have hbuv : b ∉ u ++ v := by
      have hn := hl₁.rep.nodup
      rw [List.nodup_middle, List.nodup_cons] at hn
      exact hn.1
    obtain ⟨hpre, hframe'⟩ := hrem.prepend hbuv hbfree
    have hsame (c : BlockId) : c ∈ b :: (u ++ v) ↔ c ∈ u ++ b :: v := by
      simp only [List.mem_cons, List.mem_append]
      tauto
    refine ⟨b :: (u ++ v), ⟨hpre, fun c hc ↦ ?_, fun c hc ↦ ?_, hl₁.succ_lt, fun c hc ↦ ?_⟩,
      fun e hee ↦ ?_, hmat⟩
    · have hc' := hc
      rw [hsame] at hc'
      rw [List.mem_cons, not_or] at hc
      exact (hframe' c hc.2 hc.1).trans ((hframe c hc').trans (hl₁.free c hc'))
    · exact hl₁.lt_next c ((hsame c).mp hc)
    · exact Nat.le_succ_of_le (hl₁.generation c ((hsame c).mp hc))
    · rw [hentry e hee]
      exact ⟨List.mem_cons_self, hgen⟩

theorem sane_materializeBlock {t t' : Trace} {l : List BlockId} (h : Sane t l) {b m : BlockId}
    (hb : b ∈ l) (hm : m < t.next) (hbm : m ≠ b)
    (he : materializeBlock (t.next + 1) t b m = some t') : ∃ l', Sane t' l' := by
  have hset (heap : BlockId → Block) (hs : ∀ c, (heap c).successors = (t.heap c).successors)
      (hg : ∀ c, (heap c).generation = (t.heap c).generation)
      (hmat : ∀ c, (heap c).materializedBlock = (t.heap c).materializedBlock ∨
        (heap c).materializedBlock = some m) : Sane { t with heap := heap } l := by
    refine ⟨listed_heap h.listed (fun c hc s hsc ↦ ?_) fun c _ ↦ hg c, fun e hee ↦ ?_,
      fun c d hd ↦ ?_⟩
    · exact h.listed.succ_lt c hc s (by rwa [← hs])
    · obtain ⟨hel, hgen⟩ := h.entry e hee
      exact ⟨hel, (hg e).trans_lt hgen⟩
    · rcases hmat c with hc | hc
      · exact h.materialized c d (hc.symm.trans hd)
      · have hdm : m = d := Option.some_inj.mp (hc.symm.trans hd)
        exact hdm ▸ hm
  have hl : l ≠ [] := List.ne_nil_of_mem hb
  have hlm : l ≠ [m] := by
    intro hlm
    rw [hlm, List.mem_singleton] at hb
    exact hbm hb.symm
  obtain ⟨heap, hheap, hsane⟩ :
      ∃ heap, Trace.addBlock (t.next + 1) { t with heap := heap } m = some t' ∧
      Sane { t with heap := heap } l := by
    simp only [materializeBlock] at he
    split_ifs at he
    · refine ⟨_, he, hset _ (fun c ↦ ?_) (fun c ↦ ?_) fun c ↦ ?_⟩
      all_goals by_cases hcm : c = m
      all_goals by_cases hcb : c = b
      all_goals simp_all [Trace.setBlock]
    · refine ⟨_, he, hset _ (fun c ↦ ?_) (fun c ↦ ?_) fun c ↦ ?_⟩
      all_goals by_cases hcb : c = b
      all_goals simp_all [Trace.setBlock]
  obtain ⟨t₁, he₁, hadd⟩ := Trace.addBlock_spec (t.next + 1) hsane.listed hm hlm
    (fun hnil ↦ absurd hnil hl) (Nat.lt_succ_of_le (Nat.sub_le _ _))
  rw [he₁, Option.some_inj] at hheap
  subst hheap
  exact sane_added hsane hadd

theorem sane_relinkCFIs {t t' : Trace} {l : List BlockId} (h : Sane t l)
    (he : relinkCFIs (t.next + 1) t = some t') : ∃ l', Sane t' l' := by
  have hset := forBlocks_setBlock
    (fun t b ↦ some (t.setBlock b fun block ↦
      { block with successors := block.successors.map (relinked t) })) h.listed.rep
    (fun block ↦ { block with successors := block.successors.map (relinked t) })
    (fun t' b ht' ↦ by
      have hrelinked : relinked t' = relinked t := by
        funext s
        rcases ht' s with hs | hs
        · simp only [relinked, hs]
        · simp only [relinked, hs]
      rw [hrelinked])
    (t.next + 1) (Nat.le_succ_of_le h.listed.length_le)
  rw [relinkCFIs, hset, Option.some_inj] at he
  subst he
  refine ⟨l, listed_heap h.listed (fun b hb s hs ↦ ?_) fun b hb ↦ ?_, fun e hee ↦ ?_,
    fun b m hm ↦ ?_⟩
  · by_cases hbl : b ∈ l
    · simp only [hbl, if_true, List.mem_map] at hs
      obtain ⟨s', hs', rfl⟩ := hs
      have hlt := h.listed.succ_lt b hb s' hs'
      unfold relinked
      split_ifs
      · cases hmat : (t.heap s').materializedBlock with
        | none => exact hlt
        | some m => exact h.materialized s' m hmat
      · exact hlt
    · simp only [hbl, if_false] at hs
      exact h.listed.succ_lt b hb s hs
  · simp only [hb, if_true]
  · obtain ⟨hel, hgen⟩ := h.entry e hee
    exact ⟨hel, by simpa only [hel, if_true] using hgen⟩
  · by_cases hbl : b ∈ l
    · simp only [hbl, if_true] at hm
      exact h.materialized b m hm
    · simp only [hbl, if_false] at hm
      exact h.materialized b m hm

theorem sane_createBlock {t : Trace} {l : List BlockId} (h : Sane t l) {block : Block}
    (hs : ∀ s ∈ block.successors, s < t.next + 1) (hm : block.materializedBlock = none) :
    Sane (t.createBlock block) l := by
  have hnew : (t.createBlock block).heap t.next = block := update_self _ _ _
  have hold (b : BlockId) (hb : b ≠ t.next) : (t.createBlock block).heap b = t.heap b :=
    update_of_ne hb _ _
  have hne (b : BlockId) (hb : b ∈ l) : b ≠ t.next := Nat.ne_of_lt (h.listed.lt_next b hb)
  refine ⟨⟨h.listed.rep, h.listed.free, fun b hb ↦ ?_, fun b hb s hbs ↦ ?_, fun b hb ↦ ?_⟩,
    fun e he ↦ ?_, fun b m hbm ↦ ?_⟩
  · exact Nat.lt_succ_of_lt (h.listed.lt_next b hb)
  · by_cases hbn : b = t.next
    · subst hbn
      rw [hnew] at hbs
      exact hs s hbs
    · rw [hold b hbn] at hbs
      have hlt : b < t.next := (Nat.lt_succ_iff_lt_or_eq.mp hb).resolve_right hbn
      exact Nat.lt_succ_of_lt (h.listed.succ_lt b hlt s hbs)
  · rw [hold b (hne b hb)]
    exact h.listed.generation b hb
  · obtain ⟨hel, hgen⟩ := h.entry e he
    rw [hold e (hne e hel)]
    exact ⟨hel, hgen⟩
  · by_cases hbn : b = t.next
    · subst hbn
      rw [hnew, hm] at hbm
      simp at hbm
    · rw [hold b hbn] at hbm
      exact Nat.lt_succ_of_lt (h.materialized b m hbm)

theorem sane_edit {t : Trace} {l : List BlockId} (h : Sane t l) (b : BlockId)
    {successors : List BlockId} (hs : ∀ s ∈ successors, s < t.next) :
    Sane (t.setBlock b ({ · with successors := successors })) l := by
  have hset (c : BlockId) : (t.setBlock b ({ · with successors := successors })).heap c =
      if c = b then { t.heap c with successors := successors } else t.heap c := by
    by_cases hcb : c = b
    · subst hcb
      simp [Trace.setBlock]
    · simp [Trace.setBlock, hcb]
  have hlist : (t.setBlock b ({ · with successors := successors })).Listed l := by
    refine listed_heap h.listed (fun c hc s hcs ↦ ?_) fun c hc ↦ ?_
    · change s ∈ ((t.setBlock b ({ · with successors := successors })).heap c).successors at hcs
      rw [hset] at hcs
      split_ifs at hcs
      · exact hs s hcs
      · exact h.listed.succ_lt c hc s hcs
    · refine (congrArg Block.generation (hset c)).trans ?_
      split_ifs <;> rfl
  refine ⟨hlist, fun e he ↦ ?_, fun c m hm ↦ ?_⟩
  · obtain ⟨hel, hgen⟩ := h.entry e he
    refine ⟨hel, ?_⟩
    rw [hset]
    split_ifs
    · exact hgen
    · exact hgen
  · rw [hset] at hm
    split_ifs at hm
    · exact h.materialized c m hm
    · exact h.materialized c m hm

theorem sane_step {t t' : Trace} (hstep : Step t t') (h : ∃ l, Sane t l) : ∃ l, Sane t' l := by
  obtain ⟨l, h⟩ := h
  cases hstep with
  | create successors isDirect hs =>
    exact ⟨l, sane_createBlock h hs rfl⟩
  | edit b successors hs => exact ⟨l, sane_edit h b hs⟩
  | addEntryBlock b hb he => exact sane_addEntryBlock h hb he
  | addBlock b hb he =>
    obtain ⟨t₁, he₁, hadd⟩ := hb.addBlock h.listed
    rw [he₁, Option.some_inj] at he
    subst he
    exact sane_added h hadd
  | materializeBlock b m l' hl' hb hm hbm he =>
    have hll : l' = l := hl'.unique h.listed.rep
    subst hll
    exact sane_materializeBlock h hb hm hbm he
  | relinkCFIs he => exact sane_relinkCFIs h he
  | removeUnreachableBlocks entry hentry halone he =>
    obtain ⟨hel, hgen⟩ := h.entry entry hentry
    obtain ⟨t₁, olds, news, he₁, hswept⟩ := removeUnreachableBlocks_spec h.listed halone hel hgen
      (Nat.le_succ t.next)
    rw [he₁, Option.some_inj] at he
    subst he
    refine ⟨olds ++ news, hswept.listed, fun e hee ↦ ?_, fun b m hm ↦ ?_⟩
    · rw [hswept.entryBlock, hentry, Option.some_inj] at hee
      subst hee
      have hold := List.mem_of_head? hswept.first
      exact ⟨List.mem_append_left _ hold, hswept.old entry hold⟩
    · rw [hswept.materialized] at hm
      exact (h.materialized b m hm).trans_eq hswept.next.symm
  | beginRequests =>
    exact ⟨l, ⟨h.listed.rep, h.listed.free, h.listed.lt_next, h.listed.succ_lt,
      h.listed.generation⟩, h.entry, h.materialized⟩
  | endRequests =>
    refine ⟨l, ⟨h.listed.rep, h.listed.free, h.listed.lt_next, h.listed.succ_lt, fun b hb ↦ ?_⟩,
      fun e he ↦ ?_, h.materialized⟩
    · exact Nat.le_succ_of_le (h.listed.generation b hb)
    · obtain ⟨hel, hgen⟩ := h.entry e he
      exact ⟨hel, Nat.lt_succ_of_lt hgen⟩

def Reachable (t : Trace) : Prop := ReflTransGen Step {} t

theorem sane_reachable {t : Trace} (h : Reachable t) : ∃ l, Sane t l := by
  induction h with
  | refl =>
    refine ⟨[], ⟨rep_nil _, fun _ _ ↦ rfl, ?_, ?_, ?_⟩, ?_, ?_⟩
    · exact fun b hb ↦ absurd hb List.not_mem_nil
    · exact fun b hb ↦ absurd hb (Nat.not_lt_zero b)
    · exact fun b hb ↦ absurd hb List.not_mem_nil
    · simp
    · simp
  | tail _ hstep ih => exact sane_step hstep ih

/-- In every trace that a run can reach, adding a block that is there already
changes nothing, any other block is added together with what it leads to, and
the removal of unreachable blocks terminates, with the reachable blocks in the
list: the entry block first, and those of the current generation last. -/
theorem trace_bookkeeping {t : Trace} (h : Reachable t) :
    ∃ l, t.Listed l ∧
      (∀ b ∈ l, l ≠ [b] → ∀ fuel, t.addBlock (fuel + 1) b = some t) ∧
      (∀ b, b < t.next → b ∉ l → (l = [] → (t.heap b).successors.head? ≠ some b) →
        ∀ fuel, t.next < fuel → ∃ t', t.addBlock fuel b = some t' ∧ Trace.Added t t' l [b]) ∧
      ∀ entry, t.entryBlock = some entry → NotAlone t → ∀ fuel, t.next ≤ fuel →
        ∃ t' olds news, removeUnreachableBlocks fuel t entry = some t' ∧
          Swept t t' entry olds news := by
  obtain ⟨l, hs⟩ := sane_reachable h
  refine ⟨l, hs.listed, fun b hb hne fuel ↦ ?_, fun b hb hbl hself fuel hfuel ↦ ?_,
    fun entry hentry halone fuel hfuel ↦ ?_⟩
  · rw [Trace.addBlock, if_pos ((hs.listed.rep.isLinked hb).mpr hne)]
  · refine Trace.addBlock_spec _ hs.listed hb (fun he ↦ hbl ?_) hself (by omega)
    rw [he]
    exact List.mem_singleton_self b
  · obtain ⟨hel, hgen⟩ := hs.entry entry hentry
    exact removeUnreachableBlocks_spec hs.listed halone hel hgen hfuel

def created : Trace :=
  ((((Trace.createBlock {} {}).createBlock {}).createBlock { isDirect := true }).createBlock
    { isDirect := true }).createBlock { successors := [2, 3] }

def decoded : Trace := (created.addBlock 6 3).getD {}

def withEntry : Trace := (decoded.addEntryBlock 6 4).getD {}

def oneMaterialized : Trace := (materializeBlock 6 withEntry 3 1).getD {}

def oneRelinked : Trace := (relinkCFIs 6 oneMaterialized).getD {}

def nextGeneration : Trace := { oneRelinked with generation := oneRelinked.generation + 1 }

def bothMaterialized : Trace := (materializeBlock 6 nextGeneration 2 0).getD {}

def bothRelinked : Trace := (relinkCFIs 6 bothMaterialized).getD {}

def lastGeneration : Trace := { bothRelinked with generation := bothRelinked.generation + 1 }

theorem some_getD {o : Option Trace} (h : o.isSome = true) : o = some (o.getD {}) := by
  obtain ⟨t, rfl⟩ := Option.isSome_iff_exists.mp h
  rfl

theorem withEntry_reachable : Reachable withEntry := by
  have hcreated : Reachable created :=
    ((((ReflTransGen.single (.create [] false (by simp))).tail (.create [] false (by simp))).tail
      (.create [] true (by simp))).tail (.create [] true (by simp))).tail
      (.create [2, 3] false (by decide))
  have hdecoded : Reachable decoded := hcreated.tail
    (.addBlock 3 ⟨by decide, by decide, fun _ ↦ by decide⟩ (some_getD (by decide +kernel)))
  exact hdecoded.tail (.addEntryBlock 4 ⟨by decide +kernel, by decide +kernel,
    fun _ ↦ by decide +kernel⟩ (some_getD (by decide +kernel)))

theorem lastGeneration_reachable : Reachable lastGeneration := by
  have hone : Reachable oneMaterialized := withEntry_reachable.tail
    (.materializeBlock 3 1 [4, 3, 2] ⟨by decide, by decide +kernel, by decide +kernel,
      by decide +kernel⟩ (by decide) (by decide +kernel) (by decide) (some_getD (by decide +kernel)))
  have hnext : Reachable nextGeneration :=
    (hone.tail (.relinkCFIs (some_getD (by decide +kernel)))).tail .endRequests
  have hboth : Reachable bothMaterialized := hnext.tail
    (.materializeBlock 2 0 [4, 3, 2, 1] ⟨by decide, by decide +kernel, by decide +kernel,
      by decide +kernel⟩ (by decide) (by decide +kernel) (by decide) (some_getD (by decide +kernel)))
  exact (hboth.tail (.relinkCFIs (some_getD (by decide +kernel)))).tail .endRequests

theorem trace_bookkeeping_withEntry : ∃ l, withEntry.Listed l ∧
    (∀ b ∈ l, l ≠ [b] → ∀ fuel, withEntry.addBlock (fuel + 1) b = some withEntry) ∧
    (∀ b, b < withEntry.next → b ∉ l →
      (l = [] → (withEntry.heap b).successors.head? ≠ some b) → ∀ fuel, withEntry.next < fuel →
      ∃ t', withEntry.addBlock fuel b = some t' ∧ Trace.Added withEntry t' l [b]) ∧
    ∀ entry, withEntry.entryBlock = some entry → NotAlone withEntry →
      ∀ fuel, withEntry.next ≤ fuel → ∃ t' olds news,
        removeUnreachableBlocks fuel withEntry entry = some t' ∧
          Swept withEntry t' entry olds news :=
  trace_bookkeeping withEntry_reachable

/-- Blocks of several earlier generations are not ordered among themselves. -/
theorem lastGeneration_not_ordered :
    ¬ ∀ (t t' : Trace) (entry : BlockId) (fuel : ℕ) (l : List BlockId), Reachable t →
      t.entryBlock = some entry → removeUnreachableBlocks fuel t entry = some t' →
      Rep t'.links t'.blocks l →
      l.Pairwise fun a b ↦ (t'.heap a).generation ≤ (t'.heap b).generation := by
  intro hall
  have hsome := some_getD (o := removeUnreachableBlocks 6 lastGeneration 4) (by decide +kernel)
  have hordered := hall lastGeneration _ 4 6 [4, 0, 1] lastGeneration_reachable
    (by decide +kernel) hsome ⟨by decide, by decide +kernel, by decide +kernel, by decide +kernel⟩
  revert hordered
  decide +kernel

end Granary.Cfg.Factory
