import Granary.Base.DisjointSet
import Granary.Code.Fragment

namespace Granary.Assemble.PartitionFragments

open Relation Granary.Base Granary.Base.DisjointSet Granary.Code

structure Fragment where
  cls : FragmentClass := .code
  canAddSuccToPartition : Bool := true
  canAddPredToPartition : Bool := true
  stackStatus : StackStatus := .valid
  fallThrough : Option FragmentId := none
  branch : Option FragmentId := none
deriving DecidableEq, Repr

def Fragment.successors (f : Fragment) : List FragmentId :=
  f.fallThrough.toList ++ f.branch.toList

structure State (T : Type*) where
  frags : List FragmentId
  heap : FragmentId → Fragment
  partition : DisjointSet.Heap FragmentId T

variable {T : Type*}

/-- `valid` is the option that lets virtual registers be spilled to the stack. -/
def initStackValidity (valid : Bool) (s : State T) : State T :=
  if valid && s.frags.all fun i ↦ (s.heap i).stackStatus ≠ .invalid then s
  else
    { s with
      heap := fun i ↦
        if i ∈ s.frags then { s.heap i with stackStatus := .invalid } else s.heap i }

variable [BEq T] [Inhabited T]

def groupSuccessor (fuel : ℕ) (heap : FragmentId → Fragment) (i : FragmentId)
    (h : DisjointSet.Heap FragmentId T) (j : FragmentId) :
    Option (DisjointSet.Heap FragmentId T) :=
  if (heap j).cls.isCode then do
    let (h, root) ← find fuel h i
    let (h, root') ← find fuel h j
    if root = root' then some h
    else if (heap j).canAddPredToPartition then union fuel h i j
    else some h
  else some h

def groupFragment (fuel : ℕ) (heap : FragmentId → Fragment) (h : DisjointSet.Heap FragmentId T)
    (i : FragmentId) : Option (DisjointSet.Heap FragmentId T) :=
  if (heap i).cls.isCode && (heap i).canAddSuccToPartition then
    (heap i).successors.foldlM (groupSuccessor fuel heap i) h
  else some h

def groupFragments (fuel : ℕ) (s : State T) : Option (State T) :=
  (s.frags.foldlM (groupFragment fuel s.heap) s.partition).map fun h ↦ { s with partition := h }

def partitionFragments (fuel : ℕ) (valid : Bool) (s : State T) : Option (State T) :=
  groupFragments fuel (initStackValidity valid s)

/-- The control flow from `i` to `j` puts both into one partition. -/
structure Joins (s : State T) (i j : FragmentId) : Prop where
  mem : i ∈ s.frags
  source : (s.heap i).cls.isCode = true ∧ (s.heap i).canAddSuccToPartition = true
  edge : j ∈ (s.heap i).successors
  target : (s.heap j).cls.isCode = true ∧ (s.heap j).canAddPredToPartition = true

/-- The disjoint sets after the joins in `done`: what the pass has united since `past` are joins. -/
def Grouped (past : List (Op FragmentId T)) (s : State T) (done : FragmentId → FragmentId → Prop)
    (d : ℕ) (h : DisjointSet.Heap FragmentId T) : Prop :=
  ∃ ops root, Forest h root d ∧ Tracks (past ++ ops) root ∧
    (∀ i j, (i, j) ∈ ops.filterMap Op.united? → Joins s i j) ∧
    ∀ i j, done i j → Joins s i j → root i = root j

section Grouping

variable {past : List (Op FragmentId T)} {s : State T} {done : FragmentId → FragmentId → Prop}
  {d fuel : ℕ} {h : DisjointSet.Heap FragmentId T} {i j : FragmentId}

omit [BEq T] [Inhabited T] in
theorem Grouped.mono {d' : ℕ} {done' : FragmentId → FragmentId → Prop}
    (hg : Grouped past s done d h) (hd : d ≤ d')
    (hdone : ∀ i j, done' i j → Joins s i j → done i j) : Grouped past s done' d' h := by
  obtain ⟨ops, root, hf, ht, hsound, hall⟩ := hg
  exact ⟨ops, root, hf.mono hd, ht, hsound, fun i j h hj ↦ hall i j (hdone i j h hj) hj⟩

theorem Grouped.successor (hg : Grouped past s done d h) (hfuel : d < fuel) (hi : i ∈ s.frags)
    (hsource : (s.heap i).cls.isCode = true ∧ (s.heap i).canAddSuccToPartition = true)
    (hj : j ∈ (s.heap i).successors) :
    ∃ h', groupSuccessor fuel s.heap i h j = some h' ∧
      Grouped past s (fun a b ↦ done a b ∨ a = i ∧ b = j) (d + 1) h' := by
  rw [groupSuccessor]
  by_cases hcode : (s.heap j).cls.isCode = true
  · rw [if_pos hcode]
    obtain ⟨ops, root, hf, ht, hsound, hall⟩ := hg
    obtain ⟨h₁, hfind, hf₁, -⟩ := hf.find hfuel i
    obtain ⟨h₂, hfind', hf₂, -⟩ := hf₁.find hfuel j
    simp only [hfind, hfind', Option.bind_eq_bind, Option.bind_some]
    split_ifs with hsame hpred
    · refine ⟨h₂, rfl, ops, root, hf₂.mono (Nat.le_succ d), ht, hsound, fun a b hab hj ↦ ?_⟩
      rcases hab with hab | ⟨rfl, rfl⟩
      · exact hall a b hab hj
      · exact hsame
    · have hjoins : Joins s i j := ⟨hi, hsource, hj, hcode, hpred⟩
      obtain ⟨h', hunion, hf', -⟩ := hf₂.union hfuel i j
      have ht' := ht.union h₂ i j
      rw [List.append_assoc] at ht'
      refine ⟨h', hunion, ops ++ [.union i j], _, hf', ht', fun a b hab ↦ ?_, fun a b hab hj ↦ ?_⟩
      · rcases mem_united_concat.mp hab with hab | ⟨rfl, rfl⟩
        · exact hsound a b hab
        · exact hjoins
      · rcases hab with hab | ⟨rfl, rfl⟩
        · exact unite_eq_iff.mpr (.inl (hall a b hab hj))
        · exact unite_eq_iff.mpr (.inr ⟨.inl rfl, .inr rfl⟩)
    · refine ⟨h₂, rfl, ops, root, hf₂.mono (Nat.le_succ d), ht, hsound,
        fun a b hab hjoins ↦ ?_⟩
      rcases hab with hab | ⟨rfl, rfl⟩
      · exact hall a b hab hjoins
      · exact absurd hjoins.target.2 hpred
  · rw [if_neg hcode]
    refine ⟨h, rfl, hg.mono (Nat.le_succ d) fun a b hab hjoins ↦ hab.resolve_right ?_⟩
    rintro ⟨rfl, rfl⟩
    exact hcode hjoins.target.1

theorem Grouped.successors (hi : i ∈ s.frags)
    (hsource : (s.heap i).cls.isCode = true ∧ (s.heap i).canAddSuccToPartition = true)
    {l : List FragmentId} (hl : ∀ j ∈ l, j ∈ (s.heap i).successors) (hg : Grouped past s done d h)
    (hfuel : d + l.length ≤ fuel) :
    ∃ h', l.foldlM (groupSuccessor fuel s.heap i) h = some h' ∧
      Grouped past s (fun a b ↦ done a b ∨ a = i ∧ b ∈ l) (d + l.length) h' := by
  induction l generalizing h d done with
  | nil => exact ⟨h, rfl, hg.mono le_rfl fun a b hab _ ↦ by simpa using hab⟩
  | cons j l ih =>
    rw [List.length_cons] at hfuel
    have hd : d < fuel := by omega
    have hd' : d + 1 + l.length ≤ fuel := by omega
    obtain ⟨h₁, hjoin, hg₁⟩ := hg.successor hd hi hsource (hl j List.mem_cons_self)
    obtain ⟨h', hfold, hg'⟩ := ih (fun k hk ↦ hl k (List.mem_cons_of_mem j hk)) hg₁ hd'
    refine ⟨h', ?_, hg'.mono (by rw [List.length_cons]; omega) fun a b hab _ ↦ ?_⟩
    · rw [List.foldlM_cons, hjoin]
      exact hfold
    · rwa [List.mem_cons, and_or_left, ← or_assoc] at hab

theorem length_successors_le (f : Fragment) : f.successors.length ≤ 2 := by
  rw [Fragment.successors, List.length_append]
  cases f.fallThrough <;> cases f.branch <;> simp

theorem Grouped.fragment (hg : Grouped past s done d h) (hfuel : d + 2 ≤ fuel) (hi : i ∈ s.frags) :
    ∃ h', groupFragment fuel s.heap h i = some h' ∧
      Grouped past s (fun a b ↦ done a b ∨ a = i) (d + 2) h' := by
  rw [groupFragment]
  split_ifs with hsource
  · have hlen := length_successors_le (s.heap i)
    have hfuel' : d + (s.heap i).successors.length ≤ fuel := by omega
    obtain ⟨h', hfold, hg'⟩ := hg.successors hi (Bool.and_eq_true_iff.mp hsource)
      (fun _ hj ↦ hj) hfuel'
    refine ⟨h', hfold, hg'.mono (by omega) fun a b hab hj ↦ hab.imp_right ?_⟩
    rintro rfl
    exact ⟨rfl, hj.edge⟩
  · refine ⟨h, rfl, hg.mono (by omega) fun a b hab hj ↦ hab.resolve_right ?_⟩
    rintro rfl
    exact hsource (Bool.and_eq_true_iff.mpr hj.source)

theorem Grouped.fragments {l : List FragmentId} (hl : ∀ i ∈ l, i ∈ s.frags)
    (hg : Grouped past s done d h) (hfuel : d + 2 * l.length ≤ fuel) :
    ∃ h', l.foldlM (groupFragment fuel s.heap) h = some h' ∧
      Grouped past s (fun a b ↦ done a b ∨ a ∈ l) (d + 2 * l.length) h' := by
  induction l generalizing h d done with
  | nil => exact ⟨h, rfl, hg.mono le_rfl fun a b hab _ ↦ by simpa using hab⟩
  | cons i l ih =>
    rw [List.length_cons] at hfuel
    have hd : d + 2 ≤ fuel := by omega
    have hd' : d + 2 + 2 * l.length ≤ fuel := by omega
    obtain ⟨h₁, hgroup, hg₁⟩ := hg.fragment hd (hl i List.mem_cons_self)
    obtain ⟨h', hfold, hg'⟩ := ih (fun k hk ↦ hl k (List.mem_cons_of_mem i hk)) hg₁ hd'
    refine ⟨h', ?_, hg'.mono (by rw [List.length_cons]; omega) fun a b hab _ ↦ ?_⟩
    · rw [List.foldlM_cons, hgroup]
      exact hfold
    · rwa [List.mem_cons, ← or_assoc] at hab

omit [BEq T] [Inhabited T] in
theorem Grouped.connects (hg : Grouped past s (fun i _ ↦ i ∈ s.frags) d h) :
    ∃ root, Forest h root d ∧
      ∀ i j, root i = root j ↔ EqvGen (fun i j ↦ Connected past i j ∨ Joins s i j) i j := by
  obtain ⟨ops, root, hf, ht, hsound, hall⟩ := hg
  refine ⟨root, hf, fun i j ↦ ⟨fun he ↦ ?_, fun hc ↦ ?_⟩⟩
  · refine ((ht i j).mp he).mono fun a b hab ↦ ?_
    rw [List.filterMap_append, List.mem_append] at hab
    exact hab.imp (EqvGen.rel a b) (hsound a b)
  · induction hc with
    | rel a b hab =>
      rcases hab with hab | hab
      · refine (ht a b).mpr (hab.mono fun x y hxy ↦ ?_)
        rw [List.filterMap_append]
        exact List.mem_append_left _ hxy
      · exact hall a b hab.mem hab
    | refl a => rfl
    | symm a b _ ih => exact ih.symm
    | trans a b c _ _ ih ih' => exact ih.trans ih'

end Grouping

section Pass

variable {s s' : State T} {i j : FragmentId} {valid : Bool}

omit [BEq T] [Inhabited T] in
theorem Joins.congr (hj : Joins s i j) (hfrags : s'.frags = s.frags)
    (hheap : ∀ a, { s'.heap a with stackStatus := .valid } =
      { s.heap a with stackStatus := StackStatus.valid }) : Joins s' i j := by
  have hcls (a : FragmentId) : (s'.heap a).cls = (s.heap a).cls :=
    (congrArg Fragment.cls (hheap a) :)
  have hsucc (a : FragmentId) : (s'.heap a).canAddSuccToPartition =
      (s.heap a).canAddSuccToPartition := (congrArg Fragment.canAddSuccToPartition (hheap a) :)
  have hpred (a : FragmentId) : (s'.heap a).canAddPredToPartition =
      (s.heap a).canAddPredToPartition := (congrArg Fragment.canAddPredToPartition (hheap a) :)
  have hedges (a : FragmentId) : (s'.heap a).successors = (s.heap a).successors :=
    (congrArg Fragment.successors (hheap a) :)
  exact ⟨hfrags ▸ hj.mem, by rw [hcls, hsucc]; exact hj.source, by rw [hedges]; exact hj.edge,
    by rw [hcls, hpred]; exact hj.target⟩

omit [BEq T] [Inhabited T] in
theorem initStackValidity_heap (valid : Bool) (s : State T) (a : FragmentId) :
    { (initStackValidity valid s).heap a with stackStatus := .valid } =
      { s.heap a with stackStatus := StackStatus.valid } := by
  rw [initStackValidity]
  split_ifs
  · rfl
  · dsimp only
    split_ifs <;> rfl

omit [BEq T] [Inhabited T] in
theorem initStackValidity_frags (valid : Bool) (s : State T) :
    (initStackValidity valid s).frags = s.frags := by
  rw [initStackValidity]
  split_ifs <;> rfl

omit [BEq T] [Inhabited T] in
theorem initStackValidity_partition : (initStackValidity valid s).partition = s.partition := by
  rw [initStackValidity]
  split_ifs <;> rfl

omit [BEq T] [Inhabited T] in
theorem joins_initStackValidity : Joins (initStackValidity valid s) i j ↔ Joins s i j :=
  ⟨fun h ↦ h.congr (initStackValidity_frags valid s).symm fun a ↦ (initStackValidity_heap valid s a).symm,
    fun h ↦ h.congr (initStackValidity_frags valid s) (initStackValidity_heap valid s)⟩

omit [BEq T] [Inhabited T] in
theorem initStackValidity_cases :
    (∀ i ∈ s.frags, ((initStackValidity valid s).heap i).stackStatus = .invalid) ∨
      valid = true ∧ ∀ i ∈ s.frags,
        (s.heap i).stackStatus = .valid ∧
          ((initStackValidity valid s).heap i).stackStatus = .valid := by
  rw [initStackValidity]
  split_ifs with h
  · rw [Bool.and_eq_true, List.all_eq_true] at h
    refine .inr ⟨h.1, fun i hi ↦ ?_⟩
    have hne : (s.heap i).stackStatus ≠ .invalid := of_decide_eq_true (h.2 i hi)
    cases hs : (s.heap i).stackStatus with
    | valid => exact ⟨rfl, rfl⟩
    | invalid => exact absurd hs hne
  · exact .inl fun i hi ↦ by simp [hi]

/-- Two fragments are in one partition if they were before, or if the control flow between
them allows it, from fragment to fragment in any direction. No other two are. A fragment may spill to
the stack only if all of them may. -/
theorem partitionFragments_connects {v : FragmentId → T} {past : List (Op FragmentId T)} {fuel : ℕ}
    (hpast : Run.run (DisjointSet.step fuel) (init v) past = some s.partition)
    (hfuel : past.length + 2 * s.frags.length < fuel) (valid : Bool) :
    ∃ (s' : State T) (root : FragmentId → FragmentId), partitionFragments fuel valid s = some s' ∧
      (∀ i, ∃ h, find fuel s'.partition i = some (h, root i)) ∧
      (∀ i j, root i = root j ↔ EqvGen (fun i j ↦ Connected past i j ∨ Joins s i j) i j) ∧
      ((∀ i ∈ s.frags, (s'.heap i).stackStatus = .invalid) ∨
        valid = true ∧ ∀ i ∈ s.frags,
          (s.heap i).stackStatus = .valid ∧ (s'.heap i).stackStatus = .valid) := by
  have hlen : 0 + past.length ≤ fuel := by omega
  obtain ⟨h₀, root₀, hrun, hf₀, ht₀, -⟩ := run_spec (forest_init v) hlen tracks_nil
  obtain rfl := Option.some_inj.mp (hrun.symm.trans hpast)
  have hstart : Grouped past (initStackValidity valid s) (fun _ _ ↦ False) (0 + past.length)
      s.partition :=
    ⟨[], root₀, hf₀, by rwa [List.append_nil], by simp, by simp⟩
  have hlen' : 0 + past.length + 2 * s.frags.length ≤ fuel := by omega
  obtain ⟨h, hfold, hg⟩ :=
    hstart.fragments (fun i hi ↦ by rwa [initStackValidity_frags]) hlen'
  have hall : Grouped past (initStackValidity valid s)
      (fun i _ ↦ i ∈ (initStackValidity valid s).frags) (past.length + 2 * s.frags.length) h :=
    hg.mono (by omega) fun i _ hi _ ↦ .inr (initStackValidity_frags valid s ▸ hi)
  obtain ⟨root, hf, hroot⟩ := hall.connects
  refine ⟨{ initStackValidity valid s with partition := h }, root, ?_, fun i ↦ ?_, fun i j ↦ ?_,
    initStackValidity_cases⟩
  · rw [partitionFragments, groupFragments, initStackValidity_frags, initStackValidity_partition,
      hfold, Option.map_some, ← initStackValidity_frags valid s]
  · obtain ⟨h', hfind, -⟩ := hf.find hfuel i
    exact ⟨h', hfind⟩
  · rw [hroot]
    simp only [joins_initStackValidity]

end Pass

/-- A call, which the code after it does not join, and a branch whose two sides do. -/
def callThenBranch : State ℕ where
  frags := [0, 1, 2, 3]
  heap := fun i ↦
    match i with
    | 0 => { canAddSuccToPartition := false, fallThrough := some 1 }
    | 1 => { fallThrough := some 2, branch := some 3 }
    | 2 => { fallThrough := some 3 }
    | _ => {}
  partition := init fun _ ↦ 0

theorem partitionFragments_connects_callThenBranch :
    ∃ (s' : State ℕ) (root : FragmentId → FragmentId),
      partitionFragments 9 true callThenBranch = some s' ∧ root 2 = root 3 := by
  have hpast : Run.run (DisjointSet.step 9) (init fun _ ↦ 0) ([] : List (Op FragmentId ℕ)) =
      some callThenBranch.partition := rfl
  obtain ⟨s', root, hs', -, hroot, -⟩ := partitionFragments_connects hpast (by decide) true
  refine ⟨s', root, hs', (hroot 2 3).mpr (.rel 2 3 (.inr ?_))⟩
  exact ⟨by decide, by decide, by decide, by decide⟩

end Granary.Assemble.PartitionFragments
