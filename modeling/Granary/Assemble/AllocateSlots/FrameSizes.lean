import Granary.Assemble.AllocateSlots
import Granary.Base.Rounds

namespace Granary.Assemble.AllocateSlots

open Granary.Arch.Stack Granary.Base.Iterate Granary.Base.Rounds
open Granary.Code (FragmentId)

def leads (h : Heap) (i j : FragmentId) : Bool :=
  decide (j ∈ (h.frag i).successors) && propagates h i j

def analyzes (h : Heap) (i : FragmentId) : Bool := (h.partOf i).analyzeStackFrame

/-- The fragments that `FindFrameSizes` does not skip. -/
def analyzed (frags : List FragmentId) (h : Heap) : List FragmentId := frags.filter (analyzes h)

def lastLeading (h : Heap) (l : List FragmentId) (j : FragmentId) : Option FragmentId :=
  (l.filter (leads h · j)).getLast?

/-- The predecessor that was visited last when a fragment is visited. A fragment is
visited after those before it in the list, and before that those after it were visited,
and before that itself. -/
def lastPredecessor (l : List FragmentId) (h : Heap) (i : FragmentId) : Option FragmentId :=
  lastLeading h (l.dropWhile (· != i) ++ l.takeWhile (· != i)) i

def netShift (is : List Instr) : ℤ := (is.map Instr.stackPointerShiftAmount).sum

/-- The offset on exit from a fragment is found in a pass by following the predecessors
that were visited last, back to a fragment that takes the offset of the pass before. -/
def passShift (frags : List FragmentId) (h : Heap) : FragmentId → ℤ :=
  shift (lastPredecessor (analyzed frags h) h) (fun i ↦ netShift (h.frag i).instrs)
    (analyzed frags h)

def passSource (frags : List FragmentId) (h : Heap) : FragmentId → Option FragmentId :=
  source (lastPredecessor (analyzed frags h) h) (fun i ↦ netShift (h.frag i).instrs)
    (analyzed frags h)

/-- A list of fragments, all of which have the offsets that they are made with. -/
structure Fresh (frags : List FragmentId) (h : Heap) : Prop where
  nodup : frags.Nodup
  entry : ∀ i, (h.frag i).entryOffset = 0
  exit : ∀ i, (h.frag i).exitOffset = 0

theorem leads_iff {h : Heap} {i j : FragmentId} :
    leads h i j = true ↔ j ∈ (h.frag i).successors ∧ propagates h i j = true := by
  rw [leads, Bool.and_eq_true, decide_eq_true_iff]

theorem lastLeading_eq_some {h : Heap} {l : List FragmentId} {i j : FragmentId}
    (hi : lastLeading h l j = some i) : i ∈ l ∧ leads h i j = true :=
  List.mem_filter.1 (List.mem_of_getLast? hi)

theorem lastLeading_eq_none {h : Heap} {l : List FragmentId} {j : FragmentId}
    (hj : lastLeading h l j = none) {i : FragmentId} (hi : i ∈ l) : leads h i j = false := by
  have hnil := List.getLast?_eq_none_iff.1 hj
  rw [List.filter_eq_nil_iff] at hnil
  simpa using hnil i hi

theorem lastLeading_visit (h : Heap) (todo done : List FragmentId) (i j : FragmentId) :
    lastLeading h (todo ++ (done ++ [i])) j =
      if leads h i j then some i else lastLeading h (i :: todo ++ done) j := by
  unfold lastLeading
  have hsingle : [i].filter (leads h · j) = if leads h i j then [i] else [] :=
    List.filter_cons
  rw [← List.append_assoc, List.filter_append, hsingle]
  split_ifs with hij
  · exact List.getLast?_concat
  · rw [List.append_nil, List.cons_append, List.filter_cons_of_neg (by exact hij)]

theorem turn_of_nodup {l done todo : List FragmentId} {i : FragmentId} (hl : l = done ++ i :: todo)
    (hnodup : l.Nodup) : i ∉ done ∧ i ∈ l ∧ l = done ++ [i] ++ todo := by
  rw [hl] at hnodup ⊢
  refine ⟨fun hi ↦ ?_, List.mem_append_right _ List.mem_cons_self, by simp⟩
  exact (List.nodup_append.1 hnodup).2.2 i hi i List.mem_cons_self rfl

theorem lastPredecessor_eq {done todo : List FragmentId} {i : FragmentId} (hi : i ∉ done)
    (h : Heap) : lastPredecessor (done ++ i :: todo) h i = lastLeading h (i :: todo ++ done) i := by
  have hne : ∀ j ∈ done, (j != i) = true := by
    intro j hj
    rw [bne_iff_ne]
    rintro rfl
    exact hi hj
  rw [lastPredecessor, List.dropWhile_append_of_pos hne, List.takeWhile_append_of_pos hne]
  simp

theorem lastPredecessor_mem {l : List FragmentId} {h : Heap} {i j : FragmentId}
    (hj : lastPredecessor l h i = some j) : j ∈ l ∧ leads h j i = true := by
  obtain ⟨hmem, hlead⟩ := lastLeading_eq_some hj
  refine ⟨?_, hlead⟩
  rcases List.mem_append.1 hmem with hmem | hmem
  · exact (List.dropWhile_sublist _).subset hmem
  · exact (List.takeWhile_sublist _).subset hmem

theorem fst_foldl_frameAdjust (is : List Instr) (s : ℤ × ℤ) :
    (is.foldl frameAdjust s).1 = netShift is + s.1 := by
  induction is generalizing s with
  | nil => exact (zero_add s.1).symm
  | cons i is ih =>
    rw [List.foldl_cons, ih, frameAdjust_fst, netShift, netShift, List.map_cons, List.sum_cons]
    ring

/-- The lowest offset after some instructions, of which the first is at `e`. -/
def lowered (is : List Instr) (e low : ℤ) : ℤ := (is.foldl frameAdjust (e, low)).2

theorem frameAdjust_min (s : ℤ × ℤ) (low : ℤ) (i : Instr) :
    frameAdjust (s.1, min s.2 low) i = ((frameAdjust s i).1, min (frameAdjust s i).2 low) := by
  simp only [frameAdjust]
  split_ifs <;> simp only [Prod.mk.injEq, true_and] <;> omega

theorem lowered_min (is : List Instr) (e low low' : ℤ) :
    lowered is e (min low low') = min (lowered is e low) low' := by
  unfold lowered
  have hfold : ∀ s : ℤ × ℤ, (is.foldl frameAdjust (s.1, min s.2 low')).2 =
      min (is.foldl frameAdjust s).2 low' := by
    induction is with
    | nil => exact fun s ↦ rfl
    | cons i is ih =>
      intro s
      rw [List.foldl_cons, List.foldl_cons, frameAdjust_min, ih]
  exact hfold (e, low)

theorem lowered_le (is : List Instr) (e low : ℤ) : lowered is e low ≤ low :=
  frameAdjust_low_le is (e, low)

theorem lowered_of_le {is : List Instr} {e low low' : ℤ} (h : low' ≤ lowered is e low) :
    lowered is e low' = low' := by
  have hle := h.trans (lowered_le is e low)
  rw [← min_eq_right hle, lowered_min]
  omega

/-- The state of the analysis when the fragments of `done` are visited in a pass and
those of `todo` are not: the offsets on exit are `x`, and the offset on entry to a
fragment is the one on exit from the last one visited that leads to it. -/
structure Visited (h₀ : Heap) (x : FragmentId → ℤ) (todo done : List FragmentId) (h : Heap) :
    Prop where
  code : SameCode h₀ h
  analyze : ∀ p, (h.part p).analyzeStackFrame = (h₀.part p).analyzeStackFrame
  exit : ∀ i, (h.frag i).exitOffset = x i
  entry : ∀ j, (h.frag j).entryOffset = (lastLeading h₀ (todo ++ done) j).elim 0 x

variable {h₀ h : Heap} {x : FragmentId → ℤ} {l todo done : List FragmentId} {i : FragmentId}

theorem Fresh.visited {frags : List FragmentId} (hf : Fresh frags h) (l : List FragmentId) :
    Visited h 0 l [] h := by
  refine ⟨.refl h, fun p ↦ rfl, hf.exit, fun j ↦ ?_⟩
  rw [hf.entry]
  cases lastLeading h (l ++ []) j <;> rfl

theorem Visited.analyzes (hv : Visited h₀ x todo done h) (i : FragmentId) :
    (h.partOf i).analyzeStackFrame = analyzes h₀ i := by
  rw [Heap.partOf, hv.analyze, hv.code.partition]
  rfl

theorem Visited.frameSize (hv : Visited h₀ x (i :: todo) done h) (hi : i ∉ done)
    (hl : l = done ++ i :: todo) :
    frameSize h i = (netShift (h₀.frag i).instrs + (lastPredecessor l h₀ i).elim 0 x,
      lowered (h₀.frag i).instrs ((lastPredecessor l h₀ i).elim 0 x)
        (h.partOf i).minFrameOffset) := by
  rw [hl, lastPredecessor_eq hi, ← hv.entry i, AllocateSlots.frameSize, hv.code.instrs]
  exact Prod.ext (fst_foldl_frameAdjust _ _) rfl

theorem Visited.step (hv : Visited h₀ x (i :: todo) done h) (ha : AllocateSlots.analyzes h₀ i = true)
    (hi : i ∉ done) (hl : l = done ++ i :: todo) :
    Visited h₀ (relax (lastPredecessor l h₀) (fun i ↦ netShift (h₀.frag i).instrs) x i) todo
      (done ++ [i]) (findFrameSizesStep h i).1 := by
  have hs := findFrameSizesStep_spec ((hv.analyzes i).trans ha)
  have hsize := congrArg Prod.fst (hv.frameSize hi hl)
  refine ⟨hv.code.trans hs.code, fun p ↦ (hs.analyze p).trans (hv.analyze p), fun j ↦ ?_, fun j ↦ ?_⟩
  · rw [hs.exit, hsize, relax, Function.update_apply, hv.exit]
  · have hleads : (j ∈ (h.frag i).successors ∧ propagates h i j = true) ↔ leads h₀ i j = true := by
      rw [leads_iff, hv.code.successors, hv.code.propagates]
    rw [hs.entry, lastLeading_visit]
    by_cases hij : leads h₀ i j = true
    · rw [if_pos (hleads.2 hij), if_pos hij, hsize, Option.elim_some, relax, Function.update_self]
    · rw [if_neg (fun h ↦ hij (hleads.1 h)), if_neg hij, hv.entry]
      cases hlast : lastLeading h₀ (i :: todo ++ done) j with
      | none => rfl
      | some k =>
        have hki : k ≠ i := by
          rintro rfl
          exact hij (lastLeading_eq_some hlast).2
        rw [Option.elim_some, Option.elim_some, relax, Function.update_of_ne hki]

theorem Visited.sweep (hv : Visited h₀ x todo done h) (hl : l = done ++ todo) (hnodup : l.Nodup)
    (ha : ∀ i ∈ l, AllocateSlots.analyzes h₀ i = true) :
    Visited h₀ (todo.foldl (relax (lastPredecessor l h₀) fun i ↦ netShift (h₀.frag i).instrs) x) []
      l (sweep findFrameSizesStep todo h).1 := by
  induction todo generalizing x done h with
  | nil =>
    rw [List.append_nil] at hl
    rw [hl]
    exact hv
  | cons i todo ih =>
    obtain ⟨hi, hmem, hnext⟩ := turn_of_nodup hl hnodup
    exact ih (hv.step (ha i hmem) hi hl) hnext

theorem Visited.restart (hv : Visited h₀ x [] l h) : Visited h₀ x l [] h :=
  ⟨hv.code, hv.analyze, hv.exit, fun j ↦ by rw [hv.entry j, List.append_nil]; rfl⟩

def exits (frags : List FragmentId) (h : Heap) (n : ℕ) : FragmentId → ℤ :=
  (round (lastPredecessor (analyzed frags h) h) (fun i ↦ netShift (h.frag i).instrs)
    (analyzed frags h))^[n] 0

def passes (frags : List FragmentId) (n : ℕ) (h : Heap) : Heap :=
  (fun h ↦ (sweep findFrameSizesStep frags h).1)^[n] h

variable {frags : List FragmentId}

variable (frags) in
theorem sweep_analyzed (hv : Visited h₀ x todo done h) :
    sweep findFrameSizesStep frags h = sweep findFrameSizesStep (analyzed frags h₀) h := by
  have hskip : ∀ i h, (∀ j, (Heap.partOf h j).analyzeStackFrame = AllocateSlots.analyzes h₀ j) →
      AllocateSlots.analyzes h₀ i = false → findFrameSizesStep h i = (h, false) := by
    intro i h hh hi
    rw [findFrameSizesStep, hh i, hi]
    rfl
  refine sweep_filter (P := fun h ↦ ∀ j, (Heap.partOf h j).analyzeStackFrame =
    AllocateSlots.analyzes h₀ j) _ (fun i h hh j ↦ ?_) hskip frags hv.analyzes
  cases ha : AllocateSlots.analyzes h₀ i with
  | false =>
    rw [hskip i h hh ha]
    exact hh j
  | true =>
    have hs := findFrameSizesStep_spec ((hh i).trans ha)
    rw [Heap.partOf, hs.analyze, hs.code.partition]
    exact hh j

theorem analyzes_of_mem {i : FragmentId} (hi : i ∈ analyzed frags h) : analyzes h i = true :=
  (List.mem_filter.1 hi).2

theorem Fresh.nodup_analyzed (hf : Fresh frags h) : (analyzed frags h).Nodup := hf.nodup.filter _

theorem visited_passes (hf : Fresh frags h) (n : ℕ) :
    Visited h (exits frags h n) (analyzed frags h) [] (passes frags n h) := by
  induction n with
  | zero => exact hf.visited _
  | succ n ih =>
    unfold exits passes
    rw [Function.iterate_succ_apply', Function.iterate_succ_apply']
    have hpass := ih.sweep rfl hf.nodup_analyzed fun i hi ↦ analyzes_of_mem hi
    rw [← sweep_analyzed frags ih] at hpass
    exact hpass.restart

theorem exits_of_quiet (hf : Fresh frags h) {n : ℕ}
    (hq : (sweep findFrameSizesStep frags (passes frags n h)).2 = false) :
    exits frags h (n + 1) = exits frags h n := by
  funext i
  have hsame := (sameExits_sweep hq).1 i
  rw [← (visited_passes hf n).exit i, ← (visited_passes hf (n + 1)).exit i, ← hsame, passes, passes,
    Function.iterate_succ_apply']

/-- The lowest offset of a partition is as low as the fragments of `done` need it. -/
def LowEnough (h₀ : Heap) (x : FragmentId → ℤ) (l done : List FragmentId) (h : Heap) : Prop :=
  ∀ i ∈ done, lowered (h₀.frag i).instrs ((lastPredecessor l h₀ i).elim 0 x)
    (h.partOf i).minFrameOffset = (h.partOf i).minFrameOffset

/-- A visit makes the lowest offset low enough for the fragment, and keeps it so for the
others. -/
theorem LowEnough.step (hlow : LowEnough h₀ x l done h) (hv : Visited h₀ x (i :: todo) done h)
    (ha : AllocateSlots.analyzes h₀ i = true) (hi : i ∉ done) (hl : l = done ++ i :: todo) :
    LowEnough h₀ x l (done ++ [i]) (findFrameSizesStep h i).1 := by
  have hs := findFrameSizesStep_spec ((hv.analyzes i).trans ha)
  have hsize := congrArg Prod.snd (hv.frameSize hi hl)
  have hpart : ∀ k, ((findFrameSizesStep h i).1.partOf k).minFrameOffset =
      if (h.frag k).partition = (h.frag i).partition then
        lowered (h₀.frag i).instrs ((lastPredecessor l h₀ i).elim 0 x) (h.partOf i).minFrameOffset
      else (h.partOf k).minFrameOffset := by
    intro k
    rw [Heap.partOf, hs.low, hs.code.partition, hsize]
    rfl
  intro k hk
  rw [hpart]
  rcases List.mem_append.1 hk with hk | hk
  · split_ifs with hp
    · apply lowered_of_le
      rw [hlow k hk, Heap.partOf, Heap.partOf, hp]
      exact lowered_le _ _ _
    · exact hlow k hk
  · rw [List.mem_singleton.1 hk, if_pos rfl]
    exact lowered_of_le le_rfl

theorem LowEnough.sweep (hlow : LowEnough h₀ x l done h) (hv : Visited h₀ x todo done h)
    (hl : l = done ++ todo) (hnodup : l.Nodup) (ha : ∀ i ∈ l, AllocateSlots.analyzes h₀ i = true)
    (hfix : ∀ i ∈ l, relax (lastPredecessor l h₀) (fun i ↦ netShift (h₀.frag i).instrs) x i = x) :
    LowEnough h₀ x l l (sweep findFrameSizesStep todo h).1 := by
  induction todo generalizing done h with
  | nil =>
    rw [List.append_nil] at hl
    rw [hl] at hlow ⊢
    exact hlow
  | cons i todo ih =>
    obtain ⟨hi, hmem, hnext⟩ := turn_of_nodup hl hnodup
    have hv' := hv.step (ha i hmem) hi hl
    rw [hfix i hmem] at hv'
    exact ih (hlow.step hv (ha i hmem) hi hl) hv' hnext

theorem findFrameSizesStep_eq_false {i : FragmentId}
    (hq : frameSize h i = ((h.frag i).exitOffset, (h.partOf i).minFrameOffset)) :
    (findFrameSizesStep h i).2 = false := by
  have hsize : (findFrameSize h i).2 = false := by
    have hfst : (frameSize h i).1 = (h.frag i).exitOffset := congrArg Prod.fst hq
    have hsnd : (frameSize h i).2 = (h.partOf i).minFrameOffset := congrArg Prod.snd hq
    have hold : (findFrameSize h i).2 =
        if (frameSize h i).1 ≠ (h.frag i).exitOffset then true
        else decide ((h.partOf i).minFrameOffset ≠ (frameSize h i).2) := by
      unfold findFrameSize frameSize
      dsimp only
      split_ifs <;> rfl
    rw [hold, hfst, hsnd]
    simp
  unfold findFrameSizesStep
  split_ifs
  · exact hsize
  · rfl

/-- When the offsets on exit are found and the lowest ones are low enough, a pass changes
nothing. -/
theorem quiet_sweep (hlow : LowEnough h₀ x l l h) (hv : Visited h₀ x todo done h)
    (hl : l = done ++ todo) (hnodup : l.Nodup) (ha : ∀ i ∈ l, AllocateSlots.analyzes h₀ i = true)
    (hfix : ∀ i ∈ l, relax (lastPredecessor l h₀) (fun i ↦ netShift (h₀.frag i).instrs) x i = x) :
    (sweep findFrameSizesStep todo h).2 = false := by
  induction todo generalizing done h with
  | nil => rfl
  | cons i todo ih =>
    obtain ⟨hi, hmem, hnext⟩ := turn_of_nodup hl hnodup
    have hv' := hv.step (ha i hmem) hi hl
    rw [hfix i hmem] at hv'
    have hsize : frameSize h i = ((h.frag i).exitOffset, (h.partOf i).minFrameOffset) := by
      have hx := congrFun (hfix i hmem) i
      rw [relax, Function.update_self] at hx
      rw [hv.frameSize hi hl, hx, hv.exit, hlow i hmem]
    have hquiet := findFrameSizesStep_eq_false hsize
    have hsame := sameExits_step hquiet
    have hcode := sameCode_step h i
    have hlow' : LowEnough h₀ x l l (findFrameSizesStep h i).1 := by
      intro k hk
      rw [Heap.partOf, hcode.partition, hsame.2]
      exact hlow k hk
    show ((findFrameSizesStep h i).2 || (sweep findFrameSizesStep todo _).2) = false
    rw [hquiet, Bool.false_or]
    exact ih hlow' hv' hnext

theorem returns_iff_settles (hf : Fresh frags h) :
    (∃ fuel h', findFrameSizes frags fuel h = some h') ↔
      ∃ n, exits frags h (n + 1) = exits frags h n := by
  unfold findFrameSizes
  rw [repeatUntil_returns_iff]
  constructor
  · rintro ⟨n, hn⟩
    exact ⟨n, exits_of_quiet hf hn⟩
  · rintro ⟨n, hn⟩
    refine ⟨n + 1, ?_⟩
    have hround : round (lastPredecessor (analyzed frags h) h) (fun i ↦ netShift (h.frag i).instrs)
        (analyzed frags h) (exits frags h n) = exits frags h n := by
      conv_rhs => rw [← hn]
      rw [exits, exits, Function.iterate_succ_apply']
    have hfix := fun i hi ↦ relax_of_round_eq hf.nodup_analyzed hround (i := i) hi
    have ha : ∀ i ∈ analyzed frags h, AllocateSlots.analyzes h i = true :=
      fun i hi ↦ analyzes_of_mem hi
    have hv := visited_passes hf n
    have hlow : LowEnough h (exits frags h n) (analyzed frags h) (analyzed frags h)
        (passes frags (n + 1) h) := by
      have hnone : LowEnough h (exits frags h n) (analyzed frags h) [] (passes frags n h) :=
        fun i hi ↦ absurd hi List.not_mem_nil
      have hsweep := hnone.sweep hv rfl hf.nodup_analyzed ha hfix
      rw [← sweep_analyzed frags hv] at hsweep
      rw [passes, Function.iterate_succ_apply']
      exact hsweep
    have hv' := visited_passes hf (n + 1)
    show (sweep findFrameSizesStep frags (passes frags (n + 1) h)).2 = false
    rw [sweep_analyzed frags hv']
    rw [hn] at hv'
    exact quiet_sweep hlow hv' rfl hf.nodup_analyzed ha hfix

/-- The analysis stops exactly when every fragment whose offset is fed back to it has no
shift in a pass. -/
theorem findFrameSizes_returns_iff (hf : Fresh frags h) :
    (∃ fuel h', findFrameSizes frags fuel h = some h') ↔
      ∀ k ∈ analyzed frags h, Recurrent (passSource frags h) k → passShift frags h k = 0 := by
  rw [returns_iff_settles hf]
  exact settles_iff _

theorem findFrameSizes_returns_of_earlier (hf : Fresh frags h)
    (hl : ∀ pre i post, analyzed frags h = pre ++ i :: post →
      (∃ j ∈ analyzed frags h, leads h j i = true) → ∃ j ∈ pre, leads h j i = true) :
    ∃ fuel h', findFrameSizes frags fuel h = some h' := by
  rw [returns_iff_settles hf]
  refine (settles_iff _).2 fun k hk hrec ↦ absurd hrec (not_recurrent_of_earlier ?_ hk)
  intro pre i post hpost j hj
  obtain ⟨hi, -, -⟩ := turn_of_nodup hpost hf.nodup_analyzed
  obtain ⟨j', hj', hlead⟩ := hl pre i post hpost ⟨j, lastPredecessor_mem hj⟩
  rw [hpost, lastPredecessor_eq hi, lastLeading, List.filter_append] at hj
  have hne : pre.filter (leads h · i) ≠ [] :=
    List.ne_nil_of_mem (List.mem_filter.2 ⟨hj', hlead⟩)
  rw [List.getLast?_append_of_ne_nil _ hne] at hj
  exact (List.mem_filter.1 (List.mem_of_getLast? hj)).1

theorem fresh_oneFragment (is : List Instr) : Fresh [0, 1, 2] (oneFragment is) := by
  refine ⟨by decide, fun i ↦ ?_, fun i ↦ ?_⟩
  · rcases i with _ | _ | _ | i <;> rfl
  · rcases i with _ | _ | _ | i <;> rfl

theorem findFrameSizes_returns_pushSpilled :
    ∃ fuel h', findFrameSizes [0, 1, 2] fuel (oneFragment pushSpilled) = some h' := by
  refine (findFrameSizes_returns_iff (fresh_oneFragment pushSpilled)).2 fun k hk ⟨n, hn⟩ ↦ ?_
  have hnone : passSource [0, 1, 2] (oneFragment pushSpilled) k = none := by
    fin_cases hk <;> rfl
  rw [sources, hnone] at hn
  cases hn

/-- A block that ends in a jump to a native one, and a block that no jump leads to but
the one in its end: `push rax` and a jump to it. -/
def unlinkedLoop : Heap where
  frag
    | 0 => { cls := .partitionEntry, fallThrough := some 1 }
    | 1 => { fallThrough := some 2 }
    | 2 => { cls := .partitionExit, fallThrough := some 4 }
    | 3 => { partition := 1, instrs := [.push (.reg (.gpr 0)) 64], fallThrough := some 3 }
    | 4 => { cls := .exit, partition := 2 }
    | _ => {}
  part _ := {}

theorem fresh_unlinkedLoop : Fresh [0, 1, 2, 3, 4] unlinkedLoop := by
  refine ⟨by decide, fun i ↦ ?_, fun i ↦ ?_⟩
  · rcases i with _ | _ | _ | _ | _ | i <;> rfl
  · rcases i with _ | _ | _ | _ | _ | i <;> rfl

theorem findFrameSizes_not_returns :
    Fresh [0, 1, 2, 3, 4] unlinkedLoop ∧
      ¬ ∃ fuel h', findFrameSizes [0, 1, 2, 3, 4] fuel unlinkedLoop = some h' := by
  refine ⟨fresh_unlinkedLoop, fun hreturns ↦ ?_⟩
  have hzero := (settles_iff _).1 ((returns_iff_settles fresh_unlinkedLoop).1 hreturns) 3
    (by decide) ⟨0, by decide⟩
  exact absurd hzero (by decide)

end Granary.Assemble.AllocateSlots
