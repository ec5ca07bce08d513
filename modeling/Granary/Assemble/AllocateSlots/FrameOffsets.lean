import Granary.Assemble.AllocateSlots.FrameSizes

namespace Granary.Assemble.AllocateSlots

open Granary.Arch.Stack Granary.Base.Iterate Granary.Base.Rounds
open Granary.Code (FragmentId FragmentClass)

/-- Some path from the entry of a partition to a fragment shifts the stack pointer by
`d` before it. -/
inductive PathShift (frags : List FragmentId) (h : Heap) (p : ℕ) : FragmentId → ℤ → Prop
  | entry {i : FragmentId} (hi : i ∈ frags) (hc : (h.frag i).cls = .partitionEntry)
      (hp : (h.frag i).partition = p) : PathShift frags h p i 0
  | step {i j : FragmentId} {d : ℤ} (hi : PathShift frags h p i d) (hj : Edge frags h i j) :
      PathShift frags h p j (d + netShift (h.frag i).instrs)

/-- The offsets that some instructions reach from `e`: those of the stack pointer, and
those below it that they compute. -/
def reached : List Instr → ℤ → List ℤ
  | [], e => [e]
  | i :: is, e =>
    e :: (e + i.computedOffsetBelowStackPointer) :: reached is (e + i.stackPointerShiftAmount)

/-- The offsets below the stack pointer that some instructions access from `e`. -/
def accessed (regs : Regs) : List Instr → ℤ → List ℤ
  | [], _ => []
  | i :: is, e =>
    ((i.explicit e regs).filterMap fun a ↦
      match a.loc with
      | .mem none x => if x < e then some x else none
      | _ => none) ++ accessed regs is (e + i.stackPointerShiftAmount)

/-- A partition of which the stack frame is analyzed, where the paths to a fragment have
the same shift. -/
structure SameShift (frags : List FragmentId) (h : Heap) (p : ℕ) : Prop where
  fresh : Fresh frags h
  analyzed : (h.part p).analyzeStackFrame = true
  low : (h.part p).minFrameOffset = 0
  closed : ∀ i j, Edge frags h i j → j ∈ frags
  unique : ∀ i d d', PathShift frags h p i d → PathShift frags h p i d' → d = d'

/-- The entry of the partition leads to all of its fragments, and a fragment whose offset
is only fed back to it is left at the offset of the entry. -/
structure Consistent (frags : List FragmentId) (h : Heap) (p : ℕ) : Prop
    extends SameShift frags h p where
  reachable : ∀ i ∈ frags, (h.frag i).partition = p → ∃ d, PathShift frags h p i d
  recurrent : ∀ k d, PathShift frags h p k d → Recurrent (passSource frags h) k →
    d + netShift (h.frag k).instrs = 0

variable {frags : List FragmentId} {h h' : Heap} {p : ℕ} {i j : FragmentId} {d : ℤ}

theorem PathShift.partition_eq (hd : PathShift frags h p i d) : (h.frag i).partition = p := by
  induction hd with
  | entry _ _ hp => exact hp
  | step _ hj ih => exact hj.partition_eq.trans ih

theorem PathShift.mem (hclosed : ∀ i j, Edge frags h i j → j ∈ frags)
    (hd : PathShift frags h p i d) : i ∈ frags := by
  cases hd with
  | entry hi => exact hi
  | step _ hj => exact hclosed _ _ hj

/-- A labelling that starts with 0 and follows the edges gives the shifts of all paths. -/
theorem PathShift.eq_of_edges {f : FragmentId → ℤ}
    (hentry : ∀ i ∈ frags, (h.frag i).cls = .partitionEntry → f i = 0)
    (hedge : ∀ i j, Edge frags h i j → f j = f i + netShift (h.frag i).instrs)
    (hd : PathShift frags h p i d) : d = f i := by
  induction hd with
  | entry hi hcls => exact (hentry _ hi hcls).symm
  | step _ hij ih => rw [hedge _ _ hij, ih]

theorem analyzes_of_partition (ha : (h.part p).analyzeStackFrame = true)
    (hp : (h.frag i).partition = p) : analyzes h i = true := by
  rw [analyzes, Heap.partOf, hp, ha]

theorem edge_of_leads (hi : i ∈ analyzed frags h) (hij : leads h i j = true) : Edge frags h i j :=
  ⟨(List.mem_filter.1 hi).1, leads_iff.1 hij⟩

theorem lastPredecessor_eq_none {l : List FragmentId} (hnone : lastPredecessor l h j = none)
    (hi : i ∈ l) : leads h i j = false := by
  refine lastLeading_eq_none hnone ?_
  rw [List.mem_append, or_comm, ← List.mem_append, List.takeWhile_append_dropWhile]
  exact hi

open Classical in
noncomputable def pathExit (frags : List FragmentId) (h : Heap) (p : ℕ) (i : FragmentId) : ℤ :=
  if hd : ∃ d, PathShift frags h p i d then hd.choose + netShift (h.frag i).instrs else 0

namespace Consistent

variable (hc : Consistent frags h p)

include hc

theorem pathExit_eq (hd : PathShift frags h p i d) :
    pathExit frags h p i = d + netShift (h.frag i).instrs := by
  have hex : ∃ d, PathShift frags h p i d := ⟨d, hd⟩
  rw [pathExit, dif_pos hex, hc.unique i _ d hex.choose_spec hd]

theorem edge_mem (hj : (h.frag j).partition = p) (hij : Edge frags h i j) :
    i ∈ AllocateSlots.analyzed frags h :=
  List.mem_filter.2 ⟨hij.1, analyzes_of_partition hc.analyzed (hij.partition_eq.symm.trans hj)⟩

theorem path_of_edge (hd : PathShift frags h p j d) (hij : Edge frags h i j) :
    ∃ e, PathShift frags h p i e ∧ d = e + netShift (h.frag i).instrs := by
  obtain ⟨e, he⟩ := hc.reachable i hij.1 (hij.partition_eq.symm.trans hd.partition_eq)
  exact ⟨e, he, hc.unique j _ _ hd (.step he hij)⟩

theorem pathExit_fixed (hd : PathShift frags h p i d) : pathExit frags h p i =
    netShift (h.frag i).instrs +
      (lastPredecessor (AllocateSlots.analyzed frags h) h i).elim 0 (pathExit frags h p) := by
  rw [hc.pathExit_eq hd, add_comm]
  congr 1
  cases hpred : lastPredecessor (AllocateSlots.analyzed frags h) h i with
  | none =>
    cases hd with
    | entry => rfl
    | step hk hki =>
      have hmem := hc.edge_mem (hki.partition_eq.trans hk.partition_eq) hki
      have hleads := lastPredecessor_eq_none hpred hmem
      exact absurd (hleads.symm.trans (leads_iff.2 hki.2)) Bool.false_ne_true
  | some k =>
    obtain ⟨hk, hki⟩ := lastPredecessor_mem hpred
    obtain ⟨e, he, rfl⟩ := hc.path_of_edge hd (edge_of_leads hk hki)
    exact (hc.pathExit_eq he).symm

theorem exits_eq {n : ℕ} (hn : (AllocateSlots.analyzed frags h).length ≤ n)
    (hd : PathShift frags h p i d) : exits frags h n i = d + netShift (h.frag i).instrs := by
  rw [← hc.pathExit_eq hd]
  refine iterate_round_eq (S := fun i ↦ ∃ d, PathShift frags h p i d) ?_ ?_ ?_ hn ⟨d, hd⟩
  · rintro i j ⟨d, hd⟩ hij
    obtain ⟨hj, hji⟩ := lastPredecessor_mem hij
    obtain ⟨e, he, -⟩ := hc.path_of_edge hd (edge_of_leads hj hji)
    exact ⟨e, he⟩
  · rintro i - ⟨d, hd⟩
    exact hc.pathExit_fixed hd
  · rintro k ⟨d, hd⟩ hrec
    rw [hc.pathExit_eq hd]
    exact hc.recurrent k d hd hrec

theorem visited {fuel : ℕ} (hrun : findFrameSizes frags fuel h = some h') :
    ∃ x, Visited h x (AllocateSlots.analyzed frags h) [] h' ∧
      ∀ i d, PathShift frags h p i d → x i = d + netShift (h.frag i).instrs := by
  obtain ⟨t, ⟨n, rfl⟩, hq, rfl⟩ := repeatUntil_last (P := fun t ↦ ∃ n, t = passes frags n h)
    (fun t ⟨n, hn⟩ ↦ ⟨n + 1, by rw [passes, Function.iterate_succ_apply', hn]; rfl⟩)
    ⟨0, rfl⟩ hrun
  have hpass : (sweep findFrameSizesStep frags (passes frags n h)).1 = passes frags (n + 1) h := by
    rw [passes, passes, Function.iterate_succ_apply']
  rw [hpass]
  refine ⟨_, visited_passes hc.fresh (n + 1), fun i d hd ↦ ?_⟩
  have hsettled := exits_of_quiet hc.fresh hq
  have hlater : ∀ m, exits frags h (m + n) = exits frags h n := by
    intro m
    unfold exits at hsettled ⊢
    rw [Function.iterate_succ_apply'] at hsettled
    rw [Function.iterate_add_apply, Function.iterate_fixed hsettled]
  rw [hsettled, ← hlater (AllocateSlots.analyzed frags h).length]
  exact hc.exits_eq (Nat.le_add_right _ _) hd

theorem agree {fuel : ℕ} (hrun : findFrameSizes frags fuel h = some h') : Agree frags h h' p := by
  obtain ⟨x, hv, hx⟩ := hc.visited hrun
  intro i j hij hj
  obtain ⟨d, hd⟩ := hc.reachable j (hc.closed i j hij) hj
  have hexit : ∀ k, Edge frags h k j → x k = d := by
    intro k hk
    obtain ⟨e, he, rfl⟩ := hc.path_of_edge hd hk
    exact hx k e he
  rw [hv.exit, hexit i hij, hv.entry]
  cases hlast : lastLeading h (AllocateSlots.analyzed frags h ++ []) j with
  | none =>
    rw [List.append_nil] at hlast
    have hleads := lastLeading_eq_none hlast (hc.edge_mem hj hij)
    exact absurd (hleads.symm.trans (leads_iff.2 hij.2)) Bool.false_ne_true
  | some k =>
    obtain ⟨hk, hkj⟩ := lastLeading_eq_some hlast
    rw [List.append_nil] at hk
    exact hexit k (edge_of_leads hk hkj)

theorem offsets : Offsets frags p h := by
  refine ⟨hc.analyzed, le_of_eq hc.low, fun i j hij _ ↦ ⟨i, hij, ?_⟩, fun j _ ↦ hc.fresh.entry j⟩
  rw [hc.fresh.entry, hc.fresh.exit]

end Consistent

theorem low_le_reached (is : List Instr) {s : ℤ × ℤ} (hs : s.2 ≤ s.1) :
    ∀ x ∈ reached is s.1, (is.foldl frameAdjust s).2 ≤ x := by
  induction is generalizing s with
  | nil =>
    intro x hx
    rw [List.mem_singleton.1 hx]
    exact hs
  | cons i is ih =>
    obtain ⟨hcomp, hle⟩ := frameAdjust_low hs i
    have hlow := frameAdjust_low_le (i :: is) s
    have hlow' := frameAdjust_low_le is (frameAdjust s i)
    intro x hx
    simp only [reached, List.mem_cons] at hx
    rcases hx with rfl | rfl | hx
    · exact hlow.trans hs
    · exact hlow'.trans hcomp
    · refine ih hle x ?_
      rwa [frameAdjust_fst]

/-- The analysis finds the offsets of the paths, and a lowest offset that is no higher
than any offset that the instructions of a path reach. -/
theorem findFrameSizes_sound {fuel : ℕ} (hc : Consistent frags h p)
    (hrun : findFrameSizes frags fuel h = some h') :
    (∀ i j, Edge frags h i j → (h.frag j).partition = p →
      (h'.frag j).entryOffset = (h'.frag i).exitOffset) ∧
    (∀ i ∈ frags, (h.frag i).partition = p →
      (h'.frag i).exitOffset = (h'.frag i).entryOffset + netShift (h.frag i).instrs) ∧
    ∀ i d, PathShift frags h p i d → ∀ x ∈ reached (h.frag i).instrs d,
      (h'.part p).minFrameOffset ≤ x := by
  have hagree := hc.agree hrun
  obtain ⟨hoff, hcode⟩ := findFrameSizes_keeps hc.offsets hrun
  have hm := findFrameSizes_measured hc.offsets hrun hagree
  have hsize : ∀ i ∈ frags, (h.frag i).partition = p →
      (h.frag i).instrs.foldl frameAdjust ((h'.frag i).entryOffset, (h'.part p).minFrameOffset) =
        ((h'.frag i).exitOffset, (h'.part p).minFrameOffset) := by
    intro i hi hp
    have hsize := hm.size i hi ((hcode.partition i).trans hp)
    unfold frameSize Heap.partOf at hsize
    rwa [hcode.instrs, hcode.partition, hp] at hsize
  have hexit : ∀ i ∈ frags, (h.frag i).partition = p →
      (h'.frag i).exitOffset = (h'.frag i).entryOffset + netShift (h.frag i).instrs := by
    intro i hi hp
    have hfst := fst_foldl_frameAdjust (h.frag i).instrs
      ((h'.frag i).entryOffset, (h'.part p).minFrameOffset)
    rw [hsize i hi hp, add_comm] at hfst
    exact hfst
  refine ⟨hagree, hexit, ?_⟩
  have hpath : ∀ i d, PathShift frags h p i d →
      (h'.frag i).entryOffset = d ∧ (h'.part p).minFrameOffset ≤ d := by
    intro i d hd
    induction hd with
    | entry hi hcls hp =>
      refine ⟨hoff.orphan _ fun k hk ↦ ?_, hoff.low⟩
      have hprop := (hcode.edge.1 hk).2.2
      simp [propagates, hcls] at hprop
    | @step i j d hd hij ih =>
      have hi := hd.mem hc.closed
      have hp := hd.partition_eq
      have hentry : (h'.frag j).entryOffset = d + netShift (h.frag i).instrs := by
        rw [hagree i j hij (hij.partition_eq.trans hp), hexit i hi hp, ih.1]
      refine ⟨hentry, ?_⟩
      have hlow := low_le_fst (h.frag i).instrs
        (s := ((h'.frag i).entryOffset, (h'.part p).minFrameOffset)) (ih.1.symm ▸ ih.2)
      rw [hsize i hi hp, hexit i hi hp, ih.1] at hlow
      exact hlow
  intro i d hd x hx
  obtain ⟨hentry, hle⟩ := hpath i d hd
  have hlow := low_le_reached (h.frag i).instrs
    (s := ((h'.frag i).entryOffset, (h'.part p).minFrameOffset)) (hentry.symm ▸ hle) x
    (by rwa [hentry])
  rw [hsize i (hd.mem hc.closed) hd.partition_eq] at hlow
  exact hlow

/-- A loop that pushes in its head and pops in its end, which is listed before the head. -/
def lateHead : Heap where
  frag
    | 0 => { cls := .partitionEntry, fallThrough := some 2 }
    | 1 => { instrs := [.pop 0 64], fallThrough := some 2 }
    | 2 => { instrs := [.push (.reg (.gpr 0)) 64], fallThrough := some 1 }
    | _ => {}
  part _ := {}

-- The head takes its offset from the end of the loop, which takes it from the head.
example : (findFrameSizes [0, 1, 2] 3 lateHead).map (fun h ↦
    ((h.frag 0).exitOffset, (h.frag 2).entryOffset)) = some (0, 8) := by decide

/-- A fragment that the entry does not lead to pushes, and goes to one that it leads to. -/
def strayPush : Heap where
  frag
    | 0 => { cls := .partitionEntry, fallThrough := some 1 }
    | 2 => { instrs := [.push (.reg (.gpr 0)) 64], fallThrough := some 1 }
    | _ => {}
  part _ := {}

example : (findFrameSizes [0, 1, 2] 3 strayPush).map (fun h ↦
    ((h.frag 0).exitOffset, (h.frag 1).entryOffset)) = some (0, -8) := by decide

/-- The head of a loop pushes, one of two ways from it to the end pushes and pops, and the end
pops. -/
def loopWithTwoWays : Heap where
  frag
    | 0 => { cls := .partitionEntry, fallThrough := some 1 }
    | 1 => { instrs := [.push (.reg (.gpr 0)) 64], fallThrough := some 2, branch := some 3 }
    | 2 => { instrs := [.push (.reg (.gpr 1)) 64, .pop 2 64], fallThrough := some 3 }
    | 3 => { instrs := [.pop 0 64], fallThrough := some 1, branch := some 4 }
    | 4 => { cls := .partitionExit }
    | _ => {}
  part _ := {}

def loopOffset (i : FragmentId) : ℤ := if i = 2 ∨ i = 3 then -8 else 0

theorem edge_loopWithTwoWays (hij : Edge [0, 1, 2, 3, 4] loopWithTwoWays i j) :
    j ∈ [0, 1, 2, 3, 4] ∧
      loopOffset j = loopOffset i + netShift (loopWithTwoWays.frag i).instrs := by
  have h : ∀ i ∈ [0, 1, 2, 3, 4], ∀ j ∈ (loopWithTwoWays.frag i).successors, j ∈ [0, 1, 2, 3, 4] ∧
      loopOffset j = loopOffset i + netShift (loopWithTwoWays.frag i).instrs := by decide
  exact h i hij.1 j hij.2.1

theorem pathShift_loopWithTwoWays (hd : PathShift [0, 1, 2, 3, 4] loopWithTwoWays 0 i d) :
    d = loopOffset i :=
  hd.eq_of_edges (by decide) fun _ _ hij ↦ (edge_loopWithTwoWays hij).2

theorem consistent_loopWithTwoWays : Consistent [0, 1, 2, 3, 4] loopWithTwoWays 0 where
  fresh := by
    refine ⟨by decide, fun i ↦ ?_, fun i ↦ ?_⟩
    · rcases i with _ | _ | _ | _ | _ | i <;> rfl
    · rcases i with _ | _ | _ | _ | _ | i <;> rfl
  analyzed := rfl
  low := rfl
  closed i j hij := (edge_loopWithTwoWays hij).1
  unique i d d' hd hd' :=
    (pathShift_loopWithTwoWays hd).trans (pathShift_loopWithTwoWays hd').symm
  reachable i hi _ := by
    have h₀ : PathShift [0, 1, 2, 3, 4] loopWithTwoWays 0 0 0 := .entry (by decide) rfl rfl
    have h₁ : PathShift [0, 1, 2, 3, 4] loopWithTwoWays 0 1 _ := h₀.step ⟨by decide, by decide, rfl⟩
    have h₂ : PathShift [0, 1, 2, 3, 4] loopWithTwoWays 0 2 _ := h₁.step ⟨by decide, by decide, rfl⟩
    have h₃ : PathShift [0, 1, 2, 3, 4] loopWithTwoWays 0 3 _ := h₁.step ⟨by decide, by decide, rfl⟩
    have h₄ : PathShift [0, 1, 2, 3, 4] loopWithTwoWays 0 4 _ := h₃.step ⟨by decide, by decide, rfl⟩
    fin_cases hi
    · exact ⟨_, h₀⟩
    · exact ⟨_, h₁⟩
    · exact ⟨_, h₂⟩
    · exact ⟨_, h₃⟩
    · exact ⟨_, h₄⟩
  recurrent k d hd hrec := by
    obtain ⟨n, hn⟩ := hrec
    have hmem := hd.mem fun i j hij ↦ (edge_loopWithTwoWays hij).1
    have hnone : passSource [0, 1, 2, 3, 4] loopWithTwoWays k = none := by fin_cases hmem <;> rfl
    rw [sources, hnone] at hn
    cases hn

theorem findFrameSizes_sound_loopWithTwoWays :
    ∃ h', findFrameSizes [0, 1, 2, 3, 4] 3 loopWithTwoWays = some h' ∧
      (∀ i j, Edge [0, 1, 2, 3, 4] loopWithTwoWays i j → (loopWithTwoWays.frag j).partition = 0 →
        (h'.frag j).entryOffset = (h'.frag i).exitOffset) ∧
      (∀ i ∈ [0, 1, 2, 3, 4], (loopWithTwoWays.frag i).partition = 0 →
        (h'.frag i).exitOffset =
          (h'.frag i).entryOffset + netShift (loopWithTwoWays.frag i).instrs) ∧
      ∀ i d, PathShift [0, 1, 2, 3, 4] loopWithTwoWays 0 i d →
        ∀ x ∈ reached (loopWithTwoWays.frag i).instrs d, (h'.part 0).minFrameOffset ≤ x := by
  have hsome : (findFrameSizes [0, 1, 2, 3, 4] 3 loopWithTwoWays).isSome = true := by decide +kernel
  obtain ⟨h', hrun⟩ := Option.isSome_iff_exists.1 hsome
  exact ⟨h', hrun, findFrameSizes_sound consistent_loopWithTwoWays hrun⟩

def oneFragmentOffset (is : List Instr) (i : FragmentId) : ℤ := if i = 2 then netShift is else 0

theorem sameShift_oneFragment (is : List Instr) :
    SameShift [0, 1, 2] (oneFragment is) 0 := by
  have hedge (i j : FragmentId) (hij : Edge [0, 1, 2] (oneFragment is) i j) : j ∈ [0, 1, 2] ∧
      oneFragmentOffset is j =
        oneFragmentOffset is i + netShift ((oneFragment is).frag i).instrs := by
    obtain ⟨hi, hj, -⟩ := hij
    fin_cases hi
    · obtain rfl := List.mem_singleton.1 hj
      exact ⟨by decide, rfl⟩
    · obtain rfl := List.mem_singleton.1 hj
      exact ⟨by decide, (zero_add _).symm⟩
    · exact absurd hj List.not_mem_nil
  have hentry : ∀ i ∈ [0, 1, 2], ((oneFragment is).frag i).cls = .partitionEntry →
      oneFragmentOffset is i = 0 := by
    intro i hi hcls
    fin_cases hi
    · rfl
    · exact absurd hcls FragmentClass.noConfusion
    · exact absurd hcls FragmentClass.noConfusion
  refine ⟨fresh_oneFragment is, rfl, rfl, fun i j hij ↦ (hedge i j hij).1, fun i d d' hd hd' ↦ ?_⟩
  rw [hd.eq_of_edges hentry fun i j hij ↦ (hedge i j hij).2,
    hd'.eq_of_edges hentry fun i j hij ↦ (hedge i j hij).2]

/-- `mov [rsp - 8], rax`. -/
def storeBelow : List Instr := [.mov (.mem (baseDispMemOp (-8) 64)) (.reg (.gpr 0))]

theorem findFrameSizes_not_sound :
    ¬ ∀ frags h p fuel h', SameShift frags h p → findFrameSizes frags fuel h = some h' →
      (∀ i j, Edge frags h i j → (h.frag j).partition = p →
        (h'.frag j).entryOffset = (h'.frag i).exitOffset) ∧
      (∀ i ∈ frags, (h.frag i).partition = p →
        (h'.frag i).exitOffset = (h'.frag i).entryOffset + netShift (h.frag i).instrs) ∧
      ∀ i d, PathShift frags h p i d → ∀ regs,
        ∀ x ∈ reached (h.frag i).instrs d ++ accessed regs (h.frag i).instrs d,
          (h'.part p).minFrameOffset ≤ x := by
  intro hsound
  have hsome : (findFrameSizes [0, 1, 2] 3 (oneFragment storeBelow)).map
      (fun h' ↦ (h'.part 0).minFrameOffset) = some 0 := by decide
  obtain ⟨h', hrun, hlow⟩ := Option.map_eq_some_iff.1 hsome
  have hpath : PathShift [0, 1, 2] (oneFragment storeBelow) 0 1 0 :=
    .step (d := 0) (.entry (i := 0) (by decide) rfl rfl) ⟨by decide, List.mem_singleton_self 1, rfl⟩
  have hle := (hsound _ _ 0 3 h' (sameShift_oneFragment storeBelow) hrun).2.2 1 0 hpath
    (fun _ ↦ 0) (-8) (by decide)
  rw [hlow] at hle
  exact absurd hle (by decide)

end Granary.Assemble.AllocateSlots
