import Granary.Base.Iterate
import Granary.Code.Fragment

namespace Granary.Assemble.TrackVirtualRegs

open Granary.Base Granary.Base.Iterate Granary.Arch Granary.Code Function

/-- The operand with index `n` looks like a read and write, but clears its
register: `SUB R, R`, `XOR R, R` or `AND R, 0`. -/
def operandIsWrite (instr : Arch.Instruction) (n : ℕ) : Bool :=
  match instr.iform, instr.ops with
  | .xorGprGpr, op₀ :: op₁ :: _ | .subGprGpr, op₀ :: op₁ :: _ =>
    match op₀.reg?, op₁.reg? with
    | some r₀, some r₁ => n == 0 && r₀.same r₁
    | _, _ => false
  | .andGprImm, _ :: op₁ :: _ => n == 0 && op₁.isImmediateZero
  | _, _ => false

/-- An instruction and the definition counts of its fragment, to which its
operands are added. -/
structure Found where
  instr : NativeInstruction
  defRegs : List VRId
deriving DecidableEq, Repr

def Found.use (s : Found) (v : VRId) : Found :=
  { s with instr := { s.instr with usedVrs := s.instr.usedVrs ++ [v] } }

def Found.define (s : Found) (v : VRId) : Found := { s with instr := { s.instr with definedVr := v } }

def addOperand (n : ℕ) (op : Operand) (reg : VirtualRegister) (s : Found) : Found :=
  if reg.isVirtual then
    let v := reg.number
    let counted : Found := { s with defRegs := v :: s.defRegs }
    if op.isMemory then s.use v
    else if op.rw.isConditionalWrite || op.isReadWrite then
      if operandIsWrite s.instr.instruction n then counted.define v else counted.use v
    else if op.rw.isWrite then
      if !op.isDefinition && reg.preservesBytesOnWrite then counted.use v else counted.define v
    else s.use v
  else s

def addOpVRs (s : Found) (op : Operand × ℕ) : Found :=
  if op.1.isExplicit then
    match op.1.value with
    | .reg r => addOperand op.2 op.1 r s
    | .mem _ | .compound .. => op.1.matchedRegisters.foldl (fun s r ↦ addOperand op.2 op.1 r s) s
    | .ptr _ | .imm _ | .branchTarget _ => s
  else s

def addInstructionVRs (instr : NativeInstruction) (defRegs : List VRId) : Found :=
  instr.instruction.ops.zipIdx.foldl addOpVRs ⟨instr, defRegs⟩

/-- The body of the loop over the instructions of a fragment, last instruction
first. -/
def findInstructionVRs (instr : Code.Instruction) (f : Fragment) : Fragment :=
  match instr with
  | .native ninstr =>
    let s := addInstructionVRs ninstr f.defRegs
    let used := s.instr.usedVrs.filter (· ≠ 0)
    let entry := f.entryRegs.union used
    let exit := f.exitRegs.union used
    { f with
      instrs := .native s.instr :: f.instrs
      defRegs := s.defRegs
      entryRegs := if s.instr.definedVr ≠ 0 then entry.remove s.instr.definedVr else entry
      exitRegs := if s.instr.definedVr ≠ 0 then exit.add s.instr.definedVr else exit }
  | _ => { f with instrs := instr :: f.instrs }

def findFragmentVRs (f : Fragment) : Fragment :=
  f.instrs.foldr findInstructionVRs { f with instrs := [] }

def findVRs (frags : List FragmentId) (h : Heap) : Heap :=
  frags.foldl (fun h i ↦ if (h i).isCode then update h i (findFragmentVRs (h i)) else h) h

def inheritVr (pred : FragmentId) (h : Heap) (v : VRId) : Heap × Bool :=
  if v ∈ (h pred).exitRegs then (h, false)
  else
    (update h pred { h pred with
      exitRegs := (h pred).exitRegs.add v
      entryRegs := if (h pred).attr.followsPartitionEntrypoint then (h pred).entryRegs
        else (h pred).entryRegs.add v }, true)

def backPropagateEntryDefs (pred : FragmentId) (h : Heap) (succ : FragmentId) : Heap × Bool :=
  if (h succ).isCode then sweep (inheritVr pred) (h succ).entryRegs h else (h, false)

def backPropagateFragment (h : Heap) (i : FragmentId) : Heap × Bool :=
  if (h i).isCode then sweep (backPropagateEntryDefs i) (h i).successors h else (h, false)

def backPropagatePass (frags : List FragmentId) : Heap → Heap × Bool :=
  sweep backPropagateFragment frags.reverse

def getDefSet (f : Fragment) : TinySet VRId := f.exitRegs.filter (· ∉ f.entryRegs)

/-- Live ranges are only extended within a partition, and not from colder into
hotter code. -/
def mayExtend (h : Heap) (i j : FragmentId) : Bool :=
  !decide ((h i).cache < (h j).cache) && (h i).partition == (h j).partition && (h j).isCode

def extendExit (h : Heap) (i : FragmentId) : Heap :=
  if (h i).isCode then
    let defSet : TinySet VRId := (h i).successors.foldl
      (fun defSet j ↦ if mayExtend h i j then defSet.union (getDefSet (h j)) else defSet) []
    update h i { h i with exitRegs := (h i).exitRegs.union defSet }
  else h

def extendEntry (h : Heap) (j : FragmentId) : Heap :=
  update h j { h j with entryRegs := (h j).entryRegs.union (getDefSet (h j)) }

def extendEntries (h : Heap) (i : FragmentId) : Heap :=
  if (h i).isCode then
    (h i).successors.foldl (fun h j ↦ if mayExtend h i j then extendEntry h j else h) h
  else h

def extendLiveRanges (frags : List FragmentId) (h : Heap) : Heap :=
  frags.reverse.foldl extendEntries (frags.reverse.foldl extendExit h)

def compensatingFrag (p s : Fragment) (succ : FragmentId) (entryRegs exitRegs : TinySet VRId) :
    Fragment :=
  { attr := { isCompensationFrag := true }
    entryRegs := TinySet.union [] entryRegs
    exitRegs := TinySet.union [] exitRegs
    partition := p.partition
    flagZone := s.flagZone
    cache := if p.cache < s.cache then s.cache else p.cache
    fallThrough := some succ }

/-- Puts a compensating fragment between `pred` and its successor `succ` in slot
`k`. -/
def makeCompensatingFrag (g : FragmentList) (pred : FragmentId) (k : Slot) (succ : FragmentId)
    (entryRegs exitRegs : TinySet VRId) : FragmentList :=
  let p := g.heap pred
  let comp := compensatingFrag p (g.heap succ) succ entryRegs exitRegs
  { frags := FragmentList.insertAfter g.frags pred g.next
    heap := update (update g.heap g.next comp) pred (p.setSuccessor k (some g.next))
    next := g.next + 1 }

def addCompensatingFragment (g : FragmentList) (pred : FragmentId) (k : Slot) : FragmentList :=
  match (g.heap pred).successor k with
  | none => g
  | some succ =>
    let p := g.heap pred
    let s := g.heap succ
    if p.exitRegs.isEmpty then g
    else if s.isCode then
      if s.attr.isCompensationFrag then g
      else if ∀ v ∈ p.exitRegs, v ∈ s.entryRegs then g
      else makeCompensatingFrag g pred k succ p.exitRegs s.entryRegs
    else makeCompensatingFrag g pred k succ p.exitRegs []

def addCompensatingFragments (g : FragmentList) : FragmentList :=
  g.frags.reverse.foldl (fun g i ↦
    if (g.heap i).isCode && !(g.heap i).attr.isCompensationFrag then
      addCompensatingFragment (addCompensatingFragment g i .fallThrough) i .branch
    else g) g

/-- `TrackVirtualRegs`, with at most `fuel` passes of back-propagation. -/
def trackVirtualRegs (fuel : ℕ) (g : FragmentList) : Option FragmentList :=
  (repeatUntil (backPropagatePass g.frags) fuel (findVRs g.frags g.heap)).map fun h ↦
    addCompensatingFragments { g with heap := extendLiveRanges g.frags h }

def usedBy (instr : NativeInstruction) : List VRId :=
  (addInstructionVRs instr []).instr.usedVrs.filter (· ≠ 0)

/-- The virtual register that an instruction defines, or `0`. -/
def definedBy (instr : NativeInstruction) : VRId := (addInstructionVRs instr []).instr.definedVr

def mentioned : List Code.Instruction → List VRId
  | [] => []
  | .native instr :: instrs =>
    (definedBy instr :: usedBy instr).filter (· ≠ 0) ++ mentioned instrs
  | _ :: instrs => mentioned instrs

/-- The virtual registers that some instructions use, up to the first instruction
that defines them. -/
def exposed : List Code.Instruction → List VRId
  | [] => []
  | .native instr :: instrs => (usedBy instr ++ exposed instrs).filter (· ≠ definedBy instr)
  | _ :: instrs => exposed instrs

theorem ne_zero_of_mem_usedBy {instr : NativeInstruction} {v : VRId} (hv : v ∈ usedBy instr) :
    v ≠ 0 := by
  simpa using (List.mem_filter.mp hv).2

theorem ne_zero_of_mem_exposed {instrs : List Code.Instruction} {v : VRId}
    (hv : v ∈ exposed instrs) : v ≠ 0 := by
  induction instrs with
  | nil => exact absurd hv List.not_mem_nil
  | cons instr instrs ih =>
    cases instr with
    | label => exact ih hv
    | annot => exact ih hv
    | native instr =>
      rcases List.mem_append.mp (List.mem_filter.mp hv).1 with hv | hv
      · exact ne_zero_of_mem_usedBy hv
      · exact ih hv

theorem exposed_sub_mentioned {instrs : List Code.Instruction} {v : VRId}
    (hv : v ∈ exposed instrs) : v ∈ mentioned instrs := by
  induction instrs with
  | nil => exact hv
  | cons instr instrs ih =>
    cases instr with
    | label => exact ih hv
    | annot => exact ih hv
    | native instr =>
      have h0 := ne_zero_of_mem_exposed hv
      rcases List.mem_append.mp (List.mem_filter.mp hv).1 with hv | hv
      · refine List.mem_append_left _ (List.mem_filter.mpr ⟨List.mem_cons_of_mem _ hv, ?_⟩)
        simpa using h0
      · exact List.mem_append_right _ (ih hv)

theorem addOperand_instr (n : ℕ) (op : Operand) (reg : VirtualRegister) (s : Found)
    (d : List VRId) : (addOperand n op reg s).instr = (addOperand n op reg ⟨s.instr, d⟩).instr := by
  unfold addOperand
  split_ifs <;> rfl

theorem foldl_addOperand_instr (n : ℕ) (op : Operand) (regs : List VirtualRegister) {s t : Found}
    (h : s.instr = t.instr) :
    (regs.foldl (fun s r ↦ addOperand n op r s) s).instr =
      (regs.foldl (fun s r ↦ addOperand n op r s) t).instr := by
  induction regs generalizing s t with
  | nil => exact h
  | cons r regs ih =>
    refine ih ?_
    rw [addOperand_instr n op r s t.defRegs, h]

theorem addOpVRs_instr (op : Operand × ℕ) {s t : Found} (h : s.instr = t.instr) :
    (addOpVRs s op).instr = (addOpVRs t op).instr := by
  unfold addOpVRs
  split_ifs
  · cases op.1.value with
    | reg r => exact foldl_addOperand_instr _ _ [r] h
    | mem => exact foldl_addOperand_instr _ _ _ h
    | compound => exact foldl_addOperand_instr _ _ _ h
    | ptr => exact h
    | imm => exact h
    | branchTarget => exact h
  · exact h

theorem addInstructionVRs_instr (instr : NativeInstruction) (d : List VRId) :
    (addInstructionVRs instr d).instr = (addInstructionVRs instr []).instr := by
  suffices h : ∀ (ops : List (Operand × ℕ)) (s t : Found), s.instr = t.instr →
      (ops.foldl addOpVRs s).instr = (ops.foldl addOpVRs t).instr from h _ _ _ rfl
  intro ops
  induction ops with
  | nil => exact fun s t h ↦ h
  | cons op ops ih => exact fun s t h ↦ ih _ _ (addOpVRs_instr op h)

/-- What the tracking of virtual registers does not change of a fragment, before
compensating fragments are added. -/
def skeleton (f : Fragment) : Fragment :=
  { f with instrs := [], defRegs := [], entryRegs := [], exitRegs := [] }

theorem foldr_findInstructionVRs (instrs : List Code.Instruction) (f : Fragment)
    (he : f.entryRegs = []) (hx : f.exitRegs = []) :
    skeleton (instrs.foldr findInstructionVRs f) = skeleton f ∧
      (∀ v, v ∈ (instrs.foldr findInstructionVRs f).entryRegs ↔ v ∈ exposed instrs) ∧
      ∀ v, v ∈ (instrs.foldr findInstructionVRs f).exitRegs ↔ v ∈ mentioned instrs := by
  induction instrs with
  | nil => simp [exposed, mentioned, he, hx]
  | cons instr instrs ih =>
    obtain ⟨hs, hentry, hexit⟩ := ih
    rw [List.foldr_cons]
    generalize instrs.foldr findInstructionVRs f = g at hs hentry hexit ⊢
    cases instr with
    | label => exact ⟨hs, hentry, hexit⟩
    | annot => exact ⟨hs, hentry, hexit⟩
    | native instr =>
      have hd : (addInstructionVRs instr g.defRegs).instr.definedVr = definedBy instr := by
        rw [addInstructionVRs_instr, definedBy]
      have hu : (addInstructionVRs instr g.defRegs).instr.usedVrs.filter (· ≠ 0) = usedBy instr := by
        rw [addInstructionVRs_instr, usedBy]
      refine ⟨hs, fun v ↦ ?_, fun v ↦ ?_⟩
      · have hv : v ∈ usedBy instr ∨ v ∈ exposed instrs → v ≠ 0 := fun h ↦
          h.elim ne_zero_of_mem_usedBy ne_zero_of_mem_exposed
        simp only [findInstructionVRs, hd, hu, exposed, List.mem_filter, List.mem_append,
          decide_eq_true_eq]
        split_ifs with h0
        · rw [TinySet.mem_remove, TinySet.mem_union, hentry]
          tauto
        · rw [TinySet.mem_union, hentry, not_not.mp h0]
          tauto
      · have hv : v ∈ usedBy instr → v ≠ 0 := ne_zero_of_mem_usedBy
        simp only [findInstructionVRs, hd, hu, mentioned, List.mem_filter, List.mem_append,
          List.mem_cons, decide_eq_true_eq]
        split_ifs with h0
        · rw [TinySet.mem_add, TinySet.mem_union, hexit]
          have hdef : v = definedBy instr → v ≠ 0 := fun h ↦ h ▸ h0
          tauto
        · rw [TinySet.mem_union, hexit, not_not.mp h0]
          tauto

theorem findFragmentVRs_spec {f : Fragment} (he : f.entryRegs = []) (hx : f.exitRegs = []) :
    skeleton (findFragmentVRs f) = skeleton f ∧
      (∀ v, v ∈ (findFragmentVRs f).entryRegs ↔ v ∈ exposed f.instrs) ∧
      ∀ v, v ∈ (findFragmentVRs f).exitRegs ↔ v ∈ mentioned f.instrs :=
  foldr_findInstructionVRs f.instrs { f with instrs := [] } he hx

theorem findVRs_of_not_mem {frags : List FragmentId} {i : FragmentId} (hi : i ∉ frags) (h : Heap) :
    findVRs frags h i = h i := by
  unfold findVRs
  induction frags generalizing h with
  | nil => rfl
  | cons j frags ih =>
    rw [List.mem_cons, not_or] at hi
    rw [List.foldl_cons, ih hi.2]
    split_ifs
    · exact update_of_ne hi.1 _ _
    · rfl

theorem findVRs_of_mem {frags : List FragmentId} (hn : frags.Nodup) {i : FragmentId}
    (hi : i ∈ frags) (h : Heap) :
    findVRs frags h i = if (h i).isCode then findFragmentVRs (h i) else h i := by
  unfold findVRs
  induction frags generalizing h with
  | nil => exact absurd hi List.not_mem_nil
  | cons j frags ih =>
    rw [List.nodup_cons] at hn
    rw [List.foldl_cons]
    by_cases hij : i = j
    · subst hij
      refine (findVRs_of_not_mem hn.1 _).trans ?_
      split_ifs
      · exact update_self _ _ _
      · rfl
    · rw [ih hn.2 ((List.mem_cons.mp hi).resolve_left hij)]
      split_ifs <;> simp_all

/-- The virtual register `v` may be used, before it is defined, on a path from
the entry of a fragment. The path does not go on from a fragment that names `v`,
or that follows the entry of its partition. -/
inductive UsedLater (h : Heap) (v : VRId) : FragmentId → Prop
  | here {i : FragmentId} (hv : v ∈ exposed (h i).instrs) : UsedLater h v i
  | later {i j : FragmentId} (hv : v ∉ mentioned (h i).instrs)
      (hf : (h i).attr.followsPartitionEntrypoint = false) (hj : j ∈ (h i).successors)
      (hc : (h j).isCode = true) (h' : UsedLater h v j) : UsedLater h v i

def LiveOut (h : Heap) (v : VRId) (i : FragmentId) : Prop :=
  v ∈ mentioned (h i).instrs ∨ ∃ j ∈ (h i).successors, (h j).isCode = true ∧ UsedLater h v j

theorem liveOut_of_usedLater {h : Heap} {v : VRId} {i : FragmentId} (hv : UsedLater h v i) :
    LiveOut h v i := by
  cases hv with
  | here hv => exact Or.inl (exposed_sub_mentioned hv)
  | later _ _ hj hc hv => exact Or.inr ⟨_, hj, hc, hv⟩

/-- Fragments whose registers have not been looked at. -/
structure Untracked (g : FragmentList) : Prop where
  entry : ∀ i, (g.heap i).entryRegs = []
  exit : ∀ i, (g.heap i).exitRegs = []
  notComp : ∀ i, (g.heap i).attr.isCompensationFrag = false

theorem code_of_skeleton {f g : Fragment} (h : skeleton f = skeleton g) : f.isCode = g.isCode :=
  (congrArg Fragment.isCode h :)

theorem successors_of_skeleton {f g : Fragment} (h : skeleton f = skeleton g) :
    f.successors = g.successors := (congrArg Fragment.successors h :)

theorem attr_of_skeleton {f g : Fragment} (h : skeleton f = skeleton g) : f.attr = g.attr :=
  (congrArg Fragment.attr h :)

/-- What back-propagation keeps: the register sets hold nothing but live
registers, and at least those that the fragment itself asks for. -/
structure Sound (g : FragmentList) (h : Heap) : Prop where
  skel : ∀ i, skeleton (h i) = skeleton (g.heap i)
  entry : ∀ i v, v ∈ (h i).entryRegs → UsedLater g.heap v i
  exit : ∀ i v, v ∈ (h i).exitRegs → LiveOut g.heap v i
  exposed_sub : ∀ i ∈ g.frags, (g.heap i).isCode = true → ∀ v ∈ exposed (g.heap i).instrs,
    v ∈ (h i).entryRegs
  mentioned_sub : ∀ i ∈ g.frags, (g.heap i).isCode = true → ∀ v ∈ mentioned (g.heap i).instrs,
    v ∈ (h i).exitRegs
  entry_sub : ∀ i v, v ∈ (h i).entryRegs → v ∈ (h i).exitRegs
  carried : ∀ i v, v ∈ (h i).exitRegs → v ∈ mentioned (g.heap i).instrs ∨
    (g.heap i).attr.followsPartitionEntrypoint = true ∨ v ∈ (h i).entryRegs

theorem sound_findVRs {g : FragmentList} (hg : g.WellFormed) (hu : Untracked g) :
    Sound g (findVRs g.frags g.heap) := by
  have key (i : FragmentId) : skeleton (findVRs g.frags g.heap i) = skeleton (g.heap i) ∧
      ((i ∈ g.frags ∧ (g.heap i).isCode = true) ∧
        (∀ v, v ∈ (findVRs g.frags g.heap i).entryRegs ↔ v ∈ exposed (g.heap i).instrs) ∧
        (∀ v, v ∈ (findVRs g.frags g.heap i).exitRegs ↔ v ∈ mentioned (g.heap i).instrs) ∨
      ¬ (i ∈ g.frags ∧ (g.heap i).isCode = true) ∧
        (findVRs g.frags g.heap i).entryRegs = [] ∧ (findVRs g.frags g.heap i).exitRegs = []) := by
    by_cases hi : i ∈ g.frags
    · rw [findVRs_of_mem hg.nodup hi]
      by_cases hc : (g.heap i).isCode = true
      · rw [if_pos hc]
        obtain ⟨hs, hentry, hexit⟩ := findFragmentVRs_spec (hu.entry i) (hu.exit i)
        exact ⟨hs, Or.inl ⟨⟨hi, hc⟩, hentry, hexit⟩⟩
      · rw [if_neg hc]
        exact ⟨rfl, Or.inr ⟨fun h ↦ hc h.2, hu.entry i, hu.exit i⟩⟩
    · rw [findVRs_of_not_mem hi]
      exact ⟨rfl, Or.inr ⟨fun h ↦ hi h.1, hu.entry i, hu.exit i⟩⟩
  generalize findVRs g.frags g.heap = h at key
  refine ⟨fun i ↦ (key i).1, fun i v hv ↦ ?_, fun i v hv ↦ ?_, fun i hi hc v hv ↦ ?_,
    fun i hi hc v hv ↦ ?_, fun i v hv ↦ ?_, fun i v hv ↦ ?_⟩
  · rcases (key i).2 with ⟨-, hentry, -⟩ | ⟨-, hentry, -⟩
    · exact .here ((hentry v).mp hv)
    · rw [hentry] at hv
      exact absurd hv List.not_mem_nil
  · rcases (key i).2 with ⟨-, -, hexit⟩ | ⟨-, -, hexit⟩
    · exact Or.inl ((hexit v).mp hv)
    · rw [hexit] at hv
      exact absurd hv List.not_mem_nil
  · rcases (key i).2 with ⟨-, hentry, -⟩ | ⟨hne, -, -⟩
    · exact (hentry v).mpr hv
    · exact absurd ⟨hi, hc⟩ hne
  · rcases (key i).2 with ⟨-, -, hexit⟩ | ⟨hne, -, -⟩
    · exact (hexit v).mpr hv
    · exact absurd ⟨hi, hc⟩ hne
  · rcases (key i).2 with ⟨-, hentry, hexit⟩ | ⟨-, hentry, -⟩
    · exact (hexit v).mpr (exposed_sub_mentioned ((hentry v).mp hv))
    · rw [hentry] at hv
      exact absurd hv List.not_mem_nil
  · rcases (key i).2 with ⟨-, -, hexit⟩ | ⟨-, -, hexit⟩
    · exact Or.inl ((hexit v).mp hv)
    · rw [hexit] at hv
      exact absurd hv List.not_mem_nil

theorem inheritVr_of_ne {pred j : FragmentId} (hj : j ≠ pred) (h : Heap) (v : VRId) :
    (inheritVr pred h v).1 j = h j := by
  by_cases hv : v ∈ (h pred).exitRegs
  · simp only [inheritVr, if_pos hv]
  · simp only [inheritVr, if_neg hv, update_of_ne hj]

theorem sound_inheritVr {g : FragmentList} {h : Heap} (hs : Sound g h) {pred succ : FragmentId}
    (hp : pred ∈ g.frags) (hpc : (g.heap pred).isCode = true)
    (hj : succ ∈ (g.heap pred).successors) (hc : (g.heap succ).isCode = true) {v : VRId}
    (hv : UsedLater g.heap v succ) : Sound g (inheritVr pred h v).1 := by
  by_cases hin : v ∈ (h pred).exitRegs
  · simpa only [inheritVr, if_pos hin] using hs
  have hnew : (inheritVr pred h v).1 pred = { h pred with
      exitRegs := (h pred).exitRegs.add v
      entryRegs := if (h pred).attr.followsPartitionEntrypoint then (h pred).entryRegs
        else (h pred).entryRegs.add v } := by
    simp only [inheritVr, if_neg hin, update_self]
  have hattr : (h pred).attr = (g.heap pred).attr := attr_of_skeleton (hs.skel pred)
  have hment : v ∉ mentioned (g.heap pred).instrs := fun hm ↦ hin (hs.mentioned_sub pred hp hpc v hm)
  have hmono (w : VRId) (hw : w ∈ (h pred).entryRegs) :
      w ∈ ((inheritVr pred h v).1 pred).entryRegs := by
    rw [hnew]
    split_ifs
    · exact hw
    · exact TinySet.mem_add.mpr (Or.inl hw)
  have hinv (w : VRId) (hw : w ∈ ((inheritVr pred h v).1 pred).entryRegs) :
      w ∈ (h pred).entryRegs ∨
        w = v ∧ (g.heap pred).attr.followsPartitionEntrypoint = false := by
    rw [hnew, hattr] at hw
    by_cases hf : (g.heap pred).attr.followsPartitionEntrypoint = true
    · rw [if_pos hf] at hw
      exact Or.inl hw
    · rw [if_neg hf] at hw
      exact (TinySet.mem_add.mp hw).imp id fun he ↦ ⟨he, by simpa using hf⟩
  have hout (w : VRId) : w ∈ ((inheritVr pred h v).1 pred).exitRegs ↔
      w ∈ (h pred).exitRegs ∨ w = v := by
    rw [hnew]
    exact TinySet.mem_add
  refine ⟨fun i ↦ ?_, fun i w hw ↦ ?_, fun i w hw ↦ ?_, fun i hi hic w hw ↦ ?_,
    fun i hi hic w hw ↦ ?_, fun i w hw ↦ ?_, fun i w hw ↦ ?_⟩
  all_goals by_cases hip : i = pred
  all_goals first | subst hip | rw [inheritVr_of_ne hip] at *
  · rw [hnew]
    exact hs.skel i
  · exact hs.skel i
  · rcases hinv w hw with hw | ⟨rfl, hf⟩
    · exact hs.entry i w hw
    · exact .later hment hf hj hc hv
  · exact hs.entry i w hw
  · rcases (hout w).mp hw with hw | rfl
    · exact hs.exit i w hw
    · exact Or.inr ⟨succ, hj, hc, hv⟩
  · exact hs.exit i w hw
  · exact hmono w (hs.exposed_sub i hi hic w hw)
  · exact hs.exposed_sub i hi hic w hw
  · exact (hout w).mpr (Or.inl (hs.mentioned_sub i hi hic w hw))
  · exact hs.mentioned_sub i hi hic w hw
  · rcases hinv w hw with hw | ⟨rfl, -⟩
    · exact (hout w).mpr (Or.inl (hs.entry_sub i w hw))
    · exact (hout w).mpr (Or.inr rfl)
  · exact hs.entry_sub i w hw
  · rcases (hout w).mp hw with hw | rfl
    · exact (hs.carried i w hw).imp id (Or.imp id (hmono w))
    · by_cases hf : (g.heap i).attr.followsPartitionEntrypoint = true
      · exact Or.inr (Or.inl hf)
      · refine Or.inr (Or.inr ?_)
        rw [hnew, hattr, if_neg hf]
        exact TinySet.mem_add.mpr (Or.inr rfl)
  · exact hs.carried i w hw

def allVrs (g : FragmentList) : Finset VRId :=
  (g.frags.flatMap fun i ↦ mentioned (g.heap i).instrs).toFinset

theorem mem_allVrs {g : FragmentList} (hg : g.WellFormed) {v : VRId} {i : FragmentId}
    (hi : i ∈ g.frags) (hv : UsedLater g.heap v i) : v ∈ allVrs g := by
  induction hv with
  | here hv =>
    rw [allVrs, List.mem_toFinset, List.mem_flatMap]
    exact ⟨_, hi, exposed_sub_mentioned hv⟩
  | later _ _ hj hc _ ih => exact ih (hg.closed _ hi _ hj hc)

def liveCount (g : FragmentList) (h : Heap) : ℕ :=
  (g.frags.map fun i ↦ ((allVrs g).filter (· ∈ (h i).exitRegs)).card).sum

theorem liveCount_le (g : FragmentList) (h : Heap) :
    liveCount g h ≤ g.frags.length * (allVrs g).card := by
  have hle := List.sum_le_card_nsmul
    (g.frags.map fun i ↦ ((allVrs g).filter (· ∈ (h i).exitRegs)).card) (allVrs g).card (by
      intro x hx
      obtain ⟨i, -, rfl⟩ := List.mem_map.mp hx
      exact Finset.card_filter_le _ _)
  simpa [liveCount] using hle

theorem inheritVr_exit (pred : FragmentId) (h : Heap) (v : VRId) (i : FragmentId) (w : VRId) :
    w ∈ ((inheritVr pred h v).1 i).exitRegs ↔ w ∈ (h i).exitRegs ∨ i = pred ∧ w = v := by
  by_cases hi : i = pred
  · subst hi
    by_cases hv : v ∈ (h i).exitRegs
    · simp only [inheritVr, if_pos hv, true_and]
      exact ⟨Or.inl, fun hw ↦ hw.elim id fun he ↦ he ▸ hv⟩
    · simp only [inheritVr, if_neg hv, update_self, TinySet.mem_add, true_and]
  · simp only [inheritVr_of_ne hi, hi, false_and, or_false]

theorem liveCount_inheritVr {g : FragmentList} {h : Heap} {pred : FragmentId} {v : VRId}
    (hp : pred ∈ g.frags) (hv : v ∈ allVrs g) :
    liveCount g h ≤ liveCount g (inheritVr pred h v).1 ∧
      ((inheritVr pred h v).2 = true → liveCount g h < liveCount g (inheritVr pred h v).1) := by
  have hsub (i : FragmentId) : (allVrs g).filter (· ∈ (h i).exitRegs) ⊆
      (allVrs g).filter (· ∈ ((inheritVr pred h v).1 i).exitRegs) := by
    intro w hw
    rw [Finset.mem_filter] at hw ⊢
    exact ⟨hw.1, (inheritVr_exit pred h v i w).mpr (Or.inl hw.2)⟩
  refine ⟨List.sum_le_sum fun i _ ↦ Finset.card_le_card (hsub i), fun hc ↦ ?_⟩
  refine List.sum_lt_sum _ _ (fun i _ ↦ Finset.card_le_card (hsub i)) ⟨pred, hp, ?_⟩
  have hout : v ∉ (h pred).exitRegs := by
    intro hin
    simp only [inheritVr, if_pos hin] at hc
    exact Bool.false_ne_true hc
  refine Finset.card_lt_card (Finset.ssubset_iff_of_subset (hsub pred) |>.mpr ⟨v, ?_, ?_⟩)
  · rw [Finset.mem_filter, inheritVr_exit]
    exact ⟨hv, Or.inr ⟨rfl, rfl⟩⟩
  · rw [Finset.mem_filter]
    exact fun h ↦ hout h.2

theorem raises_backPropagateFragment {g : FragmentList} (hg : g.WellFormed) {h : Heap}
    (hs : Sound g h) {i : FragmentId} (hi : i ∈ g.frags) :
    Raises (Sound g) (liveCount g) h (backPropagateFragment h i) := by
  unfold backPropagateFragment
  split_ifs with hc
  · rw [code_of_skeleton (hs.skel i)] at hc
    refine raises_sweep (fun j hj h' hs' ↦ ?_) hs
    rw [successors_of_skeleton (hs.skel i)] at hj
    unfold backPropagateEntryDefs
    split_ifs with hjc
    · rw [code_of_skeleton (hs'.skel j)] at hjc
      refine raises_sweep (fun v hv h'' hs'' ↦ ?_) hs'
      have hlive := hs'.entry j v hv
      have hcount := liveCount_inheritVr (h := h'') hi (mem_allVrs hg (hg.closed i hi j hj hjc) hlive)
      exact ⟨sound_inheritVr hs'' hi hc hj hjc hlive, hcount.1, hcount.2⟩
    · exact .refl hs'
  · exact .refl hs

theorem inheritVr_quiet {pred : FragmentId} {h : Heap} {v : VRId}
    (hq : (inheritVr pred h v).2 = false) :
    (inheritVr pred h v).1 = h ∧ v ∈ (h pred).exitRegs := by
  by_cases hv : v ∈ (h pred).exitRegs
  · exact ⟨by simp only [inheritVr, if_pos hv], hv⟩
  · simp [inheritVr, if_neg hv] at hq

theorem backPropagateEntryDefs_quiet {pred succ : FragmentId} {h : Heap}
    (hq : (backPropagateEntryDefs pred h succ).2 = false) :
    (backPropagateEntryDefs pred h succ).1 = h ∧
      ((h succ).isCode = true → ∀ v ∈ (h succ).entryRegs, v ∈ (h pred).exitRegs) := by
  unfold backPropagateEntryDefs at hq ⊢
  split_ifs at hq ⊢ with hc
  · obtain ⟨he, hv⟩ := sweep_fixed (fun v _ h hq ↦ (inheritVr_quiet hq).1) hq
    exact ⟨he, fun _ v hmem ↦ (inheritVr_quiet (hv v hmem)).2⟩
  · exact ⟨rfl, fun hc' ↦ absurd hc' hc⟩

theorem backPropagateFragment_quiet {h : Heap} {i : FragmentId}
    (hq : (backPropagateFragment h i).2 = false) :
    (backPropagateFragment h i).1 = h ∧ ((h i).isCode = true → ∀ j ∈ (h i).successors,
      (h j).isCode = true → ∀ v ∈ (h j).entryRegs, v ∈ (h i).exitRegs) := by
  unfold backPropagateFragment at hq ⊢
  split_ifs at hq ⊢ with hc
  · obtain ⟨he, hj⟩ := sweep_fixed (fun j _ h hq ↦ (backPropagateEntryDefs_quiet hq).1) hq
    exact ⟨he, fun _ j hmem ↦ (backPropagateEntryDefs_quiet (hj j hmem)).2⟩
  · exact ⟨rfl, fun hc' ↦ absurd hc' hc⟩

/-- Back-propagation terminates with the live registers. -/
structure Propagated (g : FragmentList) (h : Heap) : Prop where
  skel : ∀ i, skeleton (h i) = skeleton (g.heap i)
  entry : ∀ i ∈ g.frags, (g.heap i).isCode = true → ∀ v,
    v ∈ (h i).entryRegs ↔ UsedLater g.heap v i
  exit : ∀ i ∈ g.frags, (g.heap i).isCode = true → ∀ v, v ∈ (h i).exitRegs ↔ LiveOut g.heap v i

theorem propagated_of_quiet {g : FragmentList} (hg : g.WellFormed) {h : Heap} (hs : Sound g h)
    (hq : ∀ i ∈ g.frags, (g.heap i).isCode = true → ∀ j ∈ (g.heap i).successors,
      (g.heap j).isCode = true → ∀ v ∈ (h j).entryRegs, v ∈ (h i).exitRegs) : Propagated g h := by
  have hentry (i : FragmentId) (v : VRId) (hv : UsedLater g.heap v i) :
      i ∈ g.frags → (g.heap i).isCode = true → v ∈ (h i).entryRegs := by
    induction hv with
    | here hv => exact fun hi hc ↦ hs.exposed_sub _ hi hc v hv
    | later hment hf hj hjc _ ih =>
      intro hi hc
      have hout := hq _ hi hc _ hj hjc v (ih (hg.closed _ hi _ hj hjc) hjc)
      rcases hs.carried _ v hout with hm | hf' | hin
      · exact absurd hm hment
      · rw [hf] at hf'
        exact absurd hf' Bool.false_ne_true
      · exact hin
  refine ⟨hs.skel, fun i hi hc v ↦ ⟨hs.entry i v, fun hv ↦ hentry i v hv hi hc⟩,
    fun i hi hc v ↦ ⟨hs.exit i v, fun hv ↦ ?_⟩⟩
  rcases hv with hv | ⟨j, hj, hjc, hv⟩
  · exact hs.mentioned_sub i hi hc v hv
  · exact hq i hi hc j hj hjc v (hentry j v hv (hg.closed i hi j hj hjc) hjc)

theorem backPropagation_stops {g : FragmentList} (hg : g.WellFormed) (hu : Untracked g) :
    ∃ h, Propagated g h ∧ Stops (backPropagatePass g.frags) (findVRs g.frags g.heap) h := by
  obtain ⟨h, hs, hq, hstop⟩ := stops_of_measure
    (fun h hs ↦ raises_sweep
      (fun i hi h hs ↦ raises_backPropagateFragment hg hs (List.mem_reverse.mp hi)) hs)
    (fun h _ ↦ liveCount_le g h) (sound_findVRs hg hu)
  obtain ⟨he, hquiet⟩ := sweep_fixed (fun i _ h hq ↦ (backPropagateFragment_quiet hq).1) hq
  refine ⟨h, propagated_of_quiet hg hs fun i hi hc j hj hjc v hv ↦ ?_, ?_⟩
  · rw [← code_of_skeleton (hs.skel i)] at hc
    rw [← successors_of_skeleton (hs.skel i)] at hj
    rw [← code_of_skeleton (hs.skel j)] at hjc
    exact (backPropagateFragment_quiet (hquiet i (List.mem_reverse.mpr hi))).2 hc j hj hjc v hv
  · rwa [he] at hstop

/-- The virtual register `v` is live out of a fragment once live ranges have been
extended. The definitions of a successor that comes later in the list are taken
after its own live range was extended, and those of any other before. -/
inductive Extended (g : FragmentList) (v : VRId) : FragmentId → Prop
  | live {i : FragmentId} (hv : LiveOut g.heap v i) : Extended g v i
  | ahead {i j : FragmentId} (hj : j ∈ (g.heap i).successors) (he : mayExtend g.heap i j = true)
      (hlt : g.frags.idxOf i < g.frags.idxOf j) (hv : Extended g v j) : Extended g v i
  | behind {i j : FragmentId} (hj : j ∈ (g.heap i).successors) (he : mayExtend g.heap i j = true)
      (hle : g.frags.idxOf j ≤ g.frags.idxOf i) (hv : LiveOut g.heap v j) : Extended g v i

theorem mayExtend_of_skeleton {h h' : Heap} (hs : ∀ i, skeleton (h' i) = skeleton (h i))
    (i j : FragmentId) : mayExtend h' i j = mayExtend h i j := by
  have hcache (i : FragmentId) : (h' i).cache = (h i).cache := (congrArg Fragment.cache (hs i) :)
  have hpart (i : FragmentId) : (h' i).partition = (h i).partition :=
    (congrArg Fragment.partition (hs i) :)
  simp only [mayExtend, hcache, hpart, code_of_skeleton (hs j)]

theorem isCode_of_mayExtend {h : Heap} {i j : FragmentId} (he : mayExtend h i j = true) :
    (h j).isCode = true := by
  simp only [mayExtend, Bool.and_eq_true] at he
  exact he.2

theorem mem_getDefSet {f : Fragment} {v : VRId} :
    v ∈ getDefSet f ↔ v ∈ f.exitRegs ∧ v ∉ f.entryRegs := by
  simp [getDefSet]

theorem mem_defSets {h : Heap} {i : FragmentId} {l : List FragmentId} {v : VRId}
    {s : TinySet VRId} :
    v ∈ l.foldl (fun (defSet : TinySet VRId) j ↦
        if mayExtend h i j then defSet.union (getDefSet (h j)) else defSet) s ↔
      v ∈ s ∨ ∃ j ∈ l, mayExtend h i j = true ∧ v ∈ (h j).exitRegs ∧ v ∉ (h j).entryRegs := by
  induction l generalizing s with
  | nil => simp
  | cons j l ih =>
    rw [List.foldl_cons, ih]
    simp only [List.mem_cons, exists_eq_or_imp]
    split_ifs with he
    · simp only [he, true_and, TinySet.mem_union, mem_getDefSet, or_assoc]
    · simp only [he]
      tauto

theorem extendExit_of_ne {i j : FragmentId} (hj : j ≠ i) (h : Heap) :
    extendExit h i j = h j := by
  unfold extendExit
  split_ifs
  · exact update_of_ne hj _ _
  · rfl

theorem extendExit_self {h : Heap} {i : FragmentId} (hc : (h i).isCode = true) (v : VRId) :
    v ∈ (extendExit h i i).exitRegs ↔ v ∈ (h i).exitRegs ∨ ∃ j ∈ (h i).successors,
      mayExtend h i j = true ∧ v ∈ (h j).exitRegs ∧ v ∉ (h j).entryRegs := by
  simp only [extendExit, if_pos hc, update_self, TinySet.mem_union, mem_defSets,
    List.not_mem_nil, false_or]

theorem extendExit_frame (h : Heap) (i j : FragmentId) :
    skeleton (extendExit h i j) = skeleton (h j) ∧ (extendExit h i j).entryRegs = (h j).entryRegs := by
  by_cases hj : j = i
  · subst hj
    unfold extendExit
    split_ifs
    · rw [update_self]
      exact ⟨rfl, rfl⟩
    · exact ⟨rfl, rfl⟩
  · rw [extendExit_of_ne hj]
    exact ⟨rfl, rfl⟩

/-- The first half of the extension, after the fragments of `post` have had their
turn. -/
structure ExitsExtended (g : FragmentList) (b : Heap) (post : List FragmentId) (h : Heap) : Prop where
  skel : ∀ i, skeleton (h i) = skeleton (b i)
  entry : ∀ i, (h i).entryRegs = (b i).entryRegs
  todo : ∀ i, i ∉ post → h i = b i
  done : ∀ i ∈ post, (g.heap i).isCode = true → ∀ v, v ∈ (h i).exitRegs ↔ Extended g v i

theorem idxOf_lt_iff {frags pre post : List FragmentId} {i j : FragmentId} (hn : frags.Nodup)
    (he : frags = pre ++ i :: post) (hj : j ∈ frags) :
    frags.idxOf i < frags.idxOf j ↔ j ∈ post := by
  rw [he] at hn hj ⊢
  obtain ⟨-, hn', hd⟩ := List.nodup_append.mp hn
  rw [List.nodup_cons] at hn'
  have hi : i ∉ pre := fun hi ↦ hd i hi i List.mem_cons_self rfl
  rw [List.idxOf_append_of_notMem hi, List.idxOf_cons_self]
  constructor
  · intro hlt
    rcases List.mem_append.mp hj with hj | hj
    · rw [List.idxOf_append_of_mem hj] at hlt
      have := List.idxOf_lt_length_of_mem hj
      omega
    · rcases List.mem_cons.mp hj with rfl | hj
      · rw [List.idxOf_append_of_notMem hi, List.idxOf_cons_self] at hlt
        omega
      · exact hj
  · intro hj
    have hne : i ≠ j := fun h ↦ hn'.1 (h ▸ hj)
    have hpre : j ∉ pre := fun h ↦ hd j h j (List.mem_cons_of_mem i hj) rfl
    rw [List.idxOf_append_of_notMem hpre, List.idxOf_cons_ne _ hne]
    omega

theorem exitsExtended_step {g : FragmentList} (hg : g.WellFormed) {b h : Heap}
    (hb : Propagated g b) {pre post : List FragmentId} {i : FragmentId}
    (he : g.frags = pre ++ i :: post) (hh : ExitsExtended g b post h) :
    ExitsExtended g b (i :: post) (extendExit h i) := by
  have hi : i ∈ g.frags := by rw [he]; simp
  have hipost : i ∉ post := by
    have hn := hg.nodup
    rw [he] at hn
    exact (List.nodup_cons.mp (List.nodup_append.mp hn).2.1).1
  have hskel (j : FragmentId) : skeleton (h j) = skeleton (g.heap j) :=
    (hh.skel j).trans (hb.skel j)
  refine ⟨fun j ↦ (extendExit_frame h i j).1.trans (hh.skel j),
    fun j ↦ (extendExit_frame h i j).2.trans (hh.entry j), fun j hj ↦ ?_, fun j hj hc v ↦ ?_⟩
  · rw [List.mem_cons, not_or] at hj
    exact (extendExit_of_ne hj.1 h).trans (hh.todo j hj.2)
  · by_cases hji : j = i
    · subst hji
      rw [extendExit_self ((code_of_skeleton (hskel j)).trans hc), hh.todo j hipost,
        hb.exit j hi hc, ← hh.todo j hipost, successors_of_skeleton (hskel j)]
      constructor
      · rintro (hv | ⟨k, hk, hext, hkv, -⟩)
        · exact .live hv
        · rw [mayExtend_of_skeleton hskel] at hext
          have hkc := isCode_of_mayExtend hext
          have hkin := hg.closed j hi k hk hkc
          by_cases hlt : g.frags.idxOf j < g.frags.idxOf k
          · have hkpost := (idxOf_lt_iff hg.nodup he hkin).mp hlt
            exact .ahead hk hext hlt ((hh.done k hkpost hkc v).mp hkv)
          · have hkpost : k ∉ post := fun h ↦ hlt ((idxOf_lt_iff hg.nodup he hkin).mpr h)
            rw [hh.todo k hkpost, hb.exit k hkin hkc] at hkv
            exact .behind hk hext (by omega) hkv
      · intro hv
        have htake (k : FragmentId) (hk : k ∈ (g.heap j).successors)
            (hext : mayExtend g.heap j k = true) (hkv : v ∈ (h k).exitRegs) :
            LiveOut g.heap v j ∨ ∃ k ∈ (g.heap j).successors,
              mayExtend h j k = true ∧ v ∈ (h k).exitRegs ∧ v ∉ (h k).entryRegs := by
          have hkc := isCode_of_mayExtend hext
          by_cases hkin : v ∈ (h k).entryRegs
          · rw [hh.entry, hb.entry k (hg.closed j hi k hk hkc) hkc] at hkin
            exact Or.inl (Or.inr ⟨k, hk, hkc, hkin⟩)
          · exact Or.inr ⟨k, hk, (mayExtend_of_skeleton hskel j k).trans hext, hkv, hkin⟩
        cases hv with
        | live hv => exact Or.inl hv
        | @ahead _ k hk hext hlt hv =>
          have hkc := isCode_of_mayExtend hext
          have hkpost := (idxOf_lt_iff hg.nodup he (hg.closed j hi k hk hkc)).mp hlt
          exact htake k hk hext ((hh.done k hkpost hkc v).mpr hv)
        | @behind _ k hk hext hle hv =>
          have hkc := isCode_of_mayExtend hext
          have hkin := hg.closed j hi k hk hkc
          have hkpost : k ∉ post := fun h ↦ by
            have := (idxOf_lt_iff hg.nodup he hkin).mpr h
            omega
          refine htake k hk hext ?_
          rw [hh.todo k hkpost]
          exact (hb.exit k hkin hkc v).mpr hv
    · rw [extendExit_of_ne hji]
      exact hh.done j ((List.mem_cons.mp hj).resolve_left hji) hc v

theorem exitsExtended {g : FragmentList} (hg : g.WellFormed) {b : Heap} (hb : Propagated g b) :
    ExitsExtended g b g.frags (g.frags.reverse.foldl extendExit b) := by
  suffices h : ∀ post pre, g.frags = pre ++ post →
      ExitsExtended g b post (post.reverse.foldl extendExit b) from h g.frags [] rfl
  intro post
  induction post with
  | nil =>
    intro pre _
    exact ⟨fun _ ↦ rfl, fun _ ↦ rfl, fun _ _ ↦ rfl, fun i hi ↦ absurd hi List.not_mem_nil⟩
  | cons i post ih =>
    intro pre he
    have hpost := ih (pre ++ [i]) (by simpa using he)
    rw [List.reverse_cons, List.foldl_append]
    exact exitsExtended_step hg hb he hpost

theorem extendEntry_of_ne {i j : FragmentId} (hj : j ≠ i) (h : Heap) :
    extendEntry h i j = h j := update_of_ne hj _ _

/-- The second half of the extension, after the edges in `edges` have had their
turn. -/
structure EntriesExtended (h₀ : Heap) (edges : FragmentId → FragmentId → Prop) (h : Heap) : Prop where
  skel : ∀ i, skeleton (h i) = skeleton (h₀ i)
  exit : ∀ i, (h i).exitRegs = (h₀ i).exitRegs
  entry : ∀ j v, v ∈ (h j).entryRegs ↔ v ∈ (h₀ j).entryRegs ∨
    v ∈ (h₀ j).exitRegs ∧ ∃ i, edges i j ∧ mayExtend h₀ i j = true

theorem entriesExtended_edge {h₀ h : Heap} {edges : FragmentId → FragmentId → Prop}
    (hh : EntriesExtended h₀ edges h) (i j : FragmentId) :
    EntriesExtended h₀ (fun a b ↦ edges a b ∨ a = i ∧ b = j)
      (if mayExtend h i j then extendEntry h j else h) := by
  rw [mayExtend_of_skeleton hh.skel]
  split_ifs with he
  · refine ⟨fun k ↦ ?_, fun k ↦ ?_, fun k v ↦ ?_⟩
    all_goals by_cases hk : k = j
    · subst hk
      simp only [extendEntry, update_self]
      exact hh.skel k
    · rw [extendEntry_of_ne hk]
      exact hh.skel k
    · subst hk
      simp only [extendEntry, update_self]
      exact hh.exit k
    · rw [extendEntry_of_ne hk]
      exact hh.exit k
    · subst hk
      simp only [extendEntry, update_self, TinySet.mem_union, mem_getDefSet, hh.entry, hh.exit]
      constructor
      · rintro ((hv | ⟨hv, a, ha, hx⟩) | ⟨hv, -⟩)
        · exact Or.inl hv
        · exact Or.inr ⟨hv, a, Or.inl ha, hx⟩
        · exact Or.inr ⟨hv, i, Or.inr ⟨rfl, trivial⟩, he⟩
      · rintro (hv | ⟨hv, -⟩)
        · exact Or.inl (Or.inl hv)
        · tauto
    · rw [extendEntry_of_ne hk, hh.entry]
      simp [hk]
  · refine ⟨hh.skel, hh.exit, fun k v ↦ ?_⟩
    rw [hh.entry]
    refine or_congr_right (and_congr_right fun _ ↦ exists_congr fun a ↦ and_congr_left fun hx ↦ ?_)
    refine ⟨Or.inl, fun h ↦ h.elim id ?_⟩
    rintro ⟨rfl, rfl⟩
    exact absurd hx he

theorem entriesExtended_fragment {h₀ h : Heap} {edges : FragmentId → FragmentId → Prop}
    (hh : EntriesExtended h₀ edges h) (i : FragmentId) :
    EntriesExtended h₀ (fun a b ↦ edges a b ∨
      a = i ∧ (h₀ i).isCode = true ∧ b ∈ (h₀ i).successors) (extendEntries h i) := by
  unfold extendEntries
  rw [code_of_skeleton (hh.skel i), successors_of_skeleton (hh.skel i)]
  split_ifs with hc
  · generalize (h₀ i).successors = l
    induction l generalizing h edges with
    | nil => simpa using hh
    | cons j l ih =>
      have hl := ih (entriesExtended_edge hh i j)
      refine ⟨hl.skel, hl.exit, fun k v ↦ (hl.entry k v).trans ?_⟩
      simp only [List.mem_cons, hc, true_and]
      refine or_congr_right (and_congr_right fun _ ↦ exists_congr fun a ↦ and_congr_left fun _ ↦ ?_)
      tauto
  · simpa [hc] using hh

theorem entriesExtended (frags : List FragmentId) (h₀ : Heap) :
    EntriesExtended h₀ (fun a b ↦ a ∈ frags ∧ (h₀ a).isCode = true ∧ b ∈ (h₀ a).successors)
      (frags.reverse.foldl extendEntries h₀) := by
  induction frags with
  | nil => exact ⟨fun _ ↦ rfl, fun _ ↦ rfl, fun j v ↦ by simp⟩
  | cons i frags ih =>
    rw [List.reverse_cons, List.foldl_append]
    have hi := entriesExtended_fragment ih i
    refine ⟨hi.skel, hi.exit, fun k v ↦ (hi.entry k v).trans ?_⟩
    refine or_congr_right (and_congr_right fun _ ↦ exists_congr fun a ↦ and_congr_left fun _ ↦ ?_)
    rw [List.mem_cons]
    constructor
    · rintro (⟨ha, hc, hb⟩ | ⟨rfl, hc, hb⟩)
      · exact ⟨Or.inr ha, hc, hb⟩
      · exact ⟨Or.inl rfl, hc, hb⟩
    · rintro ⟨rfl | ha, hc, hb⟩
      · exact Or.inr ⟨rfl, hc, hb⟩
      · exact Or.inl ⟨ha, hc, hb⟩

/-- Some predecessor of a fragment has had its live range extended over it. -/
def Joined (g : FragmentList) (j : FragmentId) : Prop :=
  ∃ i ∈ g.frags, (g.heap i).isCode = true ∧ j ∈ (g.heap i).successors ∧ mayExtend g.heap i j = true

theorem extendLiveRanges_spec {g : FragmentList} (hg : g.WellFormed) {b : Heap}
    (hb : Propagated g b) :
    (∀ i, skeleton (extendLiveRanges g.frags b i) = skeleton (g.heap i)) ∧
      ∀ i ∈ g.frags, (g.heap i).isCode = true → ∀ v,
        (v ∈ (extendLiveRanges g.frags b i).exitRegs ↔ Extended g v i) ∧
        (v ∈ (extendLiveRanges g.frags b i).entryRegs ↔
          UsedLater g.heap v i ∨ Extended g v i ∧ Joined g i) := by
  have hx := exitsExtended hg hb
  have hskel (i : FragmentId) := (hx.skel i).trans (hb.skel i)
  have he := entriesExtended g.frags (g.frags.reverse.foldl extendExit b)
  refine ⟨fun i ↦ (he.skel i).trans (hskel i), fun i hi hc v ↦ ⟨?_, ?_⟩⟩
  · exact (iff_of_eq (congrArg (v ∈ ·) (he.exit i))).trans (hx.done i hi hc v)
  · refine (he.entry i v).trans ?_
    rw [hx.entry i, hb.entry i hi hc, hx.done i hi hc]
    refine or_congr_right (and_congr_right fun _ ↦ exists_congr fun j ↦ ?_)
    rw [code_of_skeleton (hskel j), successors_of_skeleton (hskel j), mayExtend_of_skeleton hskel]
    tauto

/-- What the insertion of compensating fragments does not change of a fragment. -/
def body (f : Fragment) : Fragment := { f with fallThrough := none, branch := none }

/-- An edge that needs no compensating fragment. -/
def Fits (h : Heap) (i j : FragmentId) : Prop :=
  if (h j).isCode then ∀ v ∈ (h i).exitRegs, v ∈ (h j).entryRegs else (h i).exitRegs = []

/-- A compensating fragment for the edge from `i` to `j`. -/
structure Compensates (h : Heap) (i j : FragmentId) (f : Fragment) : Prop where
  code : f.isCode = true
  entry : TinySet.Same (h i).exitRegs f.entryRegs
  exit : if (h j).isCode then TinySet.Same f.exitRegs (h j).entryRegs else f.exitRegs = []
  succ : f.successors = [j]

/-- The list `g` once the edges `edges` of `g₀` have had their turn. -/
structure Compensated (g₀ : FragmentList) (edges : FragmentId → Slot → Prop) (g : FragmentList) :
    Prop where
  next_le : g₀.next ≤ g.next
  body : ∀ i < g₀.next, body (g.heap i) = body (g₀.heap i)
  frags : ∀ i, i ∈ g.frags ↔ i ∈ g₀.frags ∨ g₀.next ≤ i ∧ i < g.next
  todo : ∀ i < g₀.next, ∀ k, ¬ edges i k → (g.heap i).successor k = (g₀.heap i).successor k
  done : ∀ i ∈ g₀.frags, (g₀.heap i).isCode = true → ∀ k, edges i k →
    (g.heap i).successor k = (g₀.heap i).successor k ∧
      (∀ j ∈ (g₀.heap i).successor k, Fits g₀.heap i j) ∨
    ∃ j c, (g₀.heap i).successor k = some j ∧ (g.heap i).successor k = some c ∧
      ¬ Fits g₀.heap i j ∧ (g₀.next ≤ c ∧ c < g.next) ∧ Compensates g₀.heap i j (g.heap c)
  comps : ∀ c, g₀.next ≤ c → c < g.next → ∃ i ∈ g₀.frags, ∃ j ∈ (g₀.heap i).successors,
    Compensates g₀.heap i j (g.heap c)

theorem compensated_refl (g : FragmentList) : Compensated g (fun _ _ ↦ False) g := by
  refine ⟨le_rfl, fun _ _ ↦ rfl, fun i ↦ ?_, fun _ _ _ _ ↦ rfl, fun _ _ _ _ h ↦ h.elim, ?_⟩
  · exact ⟨Or.inl, fun h ↦ h.elim id fun h ↦ absurd h.2 (Nat.not_lt.mpr h.1)⟩
  · exact fun c h h' ↦ absurd h' (Nat.not_lt.mpr h)

theorem Compensated.congr {g₀ g : FragmentList} {e e' : FragmentId → Slot → Prop}
    (hg : Compensated g₀ e g) (he : ∀ i k, e i k ↔ e' i k) : Compensated g₀ e' g :=
  (funext fun i ↦ funext fun k ↦ propext (he i k) : e = e') ▸ hg

theorem regs_of_body {f f' : Fragment} (h : body f = body f') :
    f.isCode = f'.isCode ∧ f.entryRegs = f'.entryRegs ∧ f.exitRegs = f'.exitRegs ∧ f.attr = f'.attr :=
  ⟨(congrArg Fragment.isCode h :), (congrArg Fragment.entryRegs h :),
    (congrArg Fragment.exitRegs h :), (congrArg Fragment.attr h :)⟩

theorem compensated_skip {g₀ g : FragmentList} {edges : FragmentId → Slot → Prop}
    (hg₀ : g₀.WellFormed) (hg : Compensated g₀ edges g) {i : FragmentId} {k : Slot}
    (hi : i ∈ g₀.frags) (hk : ¬ edges i k) (hfit : ∀ j ∈ (g₀.heap i).successor k, Fits g₀.heap i j) :
    Compensated g₀ (fun a b ↦ edges a b ∨ a = i ∧ b = k) g := by
  refine ⟨hg.next_le, hg.body, hg.frags, fun a ha b hab ↦ ?_, fun a ha hc b hab ↦ ?_, hg.comps⟩
  · exact hg.todo a ha b fun h ↦ hab (Or.inl h)
  · rcases hab with hab | ⟨rfl, rfl⟩
    · exact hg.done a ha hc b hab
    · exact Or.inl ⟨hg.todo a (hg₀.lt_next a ha) b hk, hfit⟩

theorem mem_empty_union {s : TinySet VRId} {v : VRId} : v ∈ TinySet.union [] s ↔ v ∈ s := by
  simp

theorem compensated_make {g₀ g : FragmentList} {edges : FragmentId → Slot → Prop}
    (hg₀ : g₀.WellFormed) (hg : Compensated g₀ edges g) {i j : FragmentId} {k : Slot}
    (hi : i ∈ g₀.frags) (hk : ¬ edges i k) (hj : (g₀.heap i).successor k = some j)
    (hfit : ¬ Fits g₀.heap i j) {out : TinySet VRId}
    (hout : if (g₀.heap j).isCode then out = (g₀.heap j).entryRegs else out = []) :
    Compensated g₀ (fun a b ↦ edges a b ∨ a = i ∧ b = k)
      (makeCompensatingFrag g i k j (g₀.heap i).exitRegs out) := by
  have hlt := hg₀.lt_next i hi
  have hni : g.next ≠ i := (Nat.ne_of_lt (hlt.trans_le hg.next_le)).symm
  generalize hm : makeCompensatingFrag g i k j (g₀.heap i).exitRegs out = g'
  have hnext : g'.next = g.next + 1 := by rw [← hm]; rfl
  have hself : g'.heap i = (g.heap i).setSuccessor k (some g.next) := by
    rw [← hm]
    exact update_self _ _ _
  have hother (a : FragmentId) (ha : a ≠ i) (ha' : a ≠ g.next) : g'.heap a = g.heap a := by
    rw [← hm]
    exact (update_of_ne ha _ _).trans (update_of_ne ha' _ _)
  have hcomp : Compensates g₀.heap i j (g'.heap g.next) := by
    have he : g'.heap g.next =
        compensatingFrag (g.heap i) (g.heap j) j (g₀.heap i).exitRegs out := by
      rw [← hm]
      exact (update_of_ne hni _ _).trans (update_self _ _ _)
    rw [he]
    refine ⟨rfl, fun v ↦ mem_empty_union.symm, ?_, rfl⟩
    split_ifs at hout ⊢
    · rw [hout]
      exact fun v ↦ mem_empty_union
    · rw [hout]
      rfl
  have hold (c : FragmentId) (hc : g₀.next ≤ c) (hc' : c < g.next) : g'.heap c = g.heap c :=
    hother c (Nat.ne_of_gt (hlt.trans_le hc)) (Nat.ne_of_lt hc')
  refine ⟨?_, fun a ha ↦ ?_, fun a ↦ ?_, fun a ha b hab ↦ ?_, fun a ha hc b hab ↦ ?_,
    fun c hc hc' ↦ ?_⟩
  · rw [hnext]
    exact Nat.le_succ_of_le hg.next_le
  · by_cases hai : a = i
    · subst hai
      rw [hself, ← hg.body a ha]
      cases k <;> rfl
    · rw [hother a hai (Nat.ne_of_lt (ha.trans_le hg.next_le))]
      exact hg.body a ha
  · have hfrags : a ∈ g'.frags ↔ a ∈ g.frags ∨ a = g.next := by
      rw [← hm]
      exact FragmentList.mem_insertAfter ((hg.frags i).mpr (Or.inl hi))
    have hsucc : a < g.next + 1 ↔ a < g.next ∨ a = g.next := Nat.lt_succ_iff_lt_or_eq
    have hle := hg.next_le
    rw [hfrags, hg.frags, hnext, hsucc]
    constructor
    · rintro ((ha | ⟨h, h'⟩) | rfl)
      · exact Or.inl ha
      · exact Or.inr ⟨h, Or.inl h'⟩
      · exact Or.inr ⟨hle, Or.inr rfl⟩
    · rintro (ha | ⟨h, h' | rfl⟩)
      · exact Or.inl (Or.inl ha)
      · exact Or.inl (Or.inr ⟨h, h'⟩)
      · exact Or.inr rfl
  · rw [not_or] at hab
    by_cases hai : a = i
    · subst hai
      have hbk : b ≠ k := fun h ↦ hab.2 ⟨rfl, h⟩
      rw [hself, Fragment.successor_setSuccessor, if_neg hbk]
      exact hg.todo a ha b hab.1
    · rw [hother a hai (Nat.ne_of_lt (ha.trans_le hg.next_le))]
      exact hg.todo a ha b hab.1
  · by_cases hnew : a = i ∧ b = k
    · obtain ⟨rfl, rfl⟩ := hnew
      refine Or.inr ⟨j, g.next, hj, ?_, hfit, ⟨hg.next_le, ?_⟩, hcomp⟩
      · rw [hself, Fragment.successor_setSuccessor, if_pos rfl]
      · rw [hnext]
        exact Nat.lt_succ_self _
    · have hsame : (g'.heap a).successor b = (g.heap a).successor b := by
        by_cases hai : a = i
        · subst hai
          rw [hself, Fragment.successor_setSuccessor, if_neg fun h ↦ hnew ⟨rfl, h⟩]
        · rw [hother a hai (Nat.ne_of_lt ((hg₀.lt_next a ha).trans_le hg.next_le))]
      rw [hsame]
      refine (hg.done a ha hc b (hab.resolve_right hnew)).imp id ?_
      rintro ⟨j', c, hj', hs, hf, ⟨hc, hc'⟩, hcomp'⟩
      refine ⟨j', c, hj', hs, hf, ⟨hc, ?_⟩, ?_⟩
      · rw [hnext]
        exact Nat.lt_succ_of_lt hc'
      · rwa [hold c hc hc']
  · rw [hnext] at hc'
    rcases Nat.lt_succ_iff_lt_or_eq.mp hc' with hc' | rfl
    · obtain ⟨a, ha, j', hj', hcomp'⟩ := hg.comps c hc hc'
      exact ⟨a, ha, j', hj', by rwa [hold c hc hc']⟩
    · exact ⟨i, hi, j, Fragment.mem_successors.mpr ⟨k, hj⟩, hcomp⟩

theorem compensated_edge {g₀ g : FragmentList} {edges : FragmentId → Slot → Prop}
    (hg₀ : g₀.WellFormed) (hnc : ∀ i, (g₀.heap i).attr.isCompensationFrag = false)
    (hg : Compensated g₀ edges g) {i : FragmentId} {k : Slot} (hi : i ∈ g₀.frags)
    (hk : ¬ edges i k) : Compensated g₀ (fun a b ↦ edges a b ∨ a = i ∧ b = k)
      (addCompensatingFragment g i k) := by
  have hlt := hg₀.lt_next i hi
  obtain ⟨-, -, hexit, -⟩ := regs_of_body (hg.body i hlt)
  unfold addCompensatingFragment
  rw [hg.todo i hlt k hk]
  cases hj : (g₀.heap i).successor k with
  | none => exact compensated_skip hg₀ hg hi hk (by simp [hj])
  | some j =>
    have hjlt := hg₀.succ_lt i hi j (Fragment.mem_successors.mpr ⟨k, hj⟩)
    obtain ⟨hcode, hentry, -, hattr⟩ := regs_of_body (hg.body j hjlt)
    have hskip (hfit : Fits g₀.heap i j) :
        Compensated g₀ (fun a b ↦ edges a b ∨ a = i ∧ b = k) g := by
      refine compensated_skip hg₀ hg hi hk fun j' hj' ↦ ?_
      rw [hj, Option.mem_some_iff] at hj'
      exact hj' ▸ hfit
    simp only [hexit, hcode, hentry, hattr, hnc, Bool.false_eq_true, if_false]
    split_ifs with hempty hc hsub
    · refine hskip ?_
      have hnil := List.isEmpty_iff.mp hempty
      unfold Fits
      split_ifs
      · rw [hnil]
        exact fun v hv ↦ absurd hv List.not_mem_nil
      · exact hnil
    · refine hskip ?_
      rw [Fits, if_pos hc]
      exact hsub
    · refine compensated_make hg₀ hg hi hk hj ?_ (by rw [if_pos hc])
      rw [Fits, if_pos hc]
      exact hsub
    · refine compensated_make hg₀ hg hi hk hj ?_ (by rw [if_neg hc])
      rw [Fits, if_neg hc]
      exact fun h ↦ hempty (List.isEmpty_iff.mpr h)

theorem compensated_fragment {g₀ g : FragmentList} {edges : FragmentId → Slot → Prop}
    (hg₀ : g₀.WellFormed) (hnc : ∀ i, (g₀.heap i).attr.isCompensationFrag = false)
    (hg : Compensated g₀ edges g) {i : FragmentId} (hi : i ∈ g₀.frags) (hk : ∀ k, ¬ edges i k) :
    Compensated g₀ (fun a b ↦ edges a b ∨ a = i)
      (if (g.heap i).isCode && !(g.heap i).attr.isCompensationFrag then
        addCompensatingFragment (addCompensatingFragment g i .fallThrough) i .branch
      else g) := by
  obtain ⟨hcode, -, -, hattr⟩ := regs_of_body (hg.body i (hg₀.lt_next i hi))
  simp only [hcode, hattr, hnc, Bool.not_false, Bool.and_true]
  split_ifs with hc
  · have hfall := compensated_edge hg₀ hnc hg hi (hk .fallThrough)
    have hbranch := compensated_edge hg₀ hnc hfall (k := .branch) hi (by simp [hk])
    refine hbranch.congr fun a b ↦ ?_
    cases b <;> simp
  · refine ⟨hg.next_le, hg.body, hg.frags, fun a ha b hab ↦ ?_, fun a ha hac b hab ↦ ?_, hg.comps⟩
    · exact hg.todo a ha b fun h ↦ hab (Or.inl h)
    · rcases hab with hab | rfl
      · exact hg.done a ha hac b hab
      · exact absurd hac hc

theorem compensated {g : FragmentList} (hg : g.WellFormed)
    (hnc : ∀ i, (g.heap i).attr.isCompensationFrag = false) :
    Compensated g (fun i _ ↦ i ∈ g.frags) (addCompensatingFragments g) := by
  suffices h : ∀ (l : List FragmentId) (edges : FragmentId → Slot → Prop) (g' : FragmentList),
      l.Nodup → (∀ i ∈ l, i ∈ g.frags ∧ ∀ k, ¬ edges i k) → Compensated g edges g' →
      Compensated g (fun a b ↦ edges a b ∨ a ∈ l) (l.foldl (fun g i ↦
        if (g.heap i).isCode && !(g.heap i).attr.isCompensationFrag then
          addCompensatingFragment (addCompensatingFragment g i .fallThrough) i .branch
        else g) g') by
    have hall := h g.frags.reverse _ g (List.nodup_reverse.mpr hg.nodup)
      (fun i hi ↦ ⟨List.mem_reverse.mp hi, fun _ ↦ id⟩) (compensated_refl g)
    exact hall.congr fun a b ↦ by simp
  intro l
  induction l with
  | nil =>
    intro edges g' _ _ hg'
    exact hg'.congr fun a b ↦ by simp
  | cons i l ih =>
    intro edges g' hn hl hg'
    rw [List.nodup_cons] at hn
    obtain ⟨hi, hk⟩ := hl i List.mem_cons_self
    have hrest := ih _ _ hn.2 (fun a ha ↦ ?_) (compensated_fragment hg hnc hg' hi hk)
    · exact hrest.congr fun a b ↦ by rw [List.mem_cons]; tauto
    · obtain ⟨ha', hk'⟩ := hl a (List.mem_cons_of_mem i ha)
      refine ⟨ha', fun k h ↦ h.elim (hk' k) fun he ↦ ?_⟩
      rw [he] at ha
      exact hn.1 ha

/-- The live registers agree on every edge out of a code fragment: with those on
entry to the successor if that holds code, and otherwise there are none. -/
structure EdgesAgree (g : FragmentList) : Prop where
  code : ∀ i ∈ g.frags, (g.heap i).isCode = true → ∀ j ∈ (g.heap i).successors,
    (g.heap j).isCode = true → TinySet.Same (g.heap i).exitRegs (g.heap j).entryRegs
  other : ∀ i ∈ g.frags, (g.heap i).isCode = true → ∀ j ∈ (g.heap i).successors,
    (g.heap j).isCode = false → (g.heap i).exitRegs = []

theorem edgesAgree_iff {g : FragmentList} (hg : g.WellFormed)
    (hnc : ∀ i, (g.heap i).attr.isCompensationFrag = false) :
    EdgesAgree (addCompensatingFragments g) ↔
      ∀ i ∈ g.frags, (g.heap i).isCode = true → ∀ j ∈ (g.heap i).successors,
        (g.heap j).isCode = true → (∀ v ∈ (g.heap i).exitRegs, v ∈ (g.heap j).entryRegs) →
        ∀ v ∈ (g.heap j).entryRegs, v ∈ (g.heap i).exitRegs := by
  have hcomp := compensated hg hnc
  generalize addCompensatingFragments g = g' at hcomp ⊢
  constructor
  · intro hagree i hi hc j hj hjc hsub v hv
    obtain ⟨k, hk⟩ := Fragment.mem_successors.mp hj
    obtain ⟨hci, -, hxi, -⟩ := regs_of_body (hcomp.body i (hg.lt_next i hi))
    obtain ⟨hcj, hej, -, -⟩ := regs_of_body (hcomp.body j (hg.succ_lt i hi j hj))
    rcases hcomp.done i hi hc k hi with ⟨hs, -⟩ | ⟨j', c, hj', -, hfit, -⟩
    · have hsame := hagree.code i ((hcomp.frags i).mpr (Or.inl hi)) (hci.trans hc) j
        (Fragment.mem_successors.mpr ⟨k, hs.trans hk⟩) (hcj.trans hjc)
      rw [hxi, hej] at hsame
      exact (hsame v).mpr hv
    · rw [hk, Option.some_inj] at hj'
      subst hj'
      rw [Fits, if_pos hjc] at hfit
      exact absurd hsub hfit
  · intro hcond
    have hold (i : FragmentId) (hi : i ∈ g.frags) (hc : (g'.heap i).isCode = true)
        (j : FragmentId) (hj : j ∈ (g'.heap i).successors) :
        if (g'.heap j).isCode then TinySet.Same (g'.heap i).exitRegs (g'.heap j).entryRegs
        else (g'.heap i).exitRegs = [] := by
      obtain ⟨hci, -, hxi, -⟩ := regs_of_body (hcomp.body i (hg.lt_next i hi))
      rw [hci] at hc
      rw [hxi]
      obtain ⟨k, hk⟩ := Fragment.mem_successors.mp hj
      rcases hcomp.done i hi hc k hi with ⟨hs, hfit⟩ | ⟨j', c, -, hs, -, -, hcm⟩
      · have hj' : j ∈ (g.heap i).successors := Fragment.mem_successors.mpr ⟨k, hs ▸ hk⟩
        obtain ⟨hcj, hej, -, -⟩ := regs_of_body (hcomp.body j (hg.succ_lt i hi j hj'))
        have hfit' := hfit j (hs ▸ hk)
        unfold Fits at hfit'
        rw [hcj, hej]
        split_ifs at hfit' ⊢ with hjc
        · exact fun v ↦ ⟨hfit' v, hcond i hi hc j hj' hjc hfit' v⟩
        · exact hfit'
      · rw [hk, Option.some_inj] at hs
        subst hs
        rw [if_pos hcm.code]
        exact hcm.entry
    have hnew (c : FragmentId) (hc : g.next ≤ c) (hc' : c < g'.next) (j : FragmentId)
        (hj : j ∈ (g'.heap c).successors) :
        if (g'.heap j).isCode then TinySet.Same (g'.heap c).exitRegs (g'.heap j).entryRegs
        else (g'.heap c).exitRegs = [] := by
      obtain ⟨i, hi, j', hj', hcm⟩ := hcomp.comps c hc hc'
      rw [hcm.succ, List.mem_singleton] at hj
      subst hj
      obtain ⟨hcj, hej, -, -⟩ := regs_of_body (hcomp.body j (hg.succ_lt i hi j hj'))
      rw [hcj, hej]
      exact hcm.exit
    have hall (i : FragmentId) (hi : i ∈ g'.frags) (hc : (g'.heap i).isCode = true)
        (j : FragmentId) (hj : j ∈ (g'.heap i).successors) :=
      ((hcomp.frags i).mp hi).elim (fun hi ↦ hold i hi hc j hj) fun h ↦ hnew i h.1 h.2 j hj
    refine ⟨fun i hi hc j hj hjc ↦ ?_, fun i hi hc j hj hjc ↦ ?_⟩
    · have h := hall i hi hc j hj
      rwa [if_pos hjc] at h
    · have h := hall i hi hc j hj
      rwa [hjc, if_neg Bool.false_ne_true] at h

/-- No edge leads into a fragment over which a live range was extended from a
fragment out of which fewer registers are live. -/
def NoLateJoin (g : FragmentList) : Prop :=
  ∀ i ∈ g.frags, (g.heap i).isCode = true → ∀ j ∈ (g.heap i).successors,
    (g.heap j).isCode = true → Joined g j → (∀ v, Extended g v i → Extended g v j) →
    ∀ v, Extended g v j → Extended g v i

/-- `TrackVirtualRegs` terminates on every fragment graph, and the live registers
then agree on every edge exactly if the graph has no late joins. -/
theorem trackVirtualRegs_edgesAgree {g : FragmentList} (hg : g.WellFormed) (hu : Untracked g) :
    ∃ g', (∃ N, ∀ n, N ≤ n → trackVirtualRegs n g = some g') ∧ (EdgesAgree g' ↔ NoLateJoin g) := by
  obtain ⟨b, hb, N, hN⟩ := backPropagation_stops hg hu
  obtain ⟨hskel, hregs⟩ := extendLiveRanges_spec hg hb
  refine ⟨addCompensatingFragments { g with heap := extendLiveRanges g.frags b },
    ⟨N, fun n hn ↦ ?_⟩, ?_⟩
  · rw [trackVirtualRegs, hN n hn]
    rfl
  generalize extendLiveRanges g.frags b = e at hskel hregs ⊢
  have hsucc (i : FragmentId) := successors_of_skeleton (hskel i)
  have hcode (i : FragmentId) := code_of_skeleton (hskel i)
  have hwf : FragmentList.WellFormed { g with heap := e } := by
    refine ⟨hg.nodup, hg.lt_next, fun i hi j hj ↦ ?_, fun i hi j hj hjc ↦ ?_⟩
    · exact hg.succ_lt i hi j (hsucc i ▸ hj)
    · exact hg.closed i hi j (hsucc i ▸ hj) (hcode j ▸ hjc)
  have hnc (i : FragmentId) : (e i).attr.isCompensationFrag = false := by
    rw [attr_of_skeleton (hskel i)]
    exact hu.notComp i
  rw [edgesAgree_iff hwf hnc]
  refine forall₂_congr fun i hi ↦ ?_
  simp only [hsucc, hcode]
  refine forall_congr' fun hc ↦ forall₂_congr fun j hj ↦ forall_congr' fun hjc ↦ ?_
  have hjin := hg.closed i hi j hj hjc
  have hexit (v : VRId) := (hregs i hi hc v).1
  have hentry (v : VRId) := (hregs j hjin hjc v).2
  have hused (v : VRId) (hv : UsedLater g.heap v j) : Extended g v i :=
    .live (Or.inr ⟨j, hj, hjc, hv⟩)
  simp only [hexit, hentry]
  constructor
  · intro h hjoin hsub v hv
    exact h (fun v hv ↦ Or.inr ⟨hsub v hv, hjoin⟩) v (Or.inr ⟨hv, hjoin⟩)
  · intro h hsub v hv
    rcases hv with hv | ⟨hv, hjoin⟩
    · exact hused v hv
    · refine h hjoin (fun w hw ↦ ?_) v hv
      rcases hsub w hw with hw | ⟨hw, -⟩
      · exact .live (liveOut_of_usedLater hw)
      · exact hw

/-- A hot fragment that goes to a cold one both directly and by way of another
cold one, where the last fragment defines a virtual register. -/
def coldJoin : FragmentList where
  frags := [0, 1, 2, 3]
  heap
    | 0 => { kind := .app, attr := { followsPartitionEntrypoint := true }
             fallThrough := some 2, branch := some 1 }
    | 1 => { kind := .inst, cache := .cold, fallThrough := some 2 }
    | 2 => { kind := .inst, cache := .cold, fallThrough := some 3
             instrs := [.native { instruction := { ops := [
               { value := .reg { kind := .virtualGpr, number := 1 }, rw := .w },
               { value := .imm 0 }] } }] }
    | _ => { cls := .exit, kind := .app }
  next := 4

theorem coldJoin_wellFormed : coldJoin.WellFormed := ⟨by decide, by decide, by decide, by decide⟩

theorem coldJoin_untracked : Untracked coldJoin := by
  refine ⟨fun i ↦ ?_, fun i ↦ ?_, fun i ↦ ?_⟩
  all_goals
    match i with
    | 0 | 1 | 2 | _ + 3 => rfl

theorem trackVirtualRegs_edgesAgree_coldJoin :
    coldJoin.WellFormed ∧ Untracked coldJoin ∧
      ∃ g', (∃ N, ∀ n, N ≤ n → trackVirtualRegs n coldJoin = some g') ∧
        (EdgesAgree g' ↔ NoLateJoin coldJoin) :=
  ⟨coldJoin_wellFormed, coldJoin_untracked,
    trackVirtualRegs_edgesAgree coldJoin_wellFormed coldJoin_untracked⟩

/-- The register is live on entry to the last fragment, but not on the edge from
the hot one. -/
theorem coldJoin_disagrees :
    ¬ ∀ (g g' : FragmentList) (n : ℕ), g.WellFormed → Untracked g →
      trackVirtualRegs n g = some g' → EdgesAgree g' := by
  intro hall
  have hsome : (trackVirtualRegs 3 coldJoin).isSome = true := by decide +kernel
  obtain ⟨g', he⟩ := Option.isSome_iff_exists.mp hsome
  have hget : g' = (trackVirtualRegs 3 coldJoin).getD coldJoin := by rw [he]; rfl
  have hagree := hall coldJoin g' 3 coldJoin_wellFormed coldJoin_untracked he
  have hsame := hagree.code 0 (by rw [hget]; decide +kernel) (by rw [hget]; decide +kernel) 2
    (by rw [hget]; decide +kernel) (by rw [hget]; decide +kernel) 1
  rw [hget] at hsame
  revert hsame
  decide +kernel

end Granary.Assemble.TrackVirtualRegs
