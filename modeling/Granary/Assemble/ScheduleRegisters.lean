import Granary.Base.Run
import Granary.Code.Fragment
import Granary.Code.Register

namespace Granary.Assemble.ScheduleRegisters

open Function Granary.Base Granary.Base.Run Granary.Arch Granary.Code Granary.Code.Register

inductive Annotation
  | saveRegister (gpr : VirtualRegister)
  | restoreRegister (gpr : VirtualRegister)
  | swapRestoreRegister (gpr : VirtualRegister)
  | reviveRegisters (regs : RegisterSet)
  | other
deriving DecidableEq, Repr

inductive Transfer
  | saveGPRToSlot (gpr slot : VirtualRegister)
  | restoreGPRFromSlot (gpr slot : VirtualRegister)
  | swapGPRWithGPR (gpr1 gpr2 : VirtualRegister)
  | swapGPRWithSlot (gpr slot : VirtualRegister)
deriving DecidableEq, Repr

inductive Instruction
  | native (i : NativeInstruction)
  | transfer (t : Transfer)
  | label
  | annot (a : Annotation)
deriving DecidableEq, Repr

def widenedTo (r : VirtualRegister) (destByteWidth : ℕ) : VirtualRegister :=
  { r with
    numBytes := destByteWidth
    preservesBytesOnWrite := destByteWidth = 1 || destByteWidth = 2 }

def nthArchGPR (n : ℕ) : VirtualRegister := { kind := .archGpr, number := n }

/-- The number of a slot is kept in 16 bits. -/
def nthSpillSlot (n : ℕ) : VirtualRegister := { kind := .slot, number := n % 2 ^ 16 }

def virtualGPR (v : VRId) : VirtualRegister := { kind := .virtualGpr, number := v }

def Transfer.ops : Transfer → List Operand
  | saveGPRToSlot gpr slot => [{ value := .mem slot, rw := .w }, { value := .reg (widenedTo gpr 8) }]
  | restoreGPRFromSlot gpr slot =>
    [{ value := .reg (widenedTo gpr 8), rw := .w }, { value := .mem slot }]
  | swapGPRWithGPR gpr1 gpr2 =>
    [{ value := .reg (widenedTo gpr1 8), rw := .rw }, { value := .reg (widenedTo gpr2 8), rw := .rw }]
  | swapGPRWithSlot gpr slot =>
    [{ value := .mem slot, rw := .rw }, { value := .reg (widenedTo gpr 8), rw := .rw }]

def Instruction.native? : Instruction → Option NativeInstruction
  | native i => some i
  | transfer t => some { instruction := { ops := t.ops } }
  | label | annot _ => none

def operandRegisters (op : Operand) : List VirtualRegister :=
  match op.value with
  | .reg r | .mem r => [r]
  | .compound base index _ _ => [base, index]
  | .ptr _ | .imm _ | .branchTarget _ => []

/-- `UsedRegisterSet::Visit`. -/
def visitUses (used : RegisterSet) (i : Arch.Instruction) : RegisterSet :=
  (i.ops.flatMap operandRegisters).foldl RegisterSet.revive used

def usesLegacyRegisters (i : Arch.Instruction) : Bool :=
  i.ops.any fun op ↦
    match op.value with
    | .reg r => r.isLegacy
    | _ => false

def reviveRestrictedRegisters (used : RegisterSet) (i : Arch.Instruction) : RegisterSet :=
  if usesLegacyRegisters i then
    [14, 13, 12, 11, 10, 9, 8, 7].foldl (fun used n ↦ RegisterSet.set used n true) used
  else used

def Instruction.countedGPRs : Instruction → List VirtualRegister
  | annot (.saveRegister gpr) | annot (.restoreRegister gpr) | annot (.swapRestoreRegister gpr) => [gpr]
  | annot (.reviveRegisters regs) =>
    ((List.range numGeneralPurposeRegisters).filter (RegisterSet.isLive regs)).map nthArchGPR
  | annot .other | label => []
  | native i => i.instruction.ops.flatMap operandRegisters
  | transfer t => t.ops.flatMap operandRegisters

def countGPRUses (instrs : List Instruction) (gpr : ℕ) : ℕ :=
  (instrs.flatMap Instruction.countedGPRs).countP fun r ↦
    r.isNative && r.isGeneralPurpose && r.number == gpr

def isUsedOrDefined (i : NativeInstruction) (v : VRId) : Bool :=
  i.definedVr == v || i.usedVrs.contains v

def tryReplaceReg (currReg oldReg newReg : VirtualRegister) : VirtualRegister :=
  if currReg.same oldReg then widenedTo newReg currReg.numBytes else currReg

def tryReplaceRegInOperand (oldReg newReg : VirtualRegister) (op : Operand) : Operand :=
  match op.value with
  | .reg r => { op with value := .reg (tryReplaceReg r oldReg newReg) }
  | .mem r => { op with value := .mem (tryReplaceReg r oldReg newReg) }
  | .compound base index disp scale =>
    let base := tryReplaceReg base oldReg newReg
    let index := tryReplaceReg index oldReg newReg
    { op with value := .compound base index disp scale }
  | .ptr _ | .imm _ | .branchTarget _ => op

/-- The operands up to the first that is not explicit. -/
def tryReplaceRegInOperands (oldReg newReg : VirtualRegister) : List Operand → List Operand
  | [] => []
  | op :: ops =>
    if op.isExplicit then
      tryReplaceRegInOperand oldReg newReg op :: tryReplaceRegInOperands oldReg newReg ops
    else op :: ops

def tryReplaceRegInInstruction (oldReg newReg : VirtualRegister) (i : NativeInstruction) :
    NativeInstruction :=
  let ops := tryReplaceRegInOperands oldReg newReg i.instruction.ops
  { i with instruction := { i.instruction with ops := ops } }

/-- What is made by the scheduler has no virtual register in it. -/
def Instruction.replace (oldReg newReg : VirtualRegister) : Instruction → Instruction
  | native i => native (tryReplaceRegInInstruction oldReg newReg i)
  | instr => instr

/-- The slots that are allocated: every slot of a general-purpose register is one. -/
structure RegisterScheduler where
  numSlots : ℕ
  slotForGpr : ℕ → ℕ
  gprHasSlot : RegisterSet
  gprCounts : ℕ → ℕ
  slotForGpr_lt : ∀ gpr, RegisterSet.isLive gprHasSlot gpr = true → slotForGpr gpr < numSlots

namespace RegisterScheduler

theorem isLive_zero (gpr : ℕ) : RegisterSet.isLive 0#16 gpr = false := by
  simp [RegisterSet.isLive]

theorem eq_or_isLive_of_set {s : RegisterSet} {i num : ℕ}
    (h : RegisterSet.isLive (RegisterSet.set s i true) num = true) :
    num = i ∨ RegisterSet.isLive s num = true := by
  by_cases hnum : num < 16
  · rw [isLive_set hnum] at h
    split_ifs at h with hi
    · exact Or.inl hi.symm
    · exact Or.inr h
  · rw [RegisterSet.isLive, BitVec.getLsbD_of_ge _ _ (not_lt.mp hnum)] at h
    exact absurd h Bool.false_ne_true

def init : RegisterScheduler where
  numSlots := 0
  slotForGpr _ := 0
  gprHasSlot := 0#16
  gprCounts _ := 0
  slotForGpr_lt gpr h := by
    rw [isLive_zero] at h
    exact absurd h Bool.false_ne_true

def reset (s : RegisterScheduler) (instrs : List Instruction) : RegisterScheduler :=
  { s with gprCounts := countGPRUses instrs }

def resetGPRSlots (s : RegisterScheduler) : RegisterScheduler where
  numSlots := s.numSlots
  slotForGpr := s.slotForGpr
  gprHasSlot := 0#16
  gprCounts := s.gprCounts
  slotForGpr_lt gpr h := by
    rw [isLive_zero] at h
    exact absurd h Bool.false_ne_true

/-- `num_slots++`. -/
def addSlot (s : RegisterScheduler) : RegisterScheduler :=
  { s with
    numSlots := s.numSlots + 1
    slotForGpr_lt := fun gpr h ↦ Nat.lt_succ_of_lt (s.slotForGpr_lt gpr h) }

def slotForGPR (s : RegisterScheduler) (gpr : VirtualRegister) : RegisterScheduler × VirtualRegister :=
  if RegisterSet.isLive s.gprHasSlot gpr.number then (s, nthSpillSlot (s.slotForGpr gpr.number))
  else
    ({ s with
        numSlots := s.numSlots + 1
        slotForGpr := update s.slotForGpr gpr.number s.numSlots
        gprHasSlot := RegisterSet.set s.gprHasSlot gpr.number true
        slotForGpr_lt := fun n h ↦ by
          by_cases hn : n = gpr.number
          · rw [hn, update_self]
            exact Nat.lt_succ_self _
          · rw [update_of_ne hn]
            exact Nat.lt_succ_of_lt (s.slotForGpr_lt n ((eq_or_isLive_of_set h).resolve_left hn)) },
      nthSpillSlot s.numSlots)

/-- A register that is not used at all, or an invalid one. -/
def getPreferredGPR (s : RegisterScheduler) (usedRegs : RegisterSet) : VirtualRegister :=
  ((List.range numGeneralPurposeRegisters).find? fun i ↦
    !RegisterSet.isLive usedRegs i && s.gprCounts i == 0).elim {} nthArchGPR

def getGPR (s : RegisterScheduler) (usedRegs : RegisterSet) : VirtualRegister :=
  ((List.range numGeneralPurposeRegisters).foldl (fun found i ↦
    if RegisterSet.isLive usedRegs i then found
    else match found with
      | none => some i
      | some j => if s.gprCounts i < s.gprCounts j then some i else some j) none).elim {} nthArchGPR

end RegisterScheduler

/-- What is known of an instruction before a virtual register is scheduled in it: the
general-purpose registers that it uses, whether the virtual register has to be in its place
before it, and whether it names the virtual register. -/
structure Seen where
  usedRegs : RegisterSet
  isVRInstr : Bool
  isUsedOrDefined : Bool

def updateUseRegs : Annotation → Seen
  | .saveRegister gpr | .restoreRegister gpr | .swapRestoreRegister gpr =>
    ⟨RegisterSet.revive 0#16 gpr, true, false⟩
  | .reviveRegisters regs => ⟨regs, true, false⟩
  | .other => ⟨0#16, false, false⟩

def look (v : VRId) (instr : Instruction) : Seen :=
  match instr.native?, instr with
  | some i, _ =>
    if isUsedOrDefined i v then
      ⟨reviveRestrictedRegisters (visitUses 0#16 i.instruction) i.instruction, true, true⟩
    else ⟨visitUses 0#16 i.instruction, true, false⟩
  | none, .annot a => updateUseRegs a
  | none, _ => ⟨0#16, false, false⟩

/-- The state of the loop over the instructions of a fragment, last instruction first. The
instructions that were visited are split at `first_vr_instr`. -/
structure Walk where
  sched : RegisterScheduler
  vrHome : VirtualRegister
  isUsedLater : Bool
  before : List Instruction
  rest : List Instruction

/-- Where a virtual register is before an instruction, and what is added after it. -/
structure Placed where
  sched : RegisterScheduler
  vrHome : VirtualRegister
  added : List Instruction

/-- Each of the three insertions goes right after the instruction. -/
def changeVRHome (s : RegisterScheduler) (oldHome newHome : VirtualRegister) :
    RegisterScheduler × List Instruction :=
  let new := s.slotForGPR newHome
  let old := new.1.slotForGPR oldHome
  (old.1, [.transfer (.saveGPRToSlot oldHome old.2), .transfer (.swapGPRWithGPR oldHome newHome),
    .transfer (.restoreGPRFromSlot newHome new.2)])

/-- For a virtual register that is in `preferredGPR` on the edges between fragments. -/
def rehomeInGPR (preferredGPR : VirtualRegister) (seen : Seen) (w : Walk) : Placed :=
  if RegisterSet.isLive seen.usedRegs w.vrHome.number then
    let newHome :=
      if RegisterSet.isLive seen.usedRegs preferredGPR.number then w.sched.getGPR seen.usedRegs
      else preferredGPR
    let changed := changeVRHome w.sched w.vrHome newHome
    ⟨changed.1, newHome, changed.2⟩
  else ⟨w.sched, w.vrHome, []⟩

/-- A home that is used by an instruction is left for the slot. -/
def leaveGPR (slotReg : VirtualRegister) (seen : Seen) (w : Walk) : Placed :=
  if w.vrHome.isNative && RegisterSet.isLive seen.usedRegs w.vrHome.number then
    let saved := w.sched.slotForGPR w.vrHome
    ⟨saved.1, slotReg, [.transfer (.saveGPRToSlot w.vrHome saved.2),
      .transfer (.restoreGPRFromSlot w.vrHome slotReg)]⟩
  else ⟨w.sched, w.vrHome, []⟩

/-- For a virtual register that is in a slot on the edges between fragments. -/
def rehomeInSlot (slotReg : VirtualRegister) (isDefined : Bool) (seen : Seen) (w : Walk) : Placed :=
  let left := leaveGPR slotReg seen w
  if seen.isUsedOrDefined && slotReg.same left.vrHome then
    let gpr := left.sched.getGPR seen.usedRegs
    let saved := left.sched.slotForGPR gpr
    let save : List Instruction :=
      if w.isUsedLater && isDefined then [.transfer (.saveGPRToSlot gpr slotReg)] else []
    ⟨saved.1, gpr, save ++ .transfer (.restoreGPRFromSlot gpr saved.2) :: left.added⟩
  else left

/-- The body of the loop, where `rehome` is what the two kinds of places do differently. -/
def Walk.visit (rehome : Seen → Walk → Placed) (v : VRId) (instr : Instruction) (w : Walk) : Walk :=
  let seen := look v instr
  let placed := rehome seen w
  let visited :=
    (if seen.isUsedOrDefined then instr.replace (virtualGPR v) placed.vrHome else instr) ::
      (placed.added ++ w.before)
  { sched := placed.sched
    vrHome := placed.vrHome
    isUsedLater := w.isUsedLater || seen.isUsedOrDefined
    before := if seen.isVRInstr then [] else visited
    rest := if seen.isVRInstr then visited ++ w.rest else w.rest }

def walk (rehome : Seen → Walk → Placed) (v : VRId) (w : Walk) (instrs : List Instruction) : Walk :=
  instrs.foldr (Walk.visit rehome v) w

/-- A fragment once a virtual register is scheduled in it, and whether its partition is marked
as using virtual registers. -/
structure Outcome where
  sched : RegisterScheduler
  instrs : List Instruction
  isMarked : Bool

/-- Instructions are added after the label that `AddSchedLabel` finds or makes. -/
def Walk.addAtSchedLabel (w : Walk) (added : RegisterScheduler × List Instruction) : Outcome where
  sched := added.1
  instrs :=
    if w.rest.isEmpty then .label :: (added.2 ++ w.before)
    else if w.before.isEmpty then .label :: (added.2 ++ w.rest)
    else w.before ++ added.2 ++ w.rest
  isMarked := w.isUsedLater

/-- `ScheduleRegisters` of a fragment, for a virtual register with a preferred register. -/
def scheduleInGPR (s : RegisterScheduler) (f : Fragment) (instrs : List Instruction) (v : VRId)
    (preferredGPR : VirtualRegister) : Outcome :=
  if v ∈ f.exitRegs then
    let w := walk (rehomeInGPR preferredGPR) v ⟨s.reset instrs, preferredGPR, false, [], []⟩ instrs
    if v ∈ f.entryRegs then
      if preferredGPR.same w.vrHome then ⟨w.sched, w.before ++ w.rest, w.isUsedLater⟩
      else w.addAtSchedLabel (changeVRHome w.sched w.vrHome preferredGPR)
    else
      let saved := w.sched.slotForGPR w.vrHome
      w.addAtSchedLabel (saved.1, [.transfer (.saveGPRToSlot w.vrHome saved.2)])
  else ⟨s, instrs, false⟩

def vrIsLiveOnExit (h : Heap) (f : Fragment) (v : VRId) : Bool :=
  f.successors.any fun j ↦
    (h j).isCode && (!(h j).attr.isCompensationFrag || (h j).exitRegs.contains v)

/-- `ScheduleRegisters` of a fragment, for a virtual register in a slot. -/
def scheduleInSlot (s : RegisterScheduler) (h : Heap) (f : Fragment) (instrs : List Instruction)
    (v : VRId) (slot : ℕ) : Outcome :=
  if v ∈ f.exitRegs then
    let slotReg := nthSpillSlot slot
    let w := walk (rehomeInSlot slotReg (f.defRegs.contains v)) v
      ⟨s.reset instrs, slotReg, vrIsLiveOnExit h f v, [], []⟩ instrs
    if slotReg.same w.vrHome then ⟨w.sched, w.before ++ w.rest, w.isUsedLater⟩
    else
      let saved := w.sched.slotForGPR w.vrHome
      let restore : List Instruction :=
        if v ∈ f.entryRegs then [.transfer (.restoreGPRFromSlot w.vrHome slotReg)] else []
      w.addAtSchedLabel (saved.1, .transfer (.saveGPRToSlot w.vrHome saved.2) :: restore)
  else ⟨s, instrs, false⟩

def scheduleAnnot (s : RegisterScheduler) : Annotation → Option (RegisterScheduler × Transfer)
  | .saveRegister gpr => some ((s.slotForGPR gpr).1, .saveGPRToSlot gpr (s.slotForGPR gpr).2)
  | .restoreRegister gpr => some ((s.slotForGPR gpr).1, .restoreGPRFromSlot gpr (s.slotForGPR gpr).2)
  | .swapRestoreRegister gpr => some ((s.slotForGPR gpr).1, .swapGPRWithSlot gpr (s.slotForGPR gpr).2)
  | .reviveRegisters _ | .other => none

def Instruction.annotation? : Instruction → Option Annotation
  | annot a => some a
  | native _ | transfer _ | label => none

def scheduleSaveRestores (s : RegisterScheduler) : List Instruction → Outcome
  | [] => ⟨s, [], false⟩
  | instr :: instrs =>
    match instr.annotation?.bind (scheduleAnnot s) with
    | some (s', t) =>
      let o := scheduleSaveRestores s' instrs
      ⟨o.sched, instr :: .transfer t :: o.instrs, true⟩
    | none =>
      let o := scheduleSaveRestores s instrs
      ⟨o.sched, instr :: o.instrs, o.isMarked⟩

structure PartitionInfo where
  usesVrs : Bool := false
  numSlots : ℕ := 0
deriving DecidableEq, Repr

structure State where
  sched : RegisterScheduler
  instrs : FragmentId → List Instruction
  part : ℕ → PartitionInfo

def markPartitionAsUsingVRs (h : Heap) (part : ℕ → PartitionInfo) (i : FragmentId) :
    ℕ → PartitionInfo :=
  update part (h i).partition { part (h i).partition with usesVrs := true }

def State.put (h : Heap) (st : State) (i : FragmentId) (o : Outcome) : State where
  sched := o.sched
  instrs := update st.instrs i o.instrs
  part := if o.isMarked then markPartitionAsUsingVRs h st.part i else st.part

def getSchedulableVRs (frags : List FragmentId) (h : Heap) : TinySet VRId :=
  frags.foldl (fun vrs i ↦
    if (h i).isCode then TinySet.union (TinySet.union vrs (h i).entryRegs) (h i).exitRegs
    else vrs) []

/-- A compensating fragment only restores a preferred register, if the virtual register is
killed in it. -/
def scheduleFragment (h : Heap) (v : VRId) (preferredGPR : VirtualRegister) (slot : ℕ) (st : State)
    (i : FragmentId) : State :=
  if (h i).isCode then
    if preferredGPR.isValid then
      if (h i).attr.isCompensationFrag then
        if v ∈ (h i).entryRegs ∧ v ∉ (h i).exitRegs then
          let saved := st.sched.slotForGPR preferredGPR
          st.put h i
            ⟨saved.1, .transfer (.restoreGPRFromSlot preferredGPR saved.2) :: st.instrs i, false⟩
        else st
      else st.put h i (scheduleInGPR st.sched (h i) (st.instrs i) v preferredGPR)
    else if (h i).attr.isCompensationFrag then st
    else st.put h i (scheduleInSlot st.sched h (h i) (st.instrs i) v slot)
  else st

/-- The slot of a virtual register is only allocated when no register can be preferred. -/
def scheduleVR (frags : List FragmentId) (h : Heap) (r : State × RegisterSet) (v : VRId) :
    State × RegisterSet :=
  let sched := r.1.sched.reset (frags.flatMap r.1.instrs)
  let preferredGPR := sched.getPreferredGPR r.2
  let st := { r.1 with sched := if preferredGPR.isValid then sched else sched.addSlot }
  (frags.foldl (scheduleFragment h v preferredGPR sched.numSlots) st,
    if preferredGPR.isValid then RegisterSet.revive r.2 preferredGPR else r.2)

def scheduleFragmentSaveRestores (h : Heap) (st : State) (i : FragmentId) : State :=
  if (h i).isCode then st.put h i (scheduleSaveRestores st.sched (st.instrs i)) else st

def markPartitionUseCounts (frags : List FragmentId) (h : Heap) (st : State) : State :=
  if st.sched.numSlots = 0 then st
  else { st with
    part := frags.foldl (fun part i ↦
      if (part (h i).partition).usesVrs then
        update part (h i).partition { part (h i).partition with numSlots := st.sched.numSlots }
      else part) st.part }

def scheduleRegisters (frags : List FragmentId) (h : Heap) (instrs : FragmentId → List Instruction) :
    State :=
  let st : State := ⟨.init, instrs, fun _ ↦ {}⟩
  let st := ((getSchedulableVRs frags h).foldl (scheduleVR frags h) (st, 0#16)).1
  let st := { st with sched := st.sched.resetGPRSlots }
  markPartitionUseCounts frags h (frags.foldl (scheduleFragmentSaveRestores h) st)

/-- No operand of an instruction is a slot, or is addressed by one. -/
def NamesNoSlot (i : Arch.Instruction) : Prop :=
  ∀ op ∈ i.ops, ∀ r ∈ operandRegisters op, r.isVirtualSlot = false

def IsSlotBelow (k : ℕ) (r : VirtualRegister) : Prop := r.isVirtualSlot = true ∧ r.number < k

theorem IsSlotBelow.mono {k k' : ℕ} {r : VirtualRegister} (h : IsSlotBelow k r) (hk : k ≤ k') :
    IsSlotBelow k' r := ⟨h.1, h.2.trans_le hk⟩

/-- The slot of a transfer is one of the first `k`, and no other register of it is a slot. -/
def Transfer.Below (k : ℕ) : Transfer → Prop
  | saveGPRToSlot gpr slot | restoreGPRFromSlot gpr slot | swapGPRWithSlot gpr slot =>
    gpr.isVirtualSlot = false ∧ IsSlotBelow k slot
  | swapGPRWithGPR gpr1 gpr2 => gpr1.isVirtualSlot = false ∧ gpr2.isVirtualSlot = false

theorem Transfer.Below.mono {k k' : ℕ} {t : Transfer} (h : t.Below k) (hk : k ≤ k') : t.Below k' := by
  cases t with
  | swapGPRWithGPR => exact h
  | saveGPRToSlot => exact ⟨h.1, h.2.mono hk⟩
  | restoreGPRFromSlot => exact ⟨h.1, h.2.mono hk⟩
  | swapGPRWithSlot => exact ⟨h.1, h.2.mono hk⟩

/-- An instruction, and what it is after virtual registers in it were replaced. -/
inductive Renames : Instruction → Instruction → Prop
  | refl (x : Instruction) : Renames x x
  | native {i i' : NativeInstruction} (hd : i'.definedVr = i.definedVr) (hu : i'.usedVrs = i.usedVrs)
      (hs : NamesNoSlot i.instruction → NamesNoSlot i'.instruction) :
      Renames (.native i) (.native i')

theorem Renames.trans {x y z : Instruction} (h : Renames x y) (h' : Renames y z) : Renames x z := by
  cases h with
  | refl => exact h'
  | native hd hu hs =>
    cases h' with
    | refl => exact .native hd hu hs
    | native hd' hu' hs' => exact .native (hd'.trans hd) (hu'.trans hu) (hs' ∘ hs)

theorem isVirtualSlot_tryReplaceReg {r oldReg newReg : VirtualRegister}
    (hr : r.isVirtualSlot = false) (hnew : newReg.isVirtualSlot = false) :
    (tryReplaceReg r oldReg newReg).isVirtualSlot = false := by
  unfold tryReplaceReg
  split_ifs
  · exact hnew
  · exact hr

theorem namesNoSlot_tryReplaceRegInOperand {op : Operand} {oldReg newReg : VirtualRegister}
    (hop : ∀ r ∈ operandRegisters op, r.isVirtualSlot = false)
    (hnew : newReg.isVirtualSlot = false) :
    ∀ r ∈ operandRegisters (tryReplaceRegInOperand oldReg newReg op), r.isVirtualSlot = false := by
  obtain ⟨value, width, action, isExplicit, isDefinition⟩ := op
  cases value with
  | reg r =>
    intro r' hr'
    rw [List.mem_singleton.mp hr']
    exact isVirtualSlot_tryReplaceReg (hop r List.mem_cons_self) hnew
  | mem r =>
    intro r' hr'
    rw [List.mem_singleton.mp hr']
    exact isVirtualSlot_tryReplaceReg (hop r List.mem_cons_self) hnew
  | compound base index disp scale =>
    intro r' hr'
    rcases List.mem_cons.mp hr' with rfl | hr'
    · exact isVirtualSlot_tryReplaceReg (hop base List.mem_cons_self) hnew
    · rw [List.mem_singleton.mp hr']
      exact isVirtualSlot_tryReplaceReg (hop index (List.mem_cons_of_mem _ List.mem_cons_self)) hnew
  | ptr => exact hop
  | imm => exact hop
  | branchTarget => exact hop

theorem namesNoSlot_tryReplaceRegInInstruction {i : NativeInstruction}
    {oldReg newReg : VirtualRegister} (hnew : newReg.isVirtualSlot = false)
    (hi : NamesNoSlot i.instruction) :
    NamesNoSlot (tryReplaceRegInInstruction oldReg newReg i).instruction := by
  change ∀ op ∈ tryReplaceRegInOperands oldReg newReg i.instruction.ops, _
  unfold NamesNoSlot at hi
  generalize i.instruction.ops = ops at hi
  induction ops with
  | nil => exact hi
  | cons op ops ih =>
    obtain ⟨hop, hops⟩ := List.forall_mem_cons.mp hi
    unfold tryReplaceRegInOperands
    split_ifs
    · exact List.forall_mem_cons.mpr ⟨namesNoSlot_tryReplaceRegInOperand hop hnew, ih hops⟩
    · exact hi

theorem renames_replace (x : Instruction) (oldReg : VirtualRegister) {newReg : VirtualRegister}
    (hnew : newReg.isVirtualSlot = false) : Renames x (x.replace oldReg newReg) := by
  cases x with
  | native i => exact .native rfl rfl (namesNoSlot_tryReplaceRegInInstruction hnew)
  | transfer => exact .refl _
  | label => exact .refl _
  | annot => exact .refl _

def Instruction.Names (v : VRId) (x : Instruction) : Prop :=
  ∃ i, x.native? = some i ∧ isUsedOrDefined i v = true

theorem Renames.names {x y : Instruction} (h : Renames x y) {v : VRId} (hx : x.Names v) :
    y.Names v := by
  cases h with
  | refl => exact hx
  | @native i i' hd hu hs =>
    obtain ⟨j, hj, hv⟩ := hx
    obtain rfl := Option.some.inj hj
    refine ⟨i', rfl, ?_⟩
    rw [isUsedOrDefined, hd, hu]
    exact hv

/-- The instructions `l'` are those of `l`, after some virtual registers are replaced, between
labels and transfers whose slots are among the first `k`. -/
structure Rewritten (k : ℕ) (l l' : List Instruction) : Prop where
  made : ∀ x' ∈ l', x' = .label ∨ (∃ t, x' = .transfer t ∧ t.Below k) ∨ ∃ x ∈ l, Renames x x'
  kept : ∀ x ∈ l, ∃ x' ∈ l', Renames x x'

namespace Rewritten

variable {k k' : ℕ} {l l' l'' : List Instruction}

theorem refl (k : ℕ) (l : List Instruction) : Rewritten k l l :=
  ⟨fun x hx ↦ .inr (.inr ⟨x, hx, .refl x⟩), fun x hx ↦ ⟨x, hx, .refl x⟩⟩

theorem trans (h : Rewritten k l l') (hk : k ≤ k') (h' : Rewritten k' l' l'') :
    Rewritten k' l l'' := by
  refine ⟨fun z hz ↦ ?_, fun x hx ↦ ?_⟩
  · rcases h'.made z hz with hz | hz | ⟨y, hy, hyz⟩
    · exact .inl hz
    · exact .inr (.inl hz)
    · rcases h.made y hy with rfl | ⟨t, rfl, ht⟩ | ⟨x, hx, hxy⟩
      · cases hyz
        exact .inl rfl
      · cases hyz
        exact .inr (.inl ⟨t, rfl, ht.mono hk⟩)
      · exact .inr (.inr ⟨x, hx, hxy.trans hyz⟩)
  · obtain ⟨y, hy, hxy⟩ := h.kept x hx
    obtain ⟨z, hz, hyz⟩ := h'.kept y hy
    exact ⟨z, hz, hxy.trans hyz⟩

theorem mono (h : Rewritten k l l') (hk : k ≤ k') : Rewritten k' l l' :=
  h.trans hk (refl k' l')

theorem add (h : Rewritten k l l') (hsub : ∀ x ∈ l', x ∈ l'')
    (hnew : ∀ x ∈ l'', x ∈ l' ∨ x = .label ∨ ∃ t, x = .transfer t ∧ t.Below k) :
    Rewritten k l l'' := by
  refine ⟨fun x hx ↦ ?_, fun x hx ↦ ?_⟩
  · rcases hnew x hx with hx | hx | hx
    · exact h.made x hx
    · exact .inl hx
    · exact .inr (.inl hx)
  · obtain ⟨x', hx', hr⟩ := h.kept x hx
    exact ⟨x', hsub x' hx', hr⟩

theorem cons (h : Rewritten k l l') {x x' : Instruction} (hx : Renames x x') :
    Rewritten k (x :: l) (x' :: l') := by
  refine ⟨List.forall_mem_cons.mpr ⟨.inr (.inr ⟨x, List.mem_cons_self, hx⟩), fun y hy ↦ ?_⟩,
    List.forall_mem_cons.mpr ⟨⟨x', List.mem_cons_self, hx⟩, fun y hy ↦ ?_⟩⟩
  · refine (h.made y hy).imp_right (Or.imp_right ?_)
    exact fun ⟨z, hz, hr⟩ ↦ ⟨z, List.mem_cons_of_mem x hz, hr⟩
  · obtain ⟨y', hy', hr⟩ := h.kept y hy
    exact ⟨y', List.mem_cons_of_mem x' hy', hr⟩

theorem names (h : Rewritten k l l') {v : VRId} (hv : ∃ x ∈ l, x.Names v) : ∃ x ∈ l', x.Names v := by
  obtain ⟨x, hx, hv⟩ := hv
  obtain ⟨x', hx', hr⟩ := h.kept x hx
  exact ⟨x', hx', hr.names hv⟩

end Rewritten

theorem slotForGPR_spec (s : RegisterScheduler) (gpr : VirtualRegister) :
    s.numSlots ≤ (s.slotForGPR gpr).1.numSlots ∧
      IsSlotBelow (s.slotForGPR gpr).1.numSlots (s.slotForGPR gpr).2 := by
  have hmod (n : ℕ) : (nthSpillSlot n).number ≤ n := Nat.mod_le n _
  unfold RegisterScheduler.slotForGPR
  split_ifs with h
  · exact ⟨le_rfl, rfl, (hmod _).trans_lt (s.slotForGpr_lt _ h)⟩
  · exact ⟨Nat.le_succ _, rfl, Nat.lt_succ_of_le (hmod _)⟩

def AllBelow (k : ℕ) (l : List Instruction) : Prop := ∀ x ∈ l, ∃ t, x = .transfer t ∧ t.Below k

theorem allBelow_nil (k : ℕ) : AllBelow k [] := fun _ hx ↦ absurd hx List.not_mem_nil

theorem allBelow_cons {k : ℕ} {t : Transfer} {l : List Instruction} :
    AllBelow k (.transfer t :: l) ↔ t.Below k ∧ AllBelow k l := by
  refine List.forall_mem_cons.trans (and_congr_left fun _ ↦ ?_)
  constructor
  · intro ⟨t', ht, hb⟩
    obtain rfl := Instruction.transfer.inj ht
    exact hb
  · exact fun hb ↦ ⟨t, rfl, hb⟩

theorem AllBelow.mono {k k' : ℕ} {l : List Instruction} (h : AllBelow k l) (hk : k ≤ k') :
    AllBelow k' l := by
  intro x hx
  obtain ⟨t, ht, hb⟩ := h x hx
  exact ⟨t, ht, hb.mono hk⟩

theorem AllBelow.append {k : ℕ} {l l' : List Instruction} (h : AllBelow k l) (h' : AllBelow k l') :
    AllBelow k (l ++ l') := List.forall_mem_append.mpr ⟨h, h'⟩

theorem changeVRHome_spec (s : RegisterScheduler) {oldHome newHome : VirtualRegister}
    (hold : oldHome.isVirtualSlot = false) (hnew : newHome.isVirtualSlot = false) :
    s.numSlots ≤ (changeVRHome s oldHome newHome).1.numSlots ∧
      AllBelow (changeVRHome s oldHome newHome).1.numSlots (changeVRHome s oldHome newHome).2 := by
  obtain ⟨hle, hlt⟩ := slotForGPR_spec s newHome
  obtain ⟨hle', hlt'⟩ := slotForGPR_spec (s.slotForGPR newHome).1 oldHome
  refine ⟨hle.trans hle', ?_⟩
  refine allBelow_cons.mpr ⟨⟨hold, hlt'⟩, allBelow_cons.mpr ⟨⟨hold, hnew⟩, ?_⟩⟩
  exact allBelow_cons.mpr ⟨⟨hnew, hlt.mono hle'⟩, allBelow_nil _⟩

theorem isVirtualSlot_elim (o : Option ℕ) : (o.elim {} nthArchGPR).isVirtualSlot = false := by
  cases o <;> rfl

/-- A virtual register is in no other slot than the one, if any, that it is in on the edges
between fragments. -/
def Homed (edgeHome r : VirtualRegister) : Prop := r.isVirtualSlot = true → r = edgeHome

theorem homed_of_not_slot {edgeHome r : VirtualRegister} (hr : r.isVirtualSlot = false) :
    Homed edgeHome r := fun h ↦ absurd (hr ▸ h) Bool.false_ne_true

theorem not_slot_of_homed {edgeHome r : VirtualRegister} (hr : Homed edgeHome r)
    (he : edgeHome.isVirtualSlot = false) : r.isVirtualSlot = false := by
  by_contra hslot
  have hslot' := Bool.not_eq_false _ ▸ hslot
  rw [hr hslot', he] at hslot'
  exact Bool.false_ne_true hslot'

theorem not_slot_of_homed_of_not_same {edgeHome r : VirtualRegister} (hr : Homed edgeHome r)
    (hne : ¬ edgeHome.same r = true) : r.isVirtualSlot = false := by
  by_contra hslot
  refine hne ?_
  rw [hr (Bool.not_eq_false _ ▸ hslot)]
  simp [VirtualRegister.same]

/-- What is done about the place of a virtual register before an instruction. -/
structure Places (edgeHome : VirtualRegister) (seen : Seen) (w : Walk) (p : Placed) : Prop where
  numSlots_le : w.sched.numSlots ≤ p.sched.numSlots
  home : Homed edgeHome p.vrHome
  named : seen.isUsedOrDefined = true → p.vrHome.isVirtualSlot = false
  added : AllBelow p.sched.numSlots p.added

theorem places_rehomeInGPR {preferredGPR : VirtualRegister}
    (hpref : preferredGPR.isVirtualSlot = false) (seen : Seen) {w : Walk}
    (hw : Homed preferredGPR w.vrHome) :
    Places preferredGPR seen w (rehomeInGPR preferredGPR seen w) := by
  have hhome := not_slot_of_homed hw hpref
  unfold rehomeInGPR
  split_ifs
  · have hgpr : (w.sched.getGPR seen.usedRegs).isVirtualSlot = false := isVirtualSlot_elim _
    obtain ⟨hle, hadded⟩ := changeVRHome_spec w.sched hhome hgpr
    exact ⟨hle, homed_of_not_slot hgpr, fun _ ↦ hgpr, hadded⟩
  · obtain ⟨hle, hadded⟩ := changeVRHome_spec w.sched hhome hpref
    exact ⟨hle, homed_of_not_slot hpref, fun _ ↦ hpref, hadded⟩
  · exact ⟨le_rfl, hw, fun _ ↦ hhome, allBelow_nil _⟩

theorem not_slot_of_isNative {r : VirtualRegister} (hr : r.isNative = true) :
    r.isVirtualSlot = false := by
  unfold VirtualRegister.isNative at hr
  unfold VirtualRegister.isVirtualSlot
  cases hk : r.kind with
  | slot => exact absurd hr (by rw [hk]; exact Bool.false_ne_true)
  | _ => rfl

theorem places_leaveGPR {slotReg : VirtualRegister} (seen : Seen) {w : Walk}
    (hslot : IsSlotBelow w.sched.numSlots slotReg) (hw : Homed slotReg w.vrHome) :
    w.sched.numSlots ≤ (leaveGPR slotReg seen w).sched.numSlots ∧
      Homed slotReg (leaveGPR slotReg seen w).vrHome ∧
      AllBelow (leaveGPR slotReg seen w).sched.numSlots (leaveGPR slotReg seen w).added := by
  unfold leaveGPR
  split_ifs with hc
  · obtain ⟨hle, hlt⟩ := slotForGPR_spec w.sched w.vrHome
    have hhome := not_slot_of_isNative ((Bool.and_eq_true _ _).mp hc).1
    refine ⟨hle, fun _ ↦ rfl, allBelow_cons.mpr ⟨⟨hhome, hlt⟩, ?_⟩⟩
    exact allBelow_cons.mpr ⟨⟨hhome, hslot.mono hle⟩, allBelow_nil _⟩
  · exact ⟨le_rfl, hw, allBelow_nil _⟩

theorem places_rehomeInSlot {slotReg : VirtualRegister} (isDefined : Bool) (seen : Seen) {w : Walk}
    (hslot : IsSlotBelow w.sched.numSlots slotReg) (hw : Homed slotReg w.vrHome) :
    Places slotReg seen w (rehomeInSlot slotReg isDefined seen w) := by
  obtain ⟨hle, hleft, hadded⟩ := places_leaveGPR seen hslot hw
  unfold rehomeInSlot
  generalize leaveGPR slotReg seen w = left at hle hleft hadded
  have hgpr : (left.sched.getGPR seen.usedRegs).isVirtualSlot = false := isVirtualSlot_elim _
  obtain ⟨hle', hlt⟩ := slotForGPR_spec left.sched (left.sched.getGPR seen.usedRegs)
  simp only
  by_cases hc : (seen.isUsedOrDefined && slotReg.same left.vrHome) = true
  · rw [if_pos hc]
    refine ⟨hle.trans hle', homed_of_not_slot hgpr, fun _ ↦ hgpr, .append ?_ ?_⟩
    · split_ifs
      · exact allBelow_cons.mpr ⟨⟨hgpr, hslot.mono (hle.trans hle')⟩, allBelow_nil _⟩
      · exact allBelow_nil _
    · exact allBelow_cons.mpr ⟨⟨hgpr, hlt⟩, hadded.mono hle'⟩
  · rw [if_neg hc]
    refine ⟨hle, hleft, fun hnamed ↦ not_slot_of_homed_of_not_same hleft ?_, hadded⟩
    rwa [hnamed, Bool.true_and] at hc

theorem isUsedOrDefined_look {v : VRId} {x : Instruction} :
    (look v x).isUsedOrDefined = true ↔ x.Names v := by
  unfold look Instruction.Names
  cases hx : x.native? with
  | some i =>
    simp only [Option.some.injEq, exists_eq_left']
    split_ifs with hv
    · simp [hv]
    · simp [hv]
  | none =>
    simp only [reduceCtorEq, false_and, exists_false, iff_false, Bool.not_eq_true]
    cases x with
    | annot a => cases a <;> rfl
    | label => rfl
    | native => rfl
    | transfer => rfl

structure Walked (edgeHome : VirtualRegister) (v : VRId) (l : List Instruction) (w₀ w : Walk) :
    Prop where
  numSlots_le : w₀.sched.numSlots ≤ w.sched.numSlots
  home : Homed edgeHome w.vrHome
  rewritten : Rewritten w.sched.numSlots l (w.before ++ w.rest)
  used : (w₀.isUsedLater = true ∨ ∃ x ∈ l, x.Names v) → w.isUsedLater = true

theorem Walked.visit {edgeHome : VirtualRegister} {v : VRId} {l : List Instruction} {w₀ w : Walk}
    {rehome : Seen → Walk → Placed} {x : Instruction} (h : Walked edgeHome v l w₀ w)
    (hp : Places edgeHome (look v x) w (rehome (look v x) w)) :
    Walked edgeHome v (x :: l) w₀ (w.visit rehome v x) := by
  refine ⟨h.numSlots_le.trans hp.numSlots_le, hp.home, ?_, fun hused ↦ ?_⟩
  · generalize hplaced : rehome (look v x) w = placed at hp
    have hx : Renames x (if (look v x).isUsedOrDefined then x.replace (virtualGPR v) placed.vrHome
        else x) := by
      split_ifs with hnamed
      · exact renames_replace x _ (hp.named hnamed)
      · exact .refl x
    generalize hx' : (if (look v x).isUsedOrDefined then x.replace (virtualGPR v) placed.vrHome
        else x) = x' at hx
    have hlist : (w.visit rehome v x).before ++ (w.visit rehome v x).rest =
        x' :: (placed.added ++ (w.before ++ w.rest)) := by
      simp only [Walk.visit, hplaced, hx']
      split_ifs <;> simp
    have hsched : (w.visit rehome v x).sched = placed.sched := by
      rw [← hplaced]
      rfl
    rw [hlist, hsched]
    refine ((h.rewritten.mono hp.numSlots_le).cons hx).add (fun y hy ↦ ?_) fun y hy ↦ ?_
    · refine (List.mem_cons.mp hy).elim (fun hy ↦ hy ▸ List.mem_cons_self) fun hy ↦ ?_
      exact List.mem_cons_of_mem _ (List.mem_append_right _ hy)
    · rcases List.mem_cons.mp hy with hy | hy
      · exact .inl (hy ▸ List.mem_cons_self)
      · rcases List.mem_append.mp hy with hy | hy
        · exact .inr (.inr (hp.added y hy))
        · exact .inl (List.mem_cons_of_mem _ hy)
  · change (w.isUsedLater || (look v x).isUsedOrDefined) = true
    rw [Bool.or_eq_true, isUsedOrDefined_look]
    rcases hused with hused | ⟨y, hy, hv⟩
    · exact .inl (h.used (.inl hused))
    · rcases List.mem_cons.mp hy with rfl | hy
      · exact .inr hv
      · exact .inl (h.used (.inr ⟨y, hy, hv⟩))

theorem walked_walk {edgeHome : VirtualRegister} {rehome : Seen → Walk → Placed}
    {s : RegisterScheduler} (v : VRId) (isUsedLater : Bool)
    (hp : ∀ seen w, s.numSlots ≤ w.sched.numSlots → Homed edgeHome w.vrHome →
      Places edgeHome seen w (rehome seen w)) (l : List Instruction) :
    Walked edgeHome v l ⟨s, edgeHome, isUsedLater, [], []⟩
      (walk rehome v ⟨s, edgeHome, isUsedLater, [], []⟩ l) := by
  induction l with
  | nil =>
    refine ⟨le_rfl, fun _ ↦ rfl, .refl _ _, fun h ↦ h.elim id fun ⟨x, hx, _⟩ ↦ ?_⟩
    exact absurd hx List.not_mem_nil
  | cons x l ih => exact ih.visit (hp _ _ ih.numSlots_le ih.home)

/-- A fragment with the instructions `l` after one virtual register is scheduled in it. -/
structure Schedules (f : Fragment) (v : VRId) (s : RegisterScheduler) (l : List Instruction)
    (o : Outcome) : Prop where
  numSlots_le : s.numSlots ≤ o.sched.numSlots
  rewritten : Rewritten o.sched.numSlots l o.instrs
  marked : v ∈ f.exitRegs → (∃ x ∈ l, x.Names v) → o.isMarked = true
  quiet : v ∉ f.exitRegs → o.instrs = l

variable {f : Fragment} {v : VRId} {s s₀ : RegisterScheduler} {l : List Instruction}

theorem schedules_skip (hv : v ∉ f.exitRegs) : Schedules f v s l ⟨s, l, false⟩ :=
  ⟨le_rfl, .refl _ _, fun h ↦ absurd h hv, fun _ ↦ rfl⟩

theorem Walked.schedules {edgeHome : VirtualRegister} {isUsedLater : Bool} {w : Walk}
    (h : Walked edgeHome v l ⟨s.reset l, edgeHome, isUsedLater, [], []⟩ w) (hv : v ∈ f.exitRegs) :
    Schedules f v s l ⟨w.sched, w.before ++ w.rest, w.isUsedLater⟩ :=
  ⟨h.numSlots_le, h.rewritten, fun _ hn ↦ h.used (.inr hn), fun hne ↦ absurd hv hne⟩

theorem Walked.schedules_addAtSchedLabel {edgeHome : VirtualRegister} {isUsedLater : Bool}
    {w : Walk} {added : RegisterScheduler × List Instruction}
    (h : Walked edgeHome v l ⟨s.reset l, edgeHome, isUsedLater, [], []⟩ w) (hv : v ∈ f.exitRegs)
    (hle : w.sched.numSlots ≤ added.1.numSlots) (hadded : AllBelow added.1.numSlots added.2) :
    Schedules f v s l (w.addAtSchedLabel added) := by
  refine ⟨h.numSlots_le.trans hle, (h.rewritten.mono hle).add ?_ ?_, fun _ hn ↦ h.used (.inr hn),
    fun hne ↦ absurd hv hne⟩
  · intro x hx
    simp only [Walk.addAtSchedLabel, List.isEmpty_iff]
    split_ifs with hrest hbefore
    · rw [hrest, List.append_nil] at hx
      exact List.mem_cons_of_mem _ (List.mem_append_right _ hx)
    · rw [hbefore, List.nil_append] at hx
      exact List.mem_cons_of_mem _ (List.mem_append_right _ hx)
    · simp only [List.mem_append] at hx ⊢
      tauto
  · intro x hx
    simp only [Walk.addAtSchedLabel, List.isEmpty_iff] at hx
    have hnew : x ∈ w.before ++ w.rest ∨ x = .label ∨ x ∈ added.2 := by
      split_ifs at hx
      all_goals
        simp only [List.mem_cons, List.mem_append] at hx ⊢
        tauto
    exact hnew.imp_right (Or.imp_right (hadded x))

theorem schedules_scheduleInGPR (f : Fragment) (v : VRId) (s : RegisterScheduler)
    (l : List Instruction) {preferredGPR : VirtualRegister}
    (hpref : preferredGPR.isVirtualSlot = false) :
    Schedules f v s l (scheduleInGPR s f l v preferredGPR) := by
  have hwalk := walked_walk (s := s.reset l) v false
    (fun seen w _ hw ↦ places_rehomeInGPR hpref seen hw) l
  have hhome := not_slot_of_homed hwalk.home hpref
  unfold scheduleInGPR
  simp only
  split_ifs with hv hentry hsame
  · exact hwalk.schedules hv
  · obtain ⟨hle, hadded⟩ := changeVRHome_spec _ hhome hpref
    exact hwalk.schedules_addAtSchedLabel hv hle hadded
  · obtain ⟨hle, hlt⟩ := slotForGPR_spec _ _
    exact hwalk.schedules_addAtSchedLabel hv hle (allBelow_cons.mpr ⟨⟨hhome, hlt⟩, allBelow_nil _⟩)
  · exact schedules_skip hv

theorem schedules_scheduleInSlot (h : Heap) (f : Fragment) (v : VRId) (l : List Instruction)
    {slot : ℕ} (hslot : slot < s.numSlots) :
    Schedules f v s l (scheduleInSlot s h f l v slot) := by
  have hreg : IsSlotBelow s.numSlots (nthSpillSlot slot) := ⟨rfl, (Nat.mod_le slot _).trans_lt hslot⟩
  have hwalk := walked_walk (s := s.reset l) v (vrIsLiveOnExit h f v)
    (fun seen w hle hw ↦ places_rehomeInSlot (f.defRegs.contains v) seen (hreg.mono hle) hw) l
  have hlt := hreg.mono hwalk.numSlots_le
  unfold scheduleInSlot
  simp only
  split_ifs with hv hsame hentry
  · exact hwalk.schedules hv
  · obtain ⟨hle, hsaved⟩ := slotForGPR_spec _ _
    have hhome := not_slot_of_homed_of_not_same hwalk.home hsame
    refine hwalk.schedules_addAtSchedLabel hv hle (allBelow_cons.mpr ⟨⟨hhome, hsaved⟩, ?_⟩)
    exact allBelow_cons.mpr ⟨⟨hhome, hlt.mono hle⟩, allBelow_nil _⟩
  · obtain ⟨hle, hsaved⟩ := slotForGPR_spec _ _
    have hhome := not_slot_of_homed_of_not_same hwalk.home hsame
    refine hwalk.schedules_addAtSchedLabel hv hle ?_
    exact allBelow_cons.mpr ⟨⟨hhome, hsaved⟩, allBelow_nil _⟩
  · exact schedules_skip hv

/-- An annotation asks for nothing of a slot. -/
def Annotation.NamesNoSlot : Annotation → Prop
  | saveRegister gpr | restoreRegister gpr | swapRestoreRegister gpr => gpr.isVirtualSlot = false
  | reviveRegisters _ | other => True

/-- The instructions name no slot but those of transfers, which are among the first `k`. -/
def Instruction.Below (k : ℕ) : Instruction → Prop
  | native i => ScheduleRegisters.NamesNoSlot i.instruction
  | transfer t => t.Below k
  | annot a => a.NamesNoSlot
  | label => True

theorem Instruction.Below.mono {k k' : ℕ} {x : Instruction} (h : x.Below k) (hk : k ≤ k') :
    x.Below k' := by
  cases x with
  | transfer t => exact Transfer.Below.mono h hk
  | native => exact h
  | label => exact h
  | annot => exact h

theorem Renames.below {x y : Instruction} (h : Renames x y) {k : ℕ} (hx : x.Below k) : y.Below k := by
  cases h with
  | refl => exact hx
  | native hd hu hs => exact hs hx

theorem Rewritten.below {k : ℕ} {l l' : List Instruction} (h : Rewritten k l l')
    (hl : ∀ x ∈ l, x.Below k) : ∀ x ∈ l', x.Below k := by
  intro y hy
  rcases h.made y hy with rfl | ⟨t, rfl, ht⟩ | ⟨x, hx, hxy⟩
  · trivial
  · exact ht
  · exact hxy.below (hl x hx)

def Live (h : Heap) (i : FragmentId) (v : VRId) : Prop :=
  (h i).isCode = true ∧
    if (h i).attr.isCompensationFrag then v ∈ (h i).entryRegs ∧ v ∉ (h i).exitRegs
    else v ∈ (h i).exitRegs

structure Advances (h : Heap) (st st' : State) : Prop where
  numSlots_le : st.sched.numSlots ≤ st'.sched.numSlots
  rewritten : ∀ i, Rewritten st'.sched.numSlots (st.instrs i) (st'.instrs i)
  marks : ∀ p, (st.part p).usesVrs = true → (st'.part p).usesVrs = true
  notCode : ∀ i, (h i).isCode = false → st'.instrs i = st.instrs i
  quiet : ∀ i, (∀ v, ¬ Live h i v) → (st'.part (h i).partition).usesVrs = false →
    st'.instrs i = st.instrs i

variable {h : Heap} {st st' st'' : State} {frags : List FragmentId} {i : FragmentId}

theorem Advances.refl (h : Heap) (st : State) : Advances h st st :=
  ⟨le_rfl, fun _ ↦ .refl _ _, fun _ h ↦ h, fun _ _ ↦ rfl, fun _ _ _ ↦ rfl⟩

theorem Advances.trans (ha : Advances h st st') (hb : Advances h st' st'') : Advances h st st'' := by
  refine ⟨ha.numSlots_le.trans hb.numSlots_le, fun i ↦ ?_, fun p hp ↦ hb.marks p (ha.marks p hp),
    fun i hi ↦ (hb.notCode i hi).trans (ha.notCode i hi), fun i hi hp ↦ ?_⟩
  · exact (ha.rewritten i).trans hb.numSlots_le (hb.rewritten i)
  · have hp' : (st'.part (h i).partition).usesVrs = false :=
      Bool.eq_false_iff.mpr fun hm ↦ Bool.eq_false_iff.mp hp (hb.marks _ hm)
    exact (hb.quiet i hi hp).trans (ha.quiet i hi hp')

theorem advances_put {o : Outcome} (hc : (h i).isCode = true) (hle : st.sched.numSlots ≤ o.sched.numSlots)
    (hrew : Rewritten o.sched.numSlots (st.instrs i) o.instrs)
    (hquiet : (∀ v, ¬ Live h i v) → o.isMarked = true ∨ o.instrs = st.instrs i) :
    Advances h st (st.put h i o) := by
  refine ⟨hle, fun j ↦ ?_, fun p hp ↦ ?_, fun j hj ↦ ?_, fun j hj hp ↦ ?_⟩
  · by_cases hji : j = i
    · subst hji
      simpa [State.put] using hrew
    · simpa [State.put, hji] using .refl _ _
  · simp only [State.put]
    split_ifs
    · by_cases hpi : p = (h i).partition
      · simp [markPartitionAsUsingVRs, hpi]
      · simpa [markPartitionAsUsingVRs, hpi] using hp
    · exact hp
  · refine update_of_ne (fun hji ↦ ?_) _ _
    rw [hji, hc] at hj
    exact Bool.false_ne_true hj.symm
  · by_cases hji : j = i
    · subst hji
      refine (update_self _ _ _).trans ((hquiet hj).resolve_left fun hm ↦ ?_)
      simp [State.put, hm, markPartitionAsUsingVRs] at hp
    · exact update_of_ne hji _ _

theorem isMarked_put {o : Outcome} (ho : o.isMarked = true) :
    ((st.put h i o).part (h i).partition).usesVrs = true := by
  simp [State.put, ho, markPartitionAsUsingVRs]

theorem Schedules.advances {v : VRId} {o : Outcome}
    (hs : Schedules (h i) v st.sched (st.instrs i) o) (hc : (h i).isCode = true)
    (hcomp : (h i).attr.isCompensationFrag = false) : Advances h st (st.put h i o) := by
  refine advances_put hc hs.numSlots_le hs.rewritten fun hlive ↦ .inr (hs.quiet fun hv ↦ hlive v ?_)
  rw [Live, hcomp, if_neg Bool.false_ne_true]
  exact ⟨hc, hv⟩

/-- A place for a virtual register on the edges between fragments: a preferred register, or a
slot that is allocated. -/
def IsPlace (preferredGPR : VirtualRegister) (slot : ℕ) (st : State) : Prop :=
  preferredGPR.isVirtualSlot = false ∧
    (preferredGPR.isValid = false → slot < st.sched.numSlots)

theorem IsPlace.advances {preferredGPR : VirtualRegister} {slot : ℕ}
    (hp : IsPlace preferredGPR slot st) (ha : Advances h st st') : IsPlace preferredGPR slot st' :=
  ⟨hp.1, fun hv ↦ (hp.2 hv).trans_le ha.numSlots_le⟩

variable {preferredGPR : VirtualRegister} {slot : ℕ}

theorem scheduleFragment_of_code (hp : IsPlace preferredGPR slot st) (hc : (h i).isCode = true)
    (hcomp : (h i).attr.isCompensationFrag = false) :
    ∃ o, scheduleFragment h v preferredGPR slot st i = st.put h i o ∧
      Schedules (h i) v st.sched (st.instrs i) o := by
  rw [scheduleFragment, if_pos hc, hcomp]
  simp only [Bool.false_eq_true, if_false]
  split_ifs with hv
  · exact ⟨_, rfl, schedules_scheduleInGPR _ _ _ _ hp.1⟩
  · exact ⟨_, rfl, schedules_scheduleInSlot h _ _ _ (hp.2 (Bool.not_eq_true _ ▸ hv))⟩

theorem advances_scheduleFragment (v : VRId) (hp : IsPlace preferredGPR slot st) (i : FragmentId) :
    Advances h st (scheduleFragment h v preferredGPR slot st i) := by
  by_cases hc : (h i).isCode = true
  · cases hcomp : (h i).attr.isCompensationFrag with
    | false =>
      obtain ⟨o, ho, hs⟩ := scheduleFragment_of_code (v := v) hp hc hcomp
      rw [ho]
      exact hs.advances hc hcomp
    | true =>
      rw [scheduleFragment, if_pos hc, hcomp]
      simp only [if_true]
      split_ifs with hv hkilled
      · obtain ⟨hle, hlt⟩ := slotForGPR_spec st.sched preferredGPR
        refine advances_put hc hle ((Rewritten.refl _ _).add ?_ ?_) fun hlive ↦ absurd ?_ (hlive v)
        · exact fun x hx ↦ List.mem_cons_of_mem _ hx
        · exact List.forall_mem_cons.mpr ⟨.inr (.inr ⟨_, rfl, hp.1, hlt⟩), fun x hx ↦ .inl hx⟩
        · rw [Live, hcomp, if_pos rfl]
          exact ⟨hc, hkilled⟩
      · exact .refl h st
      · exact .refl h st
  · rw [scheduleFragment, if_neg hc]
    exact .refl h st

theorem isPlace_scheduleVR (frags : List FragmentId) (r : State × RegisterSet) :
    let sched := r.1.sched.reset (frags.flatMap r.1.instrs)
    let preferredGPR := sched.getPreferredGPR r.2
    let st := { r.1 with sched := if preferredGPR.isValid then sched else sched.addSlot }
    Advances h r.1 st ∧ IsPlace preferredGPR sched.numSlots st := by
  intro sched preferredGPR st
  have hle : r.1.sched.numSlots ≤ st.sched.numSlots := by
    simp only [st]
    split_ifs
    · exact le_rfl
    · exact Nat.le_succ _
  refine ⟨⟨hle, fun _ ↦ .refl _ _, fun _ h ↦ h, fun _ _ ↦ rfl, fun _ _ _ ↦ rfl⟩,
    isVirtualSlot_elim _, fun hv ↦ ?_⟩
  simp only [st, hv, Bool.false_eq_true, if_false]
  exact Nat.lt_succ_self _

theorem advances_scheduleVR (frags : List FragmentId) (r : State × RegisterSet) (v : VRId) :
    Advances h r.1 (scheduleVR frags h r v).1 := by
  obtain ⟨ha, hp⟩ := isPlace_scheduleVR (h := h) frags r
  refine ha.trans ?_
  exact foldl_rel (Advances.refl h) (fun _ _ _ ↦ Advances.trans) (fun _ _ ha hp ↦ hp.advances ha)
    (fun _ i _ hp ↦ advances_scheduleFragment v hp i) hp

/-- A fragment that names a virtual register, and out of which it is live. -/
structure UsesVR (h : Heap) (instrs : FragmentId → List Instruction) (u : FragmentId) (v : VRId) :
    Prop where
  code : (h u).isCode = true
  notComp : (h u).attr.isCompensationFrag = false
  exit : v ∈ (h u).exitRegs
  names : ∃ x ∈ instrs u, x.Names v

theorem UsesVR.advances {u : FragmentId} (hu : UsesVR h st.instrs u v) (ha : Advances h st st') :
    UsesVR h st'.instrs u v :=
  ⟨hu.code, hu.notComp, hu.exit, (ha.rewritten u).names hu.names⟩

theorem isMarked_scheduleVR {r : State × RegisterSet} {u : FragmentId} (hu : u ∈ frags)
    (huse : UsesVR h r.1.instrs u v) :
    ((scheduleVR frags h r v).1.part (h u).partition).usesVrs = true := by
  obtain ⟨ha, hp⟩ := isPlace_scheduleVR (h := h) frags r
  refine foldl_reaches (Q := fun st ↦ (st.part (h u).partition).usesVrs = true) (Advances.refl h)
    (fun _ _ _ ↦ Advances.trans) (fun _ _ ha hp ↦ hp.advances ha)
    (fun _ i _ hp ↦ advances_scheduleFragment v hp i) (fun _ _ ha ↦ ha.marks _) hu hp
    fun st hst hp' ↦ ?_
  have huse' := (huse.advances ha).advances hst
  obtain ⟨o, ho, hs⟩ := scheduleFragment_of_code hp' huse.code huse.notComp
  rw [ho]
  exact isMarked_put (hs.marked huse.exit huse'.names)

theorem mem_getSchedulableVRs {u : FragmentId} (hu : u ∈ frags) (hc : (h u).isCode = true)
    (hv : v ∈ (h u).exitRegs) : v ∈ getSchedulableVRs frags h := by
  refine foldl_reaches (R := fun s t : TinySet VRId ↦ ∀ w ∈ s, w ∈ t) (I := fun _ ↦ True)
    (Q := fun s ↦ v ∈ s) (fun _ _ h ↦ h) (fun _ _ _ h h' w hw ↦ h' w (h w hw)) (fun _ _ _ h ↦ h)
    (fun s i _ _ w hw ↦ ?_) (fun _ _ h ↦ h v) hu trivial fun s _ _ ↦ ?_
  · split_ifs
    · exact TinySet.mem_union.mpr (.inl (TinySet.mem_union.mpr (.inl hw)))
    · exact hw
  · rw [if_pos hc]
    exact TinySet.mem_union.mpr (.inr hv)

theorem scheduleAnnot_spec {a : Annotation} (hfree : a.NamesNoSlot)
    {r : RegisterScheduler × Transfer} (hr : scheduleAnnot s a = some r) :
    s.numSlots ≤ r.1.numSlots ∧ r.2.Below r.1.numSlots := by
  cases a with
  | saveRegister gpr =>
    obtain ⟨hle, hlt⟩ := slotForGPR_spec s gpr
    exact Option.some.inj hr ▸ ⟨hle, hfree, hlt⟩
  | restoreRegister gpr =>
    obtain ⟨hle, hlt⟩ := slotForGPR_spec s gpr
    exact Option.some.inj hr ▸ ⟨hle, hfree, hlt⟩
  | swapRestoreRegister gpr =>
    obtain ⟨hle, hlt⟩ := slotForGPR_spec s gpr
    exact Option.some.inj hr ▸ ⟨hle, hfree, hlt⟩
  | reviveRegisters => exact absurd hr (by simp [scheduleAnnot])
  | other => exact absurd hr (by simp [scheduleAnnot])

theorem eq_annot_of_annotation? {x : Instruction} {a : Annotation} (hx : x.annotation? = some a) :
    x = .annot a := by
  cases x with
  | annot b => exact congrArg Instruction.annot (Option.some.inj hx)
  | native => cases hx
  | transfer => cases hx
  | label => cases hx

theorem scheduleSaveRestores_spec (s : RegisterScheduler) {l : List Instruction}
    (hl : ∀ a, .annot a ∈ l → a.NamesNoSlot) :
    s.numSlots ≤ (scheduleSaveRestores s l).sched.numSlots ∧
      Rewritten (scheduleSaveRestores s l).sched.numSlots l (scheduleSaveRestores s l).instrs ∧
      ((scheduleSaveRestores s l).isMarked = true ∨ (scheduleSaveRestores s l).instrs = l) := by
  induction l generalizing s with
  | nil => exact ⟨le_rfl, .refl _ _, .inr rfl⟩
  | cons x l ih =>
    have ih := fun s ↦ ih s fun a ha ↦ hl a (List.mem_cons_of_mem x ha)
    unfold scheduleSaveRestores
    cases hx : x.annotation?.bind (scheduleAnnot s) with
    | none =>
      obtain ⟨hle, hrew, hquiet⟩ := ih s
      exact ⟨hle, hrew.cons (.refl x), hquiet.imp_right (congrArg (x :: ·))⟩
    | some r =>
      obtain ⟨a, hxa, ha⟩ := Option.bind_eq_some_iff.mp hx
      obtain rfl := eq_annot_of_annotation? hxa
      obtain ⟨hle, hbelow⟩ := scheduleAnnot_spec (hl a List.mem_cons_self) ha
      obtain ⟨hle', hrew, -⟩ := ih r.1
      refine ⟨hle.trans hle', (hrew.cons (.refl (.annot a))).add (fun y hy ↦ ?_) (fun y hy ↦ ?_), .inl rfl⟩
      · simp only [List.mem_cons] at hy ⊢
        tauto
      · simp only [List.mem_cons] at hy ⊢
        rcases hy with hy | rfl | hy
        · exact .inl (.inl hy)
        · exact .inr (.inr ⟨_, rfl, hbelow.mono hle'⟩)
        · exact .inl (.inr hy)

def AllAllocated (frags : List FragmentId) (st : State) : Prop :=
  ∀ i ∈ frags, ∀ x ∈ st.instrs i, x.Below st.sched.numSlots

theorem Advances.allAllocated (ha : Advances h st st') (hs : AllAllocated frags st) :
    AllAllocated frags st' :=
  fun i hi ↦ (ha.rewritten i).below fun x hx ↦ (hs i hi x hx).mono ha.numSlots_le

theorem advances_scheduleFragmentSaveRestores (hs : AllAllocated frags st) (hi : i ∈ frags) :
    Advances h st (scheduleFragmentSaveRestores h st i) := by
  obtain ⟨hle, hrew, hquiet⟩ := scheduleSaveRestores_spec st.sched fun a ha ↦ hs i hi (.annot a) ha
  unfold scheduleFragmentSaveRestores
  split_ifs with hc
  · exact advances_put hc hle hrew fun _ ↦ hquiet
  · exact .refl h st

theorem markPartitionUseCounts_spec (frags : List FragmentId) (h : Heap) (st : State) :
    (markPartitionUseCounts frags h st).sched = st.sched ∧
      (markPartitionUseCounts frags h st).instrs = st.instrs ∧
      ∀ i ∈ frags, st.sched.numSlots ≠ 0 → (st.part (h i).partition).usesVrs = true →
        ((markPartitionUseCounts frags h st).part (h i).partition).numSlots = st.sched.numSlots := by
  unfold markPartitionUseCounts
  split_ifs with hn
  · exact ⟨rfl, rfl, fun _ _ h ↦ absurd hn h⟩
  refine ⟨rfl, rfl, fun i hi _ hused ↦ ?_⟩
  refine foldl_reaches
    (R := fun s t : ℕ → PartitionInfo ↦ ∀ p, (t p).usesVrs = (s p).usesVrs ∧
      ((s p).numSlots = st.sched.numSlots → (t p).numSlots = st.sched.numSlots))
    (I := fun s ↦ (s (h i).partition).usesVrs = true)
    (Q := fun s ↦ (s (h i).partition).numSlots = st.sched.numSlots)
    (fun _ _ ↦ ⟨rfl, id⟩) (fun _ _ _ h h' p ↦ ⟨(h' p).1.trans (h p).1, (h' p).2 ∘ (h p).2⟩)
    (fun _ _ h hs ↦ (h _).1.trans hs) (fun s j _ _ p ↦ ?_) (fun _ _ h ↦ (h _).2) hi hused
    fun s _ hs ↦ ?_
  · split_ifs
    · by_cases hp : p = (h j).partition
      · subst hp
        simp
      · simp [hp]
    · exact ⟨rfl, id⟩
  · rw [if_pos hs, update_self]

theorem advances_scheduleRegisters (frags : List FragmentId) (h : Heap)
    {instrs : FragmentId → List Instruction} (hfree : ∀ i ∈ frags, ∀ x ∈ instrs i, x.Below 0) :
    ∃ st, scheduleRegisters frags h instrs = markPartitionUseCounts frags h st ∧
      Advances h ⟨.init, instrs, fun _ ↦ {}⟩ st ∧
      ∀ u ∈ frags, ∀ v, UsesVR h instrs u v → (st.part (h u).partition).usesVrs = true := by
  have hrefl (r : State × RegisterSet) := Advances.refl h r.1
  have htrans (r s t : State × RegisterSet) (ha : Advances h r.1 s.1) (hb : Advances h s.1 t.1) :=
    ha.trans hb
  have hstep (r : State × RegisterSet) (v : VRId) (_ : v ∈ getSchedulableVRs frags h) (_ : True) :=
    advances_scheduleVR (h := h) frags r v
  have hvrs := foldl_rel (I := fun _ ↦ True) hrefl htrans (fun _ _ _ _ ↦ trivial) hstep
    (s := (⟨.init, instrs, fun _ ↦ {}⟩, 0#16)) trivial
  have hmarks (u : FragmentId) (hu : u ∈ frags) (v : VRId) (huse : UsesVR h instrs u v) :
      ((((getSchedulableVRs frags h).foldl (scheduleVR frags h)
        (⟨.init, instrs, fun _ ↦ {}⟩, 0#16)).1).part (h u).partition).usesVrs = true :=
    foldl_reaches (Q := fun r ↦ (r.1.part (h u).partition).usesVrs = true) hrefl htrans
      (fun _ _ _ _ ↦ trivial) hstep (fun _ _ ha ↦ ha.marks _)
      (mem_getSchedulableVRs hu huse.code huse.exit) trivial
      fun r ha _ ↦ isMarked_scheduleVR hu (huse.advances ha)
  generalize hr : (getSchedulableVRs frags h).foldl (scheduleVR frags h)
    (⟨.init, instrs, fun _ ↦ {}⟩, 0#16) = r at hvrs hmarks
  have hreset : Advances h r.1 { r.1 with sched := r.1.sched.resetGPRSlots } :=
    ⟨le_rfl, fun _ ↦ .refl _ _, fun _ h ↦ h, fun _ _ ↦ rfl, fun _ _ _ ↦ rfl⟩
  have hsaves := foldl_rel (Advances.refl h) (fun _ _ _ ↦ Advances.trans)
    (fun _ _ ha hs ↦ ha.allAllocated hs) (fun _ i hi hs ↦ advances_scheduleFragmentSaveRestores hs hi)
    (hreset.allAllocated (hvrs.allAllocated hfree))
  have hlast := hreset.trans hsaves
  refine ⟨_, ?_, hvrs.trans hlast, fun u hu v huse ↦ hlast.marks _ (hmarks u hu v huse)⟩
  rw [scheduleRegisters, hr]

/-- Every virtual register that is scheduled in a fragment is named in one of its partition. -/
def Covered (frags : List FragmentId) (h : Heap) (instrs : FragmentId → List Instruction) : Prop :=
  ∀ i ∈ frags, ∀ v, Live h i v →
    ∃ u ∈ frags, (h u).partition = (h i).partition ∧ UsesVR h instrs u v

theorem scheduleRegisters_below {instrs : FragmentId → List Instruction}
    (hfree : ∀ i ∈ frags, ∀ x ∈ instrs i, x.Below 0) (hcov : Covered frags h instrs) (hi : i ∈ frags) :
    ∀ x ∈ (scheduleRegisters frags h instrs).instrs i,
      x.Below ((scheduleRegisters frags h instrs).part (h i).partition).numSlots := by
  obtain ⟨st, hst, ha, hmarks⟩ := advances_scheduleRegisters frags h hfree
  obtain ⟨-, hinstrs, hcount⟩ := markPartitionUseCounts_spec frags h st
  rw [hst, hinstrs]
  have hbelow : ∀ x ∈ st.instrs i, x.Below st.sched.numSlots := ha.allAllocated hfree i hi
  intro x hx
  cases hused : (st.part (h i).partition).usesVrs with
  | true =>
    by_cases hn : st.sched.numSlots = 0
    · exact (hn ▸ hbelow x hx).mono (Nat.zero_le _)
    · rw [hcount i hi hn hused]
      exact hbelow x hx
  | false =>
    have hquiet (v : VRId) : ¬ Live h i v := fun hlive ↦ by
      obtain ⟨u, hu, hp, huse⟩ := hcov i hi v hlive
      rw [← hp, hmarks u hu v huse] at hused
      exact Bool.false_ne_true hused.symm
    have hsame : st.instrs i = instrs i := ha.quiet i hquiet hused
    exact (hfree i hi x (hsame ▸ hx)).mono (Nat.zero_le _)

theorem scheduleRegisters_of_not_code {instrs : FragmentId → List Instruction}
    (hfree : ∀ i ∈ frags, ∀ x ∈ instrs i, x.Below 0) (hc : (h i).isCode = false) :
    (scheduleRegisters frags h instrs).instrs i = instrs i := by
  obtain ⟨st, hst, ha, -⟩ := advances_scheduleRegisters frags h hfree
  rw [hst, (markPartitionUseCounts_spec frags h st).2.1]
  exact ha.notCode i hc

end Granary.Assemble.ScheduleRegisters
