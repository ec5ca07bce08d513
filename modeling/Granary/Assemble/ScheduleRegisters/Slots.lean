import Granary.Assemble.AllocateSlots
import Granary.Assemble.ScheduleRegisters
import Granary.Assemble.TrackVirtualRegs.Partitions

namespace Granary.Assemble.ScheduleRegisters

open Granary.Arch (VirtualRegister)
open Granary.Arch.Stack (Address Instr Loc MemOperand Operand Reg Regs Segment)
open Granary.Assemble.AllocateSlots hiding Fragment Heap PartitionInfo
open Granary.Base.Iterate
open Granary.Code (FragmentId FragmentList NativeInstruction)

def regForm (r : VirtualRegister) : Reg :=
  if r.isVirtualSlot then .slot r.number else if r.isStackPointer then .rsp else .gpr r.number

/-- A slot as a memory operand, of the width of a general-purpose register. -/
def slotForm (slot : VirtualRegister) : Operand :=
  .mem { address := .reg (regForm slot), width := 64 }

/-- `MOV_MEMv_GPRv`, `MOV_GPRv_MEMv`, `XCHG_GPRv_GPRv` and `XCHG_MEMv_GPRv`. -/
def Transfer.form : Transfer → Instr
  | saveGPRToSlot gpr slot => .mov (slotForm slot) (.reg (regForm gpr))
  | restoreGPRFromSlot gpr slot => .mov (.reg (regForm gpr)) (slotForm slot)
  | swapGPRWithGPR gpr1 gpr2 => .xchg (.reg (regForm gpr1)) gpr2.number
  | swapGPRWithSlot gpr slot => .xchg (slotForm slot) gpr.number

/-- How the allocation of slots sees the native instructions: it finds no slots but those that
they name. -/
structure View where
  form : NativeInstruction → Instr
  slots_form : ∀ i, NamesNoSlot i.instruction → (form i).slots = []

def View.lower (view : View) : Instruction → Option Instr
  | .native i => some (view.form i)
  | .transfer t => some t.form
  | .label | .annot _ => none

/-- The fragments and the partitions that the scheduler hands to the allocation of slots. -/
def View.heap (view : View) (stackInvalid : FragmentId → Bool) (h : Code.Heap) (st : State) :
    AllocateSlots.Heap where
  frag i :=
    { cls := (h i).cls
      partition := (h i).partition
      stackInvalid := stackInvalid i
      instrs := (st.instrs i).filterMap view.lower
      fallThrough := (h i).fallThrough
      branch := (h i).branch }
  part p := { numSlots := (st.part p).numSlots }

def detail (annotations : ℕ → Annotation) (instrs : List Code.Instruction) : List Instruction :=
  instrs.mapIdx fun n instr ↦
    match instr with
    | .native i => .native i
    | .label => .label
    | .annot => .annot (annotations n)

/-- `ScheduleRegisters`, of a list whose registers are tracked. -/
def scheduled (g : FragmentList) (annotations : FragmentId → ℕ → Annotation) : State :=
  scheduleRegisters g.frags g.heap fun i ↦ detail (annotations i) (g.heap i).instrs

inductive SlotCategory
  | virtualRegister
  | privateStack
  | savedFlags
deriving DecidableEq, Repr

/-- `os::Slot`, for a `SlotSet` at `granarySlots`: its two first fields have 8 bytes each, and so
does each of the spill slots after them. -/
def osSlot (granarySlots : ℤ) (category : SlotCategory) (subCategory : ℕ) : ℤ :=
  match category with
  | .virtualRegister => granarySlots + 16 + 8 * subCategory
  | .privateStack => granarySlots
  | .savedFlags => granarySlots + 8

def slotMemOp (segment : Segment) (granarySlots : ℤ) (n width : ℕ) : MemOperand where
  address := .ptr (osSlot granarySlots .virtualRegister n)
  segment := some segment
  width := if width = 0 then 64 else width

/-- Two operands that are 8 bytes or more apart in one segment, whatever the registers hold. -/
def Apart (m m' : MemOperand) : Prop :=
  ∀ rsp regs, ∃ segment a a', (m.access rsp regs).loc = .mem segment a ∧
    (m'.access rsp regs).loc = .mem segment a' ∧ (a + 8 ≤ a' ∨ a' + 8 ≤ a)

/-- Where each slot is in memory, by its number and the width of the operand. -/
structure Home where
  memOp : ℕ → ℕ → MemOperand
  slots_memOp : ∀ n width, (memOp n width).address.slots = []
  apart : ∀ n n' width width', n ≠ n' → Apart (memOp n width) (memOp n' width')

theorem slots_baseDispMemOp (disp : ℤ) (width : ℕ) : (baseDispMemOp disp width).address.slots = [] := by
  unfold baseDispMemOp
  simp only
  split_ifs <;> rfl

theorem eight_le_of_ne {n n' : ℕ} (x : ℤ) (hn : n ≠ n') :
    x + n * 8 + 8 ≤ x + n' * 8 ∨ x + n' * 8 + 8 ≤ x + n * 8 := by
  omega

/-- The slots of a partition whose stack is analyzed are at the bottom of its frame. -/
def stackHome : Home where
  memOp n width := baseDispMemOp (n * 8) width
  slots_memOp n width := slots_baseDispMemOp _ _
  apart n n' width width' hn rsp regs := by
    refine ⟨none, rsp + n * 8, rsp + n' * 8, ?_, ?_, eight_le_of_ne rsp hn⟩
    · rw [access_baseDispMemOp]
    · rw [access_baseDispMemOp]

/-- Those of any other partition are in a `SlotSet`. -/
def slotSetHome (segment : Segment) (granarySlots : ℤ) : Home where
  memOp := slotMemOp segment granarySlots
  slots_memOp _ _ := rfl
  apart n n' width width' hn rsp regs := by
    refine ⟨some segment, osSlot granarySlots .virtualRegister n,
      osSlot granarySlots .virtualRegister n', rfl, rfl, ?_⟩
    simp only [osSlot, mul_comm (8 : ℤ)]
    exact eight_le_of_ne (granarySlots + 16) hn

/-- Each instruction with a slot is replaced by itself, with the slot in its place. -/
def Replaced (home : Home) (is is' : List Instr) : Prop :=
  ∃ cs, is' = cs.flatten ∧
    List.Forall₂ (fun i c ↦ i.slots ≠ [] → c = [archAllocateSlot home.memOp i]) is cs

/-- The accesses of an instruction to slots are of 64 bits. -/
def SlotsWide (i : Instr) : Prop :=
  ∀ rsp regs, ∀ a ∈ i.explicit rsp regs, ∀ n, a.loc = .slot n → a.width = 64

/-- The slots in the instructions of `h` are allocated in `h'`. -/
structure SlotsAllocated (frags : List FragmentId) (h h' : AllocateSlots.Heap) : Prop where
  gone : ∀ i ∈ frags, ∀ x ∈ (h'.frag i).instrs, x.slots = []
  below : ∀ i ∈ frags, ∀ x ∈ (h.frag i).instrs, ∀ n ∈ x.slots, n < (h.partOf i).numSlots
  onlyCode : ∀ i ∈ frags, (h.frag i).cls.isCode = false → ∀ x ∈ (h.frag i).instrs, x.slots = []
  wide : ∀ i ∈ frags, ∀ x ∈ (h.frag i).instrs, SlotsWide x
  homes : ∀ p, ∃ home : Home, ∀ i ∈ frags, (h.frag i).partition = p →
    (h.frag i).cls.isCode = true → Replaced home (h.frag i).instrs (h'.frag i).instrs

section NoSlot

variable {o : Operand} {i : Instr}

theorem slots_adjustMemOp {m : MemOperand} (hm : m.address.slots = []) (adjustedOffset : ℤ) :
    (adjustMemOp m adjustedOffset).address.slots = [] := by
  unfold adjustMemOp
  split
  · exact hm
  · rfl
  · exact hm
  · exact slots_baseDispMemOp _ _
  · exact hm

theorem slots_adjust (ho : o.slots = []) (adjustedOffset : ℤ) :
    (Operand.adjust o adjustedOffset).slots = [] := by
  cases o with
  | mem m => exact slots_adjustMemOp ho adjustedOffset
  | reg => exact ho
  | imm => exact ho

theorem isSpillSlot_eq_none (ho : o.slots = []) : isSpillSlot o = none := by
  unfold isSpillSlot
  split
  · exact absurd ho (List.cons_ne_nil _ _)
  · rfl

theorem slots_genericAdjustMemOps {ops : List Operand} (hops : ∀ o ∈ ops, o.slots = [])
    (adjustedOffset : ℤ) : ∀ o ∈ genericAdjustMemOps ops adjustedOffset, o.slots = [] := by
  rw [genericAdjustMemOps_eq]
  intro o ho
  obtain ⟨o', ho', rfl⟩ := List.mem_map.mp ho
  exact slots_adjust (hops o' ho') adjustedOffset

theorem slots_mangleArith {op : Arch.Stack.Arith} {dst src : Operand} (hd : dst.slots = [])
    (hs : src.slots = []) (adjustedOffset : ℤ) :
    (mangleArith op dst src adjustedOffset).slots = [] := by
  unfold mangleArith
  rw [genericAdjustMemOps_eq]
  split_ifs
  · rfl
  · exact List.append_eq_nil_iff.mpr ⟨slots_adjust hd _, slots_adjust hs _⟩

theorem slots_adjustStackInstruction (hi : i.slots = []) (adjustedOffset nextAdjustedOffset : ℤ) :
    ∀ x ∈ adjustStackInstruction i adjustedOffset nextAdjustedOffset, x.slots = [] := by
  have hone {x : Instr} (hx : x.slots = []) : ∀ y ∈ [x], y.slots = [] := by
    intro y hy
    rwa [List.mem_singleton.mp hy]
  have hmem (disp : ℤ) (width : ℕ) : (Operand.mem (baseDispMemOp disp width)).slots = [] :=
    slots_baseDispMemOp disp width
  cases i with
  | push src width => exact hone (List.append_eq_nil_iff.mpr ⟨hmem _ _, hi⟩)
  | pop dst width => exact hone (List.append_eq_nil_iff.mpr ⟨rfl, hmem _ _⟩)
  | pushf q flagReg isSticky =>
    cases isSticky with
    | true => exact hone rfl
    | false =>
      refine List.forall_mem_cons.mpr ⟨rfl, List.forall_mem_cons.mpr ⟨rfl, hone ?_⟩⟩
      exact List.append_eq_nil_iff.mpr ⟨hmem _ _, rfl⟩
  | popf q => exact List.forall_mem_cons.mpr ⟨hmem _ _, hone rfl⟩
  | callNear target => exact hone hi
  | retNear bytes => exact hone rfl
  | mov dst src =>
    obtain ⟨hd, hs⟩ := List.append_eq_nil_iff.mp hi
    refine hone ?_
    rw [mangleMov, isSpillSlot_eq_none hd, isSpillSlot_eq_none hs]
    simp only
    split_ifs
    · exact List.append_eq_nil_iff.mpr ⟨slots_adjust hd _, hs⟩
    · exact List.append_eq_nil_iff.mpr ⟨hd, slots_adjust hs _⟩
  | xchg dst src =>
    refine hone ?_
    rw [mangleXchg, isSpillSlot_eq_none hi]
    exact slots_adjust hi _
  | lea dst src =>
    obtain ⟨hd, hs⟩ := List.append_eq_nil_iff.mp hi
    refine hone ?_
    unfold mangleLEA
    split_ifs
    · rfl
    · exact List.append_eq_nil_iff.mpr ⟨hd, slots_adjustMemOp hs _⟩
  | arith op dst src =>
    obtain ⟨hd, hs⟩ := List.append_eq_nil_iff.mp hi
    exact hone (slots_mangleArith hd hs _)
  | nop => exact hone rfl
  | test => exact hone rfl
  | other ops =>
    refine hone (List.flatMap_eq_nil_iff.mpr ?_)
    exact slots_genericAdjustMemOps (List.flatMap_eq_nil_iff.mp hi) _
  | blind n => exact hone rfl

theorem allocateSlot_eq (memOp : ℕ → ℕ → MemOperand) (ho : o.slots = []) :
    allocateSlot memOp o = o := by
  unfold allocateSlot
  split
  · exact absurd ho (List.cons_ne_nil _ _)
  · rfl

theorem archAllocateSlot_eq (memOp : ℕ → ℕ → MemOperand) (hi : i.slots = []) :
    archAllocateSlot memOp i = i := by
  cases i with
  | mov dst src =>
    obtain ⟨hd, hs⟩ := List.append_eq_nil_iff.mp hi
    rw [archAllocateSlot, allocateSlot_eq memOp hd, allocateSlot_eq memOp hs]
  | xchg dst src => rw [archAllocateSlot, allocateSlot_eq memOp hi]
  | _ => rfl

theorem not_slot_of_accesses (ho : o.slots = []) {rsp : ℤ} {regs : Regs} {a : Arch.Stack.Access}
    (ha : a ∈ o.accesses rsp regs) (n : ℕ) : a.loc ≠ .slot n := by
  cases o with
  | reg => exact absurd ha List.not_mem_nil
  | imm => exact absurd ha List.not_mem_nil
  | mem m =>
    rw [List.mem_singleton.mp ha, MemOperand.access]
    split
    · rename_i hm
      have hslots : m.address.slots = [] := ho
      rw [hm] at hslots
      exact absurd hslots (List.cons_ne_nil _ _)
    · exact Loc.noConfusion

theorem slotsWide_of_slots (hi : i.slots = []) : SlotsWide i := by
  intro rsp regs a ha n hn
  have hnone {o : Operand} (ho : o.slots = []) (ha : a ∈ o.accesses rsp regs) : a.width = 64 :=
    absurd hn (not_slot_of_accesses ho ha n)
  have htwo {o o' : Operand} (ho : o.slots ++ o'.slots = [])
      (ha : a ∈ o.accesses rsp regs ++ o'.accesses rsp regs) : a.width = 64 := by
    obtain ⟨ho, ho'⟩ := List.append_eq_nil_iff.mp ho
    exact (List.mem_append.mp ha).elim (hnone ho) (hnone ho')
  cases i with
  | push src width => exact hnone hi ha
  | mov dst src => exact htwo hi ha
  | xchg dst src => exact hnone hi ha
  | callNear target => exact hnone hi ha
  | arith op dst src => exact htwo hi ha
  | other ops =>
    obtain ⟨o, ho, ha⟩ := List.mem_flatMap.mp ha
    exact hnone (List.flatMap_eq_nil_iff.mp hi o ho) ha
  | _ => exact absurd ha List.not_mem_nil

end NoSlot

section Transfer

variable {k : ℕ} {r : VirtualRegister} {t : Transfer}

theorem regForm_of_slot (hr : IsSlotBelow k r) : regForm r = .slot r.number := if_pos hr.1

theorem slots_regForm (hr : r.isVirtualSlot = false) : (regForm r).slots = [] := by
  unfold regForm
  rw [hr, if_neg Bool.false_ne_true]
  split_ifs <;> rfl

theorem slots_form_lt (ht : t.Below k) : ∀ n ∈ t.form.slots, n < k := by
  have hslot {slot : VirtualRegister} (hs : IsSlotBelow k slot) : ∀ n ∈ (slotForm slot).slots, n < k := by
    intro n hn
    rw [slotForm, regForm_of_slot hs] at hn
    rw [List.mem_singleton.mp hn]
    exact hs.2
  have hgpr {gpr : VirtualRegister} (hg : gpr.isVirtualSlot = false) :
      ∀ n ∈ (Operand.reg (regForm gpr)).slots, n < k := by
    intro n hn
    rw [Granary.Arch.Stack.Operand.slots, slots_regForm hg] at hn
    exact absurd hn List.not_mem_nil
  cases t with
  | saveGPRToSlot gpr slot => exact List.forall_mem_append.mpr ⟨hslot ht.2, hgpr ht.1⟩
  | restoreGPRFromSlot gpr slot => exact List.forall_mem_append.mpr ⟨hgpr ht.1, hslot ht.2⟩
  | swapGPRWithGPR gpr1 gpr2 => exact hgpr ht.1
  | swapGPRWithSlot gpr slot => exact hslot ht.2

theorem slotsWide_form (ht : t.Below k) : SlotsWide t.form := by
  have hslot {slot : VirtualRegister} (hs : IsSlotBelow k slot) {rsp : ℤ} {regs : Regs}
      {a : Arch.Stack.Access} (ha : a ∈ (slotForm slot).accesses rsp regs) : a.width = 64 := by
    rw [slotForm, regForm_of_slot hs] at ha
    rw [List.mem_singleton.mp ha]
    rfl
  intro rsp regs a ha n hn
  cases t with
  | saveGPRToSlot gpr slot =>
    exact hslot ht.2 ((List.mem_append.mp ha).resolve_right List.not_mem_nil)
  | restoreGPRFromSlot gpr slot =>
    exact hslot ht.2 ((List.mem_append.mp ha).resolve_left List.not_mem_nil)
  | swapGPRWithGPR gpr1 gpr2 => exact absurd ha List.not_mem_nil
  | swapGPRWithSlot gpr slot => exact hslot ht.2 ha

theorem allocateSlot_slotForm (memOp : ℕ → ℕ → MemOperand) (hr : IsSlotBelow k r) :
    allocateSlot memOp (slotForm r) = .mem (memOp r.number 64) := by
  rw [slotForm, regForm_of_slot hr]
  rfl

theorem isSpillSlot_slotForm (hr : IsSlotBelow k r) : isSpillSlot (slotForm r) = some r.number := by
  rw [slotForm, regForm_of_slot hr]
  rfl

theorem slotOperand_slotForm (r : VirtualRegister) :
    slotOperand (slotForm r) r.number = .mem (stackHome.memOp r.number 64) :=
  rfl

theorem slots_archAllocateSlot_form (home : Home) (ht : t.Below k) :
    (archAllocateSlot home.memOp t.form).slots = [] := by
  have hgpr {gpr : VirtualRegister} (hg : gpr.isVirtualSlot = false) :
      (allocateSlot home.memOp (.reg (regForm gpr))).slots = [] := slots_regForm hg
  have hslot {slot : VirtualRegister} (hs : IsSlotBelow k slot) :
      (allocateSlot home.memOp (slotForm slot)).slots = [] := by
    rw [allocateSlot_slotForm _ hs]
    exact home.slots_memOp _ _
  cases t with
  | saveGPRToSlot gpr slot => exact List.append_eq_nil_iff.mpr ⟨hslot ht.2, hgpr ht.1⟩
  | restoreGPRFromSlot gpr slot => exact List.append_eq_nil_iff.mpr ⟨hgpr ht.1, hslot ht.2⟩
  | swapGPRWithGPR gpr1 gpr2 => exact hgpr ht.1
  | swapGPRWithSlot gpr slot => exact hslot ht.2

theorem adjustStackInstruction_form (ht : t.Below k) (adjustedOffset nextAdjustedOffset : ℤ) :
    adjustStackInstruction t.form adjustedOffset nextAdjustedOffset =
      [archAllocateSlot stackHome.memOp t.form] := by
  have hgpr (gpr : VirtualRegister) :
      allocateSlot stackHome.memOp (.reg (regForm gpr)) = .reg (regForm gpr) := rfl
  cases t with
  | saveGPRToSlot gpr slot =>
    simp only [Transfer.form, adjustStackInstruction, archAllocateSlot, mangleMov,
      isSpillSlot_slotForm ht.2, slotOperand_slotForm, allocateSlot_slotForm _ ht.2, hgpr]
  | restoreGPRFromSlot gpr slot =>
    have hnone : isSpillSlot (.reg (regForm gpr)) = none := rfl
    simp only [Transfer.form, adjustStackInstruction, archAllocateSlot, mangleMov, hnone,
      isSpillSlot_slotForm ht.2, slotOperand_slotForm, allocateSlot_slotForm _ ht.2, hgpr]
  | swapGPRWithGPR gpr1 gpr2 => rfl
  | swapGPRWithSlot gpr slot =>
    simp only [Transfer.form, adjustStackInstruction, archAllocateSlot, mangleXchg,
      isSpillSlot_slotForm ht.2, slotOperand_slotForm, allocateSlot_slotForm _ ht.2]

end Transfer

/-- What the scheduler leaves: an instruction without slots, or a transfer. -/
def IsLowered (k : ℕ) (i : Instr) : Prop := i.slots = [] ∨ ∃ t : Transfer, t.Below k ∧ i = t.form

/-- The fragments and partitions are ready for the allocation of slots. -/
structure Loaded (frags : List FragmentId) (h : AllocateSlots.Heap) : Prop where
  nodup : frags.Nodup
  lowered : ∀ i ∈ frags, ∀ x ∈ (h.frag i).instrs, IsLowered (h.partOf i).numSlots x
  onlyCode : ∀ i ∈ frags, (h.frag i).cls.isCode = false → ∀ x ∈ (h.frag i).instrs, x.slots = []

section Allocate

variable {k : ℕ} {i : Instr} {is : List Instr} {frags : List FragmentId}

theorem IsLowered.lt (hi : IsLowered k i) : ∀ n ∈ i.slots, n < k := by
  rcases hi with hi | ⟨t, ht, rfl⟩
  · rw [hi]
    exact fun n hn ↦ absurd hn List.not_mem_nil
  · exact slots_form_lt ht

theorem IsLowered.wide (hi : IsLowered k i) : SlotsWide i := by
  rcases hi with hi | ⟨t, ht, rfl⟩
  · exact slotsWide_of_slots hi
  · exact slotsWide_form ht

theorem IsLowered.slots_archAllocateSlot (hi : IsLowered k i) (home : Home) :
    (archAllocateSlot home.memOp i).slots = [] := by
  rcases hi with hi | ⟨t, ht, rfl⟩
  · rwa [archAllocateSlot_eq _ hi]
  · exact slots_archAllocateSlot_form home ht

theorem IsLowered.adjust (hi : IsLowered k i) (a b : ℤ) :
    (∀ x ∈ adjustStackInstruction i a b, x.slots = []) ∧
      (i.slots ≠ [] → adjustStackInstruction i a b = [archAllocateSlot stackHome.memOp i]) := by
  rcases hi with hi | ⟨t, ht, rfl⟩
  · exact ⟨slots_adjustStackInstruction hi a b, fun h ↦ absurd hi h⟩
  · rw [adjustStackInstruction_form ht]
    refine ⟨fun x hx ↦ ?_, fun _ ↦ rfl⟩
    rw [List.mem_singleton.mp hx]
    exact slots_archAllocateSlot_form stackHome ht

theorem replaced_of_slots (home : Home) (hs : ∀ x ∈ is, x.slots = []) : Replaced home is is := by
  refine ⟨is.map fun x ↦ [x], (List.flatMap_singleton' is).symm, ?_⟩
  induction is with
  | nil => exact .nil
  | cons x is ih =>
    obtain ⟨hx, hs⟩ := List.forall_mem_cons.mp hs
    exact .cons (fun h ↦ absurd hx h) (ih hs)

theorem allocated_map (home : Home) (hs : ∀ x ∈ is, IsLowered k x) :
    (∀ x ∈ is.map (archAllocateSlot home.memOp), x.slots = []) ∧
      Replaced home is (is.map (archAllocateSlot home.memOp)) := by
  refine ⟨fun x hx ↦ ?_, is.map fun x ↦ [archAllocateSlot home.memOp x], ?_, ?_⟩
  · obtain ⟨y, hy, rfl⟩ := List.mem_map.mp hx
    exact (hs y hy).slots_archAllocateSlot home
  · exact List.map_eq_flatMap
  · clear hs
    induction is with
    | nil => exact .nil
    | cons x is ih => exact .cons (fun _ ↦ rfl) ih

theorem allocated_adjust (hs : ∀ x ∈ is, IsLowered k x) (frameSpace offset : ℤ) :
    (∀ x ∈ (adjustStackInstructions frameSpace is offset).flatten, x.slots = []) ∧
      Replaced stackHome is (adjustStackInstructions frameSpace is offset).flatten := by
  suffices h : (∀ x ∈ (adjustStackInstructions frameSpace is offset).flatten, x.slots = []) ∧
      List.Forall₂ (fun i c ↦ i.slots ≠ [] → c = [archAllocateSlot stackHome.memOp i]) is
        (adjustStackInstructions frameSpace is offset) from ⟨h.1, _, rfl, h.2⟩
  induction is generalizing offset with
  | nil => exact ⟨fun x hx ↦ absurd hx List.not_mem_nil, .nil⟩
  | cons x is ih =>
    obtain ⟨hx, hs⟩ := List.forall_mem_cons.mp hs
    obtain ⟨hgone, hreplaced⟩ := ih hs (offset + x.stackPointerShiftAmount)
    obtain ⟨hgonex, hreplacedx⟩ := hx.adjust (offset - frameSpace)
      (offset + x.stackPointerShiftAmount - frameSpace)
    exact ⟨List.forall_mem_append.mpr ⟨hgonex, hgone⟩, .cons hreplacedx hreplaced⟩

theorem instrs_allocated_of_invalid {redzone : ℕ} {memOp : ℕ → ℕ → MemOperand} (hl : frags.Nodup)
    {h : AllocateSlots.Heap} {i : FragmentId} (hi : i ∈ frags)
    (ha : (h.partOf i).analyzeStackFrame = false) :
    ((archAllocateSlots memOp frags (allocateStackSlots redzone frags h)).frag i).instrs =
      if (h.frag i).cls.isCode then (h.frag i).instrs.map (archAllocateSlot memOp)
      else (h.frag i).instrs := by
  have hstack : (allocateStackSlots redzone frags h).frag i = h.frag i := by
    rw [allocateStackSlots, frag_forFrags _ hl, if_pos hi, ha]
    simp
  have hpart : (allocateStackSlots redzone frags h).partOf i = h.partOf i := by
    rw [AllocateSlots.Heap.partOf, hstack, allocateStackSlots, part_forFrags]
    rfl
  rw [archAllocateSlots, frag_forFrags _ hl, if_pos hi, hpart, hstack, ha]
  simp only [Bool.not_false, Bool.and_true]
  split_ifs <;> rfl

theorem sameCode_of_allocateSlots {redzone : ℕ} {memOp : ℕ → ℕ → MemOperand} {fuel : ℕ}
    {h h' : AllocateSlots.Heap} (hrun : allocateSlots redzone memOp frags fuel h = some h') :
    ∃ m, SameCode h m ∧ h' = archAllocateSlots memOp frags (allocateStackSlots redzone frags m) := by
  obtain ⟨m, hm, rfl⟩ := Option.map_eq_some_iff.mp hrun
  have hinit := sameCode_initStackFrameAnalysis frags h
  obtain ⟨t, ht, -, rfl⟩ := repeatUntil_last (P := SameCode h)
    (fun s hs ↦ hs.trans (sameCode_sweep frags s)) hinit hm
  exact ⟨_, ht.trans (sameCode_sweep frags t), rfl⟩

theorem instrs_allocateStackSlotsStackValid {redzone : ℕ} {info : AllocateSlots.PartitionInfo}
    {f : AllocateSlots.Fragment} (hs : ∀ x ∈ f.instrs, IsLowered k x)
    (hcode : f.cls.isCode = false → ∀ x ∈ f.instrs, x.slots = []) :
    (∀ x ∈ (allocateStackSlotsStackValid redzone info f).instrs, x.slots = []) ∧
      (f.cls.isCode = true →
        Replaced stackHome f.instrs (allocateStackSlotsStackValid redzone info f).instrs) := by
  have hlea (numBytes : ℤ) (hc : f.cls.isCode = false) :
      ∀ x ∈ f.instrs ++ [allocateStackSpace numBytes], x.slots = [] := by
    refine List.forall_mem_append.mpr ⟨hcode hc, fun x hx ↦ ?_⟩
    rw [List.mem_singleton.mp hx]
    exact slots_baseDispMemOp _ _
  unfold allocateStackSlotsStackValid
  simp only
  split_ifs with hentry hexit hc
  · have hc : f.cls.isCode = false := by
      rw [hentry]
      rfl
    exact ⟨hlea _ hc, fun h ↦ absurd (hc.symm.trans h) Bool.false_ne_true⟩
  · have hc : f.cls.isCode = false := by
      rw [hexit]
      rfl
    exact ⟨hlea _ hc, fun h ↦ absurd (hc.symm.trans h) Bool.false_ne_true⟩
  · obtain ⟨hgone, hreplaced⟩ := allocated_adjust hs (frameSpace redzone info) f.entryOffset
    exact ⟨hgone, fun _ ↦ hreplaced⟩
  · exact ⟨hcode (Bool.not_eq_true _ ▸ hc), fun h ↦ absurd h hc⟩

theorem Loaded.slotsAllocated {h h' : AllocateSlots.Heap} (hl : Loaded frags h) (home : Home)
    {redzone fuel : ℕ} (hrun : allocateSlots redzone home.memOp frags fuel h = some h') :
    SlotsAllocated frags h h' := by
  obtain ⟨m, hm, rfl⟩ := sameCode_of_allocateSlots hrun
  have hnum (i : FragmentId) : (m.partOf i).numSlots = (h.partOf i).numSlots := by
    rw [AllocateSlots.Heap.partOf, hm.numSlots, hm.partition]
    rfl
  have hout (i : FragmentId) (hi : i ∈ frags) :
      (∀ x ∈ ((archAllocateSlots home.memOp frags (allocateStackSlots redzone frags m)).frag i).instrs,
        x.slots = []) ∧
      ((h.frag i).cls.isCode = true →
        Replaced (if (m.partOf i).analyzeStackFrame then stackHome else home) (h.frag i).instrs
          ((archAllocateSlots home.memOp frags (allocateStackSlots redzone frags m)).frag i).instrs) := by
    have hlow := hl.lowered i hi
    have hcode := hl.onlyCode i hi
    rw [← hm.instrs] at hlow
    rw [← hm.instrs, ← hm.cls] at hcode
    rw [← hm.instrs, ← hm.cls]
    cases ha : (m.partOf i).analyzeStackFrame with
    | true =>
      rw [frag_allocated hl.nodup hi rfl ha, if_pos rfl]
      split_ifs with hn
      · have hnone : ∀ x ∈ (m.frag i).instrs, x.slots = [] := by
          intro x hx
          refine List.eq_nil_iff_forall_not_mem.mpr fun n hslot ↦ ?_
          have hlt := (hlow x hx).lt n hslot
          rw [← hnum, AllocateSlots.Heap.partOf, hn] at hlt
          exact Nat.not_lt_zero n hlt
        exact ⟨hnone, fun _ ↦ replaced_of_slots stackHome hnone⟩
      · exact instrs_allocateStackSlotsStackValid hlow hcode
    | false =>
      rw [instrs_allocated_of_invalid hl.nodup hi ha, if_neg Bool.false_ne_true]
      split_ifs with hc
      · obtain ⟨hgone, hreplaced⟩ := allocated_map home hlow
        exact ⟨hgone, fun _ ↦ hreplaced⟩
      · exact ⟨hcode (Bool.not_eq_true _ ▸ hc), fun h ↦ absurd h hc⟩
  refine ⟨fun i hi ↦ (hout i hi).1, fun i hi x hx ↦ (hl.lowered i hi x hx).lt, hl.onlyCode,
    fun i hi x hx ↦ (hl.lowered i hi x hx).wide, fun p ↦ ?_⟩
  refine ⟨if (m.part p).analyzeStackFrame then stackHome else home, fun i hi hp hc ↦ ?_⟩
  rw [← hp, ← hm.partition]
  exact (hout i hi).2 hc

end Allocate

section Scheduled

variable {g g' : FragmentList} {annotations : FragmentId → ℕ → Annotation}

theorem mem_detail {l : List Code.Instruction} {annotations : ℕ → Annotation} {x : Instruction}
    (hx : x ∈ detail annotations l) :
    (∃ i, x = .native i ∧ .native i ∈ l) ∨ x = .label ∨ ∃ n, x = .annot (annotations n) := by
  obtain ⟨n, hn, rfl⟩ := List.mem_mapIdx.mp hx
  cases hl : l[n] with
  | native i => exact .inl ⟨i, rfl, hl ▸ List.getElem_mem hn⟩
  | label => exact .inr (.inl rfl)
  | annot => exact .inr (.inr ⟨n, rfl⟩)

theorem native_mem_detail {l : List Code.Instruction} {annotations : ℕ → Annotation}
    {i : NativeInstruction} (hi : .native i ∈ l) : .native i ∈ detail annotations l := by
  obtain ⟨n, hn, hl⟩ := List.getElem_of_mem hi
  refine List.mem_mapIdx.mpr ⟨n, hn, ?_⟩
  rw [hl]

/-- No instruction of a list names a slot, before any is handed out. -/
structure SlotFree (g : FragmentList) (annotations : FragmentId → ℕ → Annotation) : Prop where
  native : ∀ i ∈ g.frags, ∀ x, .native x ∈ (g.heap i).instrs → NamesNoSlot x.instruction
  annot : ∀ i n, (annotations i n).NamesNoSlot

theorem below_detail (hfree : SlotFree g annotations)
    (ht : TrackVirtualRegs.Tracked g g') :
    ∀ i ∈ g'.frags, ∀ x ∈ detail (annotations i) (g'.heap i).instrs, x.Below 0 := by
  intro i hi x hx
  rcases mem_detail hx with ⟨instr, rfl, hinstr⟩ | rfl | ⟨n, rfl⟩
  · obtain ⟨j, hj, instr', hinstr', heq⟩ := ht.instrs i hi instr hinstr
    change NamesNoSlot instr.instruction
    rw [← heq]
    exact hfree.native j hj instr' hinstr'
  · trivial
  · exact hfree.annot i n

theorem isUsedOrDefined_of_named {i : NativeInstruction} {v : Code.VRId}
    (hv : i.definedVr = v ∨ v ∈ i.usedVrs) : isUsedOrDefined i v = true := by
  simpa [isUsedOrDefined] using hv

theorem covered_of_tracked (ht : TrackVirtualRegs.Tracked g g') :
    Covered g'.frags g'.heap fun i ↦ detail (annotations i) (g'.heap i).instrs := by
  intro i hi v ⟨hc, hlive⟩
  have hv : if (g'.heap i).attr.isCompensationFrag then v ∈ (g'.heap i).entryRegs
      else v ∈ (g'.heap i).exitRegs := by
    split_ifs at hlive ⊢
    · exact hlive.1
    · exact hlive
  obtain ⟨u, hu, huc, hucomp, hup, hexit, instr, hinstr, hn⟩ := ht.named i hi hc v hv
  exact ⟨u, hu, hup, huc, hucomp, hexit, .native instr, native_mem_detail hinstr, instr, rfl,
    isUsedOrDefined_of_named hn⟩

theorem isLowered_of_below {view : View} {k : ℕ} {x : Instruction} (hx : x.Below k) {i : Instr}
    (hi : view.lower x = some i) : IsLowered k i := by
  cases x with
  | native instr => exact .inl (Option.some.inj hi ▸ view.slots_form instr hx)
  | transfer t => exact .inr ⟨t, hx, (Option.some.inj hi).symm⟩
  | label => cases hi
  | annot => cases hi

theorem loaded_scheduled (ht : TrackVirtualRegs.Tracked g g') (hfree : SlotFree g annotations)
    (view : View) (stackInvalid : FragmentId → Bool) :
    Loaded g'.frags (view.heap stackInvalid g'.heap (scheduled g' annotations)) := by
  have hfree' := below_detail hfree ht
  refine ⟨ht.nodup, fun i hi x hx ↦ ?_, fun i hi hc x hx ↦ ?_⟩
  · obtain ⟨y, hy, hxy⟩ := List.mem_filterMap.mp hx
    exact isLowered_of_below (scheduleRegisters_below hfree' (covered_of_tracked ht) hi y hy) hxy
  · obtain ⟨y, hy, hxy⟩ := List.mem_filterMap.mp hx
    rw [scheduled, scheduleRegisters_of_not_code hfree' hc] at hy
    refine List.eq_nil_iff_forall_not_mem.mpr fun n hn ↦ ?_
    exact Nat.not_lt_zero n ((isLowered_of_below (hfree' i hi y hy) hxy).lt n hn)

/-- No slot survives the allocation of slots: the ones that the scheduler hands out in a partition
are counted in it, and each gets a place of its own. -/
theorem slots_allocated {g g' : FragmentList} (hg : g.WellFormed)
    (hu : TrackVirtualRegs.Untracked g) (hcut : TrackVirtualRegs.PartitionsCut g)
    {annotations : FragmentId → ℕ → Annotation} (hfree : SlotFree g annotations) {fuel : ℕ}
    (htrack : TrackVirtualRegs.trackVirtualRegs fuel g = some g') (view : View)
    (stackInvalid : FragmentId → Bool) (redzone : ℕ) (segment : Segment) (granarySlots : ℤ)
    {fuel' : ℕ} {h' : AllocateSlots.Heap}
    (hrun : allocateSlots redzone (slotMemOp segment granarySlots) g'.frags fuel'
      (view.heap stackInvalid g'.heap (scheduled g' annotations)) = some h') :
    SlotsAllocated g'.frags (view.heap stackInvalid g'.heap (scheduled g' annotations)) h' := by
  have ht := TrackVirtualRegs.tracked hg hu hcut htrack
  exact (loaded_scheduled ht hfree view stackInvalid).slotsAllocated
    (slotSetHome segment granarySlots) hrun

def operandForm (op : Arch.Operand) : Operand :=
  match op.value with
  | .reg r => .reg (regForm r)
  | .mem r => .mem { address := .reg (regForm r), width := op.width }
  | .compound base index disp scale =>
    let base := if base.isValid then some (regForm base) else none
    let index := if index.isValid then some index.number else none
    .mem { address := .compound base index scale disp, width := op.width }
  | .ptr a => .mem { address := .ptr a.toNat, width := op.width }
  | .imm v | .branchTarget v => .imm v.toInt

theorem slots_operandForm {op : Arch.Operand}
    (hop : ∀ r ∈ operandRegisters op, r.isVirtualSlot = false) : (operandForm op).slots = [] := by
  obtain ⟨value, width, action, isExplicit, isDefinition⟩ := op
  cases value with
  | reg r => exact slots_regForm (hop r List.mem_cons_self)
  | mem r => exact slots_regForm (hop r List.mem_cons_self)
  | compound base index disp scale =>
    simp only [operandForm]
    split_ifs
    · exact slots_regForm (hop base List.mem_cons_self)
    · exact slots_regForm (hop base List.mem_cons_self)
    · rfl
    · rfl
  | ptr => rfl
  | imm => rfl
  | branchTarget => rfl

def moveView : View where
  form i :=
    match i.instruction.ops with
    | [dst, src] => .mov (operandForm dst) (operandForm src)
    | ops => .other (ops.map operandForm)
  slots_form i hi := by
    unfold NamesNoSlot at hi
    split
    · rename_i dst src hops
      rw [hops] at hi
      obtain ⟨hd, hs⟩ := List.forall_mem_cons.mp hi
      refine List.append_eq_nil_iff.mpr ⟨slots_operandForm hd, slots_operandForm ?_⟩
      exact hs src List.mem_cons_self
    · refine List.flatMap_eq_nil_iff.mpr fun o ho ↦ ?_
      obtain ⟨op, hop, rfl⟩ := List.mem_map.mp ho
      exact slots_operandForm (hi op hop)

def loadThenLoop : FragmentList where
  frags := [0, 1, 2]
  heap
    | 0 => { instrs := [.native { instruction := { ops := TrackVirtualRegs.loadOther } }]
             fallThrough := some 1 }
    | 1 => { fallThrough := some 2, branch := some 1
             instrs := [
               .native { instruction := { ops := [
                 { value := .reg { kind := .virtualGpr, number := 1025 }, rw := .w },
                 { value := .mem { kind := .virtualGpr, number := 1024 } }] } },
               .native { instruction := { ops := [
                 { value := .mem { kind := .virtualGpr, number := 1025 }, rw := .w },
                 { value := .reg { kind := .virtualGpr, number := 1024 } }] } }] }
    | _ => { cls := .exit, partition := 2 }
  next := 3

theorem loadThenLoop_untracked : TrackVirtualRegs.Untracked loadThenLoop := by
  refine ⟨fun i ↦ ?_, fun i ↦ ?_, fun i ↦ ?_⟩
  all_goals
    match i with
    | 0 | 1 | _ + 2 => rfl

theorem loadThenLoop_partitionsCut : TrackVirtualRegs.PartitionsCut loadThenLoop := by
  unfold TrackVirtualRegs.PartitionsCut
  decide

theorem loadThenLoop_slotFree : SlotFree loadThenLoop fun _ _ ↦ .other where
  native i hi x hx := by
    unfold NamesNoSlot
    fin_cases hi
    · obtain rfl := Code.Instruction.native.inj (List.mem_singleton.mp hx)
      decide
    · rcases List.mem_cons.mp hx with hx | hx
      · obtain rfl := Code.Instruction.native.inj hx
        decide
      · obtain rfl := Code.Instruction.native.inj (List.mem_singleton.mp hx)
        decide
    · exact absurd hx List.not_mem_nil
  annot _ _ := trivial

/-- The slots of two virtual registers, each of which is loaded through the other. -/
theorem slots_allocated_loadThenLoop : ∃ g' h',
    TrackVirtualRegs.trackVirtualRegs 4 loadThenLoop = some g' ∧
    allocateSlots 128 (slotMemOp .fs 0) g'.frags 3
      (moveView.heap (fun _ ↦ false) g'.heap (scheduled g' fun _ _ ↦ .other)) = some h' ∧
    SlotsAllocated g'.frags
      (moveView.heap (fun _ ↦ false) g'.heap (scheduled g' fun _ _ ↦ .other)) h' := by
  have hruns : ((TrackVirtualRegs.trackVirtualRegs 4 loadThenLoop).bind fun g' ↦
      allocateSlots 128 (slotMemOp .fs 0) g'.frags 3
        (moveView.heap (fun _ ↦ false) g'.heap (scheduled g' fun _ _ ↦ .other))).isSome = true := by
    decide
  obtain ⟨h', hh'⟩ := Option.isSome_iff_exists.mp hruns
  obtain ⟨g', hg', hh'⟩ := Option.bind_eq_some_iff.mp hh'
  exact ⟨g', h', hg', hh', slots_allocated ⟨by decide, by decide, by decide, by decide⟩
    loadThenLoop_untracked loadThenLoop_partitionsCut loadThenLoop_slotFree hg' moveView
    (fun _ ↦ false) 128 .fs 0 hh'⟩

end Scheduled

end Granary.Assemble.ScheduleRegisters
