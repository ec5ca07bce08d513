import Mathlib.Data.BitVec
import Mathlib.Tactic

namespace Granary.Arch

inductive RegisterKind
  | invalid | unschedulable | archGpr | virtualGpr | slot
deriving DecidableEq, Repr

/-- A `VirtualRegister`. The number of an architectural register that cannot be
scheduled is only ever compared with those of the stack pointer, so the stack
pointer is a field of its own. -/
structure VirtualRegister where
  kind : RegisterKind := .invalid
  number : ℕ := 0
  numBytes : ℕ := 8
  preservesBytesOnWrite : Bool := false
  isLegacy : Bool := false
  isStackPointer : Bool := false
deriving DecidableEq, Repr

namespace VirtualRegister

def isValid (r : VirtualRegister) : Bool := r.kind != .invalid

def isNative (r : VirtualRegister) : Bool := r.kind == .unschedulable || r.kind == .archGpr

def isGeneralPurpose (r : VirtualRegister) : Bool := r.kind == .archGpr || r.kind == .virtualGpr

def isVirtual (r : VirtualRegister) : Bool := r.kind == .virtualGpr

def isVirtualSlot (r : VirtualRegister) : Bool := r.kind == .slot

/-- `operator==`, which does not consider the width. -/
def same (r s : VirtualRegister) : Bool := r.number == s.number && r.kind == s.kind

end VirtualRegister

inductive Action
  | invalid | rw | r | w | rcw | cw | crw | cr
deriving DecidableEq, Repr

def Action.isRead : Action → Bool
  | .rw | .r | .rcw | .crw | .cr => true
  | .invalid | .w | .cw => false

def Action.isWrite : Action → Bool
  | .rw | .w | .rcw | .cw | .crw => true
  | .invalid | .r | .cr => false

def Action.isConditionalWrite : Action → Bool
  | .rcw | .cw => true
  | .invalid | .rw | .r | .w | .crw | .cr => false

/-- What an operand denotes: a register, the memory at a register, at a base,
index and displacement, or at a fixed address, an immediate, or the target of a
branch. -/
inductive OperandValue
  | reg (r : VirtualRegister)
  | mem (r : VirtualRegister)
  | compound (base index : VirtualRegister) (disp : ℤ) (scale : ℕ)
  | ptr (addr : BitVec 64)
  | imm (value : BitVec 64)
  | branchTarget (pc : BitVec 64)
deriving DecidableEq, Repr

structure Operand where
  value : OperandValue
  width : ℕ := 64
  rw : Action := .r
  isExplicit : Bool := true
  isDefinition : Bool := false
deriving DecidableEq, Repr

namespace Operand

def isMemory (op : Operand) : Bool :=
  match op.value with
  | .mem _ | .compound .. | .ptr _ => true
  | .reg _ | .imm _ | .branchTarget _ => false

def isReadWrite (op : Operand) : Bool := op.rw.isRead && op.rw.isWrite

/-- The register that an operand names, or dereferences when it is a memory
operand without displacement: the two share their storage in the source. -/
def reg? (op : Operand) : Option VirtualRegister :=
  match op.value with
  | .reg r | .mem r => some r
  | _ => none

/-- `CountMatchedRegisters`: the valid registers in the address of a memory
operand. -/
def matchedRegisters (op : Operand) : List VirtualRegister :=
  match op.value with
  | .mem r => [r]
  | .compound base index _ _ => [base, index].filter VirtualRegister.isValid
  | .reg _ | .ptr _ | .imm _ | .branchTarget _ => []

def isImmediateZero (op : Operand) : Bool :=
  match op.value with
  | .imm v => v == 0
  | _ => false

end Operand

/-- The instruction forms that the modelled passes tell apart by `iform`. -/
inductive IForm
  | xorGprGpr | subGprGpr | andGprImm | other
deriving DecidableEq, Repr

/-- `xed_category_enum_t`, as far as the control-flow predicates need it. -/
inductive Category
  | call | condBr | uncondBr | ret | interrupt | syscall | sysret | nop | other
deriving DecidableEq, Repr

/-- An `arch::Instruction`. The flags that its `iform` reads and writes, and
whether its `iclass` writes them conditionally, are looked up in tables that are
filled at start-up; an instruction carries its own rows. -/
structure Instruction where
  iform : IForm := .other
  category : Category := .other
  readFlags : BitVec 32 := 0
  writtenFlags : BitVec 32 := 0
  isConditionalFlagWrite : Bool := false
  hasPrefixRep : Bool := false
  hasPrefixRepne : Bool := false
  ops : List Operand := []
deriving DecidableEq, Repr

namespace Instruction

def isConditionalJump (i : Instruction) : Bool := i.category == .condBr

end Instruction

end Granary.Arch
