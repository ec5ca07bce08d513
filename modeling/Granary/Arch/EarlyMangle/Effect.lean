import Granary.Arch.EarlyMangle.Enter
import Granary.Arch.EarlyMangle.Operands

namespace Granary.Arch.EarlyMangle

def isGprOrStackPointer (r : VirtualRegister) : Bool := r.isGeneralPurpose || isStackPointer r

def isSegment (r : VirtualRegister) : Bool := r.kind == .unschedulable && !r.isStackPointer

/-- The registers in the address of a memory operand. The stack pointer is not the index,
and it is the base of other than compound operands only if it has four bytes. -/
def Operand.AddressOk (op : Operand) : Prop :=
  match op.value with
  | .mem r => EarlyMangle.isStackPointer r = true → r.numBytes = 4
  | .compound base index _ _ =>
    EarlyMangle.isStackPointer index = false ∧
      (EarlyMangle.isStackPointer base = true → base.numBytes = 8 ∨ base.numBytes = 4)
  | .reg _ | .ptr _ | .imm _ | .branchTarget _ => True

def Instruction.Shape (i : Instruction) : Prop :=
  match i.iclass with
  | .callNear | .jmp =>
    ∃ op, i.ops = [op] ∧ ∀ r, op.value = .reg r → isGprOrStackPointer r = true
  | .push =>
    (i.effectiveOperandWidth = 16 ∨ i.effectiveOperandWidth = 64) ∧ ∃ op, i.ops = [op] ∧
      ∀ r, op.value = .reg r →
        if i.iform = .pushFs ∨ i.iform = .pushGs then isSegment r = true
        else isGprOrStackPointer r = true
  | .pop =>
    (i.effectiveOperandWidth = 16 ∨ i.effectiveOperandWidth = 64) ∧ ∃ op, i.ops = [op] ∧
      op.rw.isRead = false ∧ op.rw.isWrite = true ∧ op.AddressOk ∧
      (op.isMemory = true → op.width = i.effectiveOperandWidth) ∧ ∀ r, op.value = .reg r →
        if i.iform = .popFs ∨ i.iform = .popGs then isSegment r = true
        else isGprOrStackPointer r = true
  | .xlat =>
    ∃ al op base, i.ops = [al, op] ∧ al.value = .reg regAL ∧ al.rw = .w ∧
      op.value = .compound base regAL 0 1 ∧ (base = regRBX ∨ base = { regRBX with numBytes := 4 })
  | .enter => ∃ op₀ op₁ imm0 imm1, i.ops = [op₀, op₁] ∧ op₀.value = .imm imm0 ∧ op₁.value = .imm imm1
  | .lea =>
    ∃ dst src r, i.ops = [dst, src] ∧ dst.value = .reg r ∧ isGprOrStackPointer r = true ∧
      dst.rw.isRead = false ∧ src.isMemory = true
  | .leave | .pushf | .pushfq | .popf | .popfq | .cli | .sti => i.ops = []
  | .callFar | .retNear | .retFar | .iret =>
    i.iform ≠ .movGprGpr89 ∧ ∀ op ∈ i.ops, op.isStackPointer = false
  | .mov => i.iform = .movGprGpr89 → i.effectiveOperandWidth = 64 →
      ∃ dstOp srcOp dst src, IsMove89 i dstOp srcOp dst src
  | .movzx | .add | .sub | .inc | .dec | .other _ => i.iform ≠ .movGprGpr89

structure WellFormed (i : Instruction) : Prop where
  native : ∀ op ∈ i.ops, op.Below 0
  shape : i.Shape

variable {ρ : Type} (P : Processor ρ)

section Classes

variable {i : Instruction} {op : Operand} (s : State ρ)

end Classes

theorem isStackPointer_reg {op : Operand} {r : VirtualRegister} (h : op.value = .reg r) :
    op.isStackPointer = isStackPointer r := by
  rw [Operand.isStackPointer, h]

end Granary.Arch.EarlyMangle
