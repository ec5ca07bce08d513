import Mathlib.Data.Int.Basic
import Mathlib.Tactic

namespace Granary.Arch.Stack

/-- A register: the stack pointer, a general-purpose one, or an abstract spill
slot. -/
inductive Reg
  | rsp
  | gpr (n : ℕ)
  | slot (n : ℕ)
deriving DecidableEq, Repr

inductive Segment
  | fs | gs
deriving DecidableEq, Repr

/-- The address of a memory operand. It is compound, is in a register, or is an
absolute address. -/
inductive Address
  | compound (base : Option Reg) (index : Option ℕ) (scale : ℕ) (disp : ℤ)
  | reg (r : Reg)
  | ptr (a : ℤ)
deriving DecidableEq, Repr

structure MemOperand where
  address : Address
  segment : Option Segment := none
  width : ℕ
deriving DecidableEq, Repr

inductive Operand
  | reg (r : Reg)
  | imm (v : ℤ)
  | mem (m : MemOperand)
deriving DecidableEq, Repr

inductive Arith
  | add | sub | inc | dec
deriving DecidableEq, Repr

/-- The instructions that a pass over the stack tells apart. The flag `q` says
whether the quad-word form of an instruction is meant, and `blind` stands for the
instructions that are blind to the stack. -/
inductive Instr
  | push (src : Operand) (width : ℕ)
  | pop (dst : ℕ) (width : ℕ)
  | pushf (q : Bool) (flagReg : ℕ) (isSticky : Bool)
  | popf (q : Bool)
  | callNear (target : Operand)
  | retNear (bytes : ℕ)
  | mov (dst src : Operand)
  | xchg (dst : Operand) (src : ℕ)
  | lea (dst : Reg) (src : MemOperand)
  | arith (op : Arith) (dst src : Operand)
  | nop
  | test
  | other (ops : List Operand)
  | blind (n : ℕ)
deriving DecidableEq, Repr

/-- The width of `PUSHF` and `PUSHFQ`. -/
def flagsWidth (q : Bool) : ℕ := if q then 64 else 16

namespace Instr

def stackPointerShiftAmount : Instr → ℤ
  | push _ width => -(width / 8 : ℕ)
  | pop _ width => (width / 8 : ℕ)
  | pushf q _ _ => -(flagsWidth q / 8 : ℕ)
  | popf q => (flagsWidth q / 8 : ℕ)
  | callNear _ => -8
  | retNear bytes => 8 + bytes
  | arith .add (.reg .rsp) (.imm v) => v
  | arith .sub (.reg .rsp) (.imm v) => -v
  | arith .inc (.reg .rsp) _ => 1
  | arith .dec (.reg .rsp) _ => -1
  | lea .rsp ⟨.compound (some .rsp) none scale disp, _, _⟩ => if 1 < scale then 0 else disp
  | _ => 0

def computedOffsetBelowStackPointer : Instr → ℤ
  | lea _ ⟨.compound (some .rsp) none _ disp, _, _⟩ => if 0 ≤ disp then 0 else disp
  | _ => 0

end Instr

inductive Loc
  | mem (segment : Option Segment) (a : ℤ)
  | slot (n : ℕ)
deriving DecidableEq, Repr

structure Access where
  loc : Loc
  width : ℕ
deriving DecidableEq, Repr

abbrev Regs := ℕ → ℤ

def Reg.value (r : Reg) (rsp : ℤ) (regs : Regs) : ℤ :=
  match r with
  | .rsp => rsp
  | .gpr n => regs n
  | .slot _ => 0

def Address.value (a : Address) (rsp : ℤ) (regs : Regs) : ℤ :=
  match a with
  | .reg r => r.value rsp regs
  | .compound base index scale disp =>
    (base.elim 0 fun r ↦ r.value rsp regs) + (index.elim 0 fun n ↦ regs n) * scale + disp
  | .ptr a => a

def MemOperand.access (m : MemOperand) (rsp : ℤ) (regs : Regs) : Access :=
  match m.address with
  | .reg (.slot n) => ⟨.slot n, m.width⟩
  | a => ⟨.mem m.segment (a.value rsp regs), m.width⟩

def Operand.accesses (o : Operand) (rsp : ℤ) (regs : Regs) : List Access :=
  match o with
  | .mem m => [m.access rsp regs]
  | .reg _ | .imm _ => []

namespace Instr

def explicit (i : Instr) (rsp : ℤ) (regs : Regs) : List Access :=
  match i with
  | push src _ => src.accesses rsp regs
  | mov dst src => dst.accesses rsp regs ++ src.accesses rsp regs
  | xchg dst _ => dst.accesses rsp regs
  | arith _ dst src => dst.accesses rsp regs ++ src.accesses rsp regs
  | callNear target => target.accesses rsp regs
  | other ops => ops.flatMap fun o ↦ o.accesses rsp regs
  | _ => []

def stacked (i : Instr) (rsp : ℤ) : List Access :=
  match i with
  | push _ width => [⟨.mem none (rsp - (width / 8 : ℕ)), width⟩]
  | pop _ width => [⟨.mem none rsp, width⟩]
  | pushf q _ _ => [⟨.mem none (rsp - (flagsWidth q / 8 : ℕ)), flagsWidth q⟩]
  | popf q => [⟨.mem none rsp, flagsWidth q⟩]
  | callNear _ => [⟨.mem none (rsp - 8), 64⟩]
  | retNear _ => [⟨.mem none rsp, 64⟩]
  | _ => []

def computed (i : Instr) (rsp : ℤ) (regs : Regs) : List ℤ :=
  match i with
  | lea .rsp _ => []
  | lea _ src => [src.address.value rsp regs]
  | _ => []

def rspAfter (i : Instr) (rsp : ℤ) : ℤ :=
  match i with
  | push _ width => rsp - (width / 8 : ℕ)
  | pop _ width => rsp + (width / 8 : ℕ)
  | pushf q _ _ => rsp - (flagsWidth q / 8 : ℕ)
  | popf q => rsp + (flagsWidth q / 8 : ℕ)
  | callNear _ => rsp - 8
  | retNear bytes => rsp + 8 + bytes
  | arith .add (.reg .rsp) (.imm v) => rsp + v
  | arith .sub (.reg .rsp) (.imm v) => rsp - v
  | arith .inc (.reg .rsp) _ => rsp + 1
  | arith .dec (.reg .rsp) _ => rsp - 1
  | lea .rsp src => src.address.value rsp fun _ ↦ 0
  | _ => rsp

/-- The forms in which early mangling leaves the instructions of a stack that can be
analyzed: only registers and immediates are pushed, the stack pointer is changed by
constants only, and a move has at most one operand in memory. -/
def EarlyMangled : Instr → Prop
  | push src _ => ∀ m, src ≠ .mem m
  | mov dst src => dst ≠ .reg .rsp ∧ ((∀ m, dst ≠ .mem m) ∨ ∀ m, src ≠ .mem m)
  | xchg dst _ => dst ≠ .reg .rsp
  | lea .rsp src => src.address = .reg .rsp ∨
      ∃ scale disp, scale ≤ 1 ∧ src.address = .compound (some .rsp) none scale disp
  | arith .add (.reg .rsp) src | arith .sub (.reg .rsp) src => ∃ v, src = .imm v
  | arith .inc (.reg .rsp) src | arith .dec (.reg .rsp) src => ∀ m, src ≠ .mem m
  | _ => True

end Instr

theorem rspAfter_eq {i : Instr} (hi : i.EarlyMangled) (rsp : ℤ) :
    i.rspAfter rsp = rsp + i.stackPointerShiftAmount := by
  cases i with
  | lea dst src =>
    cases dst with
    | gpr n => exact (add_zero rsp).symm
    | slot n => exact (add_zero rsp).symm
    | rsp =>
      obtain ⟨a, segment, width⟩ := src
      rcases hi with rfl | ⟨scale, disp, hs, rfl⟩
      · exact (add_zero rsp).symm
      · simp [Instr.rspAfter, Instr.stackPointerShiftAmount, Address.value, Reg.value,
          not_lt.mpr hs]
  | arith op dst src =>
    rcases dst with (_ | n | n) | v | m
    · cases op with
      | add =>
        obtain ⟨v, rfl⟩ := hi
        rfl
      | sub =>
        obtain ⟨v, rfl⟩ := hi
        exact sub_eq_add_neg rsp v
      | inc => rfl
      | dec => exact sub_eq_add_neg rsp 1
    all_goals
      cases op <;> exact (add_zero rsp).symm
  | push src width => exact sub_eq_add_neg _ _
  | pushf q r sticky => exact sub_eq_add_neg _ _
  | callNear target => exact sub_eq_add_neg _ _
  | retNear bytes => exact add_assoc _ _ _
  | pop dst width => rfl
  | popf q => rfl
  | mov dst src => exact (add_zero rsp).symm
  | xchg dst src => exact (add_zero rsp).symm
  | nop => exact (add_zero rsp).symm
  | test => exact (add_zero rsp).symm
  | other ops => exact (add_zero rsp).symm
  | blind n => exact (add_zero rsp).symm

def Reg.slots : Reg → List ℕ
  | slot n => [n]
  | rsp | gpr _ => []

def Address.slots : Address → List ℕ
  | compound base _ _ _ => base.elim [] Reg.slots
  | reg r => r.slots
  | ptr _ => []

def Operand.slots : Operand → List ℕ
  | reg r => r.slots
  | mem m => m.address.slots
  | imm _ => []

def Instr.slots : Instr → List ℕ
  | push src _ => src.slots
  | mov dst src => dst.slots ++ src.slots
  | xchg dst _ => dst.slots
  | lea dst src => dst.slots ++ src.address.slots
  | arith _ dst src => dst.slots ++ src.slots
  | other ops => ops.flatMap Operand.slots
  | callNear target => target.slots
  | pop _ _ | pushf _ _ _ | popf _ | retNear _ | nop | test | blind _ => []

end Granary.Arch.Stack
