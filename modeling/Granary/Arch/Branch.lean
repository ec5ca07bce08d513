import Mathlib.Data.BitVec
import Mathlib.Tactic

namespace Granary.Arch

abbrev Addr := BitVec 64

/-- The `iclass` of a direct control-flow instruction. The first ones are those
from `XED_ICLASS_JB` to `XED_ICLASS_JZ`, in the order of `xed_iclass_enum_t`. -/
inductive BranchClass
  | jb | jbe | jl | jle | jmp | jmpFar | jnb | jnbe | jnl | jnle | jno | jnp | jns | jnz | jo | jp
  | jrcxz | js | jz | callNear | loop | loope | loopne
deriving DecidableEq, Repr

namespace BranchClass

/-- `iclass - XED_ICLASS_JB`. -/
def index : BranchClass → ℕ
  | jb => 0 | jbe => 1 | jl => 2 | jle => 3 | jmp => 4 | jmpFar => 5 | jnb => 6 | jnbe => 7
  | jnl => 8 | jnle => 9 | jno => 10 | jnp => 11 | jns => 12 | jnz => 13 | jo => 14 | jp => 15
  | jrcxz => 16 | js => 17 | jz => 18 | callNear => 19 | loop => 20 | loope => 21 | loopne => 22

def isLoopInstruction : BranchClass → Bool
  | jrcxz | loop | loope | loopne => true
  | _ => false

/-- `XED_CATEGORY_COND_BR`. -/
def isConditionalJump : BranchClass → Bool
  | jmp | jmpFar | callNear => false
  | _ => true

def kReversedConditionalCFIs : List (Option BranchClass) :=
  [some jnb, some jnbe, some jnl, some jnle, none, none, some jb, some jbe, some jl, some jle,
    some jo, some jp, some js, some jz, some jno, some jnp, none, some jns, some jnz]

def kConditionalCFIBuilders : List (Option BranchClass) :=
  [some jb, some jbe, some jl, some jle, none, none, some jnb, some jnbe, some jnl, some jnle,
    some jno, some jnp, some jns, some jnz, some jo, some jp, none, some js, some jz]

end BranchClass

structure Flags where
  cf : Bool := false
  pf : Bool := false
  zf : Bool := false
  sf : Bool := false
  of : Bool := false
deriving DecidableEq, Repr, Inhabited

/-- The state of the application: the count register, the stack pointer, the
flags, the other registers, and the words in memory. -/
structure AppState where
  rcx : BitVec 64
  rsp : BitVec 64
  flags : Flags
  regs : ℕ → BitVec 64
  mem : Addr → BitVec 64
deriving Inhabited

namespace AppState

def push (s : AppState) (v : BitVec 64) : AppState :=
  { s with rsp := s.rsp - 8, mem := Function.update s.mem (s.rsp - 8) v }

def count (s : AppState) (ecx : Bool) : BitVec 64 :=
  if ecx then (s.rcx.setWidth 32).setWidth 64 else s.rcx

def countDown (s : AppState) (ecx : Bool) : AppState :=
  { s with rcx := if ecx then (s.rcx.setWidth 32 - 1).setWidth 64 else s.rcx - 1 }

end AppState

namespace BranchClass

def condition : BranchClass → Flags → Bool
  | jb, f => f.cf
  | jbe, f => f.cf || f.zf
  | jl, f => f.sf != f.of
  | jle, f => f.zf || (f.sf != f.of)
  | jnb, f => !f.cf
  | jnbe, f => !(f.cf || f.zf)
  | jnl, f => f.sf == f.of
  | jnle, f => !f.zf && (f.sf == f.of)
  | jno, f => !f.of
  | jnp, f => !f.pf
  | jns, f => !f.sf
  | jnz, f => !f.zf
  | jo, f => f.of
  | jp, f => f.pf
  | js, f => f.sf
  | jz, f => f.zf
  | _, _ => true

def branch (c : BranchClass) (ecx : Bool) (s : AppState) : Bool × AppState :=
  match c with
  | jrcxz => (s.count ecx == 0, s)
  | loop => ((s.countDown ecx).count ecx != 0, s.countDown ecx)
  | loope => ((s.countDown ecx).count ecx != 0 && s.flags.zf, s.countDown ecx)
  | loopne => ((s.countDown ecx).count ecx != 0 && !s.flags.zf, s.countDown ecx)
  | c => (c.condition s.flags, s)

/-- A conditional jump that is not a loop has a reversed class, whose condition is
the opposite one, and a builder for that class. -/
theorem reversed_spec {c : BranchClass} (hc : c.isConditionalJump = true)
    (hl : c.isLoopInstruction = false) : ∃ r, kReversedConditionalCFIs[c.index]?.join = some r ∧
      kConditionalCFIBuilders[r.index]?.join = some r ∧
      ∀ ecx s, r.branch ecx s = (!(c.branch ecx s).1, s) ∧ (c.branch ecx s).2 = s := by
  cases c
  all_goals first
    | exact absurd hc (by decide)
    | exact absurd hl (by decide)
    | refine ⟨_, rfl, rfl, fun ecx s ↦ ⟨?_, rfl⟩⟩
  all_goals simp [branch, condition, bne]

end BranchClass

end Granary.Arch
