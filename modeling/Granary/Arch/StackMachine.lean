import Granary.Arch.Asm

namespace Granary.Arch.StackMachine

open Function Granary.Arch.Asm

/-- Instructions on registers and on the words of the stack. A displacement is one from the stack
pointer, in bytes. -/
inductive Instr (Var : Type)
  | push (src : Var)
  | pushImm (imm : BitVec 64)
  | pushMem (addr : Var)
  | pop (dst : Var)
  /-- `LEA` of an address on the stack to the stack pointer. -/
  | leaStack (disp : ℕ)
  | pushfq
  | popfq
  | load (dst : Var) (disp : ℕ)
  | store (disp : ℕ) (src : Var)
  | addStack (disp : ℕ) (imm : BitVec 64)
  | mov (w : Width) (dst src : Var)
  | bswap (dst : Var)
deriving DecidableEq, Repr

/-- What the instructions read from outside: memory that is not on the stack, and how an addition
leaves the flags. -/
structure Env where
  memory : BitVec 64 → BitVec 64
  sumFlags : BitVec 64 → BitVec 64 → BitVec 64

/-- The words of the stack are those from the stack pointer up. -/
structure State (Var X : Type) where
  regs : Var → BitVec 64
  flags : BitVec 64
  stack : List (BitVec 64)
  other : X

variable {Var X : Type}

def State.pushWord (s : State Var X) (w : BitVec 64) : State Var X :=
  { s with stack := w :: s.stack }

variable [DecidableEq Var] (env : Env)

def State.set (s : State Var X) (v : Var) (w : BitVec 64) : State Var X :=
  { s with regs := update s.regs v w }

def Instr.exec (s : State Var X) : Instr Var → Option (State Var X)
  | .push src => some (s.pushWord (s.regs src))
  | .pushImm imm => some (s.pushWord imm)
  | .pushMem addr => some (s.pushWord (env.memory (s.regs addr)))
  | .pop dst =>
    match s.stack with
    | [] => none
    | w :: ws => some ({ s with stack := ws }.set dst w)
  | .leaStack disp =>
    if disp / 8 ≤ s.stack.length then some { s with stack := s.stack.drop (disp / 8) } else none
  | .pushfq => some (s.pushWord s.flags)
  | .popfq =>
    match s.stack with
    | [] => none
    | w :: ws => some { s with flags := w, stack := ws }
  | .load dst disp => (s.stack[disp / 8]?).map (s.set dst)
  | .store disp src =>
    if disp / 8 < s.stack.length then some { s with stack := s.stack.set (disp / 8) (s.regs src) }
    else none
  | .addStack disp imm =>
    (s.stack[disp / 8]?).map fun w ↦
      { s with flags := env.sumFlags w imm, stack := s.stack.set (disp / 8) (w + imm) }
  | .mov w dst src => some (s.set dst (w.write (s.regs dst) (s.regs src)))
  | .bswap dst => some (s.set dst (Asm.bswap (s.regs dst)))

def run (is : List (Instr Var)) (s : State Var X) : Option (State Var X) :=
  is.foldlM (Instr.exec env) s

@[simp] theorem run_nil (s : State Var X) : run env [] s = some s :=
  rfl

theorem run_cons (i : Instr Var) (is : List (Instr Var)) (s : State Var X) :
    run env (i :: is) s = (i.exec env s).bind (run env is) :=
  rfl

theorem run_append (is js : List (Instr Var)) (s : State Var X) :
    run env (is ++ js) s = (run env is s).bind (run env js) := by
  simp [run, List.foldlM_append, Option.bind_eq_bind]
  rfl

variable {env} {s s' : State Var X}

theorem run_append_of_run {is js : List (Instr Var)} (h : run env is s = some s') :
    run env (is ++ js) s = run env js s' := by
  rw [run_append, h, Option.bind_some]

def Instr.IsPush : Instr Var → Prop
  | .push _ | .pushImm _ | .pushMem _ | .pushfq => True
  | _ => False

def Instr.IsPop : Instr Var → Prop
  | .pop _ => True
  | .leaStack disp => disp = 8
  | _ => False

theorem run_of_isPush {is : List (Instr Var)} (h : ∀ i ∈ is, i.IsPush) (s : State Var X) :
    ∃ s', run env is s = some s' ∧ s'.stack.length = s.stack.length + is.length := by
  induction is generalizing s with
  | nil => exact ⟨s, rfl, rfl⟩
  | cons i is ih =>
    have hi := h i List.mem_cons_self
    obtain ⟨w, hw⟩ : ∃ w, i.exec env s = some (s.pushWord w) := by
      cases i <;> first | exact ⟨_, rfl⟩ | exact hi.elim
    obtain ⟨s', hs', hlen⟩ := ih (fun j hj ↦ h j (List.mem_cons_of_mem i hj)) (s.pushWord w)
    refine ⟨s', ?_, ?_⟩
    · rw [run_cons, hw, Option.bind_some, hs']
    · rw [hlen, State.pushWord, List.length_cons, List.length_cons]
      omega

theorem run_of_isPop {is : List (Instr Var)} (h : ∀ i ∈ is, i.IsPop) (s : State Var X)
    (hs : is.length ≤ s.stack.length) :
    ∃ s', run env is s = some s' ∧ s'.stack.length = s.stack.length - is.length := by
  induction is generalizing s with
  | nil => exact ⟨s, rfl, rfl⟩
  | cons i is ih =>
    have hi := h i List.mem_cons_self
    rw [List.length_cons] at hs
    obtain ⟨t, ht, hlen⟩ : ∃ t, i.exec env s = some t ∧ t.stack.length = s.stack.length - 1 := by
      cases hstack : s.stack with
      | nil => exact absurd hs (by simp [hstack])
      | cons w ws =>
        cases i with
        | pop dst => exact ⟨_, by rw [Instr.exec, hstack], rfl⟩
        | leaStack disp =>
          obtain rfl : disp = 8 := hi
          refine ⟨{ s with stack := ws }, ?_, by simp⟩
          rw [Instr.exec, hstack, if_pos (by simp)]
          rfl
        | _ => exact hi.elim
    obtain ⟨s', hs', hlen'⟩ := ih (fun j hj ↦ h j (List.mem_cons_of_mem i hj)) t (by omega)
    refine ⟨s', ?_, ?_⟩
    · rw [run_cons, ht, Option.bind_some, hs']
    · rw [hlen', hlen, List.length_cons]
      omega

end Granary.Arch.StackMachine
