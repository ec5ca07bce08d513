import Granary.Arch.Call
import Granary.Base.WordMemory

namespace Granary.Arch.Machine

open Function Granary.Base.WordMemory
open Granary.Arch.Call (Gpr)

/-- The state of one processor. `flags` holds the bits that `PUSHFQ` stores and `POPFQ` loads, and
`privateStack` and `savedFlags` are the slots that code reaches through a segment register. `other`
is data that only compiled functions use. -/
structure State (X : Type) where
  regs : Gpr → BitVec 64
  rsp : BitVec 64
  pc : BitVec 64
  flags : BitVec 64
  mem : Mem
  privateStack : BitVec 64
  savedFlags : BitVec 64
  other : X

/-- `callee` is what the code at the target of a call does, up to and with its return. -/
inductive Instr (X : Type) where
  | push (src : Gpr)
  | pushRsp
  | pushImm (imm : BitVec 64)
  | pop (dst : Gpr)
  | popRsp
  | pushfq
  | popfq
  | popSavedFlags
  | cli
  | xchgPrivateStack
  | movImm (dst : Gpr) (imm : BitVec 64)
  | movRsp (dst : Gpr)
  | storeRsp (src : Gpr)
  | lea (dst src : Gpr) (disp : BitVec 64)
  | leaRsp (disp : BitVec 64)
  | and (dst : Gpr) (imm : BitVec 64)
  | xchgRsp (r : Gpr)
  | orTop (imm : BitVec 64)
  | btSavedFlags (bit : ℕ)
  | call (returnAddress : BitVec 64) (callee : State X → Option (State X))
  | ret

/-- `CF`, `PF`, `AF`, `ZF`, `SF` and `OF`. -/
def statusFlags : BitVec 64 :=
  0x8d5

/-- `IF`. -/
def interruptFlag : BitVec 64 :=
  0x200

variable {X : Type}

namespace State

def pushWord (s : State X) (v : BitVec 64) : State X :=
  { s with rsp := s.rsp - 8, mem := store s.mem (s.rsp - 8) v }

def top (s : State X) : BitVec 64 :=
  load s.mem s.rsp

def drop (s : State X) : State X :=
  { s with rsp := s.rsp + 8 }

def set (s : State X) (r : Gpr) (v : BitVec 64) : State X :=
  { s with regs := update s.regs r v }

/-- The flags after an operation on bits: the status flags come from its result. -/
def setStatus (arith : BitVec 64 → BitVec 64) (s : State X) (result : BitVec 64) : State X :=
  { s with flags := s.flags &&& ~~~statusFlags ||| arith result &&& statusFlags }

end State

variable (arith : BitVec 64 → BitVec 64)

def Instr.exec (s : State X) : Instr X → Option (State X)
  | push src => some (s.pushWord (s.regs src))
  | pushRsp => some (s.pushWord s.rsp)
  | pushImm imm => some (s.pushWord imm)
  | pop dst => some (s.drop.set dst s.top)
  | popRsp => some { s with rsp := s.top }
  | pushfq => some (s.pushWord s.flags)
  | popfq => some { s.drop with flags := s.top }
  | popSavedFlags => some { s.drop with savedFlags := s.top }
  | cli => some { s with flags := s.flags &&& ~~~interruptFlag }
  | xchgPrivateStack => some { s with rsp := s.privateStack, privateStack := s.rsp }
  | movImm dst imm => some (s.set dst imm)
  | movRsp dst => some (s.set dst s.rsp)
  | storeRsp src => some { s with mem := store s.mem s.rsp (s.regs src) }
  | lea dst src disp => some (s.set dst (s.regs src + disp))
  | leaRsp disp => some { s with rsp := s.rsp + disp }
  | and dst imm => some ((s.set dst (s.regs dst &&& imm)).setStatus arith (s.regs dst &&& imm))
  | xchgRsp r => some { s.set r s.rsp with rsp := s.regs r }
  | orTop imm => some ({ s with mem := store s.mem s.rsp (s.top ||| imm) }.setStatus arith
      (s.top ||| imm))
  | btSavedFlags bit =>
    some { s with
      flags := s.flags &&& ~~~1 ||| (BitVec.ofBool (s.savedFlags.getLsbD bit)).setWidth 64 }
  | call returnAddress callee =>
    -- a callee that returns to somewhere else leaves the code
    (callee (s.pushWord returnAddress)).filter fun t ↦ t.pc = returnAddress
  | ret => some { s.drop with pc := s.top }

def run (is : List (Instr X)) (s : State X) : Option (State X) :=
  is.foldlM (Instr.exec arith) s

variable {arith} {s t : State X} {rs : List Gpr} {g : Gpr → BitVec 64}

@[simp] theorem run_nil (s : State X) : run arith [] s = some s :=
  rfl

theorem run_cons (i : Instr X) (is : List (Instr X)) (s : State X) :
    run arith (i :: is) s = (i.exec arith s).bind (run arith is) :=
  rfl

theorem run_append (is js : List (Instr X)) (s : State X) :
    run arith (is ++ js) s = (run arith is s).bind (run arith js) := by
  rw [run, List.foldlM_append]
  rfl

theorem run_append_of_run {is js : List (Instr X)} (h : run arith is s = some t) :
    run arith (is ++ js) s = run arith js t := by
  rw [run_append, h, Option.bind_some]

theorem run_cons_of_exec {i : Instr X} {is : List (Instr X)} (h : i.exec arith s = some t) :
    run arith (i :: is) s = run arith is t := by
  rw [run_cons, h, Option.bind_some]

def State.pushRegs (s : State X) (rs : List Gpr) : State X :=
  { s with
    rsp := s.rsp - BitVec.ofNat 64 (8 * rs.length)
    mem := pushAll s.mem s.rsp (rs.map s.regs) }

theorem run_pushes (rs : List Gpr) (s : State X) :
    run arith (rs.map .push) s = some (s.pushRegs rs) := by
  induction rs generalizing s with
  | nil => simp [State.pushRegs, pushAll]
  | cons r rs ih =>
    rw [List.map_cons, run_cons_of_exec (t := s.pushWord (s.regs r)) rfl, ih]
    simp only [State.pushRegs, State.pushWord, List.length_cons, sub_eight_sub, List.map_cons,
      pushAll]

theorem run_pops (arith : BitVec 64 → BitVec 64) (rs : List Gpr)
    (h : topWords t.mem t.rsp rs.length = rs.map g) :
    run arith (rs.map .pop) t = some { t with
      regs := fun r ↦ if r ∈ rs then g r else t.regs r
      rsp := t.rsp + BitVec.ofNat 64 (8 * rs.length) } := by
  induction rs generalizing t with
  | nil => simp
  | cons r rs ih =>
    rw [List.length_cons, topWords, List.map_cons, List.cons.injEq] at h
    have hpop : (Instr.pop r).exec arith t = some (t.drop.set r (g r)) := by
      rw [← h.1]
      rfl
    rw [List.map_cons, run_cons_of_exec hpop, ih h.2]
    simp only [State.drop, State.set, List.length_cons, Option.some.injEq, State.mk.injEq, and_true]
    constructor
    · funext q
      by_cases hq : q ∈ rs
      · simp [hq]
      · by_cases hqr : q = r
        · simp [hqr]
        · simp [hq, hqr]
    · rw [Nat.mul_succ, Nat.add_comm, BitVec.ofNat_add, ← add_assoc]
      rfl

/-- Code between pushes and the opposite pops, when it leaves the stack pointer and the words above
it as they were. -/
theorem run_saved {is : List (Instr X)} (hroom : 8 * rs.length ≤ s.rsp.toNat)
    (hrun : run arith is (s.pushRegs rs) = some t) (hrsp : t.rsp = (s.pushRegs rs).rsp)
    (hmem : Set.EqOn t.mem (s.pushRegs rs).mem
      (Span (s.rsp.toNat - 8 * rs.length) s.rsp.toNat)) :
    run arith (rs.map .push ++ is ++ rs.reverse.map .pop) s = some { t with
      regs := fun r ↦ if r ∈ rs then s.regs r else t.regs r
      rsp := s.rsp } := by
  have hpointer := toNat_sub_ofNat (k := 8 * rs.length) hroom
  have := s.rsp.isLt
  have htop : topWords t.mem t.rsp rs.reverse.length = rs.reverse.map s.regs := by
    have hpushed : topWords (s.pushRegs rs).mem t.rsp rs.length = (rs.map s.regs).reverse := by
      have h := topWords_pushAll s.mem s.rsp (rs.map s.regs) (by simpa)
      rw [List.length_map] at h
      rw [hrsp]
      exact h
    rw [List.length_reverse, List.map_reverse, ← hpushed]
    apply topWords_congr
    · rw [hrsp, State.pushRegs, hpointer]
      omega
    · rw [hrsp]
      apply hmem.mono
      simp only [State.pushRegs, hpointer]
      apply span_subset <;> omega
  rw [run_append, run_append, run_pushes, Option.bind_some, hrun, Option.bind_some,
    run_pops arith rs.reverse htop]
  simp only [List.mem_reverse, List.length_reverse, hrsp, State.pushRegs, BitVec.sub_add_cancel]

end Granary.Arch.Machine
