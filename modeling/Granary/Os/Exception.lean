import Granary.Arch.StackMachine

namespace Granary.Os.Exception

open Function Granary.Arch Granary.Arch.StackMachine

/-- The numbers of the general-purpose registers. The stack pointer has none. -/
abbrev Gpr := Fin 15

inductive Reg
  | gpr (n : Gpr)
  | vr (n : ℕ)
deriving DecidableEq, Repr

def rax : Reg := .gpr 0

def rcx : Reg := .gpr 1

def rdx : Reg := .gpr 2

def rsi : Reg := .gpr 5

def rdi : Reg := .gpr 6

inductive Segment
  | cs | ds | es | ss | fs | gs
deriving DecidableEq, Repr

/-- The part of a register that an operand names: its low byte, as `AL`, its second byte, as `AH`,
or its low 16, 32 or 64 bits. -/
inductive Part
  | low
  | high
  | wide (w : Asm.Width)
deriving DecidableEq, Repr

def byte (n : ℕ) (x : BitVec 64) : BitVec 8 :=
  (x >>> (8 * n)).setWidth 8

def Part.write (p : Part) (old new : BitVec 64) : BitVec 64 :=
  match p with
  | .low => (old >>> 8) <<< 8 ||| (byte 0 new).setWidth 64
  | .high => (old >>> 16) <<< 16 ||| (byte 0 new).setWidth 64 <<< 8 ||| (byte 0 old).setWidth 64
  | .wide w => w.write old new

section Bits

variable {x y v : BitVec 64}

theorem getLsbD_byte (k : ℕ) (x : BitVec 64) (n : ℕ) :
    (byte k x).getLsbD n = (decide (n < 8) && x.getLsbD (8 * k + n)) := by
  rw [byte, BitVec.getLsbD_setWidth, BitVec.getLsbD_ushiftRight]

theorem getLsbD_write_low (x v : BitVec 64) (n : ℕ) :
    (Part.low.write x v).getLsbD n = if n < 8 then v.getLsbD n else x.getLsbD n := by
  simp only [Part.write, BitVec.getLsbD_or, BitVec.getLsbD_shiftLeft, BitVec.getLsbD_ushiftRight,
    BitVec.getLsbD_setWidth, getLsbD_byte]
  split_ifs with h
  · simp [h, show n < 64 by omega]
  · rcases lt_or_ge n 64 with hn | hn
    · simp [h, hn, Nat.add_sub_cancel' (not_lt.mp h)]
    · simp [h, hn]

theorem getLsbD_write_high (x v : BitVec 64) (n : ℕ) :
    (Part.high.write x v).getLsbD n =
      if 8 ≤ n ∧ n < 16 then v.getLsbD (n - 8) else x.getLsbD n := by
  simp only [Part.write, BitVec.getLsbD_or, BitVec.getLsbD_shiftLeft, BitVec.getLsbD_ushiftRight,
    BitVec.getLsbD_setWidth, getLsbD_byte]
  rcases lt_or_ge n 8 with h | h
  · simp [h, show n < 64 by omega, show n < 16 by omega, show ¬8 ≤ n by omega]
  · rcases lt_or_ge n 16 with h' | h'
    · simp [h, h', show n < 64 by omega, show ¬n < 8 by omega, show n - 8 < 64 by omega,
        show n - 8 < 8 by omega]
    · rcases lt_or_ge n 64 with hn | hn
      · simp [hn, show ¬n < 8 by omega, show ¬n < 16 by omega, show ¬n - 8 < 8 by omega,
          Nat.add_sub_cancel' h']
      · simp [hn, show ¬n < 16 by omega]

theorem ushiftRight_eq_iff (k : ℕ) :
    x >>> k = y >>> k ↔ ∀ n, k ≤ n → x.getLsbD n = y.getLsbD n := by
  constructor
  · intro h n hn
    have hbit := congrArg (·.getLsbD (n - k)) h
    simpa [Nat.add_sub_cancel' hn] using hbit
  · intro h
    apply BitVec.eq_of_getLsbD_eq
    intro n _
    rw [BitVec.getLsbD_ushiftRight, BitVec.getLsbD_ushiftRight]
    exact h (k + n) (Nat.le_add_right k n)

theorem byte_eq_iff (k l : ℕ) :
    byte k x = byte l y ↔ ∀ n, n < 8 → x.getLsbD (8 * k + n) = y.getLsbD (8 * l + n) := by
  constructor
  · intro h n hn
    have hbit := congrArg (·.getLsbD n) h
    simp only [getLsbD_byte, hn, decide_true, Bool.true_and] at hbit
    exact hbit
  · intro h
    apply BitVec.eq_of_getLsbD_eq
    intro n hn
    rw [getLsbD_byte, getLsbD_byte, h n hn]

theorem write_low_eq_iff : Part.low.write x v = Part.low.write y v ↔ y >>> 8 = x >>> 8 := by
  rw [ushiftRight_eq_iff]
  constructor
  · intro h n hn
    have hbit := congrArg (·.getLsbD n) h
    simpa [getLsbD_write_low, not_lt.mpr hn] using hbit.symm
  · intro h
    apply BitVec.eq_of_getLsbD_eq
    intro n _
    rw [getLsbD_write_low, getLsbD_write_low]
    split_ifs with hn
    · rfl
    · exact (h n (not_lt.mp hn)).symm

theorem write_w16_eq_iff :
    Asm.Width.w16.write x v = Asm.Width.w16.write y v ↔ y >>> 16 = x >>> 16 := by
  rw [ushiftRight_eq_iff]
  constructor
  · intro h n hn
    have hbit := congrArg (·.getLsbD n) h
    simpa [Asm.getLsbD_write_w16, not_lt.mpr hn] using hbit.symm
  · intro h
    apply BitVec.eq_of_getLsbD_eq
    intro n _
    rw [Asm.getLsbD_write_w16, Asm.getLsbD_write_w16]
    split_ifs with hn
    · rfl
    · exact (h n (not_lt.mp hn)).symm

theorem write_low_eq_write_high_iff :
    Part.low.write x v = Part.high.write y v ↔
      y >>> 16 = x >>> 16 ∧ byte 0 y = byte 0 v ∧ byte 1 x = byte 0 v := by
  rw [ushiftRight_eq_iff, byte_eq_iff, byte_eq_iff]
  constructor
  · intro h
    have hbit (n : ℕ) := congrArg (·.getLsbD n) h
    simp only [getLsbD_write_low, getLsbD_write_high] at hbit
    refine ⟨fun n hn ↦ ?_, fun n hn ↦ ?_, fun n hn ↦ ?_⟩
    · have hn' := hbit n
      rw [if_neg (by omega), if_neg (by omega)] at hn'
      exact hn'.symm
    · have hn' := hbit (8 * 0 + n)
      rw [if_pos (by omega), if_neg (by omega)] at hn'
      exact hn'.symm
    · have hn' := hbit (8 * 1 + n)
      rw [if_neg (by omega), if_pos (by omega)] at hn'
      rw [hn']
      congr 1
      omega
  · rintro ⟨hhigh, hlow, hsecond⟩
    apply BitVec.eq_of_getLsbD_eq
    intro n _
    rw [getLsbD_write_low, getLsbD_write_high]
    rcases lt_or_ge n 8 with h | h
    · rw [if_pos h, if_neg (by omega)]
      simpa using (hlow n h).symm
    · rw [if_neg (by omega)]
      rcases lt_or_ge n 16 with h' | h'
      · rw [if_pos ⟨h, h'⟩]
        have hn := hsecond (n - 8) (by omega)
        simpa [Nat.add_sub_cancel' h] using hn
      · rw [if_neg (by omega)]
        exact (hhigh n h').symm

theorem setWidth_byte_eq_write_w16_iff :
    (byte 0 v).setWidth 64 = Asm.Width.w16.write y ((byte 0 v).setWidth 64) ↔ y >>> 16 = 0 := by
  have hzero : (0 : BitVec 64) = ((byte 0 v).setWidth 64) >>> 16 := by
    apply BitVec.eq_of_getLsbD_eq
    intro n _
    simp [getLsbD_byte, show ¬16 + n < 8 by omega]
  have hself : (byte 0 v).setWidth 64 =
      Asm.Width.w16.write ((byte 0 v).setWidth 64) ((byte 0 v).setWidth 64) := by
    apply BitVec.eq_of_getLsbD_eq
    intro n _
    rw [Asm.getLsbD_write_w16, ite_self]
  rw [hzero, ← write_w16_eq_iff, ← hself]

end Bits

structure Special (F : Type) where
  seg : Segment → BitVec 16
  fpu : F

abbrev Cpu (F : Type) := State Reg (Special F)

structure Env (F : Type) extends StackMachine.Env where
  msr : BitVec 32 → BitVec 64
  fpuImage : BitVec 64 → F

section Cpu

variable {F : Type}

def Cpu.setSegment (s : Cpu F) (seg : Segment) (x : BitVec 64) : Cpu F :=
  { s with other := { s.other with seg := update s.other.seg seg (x.setWidth 16) } }

def Cpu.setFpu (s : Cpu F) (x : F) : Cpu F :=
  { s with other := { s.other with fpu := x } }

def stringStep (s : Cpu F) (bytes : BitVec 64) : BitVec 64 :=
  if s.flags.getLsbD 10 then -bytes else bytes

def moveString (bytes count : BitVec 64) (s : Cpu F) : Cpu F :=
  (s.set rdi (s.regs rdi + count * stringStep s bytes)).set rsi
    (s.regs rsi + count * stringStep s bytes)

def repeatString (bytes count : BitVec 64) (s : Cpu F) : Cpu F :=
  (moveString bytes count s).set rcx (s.regs rcx - count)

def readMsr (env : Env F) (s : Cpu F) : Cpu F :=
  let value := env.msr ((s.regs rcx).setWidth 32)
  (s.set rax ((value.setWidth 32).setWidth 64)).set rdx (value >>> 32)

end Cpu

/-- An instruction that can fault. The address is in `RDI` and the operand in `RSI`. -/
inductive Access
  | write (p : Part)
  | read (p : Part)
  | movzx
  | xchg (p : Part)
  | writeSeg (seg : Segment)
  | repMovs (bytes : BitVec 64)
  | rdmsr
  | wrmsr
  | fwait
  | fxrstor64
  | fxsave64
  | prefetcht0
deriving DecidableEq, Repr

/-- Whether an access completes, or faults after so many of its repetitions. -/
inductive Outcome
  | completes
  | faults (done : BitVec 64)
deriving DecidableEq, Repr

section Access

variable {F : Type} (env : Env F)

def Access.complete (s : Cpu F) : Access → Cpu F
  | .read p | .xchg p => s.set rsi (p.write (s.regs rsi) (env.memory (s.regs rdi)))
  | .movzx => s.set rsi ((byte 0 (env.memory (s.regs rdi))).setWidth 64)
  | .writeSeg seg => s.setSegment seg (s.regs rsi)
  | .repMovs bytes => repeatString bytes (s.regs rcx) s
  | .rdmsr => readMsr env s
  | .fxrstor64 => s.setFpu (env.fpuImage (s.regs rdi))
  | .write _ | .wrmsr | .fwait | .fxsave64 | .prefetcht0 => s

def Access.interrupt (done : BitVec 64) (s : Cpu F) : Access → Cpu F
  | .repMovs bytes => repeatString bytes done s
  | _ => s

/-- A function of `exception_util.asm`: what stands before and after the access, and the fixup. Each
ends in a `RET`. -/
structure Emulation where
  before : List (Instr Reg)
  access : Access
  after : List (Instr Reg)
  fixup : List (Instr Reg)

/-- The address that the function returns to, and the state there. -/
def Emulation.run (e : Emulation) (o : Outcome) (s : Cpu F) : Option (BitVec 64 × Cpu F) := do
  let s ← StackMachine.run env.toEnv e.before s
  let s ← match o with
    | .completes => StackMachine.run env.toEnv e.after (e.access.complete env s)
    | .faults done => StackMachine.run env.toEnv e.fixup (e.access.interrupt done s)
  match s.stack with
  | [] => none
  | pc :: stack => some (pc, { s with stack := stack })

end Access

def makeInstrFunc (a : Access) : Emulation where
  before := []
  access := a
  after := []
  fixup := [.pushfq, .addStack 8 5, .popfq]

def makeSegWriteFunc (seg : Segment) : Emulation where
  before := [.push rsi, .load rsi 16]
  access := .writeSeg seg
  after := [.pop rsi]
  fixup := [.pushfq, .addStack 16 5, .popfq, .pop rsi]

def makeWriteFunc (p : Part) : Emulation where
  before := [.push rdi, .push rsi, .load rdi 32, .load rsi 24]
  access := .write p
  after := [.pop rsi, .pop rdi]
  fixup := [.pushfq, .addStack 24 5, .popfq, .pop rsi, .pop rdi]

def makeXchgFunc (p : Part) : Emulation where
  before := [.push rdi, .push rsi, .load rdi 32, .load rsi 24]
  access := .xchg p
  after := [.store 24 rsi, .pop rsi, .pop rdi]
  fixup := [.pushfq, .addStack 24 5, .popfq, .pop rsi, .pop rdi]

def makeMemInstrFunc (a : Access) : Emulation where
  before := [.push rdi, .load rdi 16]
  access := a
  after := [.pop rdi]
  fixup := [.pushfq, .addStack 16 5, .popfq, .pop rdi]

/-- `MAKE_READ_FUNC` and `MAKE_READ_SX_FUNC`. -/
def makeReadFunc (a : Access) : Emulation where
  before := [.push rsi, .push rdi, .load rdi 24]
  access := a
  after := [.store 32 rsi, .pop rdi, .pop rsi]
  fixup := [.pushfq, .addStack 24 5, .popfq, .pop rdi, .pop rsi]

section Emulation

variable {F : Type} {env : Env F} {s : Cpu F} {pc a b : BitVec 64} {ws : List (BitVec 64)}

@[simp] theorem rsi_ne_rdi : rsi ≠ rdi := by
  decide

@[simp] theorem rdi_ne_rsi : rdi ≠ rsi := by
  decide

theorem restore_regs {f g : Reg → BitVec 64} {u v : Reg} (h : ∀ r, r ≠ u → r ≠ v → g r = f r) :
    update (update g u (f u)) v (f v) = f := by
  funext r
  by_cases hv : r = v
  · rw [hv, update_self]
  · rw [update_of_ne hv]
    by_cases hu : r = u
    · rw [hu, update_self]
    · rw [update_of_ne hu]
      exact h r hu hv

@[simp] theorem restore_rdi_rsi (f : Reg → BitVec 64) (x y : BitVec 64) :
    update (update (update (update f rdi x) rsi y) rdi (f rdi)) rsi (f rsi) = f := by
  apply restore_regs
  intro r hdi hsi
  rw [update_of_ne hsi, update_of_ne hdi]

@[simp] theorem restore_rsi_rdi (f : Reg → BitVec 64) (x : BitVec 64) :
    update (update (update f rdi x) rsi (f rsi)) rdi (f rdi) = f := by
  apply restore_regs
  intro r _ hdi
  rw [update_of_ne hdi]

theorem makeInstrFunc_completes {e : Access} (hs : (e.complete env s).stack = pc :: ws) :
    (makeInstrFunc e).run env .completes s =
      some (pc, { e.complete env s with stack := ws }) := by
  simp only [Emulation.run, makeInstrFunc, run_nil, Option.bind_eq_bind, Option.bind_some, hs]

theorem makeInstrFunc_faults {e : Access} {done : BitVec 64}
    (hs : (e.interrupt done s).stack = pc :: ws) :
    (makeInstrFunc e).run env (.faults done) s =
      some (pc + 5, { e.interrupt done s with stack := ws }) := by
  simp [Emulation.run, makeInstrFunc, run_cons, Instr.exec, State.pushWord, hs]

theorem makeSegWriteFunc_completes (seg : Segment) (hs : s.stack = pc :: a :: ws) :
    (makeSegWriteFunc seg).run env .completes s =
      some (pc, { s.setSegment seg a with stack := a :: ws }) := by
  simp [Emulation.run, makeSegWriteFunc, run_cons, Instr.exec, State.pushWord, hs, State.set,
    Access.complete, Cpu.setSegment]

theorem makeSegWriteFunc_faults (seg : Segment) {done : BitVec 64} (hs : s.stack = pc :: a :: ws) :
    (makeSegWriteFunc seg).run env (.faults done) s =
      some (pc + 5, { s with stack := a :: ws }) := by
  simp [Emulation.run, makeSegWriteFunc, run_cons, Instr.exec, State.pushWord, hs, State.set,
    Access.interrupt]

theorem makeWriteFunc_completes (p : Part) (hs : s.stack = pc :: a :: b :: ws) :
    (makeWriteFunc p).run env .completes s = some (pc, { s with stack := a :: b :: ws }) := by
  simp [Emulation.run, makeWriteFunc, run_cons, Instr.exec, State.pushWord, hs, State.set,
    Access.complete]

theorem makeWriteFunc_faults (p : Part) {done : BitVec 64} (hs : s.stack = pc :: a :: b :: ws) :
    (makeWriteFunc p).run env (.faults done) s =
      some (pc + 5, { s with stack := a :: b :: ws }) := by
  simp [Emulation.run, makeWriteFunc, run_cons, Instr.exec, State.pushWord, hs, State.set,
    Access.interrupt]

theorem makeXchgFunc_completes (p : Part) (hs : s.stack = pc :: a :: b :: ws) :
    (makeXchgFunc p).run env .completes s =
      some (pc, { s with stack := p.write a (env.memory b) :: b :: ws }) := by
  simp [Emulation.run, makeXchgFunc, run_cons, Instr.exec, State.pushWord, hs, State.set,
    Access.complete]

theorem makeXchgFunc_faults (p : Part) {done : BitVec 64} (hs : s.stack = pc :: a :: b :: ws) :
    (makeXchgFunc p).run env (.faults done) s =
      some (pc + 5, { s with stack := a :: b :: ws }) := by
  simp [Emulation.run, makeXchgFunc, run_cons, Instr.exec, State.pushWord, hs, State.set,
    Access.interrupt]

theorem makeReadFunc_completes (p : Part) (hs : s.stack = pc :: a :: b :: ws) :
    (makeReadFunc (.read p)).run env .completes s =
      some (pc, { s with stack := a :: p.write (s.regs rsi) (env.memory a) :: ws }) := by
  simp [Emulation.run, makeReadFunc, run_cons, Instr.exec, State.pushWord, hs, State.set,
    Access.complete]

theorem makeReadFunc_movzx_completes (hs : s.stack = pc :: a :: b :: ws) :
    (makeReadFunc .movzx).run env .completes s =
      some (pc, { s with stack := a :: (byte 0 (env.memory a)).setWidth 64 :: ws }) := by
  simp [Emulation.run, makeReadFunc, run_cons, Instr.exec, State.pushWord, hs, State.set,
    Access.complete]

theorem makeReadFunc_faults {e : Access} (he : ∀ done (t : Cpu F), e.interrupt done t = t)
    {done : BitVec 64} (hs : s.stack = pc :: a :: b :: ws) :
    (makeReadFunc e).run env (.faults done) s =
      some (pc + 5, { s with stack := a :: b :: ws }) := by
  simp [Emulation.run, makeReadFunc, run_cons, Instr.exec, State.pushWord, hs, State.set, he]

theorem makeMemInstrFunc_completes {e : Access} (he : ∀ t : Cpu F, e.complete env t = t)
    (hs : s.stack = pc :: a :: ws) :
    (makeMemInstrFunc e).run env .completes s = some (pc, { s with stack := a :: ws }) := by
  simp [Emulation.run, makeMemInstrFunc, run_cons, Instr.exec, State.pushWord, hs, State.set, he]

theorem makeMemInstrFunc_fxrstor64_completes (hs : s.stack = pc :: a :: ws) :
    (makeMemInstrFunc .fxrstor64).run env .completes s =
      some (pc, { s.setFpu (env.fpuImage a) with stack := a :: ws }) := by
  simp [Emulation.run, makeMemInstrFunc, run_cons, Instr.exec, State.pushWord, hs, State.set,
    Access.complete, Cpu.setFpu]

theorem makeMemInstrFunc_faults {e : Access} (he : ∀ done (t : Cpu F), e.interrupt done t = t)
    {done : BitVec 64} (hs : s.stack = pc :: a :: ws) :
    (makeMemInstrFunc e).run env (.faults done) s =
      some (pc + 5, { s with stack := a :: ws }) := by
  simp [Emulation.run, makeMemInstrFunc, run_cons, Instr.exec, State.pushWord, hs, State.set, he]

end Emulation

/-- The instructions that can fault, with their operands. An operand that is in memory is given by
the register that holds its address. -/
inductive ExceptionalForm
  | movSegMemw (seg : Segment) (base : Reg)
  | movSegGpr16 (seg : Segment) (src : Reg)
  | movMembImmb (base : Reg) (imm : BitVec 8)
  | movMemvImmz (w : Asm.Width) (base : Reg) (imm : BitVec 32)
  | movMembGpr8 (base src : Reg) (isHigh : Bool)
  | movMemvGprv (w : Asm.Width) (base src : Reg)
  | xchgMembGpr8 (base reg : Reg) (isHigh : Bool)
  | xchgMemvGprv (w : Asm.Width) (base reg : Reg)
  | movGpr8Memb (dst : Reg) (isHigh : Bool) (base : Reg)
  | movGprvMemv (w : Asm.Width) (dst base : Reg)
  | movzxGprvMemb (w : Asm.Width) (dst base : Reg)
  | fxsave64 (base : Reg)
  | fxrstor64 (base : Reg)
  | prefetcht0 (base : Reg)
  /-- `MOVSB`, `MOVSW`, `MOVSD` and `MOVSQ`. -/
  | movs (order : Fin 4)
  | rdmsr
  | wrmsr
  | fwait
deriving DecidableEq, Repr

def stringBytes (order : Fin 4) : BitVec 64 :=
  1 <<< order.val

/-- `GetExceptionInfo`, once the instruction is in an exception table. The functions for errors are
those for faults under other names. -/
def emulation : ExceptionalForm → Emulation
  | .movs order => makeInstrFunc (.repMovs (stringBytes order))
  | .wrmsr => makeInstrFunc .wrmsr
  | .rdmsr => makeInstrFunc .rdmsr
  | .fwait => makeInstrFunc .fwait
  | .fxrstor64 _ => makeMemInstrFunc .fxrstor64
  | .fxsave64 _ => makeMemInstrFunc .fxsave64
  | .prefetcht0 _ => makeMemInstrFunc .prefetcht0
  | .xchgMembGpr8 .. => makeXchgFunc .low
  | .xchgMemvGprv w .. => makeXchgFunc (.wide w)
  | .movSegMemw seg _ | .movSegGpr16 seg _ => makeSegWriteFunc seg
  | .movMembGpr8 .. | .movMembImmb .. => makeWriteFunc .low
  | .movMemvImmz w .. | .movMemvGprv w .. => makeWriteFunc (.wide w)
  | .movGpr8Memb .. => makeReadFunc (.read .low)
  | .movGprvMemv w .. => makeReadFunc (.read (.wide w))
  | .movzxGprvMemb .. => makeReadFunc .movzx

end Granary.Os.Exception
