import Mathlib.Data.BitVec
import Mathlib.Logic.Function.Basic
import Mathlib.Tactic

namespace Granary.Arch.Asm

inductive Width
  | w16 | w32 | w64
deriving DecidableEq, Repr

/-- What a register holds after a part of it is written. A write of 32 bits clears the
high half, one of 16 bits keeps the rest. -/
def Width.write (w : Width) (old new : BitVec 64) : BitVec 64 :=
  match w with
  | .w16 => (old >>> 16) <<< 16 ||| (new.setWidth 16).setWidth 64
  | .w32 => (new.setWidth 32).setWidth 64
  | .w64 => new

def bswap (x : BitVec 64) : BitVec 64 :=
  (BitVec.ofBoolListLE (List.ofFn fun i : Fin 64 ↦ x.getLsbD (8 * (7 - i / 8) + i % 8))).cast
    List.length_ofFn

theorem getLsbD_of_toNat_lt {w n i : ℕ} {x : BitVec w} (h : x.toNat < 2 ^ n) (hi : n ≤ i) :
    x.getLsbD i = false :=
  Nat.testBit_lt_two_pow (h.trans_le (Nat.pow_le_pow_right two_pos hi))

theorem getLsbD_bswap (x : BitVec 64) {i : ℕ} (hi : i < 64) :
    (bswap x).getLsbD i = x.getLsbD (8 * (7 - i / 8) + i % 8) := by
  rw [bswap, BitVec.getLsbD_cast, BitVec.getLsbD_ofBoolListLE, List.getD_eq_getElem?_getD,
    List.getElem?_ofFn, dif_pos hi, Option.getD_some]

theorem getLsbD_write_w16 (old new : BitVec 64) (i : ℕ) :
    (Width.w16.write old new).getLsbD i = if i < 16 then new.getLsbD i else old.getLsbD i := by
  simp only [Width.write, BitVec.getLsbD_or, BitVec.getLsbD_shiftLeft, BitVec.getLsbD_ushiftRight,
    BitVec.getLsbD_setWidth]
  split_ifs with h
  · simp [h, show i < 64 by omega]
  · rcases lt_or_ge i 64 with hi | hi
    · simp [h, hi, Nat.add_sub_cancel' (not_lt.1 h)]
    · simp [h, hi]

theorem getLsbD_write_w32 (old new : BitVec 64) (i : ℕ) :
    (Width.w32.write old new).getLsbD i = (decide (i < 32) && new.getLsbD i) := by
  simp only [Width.write, BitVec.getLsbD_setWidth]
  by_cases h : i < 32
  · simp [h, show i < 64 by omega]
  · simp [h]

/-- The instructions of inline assembly, over its variables. -/
inductive Instr (Var : Type)
  | mov (w : Width) (dst src : Var)
  /-- `LEA`, of an address that is a constant. -/
  | lea (dst : Var) (addr : BitVec 64)
  | shr (dst : Var) (count : BitVec 8)
  | sar (dst : Var) (count : BitVec 8)
  | shl (dst : Var) (count : BitVec 8)
  | add (dst src : Var)
  /-- `ADD` with an immediate of 8 bits, which the processor extends. -/
  | addImm8 (dst : Var) (imm : BitVec 8)
  | bswap (dst : Var)
  | xchg (a b : Var)
  | bt (src : Var) (bit : BitVec 8)
  | jb (label : ℕ)
  | jnb (label : ℕ)
  | label (label : ℕ)
deriving DecidableEq, Repr

variable {Var : Type}

structure State (Var : Type) where
  regs : Var → BitVec 64
  /-- The carry flag as `BT` leaves it. -/
  carry : Bool := false
  /-- The label that a jump is on its way to. -/
  target : Option ℕ := none

variable [DecidableEq Var]

def State.set (s : State Var) (v : Var) (x : BitVec 64) : State Var :=
  { s with regs := Function.update s.regs v x }

def shiftCount (count : BitVec 8) : ℕ := count.toNat % 64

def Instr.exec (s : State Var) : Instr Var → State Var
  | .mov w dst src => s.set dst (w.write (s.regs dst) (s.regs src))
  | .lea dst addr => s.set dst addr
  | .shr dst count => s.set dst (s.regs dst >>> shiftCount count)
  | .sar dst count => s.set dst ((s.regs dst).sshiftRight (shiftCount count))
  | .shl dst count => s.set dst (s.regs dst <<< shiftCount count)
  | .add dst src => s.set dst (s.regs dst + s.regs src)
  | .addImm8 dst imm => s.set dst (s.regs dst + imm.signExtend 64)
  | .bswap dst => s.set dst (Asm.bswap (s.regs dst))
  | .xchg a b => (s.set a (s.regs b)).set b (s.regs a)
  | .bt src bit => { s with carry := (s.regs src).getLsbD (shiftCount bit) }
  | .jb l => if s.carry then { s with target := some l } else s
  | .jnb l => if s.carry then s else { s with target := some l }
  | .label _ => s

/-- One instruction. On the way to a label everything is skipped up to it. -/
def step (s : State Var) (i : Instr Var) : State Var :=
  match s.target with
  | none => i.exec s
  | some l => if i = .label l then { s with target := none } else s

def run (is : List (Instr Var)) (s : State Var) : State Var := is.foldl step s

@[simp] theorem run_nil (s : State Var) : run [] s = s := rfl

theorem run_cons (i : Instr Var) (is : List (Instr Var)) (s : State Var) :
    run (i :: is) s = run is (step s i) := rfl

theorem run_append (is js : List (Instr Var)) (s : State Var) :
    run (is ++ js) s = run js (run is s) := List.foldl_append

theorem step_of_running {s : State Var} (h : s.target = none) (i : Instr Var) :
    step s i = i.exec s := by
  rw [step, h]

@[simp] theorem State.set_target (s : State Var) (v : Var) (x : BitVec 64) :
    (s.set v x).target = s.target := rfl

@[simp] theorem State.set_carry (s : State Var) (v : Var) (x : BitVec 64) :
    (s.set v x).carry = s.carry := rfl

@[simp] theorem State.set_self (s : State Var) (v : Var) (x : BitVec 64) :
    (s.set v x).regs v = x := by simp [State.set]

theorem State.set_of_ne (s : State Var) {u v : Var} (h : u ≠ v) (x : BitVec 64) :
    (s.set v x).regs u = s.regs u := by simp [State.set, h]

theorem step_label {s : State Var} {l : ℕ} (h : s.target = some l) :
    step s (.label l) = { s with target := none } := by
  rw [step, h]
  exact if_pos rfl

theorem run_of_target {s : State Var} {l : ℕ} (h : s.target = some l) {is : List (Instr Var)}
    (hl : Instr.label l ∉ is) : run is s = s := by
  induction is with
  | nil => rfl
  | cons i is ih =>
    have hi : i ≠ .label l := fun hi ↦ hl (hi ▸ List.mem_cons_self)
    have hstep : step s i = s := by
      rw [step, h]
      exact if_neg hi
    rw [run_cons, hstep]
    exact ih fun hm ↦ hl (List.mem_cons_of_mem i hm)

end Granary.Arch.Asm
