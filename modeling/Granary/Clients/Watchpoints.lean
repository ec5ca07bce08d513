import Granary.Arch.Asm

namespace Granary.Clients.Watchpoints

open Granary.Arch.Asm

def taintBit (isUser : Bool) : BitVec 64 := if isUser then 1 else 0

def taintMask : BitVec 64 := 0xFFFE

def taintAddress (isUser : Bool) (addr index : BitVec 64) : BitVec 64 :=
  if addr = 0 then addr
  else
    let taint := (index <<< 1 &&& taintMask ||| taintBit isUser) <<< 48
    (addr <<< 16) >>> 16 ||| taint

def untaintAddress (addr : BitVec 64) : BitVec 64 :=
  if (1 : BitVec 64) &&& addr >>> 47 = 0 then addr &&& 0xFFFFFFFFFFFF
  else addr ||| (0xFFFF : BitVec 64) <<< 48

def isTaintedAddress (addr : BitVec 64) : Bool :=
  let bit47 := (addr >>> 47) &&& 1
  let bit48 := (addr >>> 48) &&& 1
  bit47 != bit48

def extractTaint (addr : BitVec 64) : BitVec 16 := (addr >>> 49).setWidth 16

theorem shift_and_one (x : BitVec 64) (n : ℕ) :
    (x >>> n) &&& 1 = if x.getLsbD n then 1 else 0 := by
  apply BitVec.eq_of_getLsbD_eq
  intro i hi
  rw [BitVec.getLsbD_and, BitVec.getLsbD_ushiftRight]
  cases i with
  | zero =>
    rw [Nat.add_zero]
    cases x.getLsbD n <;> simp
  | succ i => cases x.getLsbD n <;> simp

theorem isTaintedAddress_iff (x : BitVec 64) :
    isTaintedAddress x = true ↔ x.getLsbD 47 ≠ x.getLsbD 48 := by
  simp only [isTaintedAddress, shift_and_one]
  cases x.getLsbD 47 <;> cases x.getLsbD 48 <;> decide

theorem getLsbD_and_ones (x : BitVec 64) (n : ℕ) {i : ℕ} (hi : i < 64) :
    (x &&& BitVec.ofNat 64 (2 ^ n - 1)).getLsbD i = (decide (i < n) && x.getLsbD i) := by
  rw [BitVec.getLsbD_and, BitVec.getLsbD_ofNat, Nat.testBit_two_pow_sub_one, Bool.and_comm]
  simp [hi]

theorem untaintAddress_of_clear {x : BitVec 64} (h : x.getLsbD 47 = false) :
    untaintAddress x = x &&& BitVec.ofNat 64 (2 ^ 48 - 1) := by
  rw [untaintAddress, BitVec.and_comm, shift_and_one, h]
  rfl

theorem getLsbD_taintAddress {a : BitVec 64} (ha : a ≠ 0) (index : BitVec 64) {i : ℕ}
    (hi : i < 64) : (taintAddress true a index).getLsbD i =
      if i < 48 then a.getLsbD i else if i = 48 then true else index.getLsbD (i - 49) := by
  have hmask (j : ℕ) (hj : j < 16) : taintMask.getLsbD j = decide (0 < j) := by
    revert j
    decide
  have hbit (j : ℕ) : (taintBit true).getLsbD j = decide (j = 0) := by
    rw [taintBit, if_pos rfl]
    exact BitVec.getLsbD_one
  simp only [taintAddress, if_neg ha, BitVec.getLsbD_or, BitVec.getLsbD_ushiftRight,
    BitVec.getLsbD_shiftLeft, BitVec.getLsbD_and]
  split_ifs with hlow htag
  · simp [hlow, show 16 + i < 64 by omega]
  · subst htag
    simp [hbit]
  · rw [hmask _ (by omega), hbit]
    have hj : i - 48 - 1 = i - 49 := by omega
    simp [hi, hlow, hj, show ¬ 16 + i < 64 by omega, show ¬ i - 48 = 0 by omega,
      show i - 48 < 64 by omega, show 0 < i - 48 by omega, show ¬ i - 48 < 1 by omega]

theorem untaintAddress_taintAddress {a : BitVec 64} (ha : a ≠ 0) (hlt : a.toNat < 2 ^ 47)
    (index : BitVec 64) : untaintAddress (taintAddress true a index) = a := by
  have hhigh (i : ℕ) (hi : 47 ≤ i) : a.getLsbD i = false := getLsbD_of_toNat_lt hlt hi
  have hclear : (taintAddress true a index).getLsbD 47 = false := by
    rw [getLsbD_taintAddress ha index (by decide), if_pos (by decide)]
    exact hhigh 47 le_rfl
  rw [untaintAddress_of_clear hclear]
  apply BitVec.eq_of_getLsbD_eq
  intro i hi
  rw [getLsbD_and_ones _ _ hi, getLsbD_taintAddress ha index hi]
  by_cases h : i < 48
  · simp [h]
  · simp [h, hhigh i (by omega)]

theorem isTaintedAddress_taintAddress {a : BitVec 64} (ha : a ≠ 0) (hlt : a.toNat < 2 ^ 47)
    (index : BitVec 64) : isTaintedAddress (taintAddress true a index) = true := by
  rw [isTaintedAddress_iff, getLsbD_taintAddress ha index (by decide),
    getLsbD_taintAddress ha index (by decide), if_pos (by decide), if_neg (by decide),
    if_pos rfl, getLsbD_of_toNat_lt hlt le_rfl]
  decide

theorem extractTaint_taintAddress {a : BitVec 64} (ha : a ≠ 0) (index : BitVec 64)
    (hindex : index.toNat < 2 ^ 15) :
    (extractTaint (taintAddress true a index)).toNat = index.toNat := by
  have hextract : extractTaint (taintAddress true a index) = index.setWidth 16 := by
    apply BitVec.eq_of_getLsbD_eq
    intro i hi
    rw [extractTaint, BitVec.getLsbD_setWidth, BitVec.getLsbD_setWidth, BitVec.getLsbD_ushiftRight]
    rcases lt_or_ge i 15 with h | h
    · rw [getLsbD_taintAddress ha index (by omega), if_neg (by omega), if_neg (by omega),
        Nat.add_sub_cancel_left]
    · rw [getLsbD_of_toNat_lt hindex h, BitVec.getLsbD_of_ge _ _ (by omega)]
  rw [hextract, BitVec.toNat_setWidth, Nat.mod_eq_of_lt (by omega)]

/-- The variables of the inline assembly, and the other registers. -/
inductive Var
  | unwatchedAddr
  | watchedAddr
  | other (n : ℕ)
deriving DecidableEq, Repr

open Var

abbrev doneLabel : ℕ := 2

/-- What is asked of a memory operand and of its instruction. -/
structure InstrumentedMemoryOperand (isUser : Bool) where
  /-- The address is in a register that is an alias of the stack pointer. -/
  isStackPointerAlias : Bool := false
  isExceptional : Bool := false
  isModifiable : Bool := true
  /-- The instruction only writes to the register of the address. -/
  isAddrWriteOnly : Bool := false
  /-- `GetExceptionInfo` finds no exceptional instruction in user space. -/
  notExceptional : isUser = true → isExceptional = false

/-- Code that tools add for a watched operand. They see the two registers and leave them
as they are. -/
structure Hooks where
  code : List (Instr Var)
  noLabel : Instr.label doneLabel ∉ code
  keeps (s : State Var) : s.target = none → (run code s).target = none ∧
    (run code s).regs unwatchedAddr = s.regs unwatchedAddr ∧
    (run code s).regs watchedAddr = s.regs watchedAddr

structure Instrumented where
  before : List (Instr Var) := []
  after : List (Instr Var) := []
  /-- The operand is replaced by one that uses the unwatched address. -/
  isReplaced : Bool := false

variable {isUser : Bool}

def testAndShift (op : InstrumentedMemoryOperand isUser) (hooks : Hooks) : List (Instr Var) :=
  [.mov .w64 unwatchedAddr watchedAddr] ++
  (if op.isExceptional then [.bt unwatchedAddr 47, .jnb doneLabel] else []) ++
  [.bt unwatchedAddr 48, if isUser then .jnb doneLabel else .jb doneLabel,
    .shl unwatchedAddr 16, .sar unwatchedAddr 16] ++
  hooks.code ++
  [.label doneLabel]

def restoreTaint : List (Instr Var) :=
  [.bswap watchedAddr, .bswap unwatchedAddr, .mov .w16 watchedAddr unwatchedAddr,
    .bswap watchedAddr]

def instrumentMemOp (op : InstrumentedMemoryOperand isUser) (hooks : Hooks) : Instrumented :=
  if op.isStackPointerAlias then {}
  else
    { before := testAndShift op hooks ++
        if op.isModifiable then [] else [.xchg unwatchedAddr watchedAddr]
      after := if op.isModifiable || op.isAddrWriteOnly then [] else restoreTaint
      isReplaced := op.isModifiable }

def shifted (x : BitVec 64) : BitVec 64 := (x <<< 16).sshiftRight 16

def testAndShiftUser : List (Instr Var) :=
  [.mov .w64 unwatchedAddr watchedAddr, .bt unwatchedAddr 48, .jnb doneLabel,
    .shl unwatchedAddr 16, .sar unwatchedAddr 16]

theorem testAndShift_user (op : InstrumentedMemoryOperand true) (hooks : Hooks) :
    testAndShift op hooks = testAndShiftUser ++ hooks.code ++ [.label doneLabel] := by
  simp [testAndShift, testAndShiftUser, op.notExceptional rfl]

theorem run_testAndShiftUser {s : State Var} (hs : s.target = none) :
    let t := run testAndShiftUser s
    let value := s.regs watchedAddr
    t.regs watchedAddr = value ∧
      (t.target, t.regs unwatchedAddr) =
        if value.getLsbD 48 then (none, shifted value) else (some doneLabel, value) := by
  have hne : watchedAddr ≠ unwatchedAddr := by decide
  dsimp only
  cases hbit : (s.regs watchedAddr).getLsbD 48 <;>
    simp [testAndShiftUser, run, step, hs, Instr.exec, Width.write, shiftCount, hbit, shifted,
      State.set_of_ne _ hne, -BitVec.getLsbD_eq_getElem]

theorem run_testAndShift (op : InstrumentedMemoryOperand true) (hooks : Hooks) {s : State Var}
    (hs : s.target = none) :
    let t := run (testAndShift op hooks) s
    let value := s.regs watchedAddr
    t.target = none ∧ t.regs watchedAddr = value ∧
      t.regs unwatchedAddr = if value.getLsbD 48 then shifted value else value := by
  obtain ⟨hwatched, htaken⟩ := run_testAndShiftUser hs
  set t := run testAndShiftUser s
  dsimp only
  rw [testAndShift_user, run_append, run_append, run_cons, run_nil]
  split_ifs at htaken ⊢ with hbit
  · obtain ⟨htarget, hregs⟩ := Prod.mk.inj htaken
    obtain ⟨hnone, hun, hwa⟩ := hooks.keeps t htarget
    rw [step_of_running hnone, Instr.exec, hun, hwa]
    exact ⟨hnone, hwatched, hregs⟩
  · -- The jump skips the shifts and the hooks.
    obtain ⟨htarget, hregs⟩ := Prod.mk.inj htaken
    rw [run_of_target htarget hooks.noLabel, step_label htarget]
    exact ⟨rfl, hwatched, hregs⟩

theorem getLsbD_shifted (x : BitVec 64) {i : ℕ} (hi : i < 64) :
    (shifted x).getLsbD i = x.getLsbD (min i 47) := by
  rw [shifted, BitVec.getLsbD_sshiftRight]
  rcases lt_or_ge i 48 with h | h
  · simp [hi, show 16 + i < 64 by omega, show min i 47 = i by omega]
  · simp [show ¬ 64 ≤ i by omega, show ¬ 16 + i < 64 by omega, show min i 47 = 47 by omega,
      BitVec.msb_eq_getLsbD_last]

theorem shifted_eq_untaintAddress {x : BitVec 64} (h : x.getLsbD 47 = false) :
    shifted x = untaintAddress x := by
  rw [untaintAddress_of_clear h]
  apply BitVec.eq_of_getLsbD_eq
  intro i hi
  rw [getLsbD_shifted x hi, getLsbD_and_ones x 48 hi]
  rcases lt_or_ge i 48 with hlt | hge
  · simp [hlt, show min i 47 = i by omega]
  · rw [show min i 47 = 47 by omega, h, decide_eq_false (by omega), Bool.false_and]

/-- What the byte swaps put together: the high bits of the first word and the low bits of
the second. -/
theorem getLsbD_joined (x y : BitVec 64) {i : ℕ} (hi : i < 64) :
    (bswap (Width.w16.write (bswap y) (bswap x))).getLsbD i =
      if i < 48 then y.getLsbD i else x.getLsbD i := by
  have hj : 8 * (7 - i / 8) + i % 8 < 64 := by omega
  have hback : 8 * (7 - (8 * (7 - i / 8) + i % 8) / 8) + (8 * (7 - i / 8) + i % 8) % 8 = i := by
    omega
  rw [getLsbD_bswap _ hi, getLsbD_write_w16, getLsbD_bswap _ hj, getLsbD_bswap _ hj, hback]
  split_ifs <;> first | rfl | omega

def join (low high : BitVec 64) : BitVec 64 :=
  low &&& BitVec.ofNat 64 (2 ^ 48 - 1) ||| (high >>> 48) <<< 48

theorem restored_eq_join (x y : BitVec 64) :
    bswap (Width.w16.write (bswap y) (bswap x)) = join y x := by
  apply BitVec.eq_of_getLsbD_eq
  intro i hi
  rw [getLsbD_joined x y hi, join, BitVec.getLsbD_or, getLsbD_and_ones y 48 hi,
    BitVec.getLsbD_shiftLeft, BitVec.getLsbD_ushiftRight]
  split_ifs with h
  · simp [h]
  · simp [h, hi, Nat.add_sub_cancel' (not_lt.1 h)]

/-- The instruction itself. The unwatched address is in a virtual register, which it does
not know. -/
structure AppInstr where
  exec : State Var → State Var
  keeps (s : State Var) : (exec s).regs unwatchedAddr = s.regs unwatchedAddr
  continues (s : State Var) : s.target = none → (exec s).target = none

theorem run_restoreTaint {s : State Var} (hs : s.target = none) :
    (run restoreTaint s).regs watchedAddr =
      join (s.regs watchedAddr) (s.regs unwatchedAddr) := by
  have hne : watchedAddr ≠ unwatchedAddr := by decide
  rw [← restored_eq_join]
  simp [restoreTaint, run, step, hs, Instr.exec, State.set_of_ne _ hne,
    State.set_of_ne _ hne.symm]

/-- The test and the shifts untaint a watched user address, and keep a user address. -/
def Untaints (op : InstrumentedMemoryOperand true) (hooks : Hooks) : Prop :=
  ∀ s : State Var, s.target = none →
    let value := s.regs watchedAddr
    let unwatched := (run (testAndShift op hooks) s).regs unwatchedAddr
    (isTaintedAddress value = true → value.getLsbD 47 = false →
      unwatched = untaintAddress value) ∧
    (isTaintedAddress value = false → value.toNat < 2 ^ 47 → unwatched = value)

/-- The instruction runs with the unwatched address in the register of an implicit
operand, which then has its high bits back. -/
def Restores (op : InstrumentedMemoryOperand true) (hooks : Hooks) : Prop :=
  op.isStackPointerAlias = false → op.isModifiable = false → op.isAddrWriteOnly = false →
    ∀ (instr : AppInstr) (s : State Var), s.target = none →
      let code := instrumentMemOp op hooks
      let atInstr := run code.before s
      let updated := instr.exec atInstr
      atInstr.regs watchedAddr = (run (testAndShift op hooks) s).regs unwatchedAddr ∧
        (run code.after updated).regs watchedAddr =
          join (updated.regs watchedAddr) (s.regs watchedAddr)

theorem untaints (op : InstrumentedMemoryOperand true) (hooks : Hooks) : Untaints op hooks := by
  intro s hs
  obtain ⟨-, -, hregs⟩ := run_testAndShift op hooks hs
  dsimp only
  rw [hregs]
  constructor
  · intro htainted hclear
    have hbit := (isTaintedAddress_iff _).1 htainted
    rw [hclear, ne_comm, Bool.ne_false_iff] at hbit
    rw [if_pos hbit, shifted_eq_untaintAddress hclear]
  · intro _ hlt
    rw [getLsbD_of_toNat_lt hlt (by decide), if_neg (by decide)]

theorem restores (op : InstrumentedMemoryOperand true) (hooks : Hooks) : Restores op hooks := by
  intro halias hmod hover instr s hs
  obtain ⟨htarget, hwatched, -⟩ := run_testAndShift op hooks hs
  set t := run (testAndShift op hooks) s with ht
  have hbefore : run (instrumentMemOp op hooks).before s =
      (t.set unwatchedAddr (t.regs watchedAddr)).set watchedAddr (t.regs unwatchedAddr) := by
    simp [instrumentMemOp, halias, hmod, run_append, ← ht, run_cons, step_of_running htarget,
      Instr.exec]
  have hafter : (instrumentMemOp op hooks).after = restoreTaint := by
    simp [instrumentMemOp, halias, hmod, hover]
  set u := (t.set unwatchedAddr (t.regs watchedAddr)).set watchedAddr (t.regs unwatchedAddr)
    with hu
  have hkept : u.regs unwatchedAddr = s.regs watchedAddr := by
    rw [hu, State.set_of_ne _ (by decide), State.set_self, hwatched]
  dsimp only
  rw [hbefore, hafter, run_restoreTaint (instr.continues u htarget), instr.keeps, hkept]
  exact ⟨State.set_self _ _ _, rfl⟩

def RoundTrips (a index : BitVec 64) : Prop :=
  untaintAddress (taintAddress true a index) = a ∧
    isTaintedAddress (taintAddress true a index) = true ∧
    (extractTaint (taintAddress true a index)).toNat = index.toNat

theorem taint_roundTrips :
    (∀ a index : BitVec 64, 0 < a.toNat → a.toNat < 2 ^ 47 → index.toNat < 2 ^ 15 →
      RoundTrips a index) ∧
    ∀ (op : InstrumentedMemoryOperand true) (hooks : Hooks),
      Untaints op hooks ∧ Restores op hooks := by
  constructor
  · intro a index hpos hlt hindex
    have ha : a ≠ 0 := by
      rintro rfl
      exact absurd hpos (by decide)
    exact ⟨untaintAddress_taintAddress ha hlt index, isTaintedAddress_taintAddress ha hlt index,
      extractTaint_taintAddress ha index hindex⟩
  · exact fun op hooks ↦ ⟨untaints op hooks, restores op hooks⟩

/-- A tool that keeps the watched address in a register, and shifts another one. -/
def keepAddress : Hooks where
  code := [.mov .w64 (.other 1) watchedAddr, .shl (.other 0) 1]
  noLabel := by decide
  keeps s hs := by
    simp [run, step, hs, Instr.exec, State.set_of_ne]

theorem taint_roundTrips_implicit :
    RoundTrips 0x7F0012345678 9 ∧ Untaints { notExceptional := fun _ ↦ rfl } keepAddress ∧
      Restores { isModifiable := false, notExceptional := fun _ ↦ rfl } keepAddress :=
  ⟨taint_roundTrips.1 _ _ (by decide) (by decide) (by decide), (taint_roundTrips.2 _ _).1,
    (taint_roundTrips.2 _ _).2⟩

end Granary.Clients.Watchpoints
