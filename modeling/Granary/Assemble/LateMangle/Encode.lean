import Granary.Assemble.LateMangle

namespace Granary.Assemble.LateMangle

open Granary.Arch
open Granary.Arch.Util (signExtended signExtended_eq_iff signedWidthBits)

/-- The width that is found for an address. It is 8 where the builtin is undefined. -/
def immediateWidthBits (imm : BitVec 64) : ℕ := (Util.immediateWidthBits imm).getD 8

theorem immediateWidthBits_eq (imm : BitVec 64) : immediateWidthBits imm = signedWidthBits imm := by
  unfold immediateWidthBits
  by_cases h : imm = -1
  · subst h
    decide
  · rw [Util.immediateWidthBits_of_ne h]
    rfl

theorem immediateWidthBits_le_iff (imm : BitVec 64) :
    immediateWidthBits imm ≤ 32 ↔ -2 ^ 31 ≤ imm.toInt ∧ imm.toInt < 2 ^ 31 := by
  rw [immediateWidthBits_eq, Util.signedWidthBits_le_iff]

def tailCallPushes (returnAddress : Addr) (cfi : Around) : List Item :=
  (mangleTailCall returnAddress cfi).before.drop cfi.before.length

/-- What is inserted before a call pushes the return address, as the call does. -/
def PushesReturnAddress (cfi : Around) (returnAddress : Addr) : Prop :=
  ∀ s : State, ∃ t, (tailCallPushes returnAddress cfi).foldlM execEncoded s = some t ∧
    t.app = s.app.push returnAddress

theorem tailCallPushes_of_lt {a : Addr} (cfi : Around) (h : a.toNat < 2 ^ 32) :
    tailCallPushes a cfi = [.pushImm a] := by
  have ha : (a.setWidth 32).setWidth 64 = a := by bv_omega
  rw [tailCallPushes, mangleTailCall, if_pos ha]
  exact List.drop_left

theorem tailCallPushes_of_ge {a : Addr} (cfi : Around) (h : 2 ^ 32 ≤ a.toNat) :
    tailCallPushes a cfi = [.movTemp a, .pushTemp] := by
  have ha : (a.setWidth 32).setWidth 64 ≠ a := by bv_omega
  rw [tailCallPushes, mangleTailCall, if_neg ha]
  simp [Around.insertBefore]

theorem not_pushesReturnAddress {a : Addr} (cfi : Around) (hge : 2 ^ 31 ≤ a.toNat)
    (hlt : a.toNat < 2 ^ 32) : ¬ PushesReturnAddress cfi a := by
  intro h
  obtain ⟨t, ht, -⟩ := h ⟨default, 0⟩
  rw [tailCallPushes_of_lt cfi hlt, List.foldlM_cons, execEncoded_pushImm_none hge hlt] at ht
  exact nomatch ht

theorem tailCall_pushes_iff (cfi : Around) (a : Addr) :
    PushesReturnAddress cfi a ↔ a.toNat < 2 ^ 31 ∨ 2 ^ 32 ≤ a.toNat := by
  rcases lt_or_ge a.toNat (2 ^ 31) with hlow | hlow
  · apply iff_of_true _ (Or.inl hlow)
    intro s
    rw [tailCallPushes_of_lt cfi (by omega), List.foldlM_cons, execEncoded_pushImm hlow]
    exact ⟨_, rfl, rfl⟩
  · rcases lt_or_ge a.toNat (2 ^ 32) with hhigh | hhigh
    · exact iff_of_false (not_pushesReturnAddress cfi hlow hhigh) (by omega)
    · apply iff_of_true _ (Or.inr hhigh)
      intro s
      rw [tailCallPushes_of_ge cfi hhigh, List.foldlM_cons, execEncoded_movTemp]
      exact ⟨_, rfl, rfl⟩

theorem tailCall_not_pushed : ¬ PushesReturnAddress
    { instr := .jump .jmp false (.pc 0x401000) } 0x80000000 :=
  not_pushesReturnAddress _ (by decide) (by decide)

/-- A `PTR` operand: an offset from a segment, the address of an annotation, or an
address. -/
inductive PtrOperand
  | segment (offset : Addr)
  | annotation (data : Addr)
  | absolute (addr : Addr)
deriving DecidableEq, Repr

structure EncodedMem where
  displacement : BitVec 64
  displacementWidth : ℕ
  /-- The base is `XED_REG_RIP`. -/
  ripBase : Bool := false
deriving DecidableEq, Repr

def encodePtr (op : PtrOperand) (nextPc : Addr) : EncodedMem :=
  match op with
  | .segment offset =>
    { displacement := if 0 ≤ offset.toInt then offset &&& 0x7FFFFFFF else offset
      displacementWidth := 32 }
  | PtrOperand.annotation addr =>
    { displacement := ((addr - nextPc).setWidth 32).setWidth 64
      displacementWidth := 32
      ripBase := true }
  | .absolute memAddr =>
    let high32 := memAddr >>> 32
    let signBit32 := 1 &&& (memAddr >>> 31)
    let width :=
      if high32 = 0xFFFFFFFF then if signBit32 ≠ 0 then 32 else 64
      else if high32 = 0 then if signBit32 = 0 then 32 else 64
      else 64
    if width = 64 && addrIsOffsetReachable nextPc memAddr then
      { displacement := ((memAddr - nextPc).setWidth 32).setWidth 64
        displacementWidth := 32
        ripBase := true }
    else { displacement := memAddr, displacementWidth := width }

/-- The address of an encoded operand: the displacement is sign-extended, and the
processor adds the address of the next instruction when the base is `RIP`. Only a
move between the accumulator and memory has a displacement of 64 bits. -/
def EncodedMem.address (x : EncodedMem) (nextPc : Addr) (hasWideForm : Bool) : Option Addr :=
  if x.displacementWidth = 32 then
    some (signExtended 32 x.displacement + if x.ripBase then nextPc else 0)
  else if hasWideForm then some x.displacement else none

structure EncodedBranch where
  brdisp : BitVec 32
  width : ℕ
deriving DecidableEq, Repr

def encodeBrDisp (iclass : BranchClass) (target nextPc : Addr) : EncodedBranch :=
  let brdisp32 := (target - nextPc).setWidth 32
  if iclass.isLoopInstruction then { brdisp := (brdisp32.setWidth 8).signExtend 32, width := 8 }
  else { brdisp := brdisp32, width := 32 }

def EncodedBranch.target (x : EncodedBranch) (nextPc : Addr) : Addr :=
  signExtended x.width (x.brdisp.signExtend 64) + nextPc

def archAddressNeedsRelativizing (ptr : Addr) : Bool := decide (32 < immediateWidthBits ptr)

/-- Whether `RelativizeMemOp` puts the address of an operand in a register. -/
def relativizeMemOp (m : BlockMangler) (mptr : Addr) : Bool :=
  if !m.addressNeedsRelativizing mptr then false
  else if !archAddressNeedsRelativizing mptr then false
  else true

theorem reachable_iff (a b : Addr) : addrIsOffsetReachable a b = true ↔
    -(2 ^ 31 - 2 ^ 27) ≤ (b - a).toInt ∧ (b - a).toInt ≤ 2 ^ 31 := by
  have hab := BitVec.toInt_eq_toNat_cond (a - b)
  have hba := BitVec.toInt_eq_toNat_cond (b - a)
  have ha := a.isLt
  have hb := b.isLt
  rw [BitVec.toNat_sub] at hab hba
  simp only [addrIsOffsetReachable, Bool.and_eq_true, decide_eq_true_eq]
  split_ifs at hab hba <;> omega

theorem not_needsRelativizing_iff (m : BlockMangler) (a : Addr) :
    m.addressNeedsRelativizing a = false ↔ addrIsOffsetReachable m.cachePc a = true := by
  simp [BlockMangler.addressNeedsRelativizing]

/-- The test of the high word and of the sign bit agrees with the width of the
address. -/
theorem encodePtr_absolute (a b : Addr) : encodePtr (.absolute b) a =
    if immediateWidthBits b ≤ 32 then { displacement := b, displacementWidth := 32 }
    else if addrIsOffsetReachable a b then
      { displacement := ((b - a).setWidth 32).setWidth 64, displacementWidth := 32,
        ripBase := true }
    else { displacement := b, displacementWidth := 64 } := by
  have hcond := BitVec.toInt_eq_toNat_cond b
  have hb := b.isLt
  have hones : b >>> 32 = 0xFFFFFFFF ↔ b.toNat / 2 ^ 32 = 2 ^ 32 - 1 := by bv_omega
  have hzero : b >>> 32 = 0 ↔ b.toNat / 2 ^ 32 = 0 := by bv_omega
  have hsign : 1 &&& (b >>> 31) = 0 ↔ b.toNat / 2 ^ 31 % 2 = 0 := by
    rw [← BitVec.toNat_inj, BitVec.toNat_and, BitVec.toNat_ushiftRight, Nat.shiftRight_eq_div_pow,
      Nat.and_comm]
    exact Eq.congr (Nat.and_one_is_mod _) rfl
  simp only [encodePtr, hones, hzero, ne_eq, hsign, immediateWidthBits_le_iff]
  split_ifs at hcond ⊢ <;> first | rfl | omega | simp_all

/-- An absolute displacement is the address, and so is a displacement from the next
instruction. -/
def EncodesAddress (nextPc addr : Addr) : Prop :=
  let x := encodePtr (.absolute addr) nextPc
  (x.displacementWidth = 32 → x.ripBase = false → signExtended 32 x.displacement = addr) ∧
    (x.ripBase = true → signExtended 32 x.displacement + nextPc = addr)

def ReachesInRange (a b : Addr) : Prop :=
  addrIsOffsetReachable a b = true → -2 ^ 31 ≤ (b - a).toInt ∧ (b - a).toInt < 2 ^ 31

/-- What late mangling leaves as it is, in an instruction of `len` bytes: a branch
whose target can be reached goes there, and a memory operand has its own address. -/
def EncodesLeft (m : BlockMangler) (target : Addr) (len : ℕ) (hasWideForm : Bool) : Prop :=
  let nextPc := m.cachePc + BitVec.ofNat 64 len
  (m.addressNeedsRelativizing target = false → ∀ i c ecx,
      mangleJump m i c ecx (.pc target) = { instr := .jump c ecx (.pc target) } →
      (encodeBrDisp c target nextPc).target nextPc = target) ∧
    (relativizeMemOp m target = false →
      (encodePtr (.absolute target) nextPc).address nextPc hasWideForm = some target)

theorem signExtended_setWidth (x : BitVec 64) :
    signExtended 32 ((x.setWidth 32).setWidth 64) = signExtended 32 x := by
  have hlow : ((x.setWidth 32).setWidth 64).setWidth 32 = x.setWidth 32 := by bv_omega
  rw [signExtended, hlow, signExtended]

/-- A displacement from the next instruction leads to the address exactly when the
distance is a signed 32-bit integer. -/
theorem signExtended_add_iff (nextPc addr : Addr) :
    signExtended 32 (((addr - nextPc).setWidth 32).setWidth 64) + nextPc = addr ↔
      -2 ^ 31 ≤ (addr - nextPc).toInt ∧ (addr - nextPc).toInt < 2 ^ 31 := by
  rw [signExtended_setWidth, ← eq_sub_iff_add_eq]
  exact signExtended_eq_iff 32 (by decide) (by decide) _

/-- The displacement is wrong for an address at a distance of `2 ^ 31` that has no
absolute displacement. -/
theorem encodesAddress_iff (nextPc addr : Addr) : EncodesAddress nextPc addr ↔
    immediateWidthBits addr ≤ 32 ∨ (addr - nextPc).toInt ≠ 2 ^ 31 := by
  have hreach := reachable_iff nextPc addr
  unfold EncodesAddress
  rw [encodePtr_absolute]
  split_ifs with hwidth hr
  · apply iff_of_true _ (Or.inl hwidth)
    refine ⟨fun _ _ ↦ ?_, fun h ↦ (nomatch h)⟩
    apply (signExtended_eq_iff 32 (by decide) (by decide) _).2
    exact (immediateWidthBits_le_iff addr).1 hwidth
  · have hrange := hreach.1 hr
    have hsum := signExtended_add_iff nextPc addr
    constructor
    · intro h
      have hlt := (hsum.1 (h.2 rfl)).2
      exact Or.inr (by omega)
    · intro h
      refine ⟨fun _ h ↦ (nomatch h), fun _ ↦ hsum.2 ?_⟩
      omega
  · apply iff_of_true
    · exact ⟨fun h ↦ (nomatch h), fun h ↦ (nomatch h)⟩
    · exact Or.inr fun h ↦ hr (hreach.2 (by omega))

theorem reachesInRange_iff (a b : Addr) : ReachesInRange a b ↔ (b - a).toInt ≠ 2 ^ 31 := by
  have hreach := reachable_iff a b
  unfold ReachesInRange
  constructor
  · intro h hd
    have hlt := (h (hreach.2 (by omega))).2
    omega
  · intro h hr
    have hrange := hreach.1 hr
    omega

theorem toInt_sub_next {a b : Addr} {len : ℕ} (hlen : len ≤ 15)
    (hr : addrIsOffsetReachable a b = true) :
    (b - (a + BitVec.ofNat 64 len)).toInt = (b - a).toInt - len := by
  have hrange := (reachable_iff a b).1 hr
  have hba := BitVec.toInt_eq_toNat_cond (b - a)
  have hnext := BitVec.toInt_eq_toNat_cond (b - (a + BitVec.ofNat 64 len))
  have ha := a.isLt
  have hb := b.isLt
  have hl : len % 2 ^ 64 = len := Nat.mod_eq_of_lt (by omega)
  rw [BitVec.toNat_sub] at hba hnext
  rw [BitVec.toNat_add, BitVec.toNat_ofNat, hl] at hnext
  split_ifs at hba hnext <;> omega

theorem not_loop_of_mangleJump {m : BlockMangler} {i : ℕ} {c : BranchClass} {ecx : Bool}
    {target : Addr}
    (h : mangleJump m i c ecx (.pc target) = { instr := .jump c ecx (.pc target) }) :
    c.isLoopInstruction = false := by
  by_contra hl
  rw [Bool.not_eq_false] at hl
  have hjmp : c ≠ .jmp := fun hc ↦ by simp [hc, BranchClass.isLoopInstruction] at hl
  have hbefore := congrArg Around.before h
  simp only [mangleJump, relativizeJump, if_neg hjmp, if_pos hl, relativizeLoop] at hbefore
  split_ifs at hbefore
  · simp [insertUD2AfterCFI, Around.insertBefore, Around.insertAfter] at hbefore
  · simp [Around.insertBefore, Around.insertAfter] at hbefore

theorem target_encodeBrDisp {c : BranchClass} (hl : c.isLoopInstruction = false)
    {target nextPc : Addr} (hle : -2 ^ 31 ≤ (target - nextPc).toInt)
    (hlt : (target - nextPc).toInt < 2 ^ 31) :
    (encodeBrDisp c target nextPc).target nextPc = target := by
  have hx := (signExtended_eq_iff 32 (by decide) (by decide) (target - nextPc)).2
    ⟨hle, hlt⟩
  have henc : encodeBrDisp c target nextPc = ⟨(target - nextPc).setWidth 32, 32⟩ := by
    rw [encodeBrDisp, hl, if_neg (by decide)]
  rw [henc, EncodedBranch.target, ← eq_sub_iff_add_eq]
  dsimp only
  rw [← signExtended, hx, hx]

theorem relativizeMemOp_eq_false_iff (m : BlockMangler) (a : Addr) : relativizeMemOp m a = false ↔
    addrIsOffsetReachable m.cachePc a = true ∨ immediateWidthBits a ≤ 32 := by
  unfold relativizeMemOp archAddressNeedsRelativizing
  rw [BlockMangler.addressNeedsRelativizing, Bool.not_not]
  split_ifs with hr hw
  · exact iff_of_true rfl (Or.inl hr)
  · exact iff_of_true rfl (Or.inr (by simpa using hw))
  · exact iff_of_false (by decide) (by simpa [hr] using hw)

/-- The address that an operand is encoded with, where the distance is a signed 32-bit
integer. -/
theorem address_encodePtr_iff {a b : Addr} (hlt : (b - a).toInt < 2 ^ 31) (hasWideForm : Bool) :
    (encodePtr (.absolute b) a).address a hasWideForm = some b ↔
      immediateWidthBits b ≤ 32 ∨ hasWideForm = true ∨ addrIsOffsetReachable a b = true := by
  rw [encodePtr_absolute]
  split_ifs with hwidth hr
  · have habs := (signExtended_eq_iff 32 (by decide) (by decide) b).2
      ((immediateWidthBits_le_iff b).1 hwidth)
    simp [EncodedMem.address, habs, hwidth]
  · have hrange := (reachable_iff a b).1 hr
    have hsum := (signExtended_add_iff a b).2 ⟨by omega, hlt⟩
    simp [EncodedMem.address, hsum, hr]
  · cases hasWideForm <;> simp [EncodedMem.address, hwidth, hr]

/-- A memory operand is left as it is but cannot be encoded when its address is at
the lower end of the range, where the next instruction does not reach it. -/
theorem encodesLeft_iff (m : BlockMangler) (target : Addr) {len : ℕ} (hpos : 0 < len)
    (hlen : len ≤ 15) (hasWideForm : Bool) :
    EncodesLeft m target len hasWideForm ↔
      immediateWidthBits target ≤ 32 ∨ hasWideForm = true ∨
        (target - m.cachePc).toInt < -(2 ^ 31 - 2 ^ 27) ∨
        -(2 ^ 31 - 2 ^ 27) + len ≤ (target - m.cachePc).toInt := by
  unfold EncodesLeft
  dsimp only
  rw [not_needsRelativizing_iff, relativizeMemOp_eq_false_iff]
  set nextPc := m.cachePc + BitVec.ofNat 64 len with hnext
  by_cases hr : addrIsOffsetReachable m.cachePc target = true
  · have hrange := (reachable_iff _ _).1 hr
    have hdist := toInt_sub_next hlen hr
    rw [← hnext] at hdist
    have hreach := reachable_iff nextPc target
    have hmem := address_encodePtr_iff (a := nextPc) (b := target) (by omega) hasWideForm
    constructor
    · intro h
      rcases hmem.1 (h.2 (Or.inl hr)) with h | h | h
      · exact Or.inl h
      · exact Or.inr (Or.inl h)
      · have hge := (hreach.1 h).1
        exact Or.inr (Or.inr (Or.inr (by omega)))
    · intro h
      constructor
      · intro _ i c ecx hm
        exact target_encodeBrDisp (not_loop_of_mangleJump hm) (by omega) (by omega)
      · intro _
        apply hmem.2
        rcases h with h | h | h | h
        · exact Or.inl h
        · exact Or.inr (Or.inl h)
        · omega
        · exact Or.inr (Or.inr (hreach.2 (by omega)))
  · have hfar := fun h ↦ hr ((reachable_iff _ _).2 h)
    apply iff_of_true
    · refine ⟨fun h ↦ absurd h hr, fun h ↦ ?_⟩
      have hwidth := h.resolve_left hr
      have habs := (signExtended_eq_iff 32 (by decide) (by decide) target).2
        ((immediateWidthBits_le_iff target).1 hwidth)
      rw [encodePtr_absolute, if_pos hwidth]
      simp [EncodedMem.address, habs]
    · right
      right
      by_contra hc
      rw [not_or, not_lt, not_le] at hc
      exact hfar ⟨by omega, by omega⟩

/-- Addresses are encoded as themselves, except at the two ends of the range that can
be reached. -/
theorem encoding_faithful_iff (nextPc addr a b : Addr) (m : BlockMangler) (target : Addr)
    {len : ℕ} (hpos : 0 < len) (hlen : len ≤ 15) (hasWideForm : Bool) :
    (EncodesAddress nextPc addr ∧ ReachesInRange a b ∧ EncodesLeft m target len hasWideForm) ↔
      (immediateWidthBits addr ≤ 32 ∨ (addr - nextPc).toInt ≠ 2 ^ 31) ∧
      (b - a).toInt ≠ 2 ^ 31 ∧
      (immediateWidthBits target ≤ 32 ∨ hasWideForm = true ∨
        (target - m.cachePc).toInt < -(2 ^ 31 - 2 ^ 27) ∨
        -(2 ^ 31 - 2 ^ 27) + len ≤ (target - m.cachePc).toInt) := by
  rw [encodesAddress_iff, reachesInRange_iff, encodesLeft_iff m target hpos hlen]

theorem encoding_faithful_near :
    EncodesAddress 0x7f0000000000 0x7f0000001000 ∧
      ReachesInRange 0x7f0000000000 0x7f0000001000 ∧
      EncodesLeft ⟨0x7f0000000000, false, fun _ ↦ 0⟩ 0x7f0000001000 7 false := by
  apply (encoding_faithful_iff _ _ _ _ _ _ (by decide) (by decide) _).2
  exact ⟨Or.inr (by decide), by decide, Or.inr (Or.inr (Or.inr (by decide)))⟩

theorem encoding_not_faithful :
    ¬ EncodesAddress 0x7f0000000000 0x7f0080000000 ∧
      ¬ ReachesInRange 0x7f0000000000 0x7f0080000000 ∧
      ¬ EncodesLeft ⟨0x7f0080000000, false, fun _ ↦ 0⟩ 0x7f0008000000 7 false := by
  refine ⟨fun h ↦ ?_, fun h ↦ ?_, fun h ↦ ?_⟩
  · rcases (encodesAddress_iff _ _).1 h with h | h
    · exact absurd ((immediateWidthBits_le_iff _).1 h) (by decide)
    · exact h (by decide)
  · exact (reachesInRange_iff _ _).1 h (by decide)
  · rcases (encodesLeft_iff _ _ (by decide) (by decide) _).1 h with h | h | h | h
    · exact absurd ((immediateWidthBits_le_iff _).1 h) (by decide)
    · exact nomatch h
    · exact absurd h (by decide)
    · exact absurd h (by decide)

end Granary.Assemble.LateMangle
