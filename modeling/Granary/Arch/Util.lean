import Granary.Arch.Branch

namespace Granary.Arch.Util

def signExtended (width : ℕ) (x : BitVec 64) : BitVec 64 := (x.setWidth width).signExtend 64

theorem signExtended_eq_iff (width : ℕ) (hw : 0 < width) (hw' : width ≤ 64) (x : BitVec 64) :
    signExtended width x = x ↔ -2 ^ (width - 1) ≤ x.toInt ∧ x.toInt < 2 ^ (width - 1) := by
  have hpow : (2 : ℤ) ^ width = 2 * 2 ^ (width - 1) := by
    rw [← pow_succ', Nat.sub_add_cancel hw]
  have hrange := BitVec.two_mul_toInt_lt (x := x.setWidth width)
  have hrange' := BitVec.le_two_mul_toInt (x := x.setWidth width)
  constructor
  · intro h
    have hx : x.toInt = (x.setWidth width).toInt := by
      rw [← BitVec.toInt_signExtend_of_le hw', ← signExtended, h]
    omega
  · rintro ⟨hle, hlt⟩
    apply BitVec.eq_of_toInt_eq
    rw [signExtended, BitVec.toInt_signExtend_of_le hw', BitVec.toInt_setWidth]
    have hmod : Int.bmod x.toNat (2 ^ width) = Int.bmod x.toInt (2 ^ width) := by
      have hcond := BitVec.toInt_eq_toNat_cond x
      split_ifs at hcond with h
      · rw [hcond]
      · have hsplit : (2 : ℤ) ^ 64 = ((2 ^ width : ℕ) : ℤ) * 2 ^ (64 - width) := by
          rw [Nat.cast_pow, Nat.cast_ofNat, ← pow_add, Nat.add_sub_cancel' hw']
        have hnat : (x.toNat : ℤ) = x.toInt + ((2 ^ width : ℕ) : ℤ) * 2 ^ (64 - width) := by
          omega
        rw [hnat, Int.add_mul_bmod_self_left]
    rw [hmod]
    exact Int.bmod_eq_of_le (by push_cast; omega) (by push_cast; omega)

/-- The builtin that counts leading zeros, which is undefined on zero. -/
def builtinClzl (x : BitVec 64) : Option ℕ := if x = 0 then none else some x.clz.toNat

/-- The function as the source has it; it has no result when it counts the leading
zeros of zero. -/
def immediateWidthBits (imm : BitVec 64) : Option ℕ := do
  if imm = 0 then return 8
  let leadingZeros ← builtinClzl imm
  if 56 < leadingZeros then return 8
  if 48 < leadingZeros then return 16
  if 32 < leadingZeros then return 32
  let leadingZeros ← builtinClzl (~~~imm)
  if 56 < leadingZeros then return 8
  if 48 < leadingZeros then return 16
  if 32 < leadingZeros then return 32
  return 64

/-- The least of the widths whose signed range has the immediate. -/
def signedWidthBits (imm : BitVec 64) : ℕ :=
  if -2 ^ 7 ≤ imm.toInt ∧ imm.toInt < 2 ^ 7 then 8
  else if -2 ^ 15 ≤ imm.toInt ∧ imm.toInt < 2 ^ 15 then 16
  else if -2 ^ 31 ≤ imm.toInt ∧ imm.toInt < 2 ^ 31 then 32
  else 64

inductive ImmType
  | imm0 | simm0 | imm1
deriving DecidableEq, Repr

structure EncodedImm where
  imm0 : BitVec 64 := 0
  imm1 : BitVec 8 := 0
  width : ℕ
deriving DecidableEq, Repr

def encodeImm (type : ImmType) (imm : BitVec 64) (isPush : Bool) (width : ℕ) :
    Option EncodedImm := do
  let xedo : EncodedImm :=
    if type = .imm1 then { imm1 := imm.setWidth 8, width } else { imm0 := imm, width }
  if isPush then
    let width ← immediateWidthBits imm
    return { xedo with width := if width = 16 then 32 else width }
  else return xedo

/-- The base, the index, the scale and the displacement of a memory operand. -/
structure CompoundMem (Reg : Type) where
  base : Option Reg := none
  index : Option Reg := none
  scale : ℕ := 1
  disp : BitVec 32 := 0
deriving DecidableEq, Repr

structure EncodedCompound (Reg : Type) where
  base : Option Reg
  index : Option Reg
  scale : ℕ
  displacement : BitVec 64
  displacementWidth : ℕ
deriving DecidableEq, Repr

def encodeDisp (disp : BitVec 32) : Option (BitVec 64 × ℕ) :=
  if disp ≠ 0 then do
    let width ← immediateWidthBits (disp.signExtend 64)
    return (disp.signExtend 64, if width = 16 then 32 else min 32 width)
  else some (0, 0)

def encodeMem {Reg : Type} (op : CompoundMem Reg) : Option (EncodedCompound Reg) := do
  let (displacement, width) ← encodeDisp op.disp
  let isIndexOnly := op.base.isNone && op.index.isSome && op.scale == 1
  let base := if isIndexOnly then op.index else op.base
  let index := if isIndexOnly then none else op.index
  let displacementWidth :=
    if index.isNone then if displacement = 0 then 0 else width
    else if base.isNone then 32
    else width
  return { base, index, scale := op.scale, displacement, displacementWidth }

def EncodedCompound.denoted {Reg : Type} (x : EncodedCompound Reg) : BitVec 64 :=
  if x.displacementWidth = 0 then 0 else signExtended x.displacementWidth x.displacement

theorem lt_clz_iff (x : BitVec 64) {n : ℕ} (hn : n < 64) :
    n < x.clz.toNat ↔ x.toNat < 2 ^ (63 - n) := by
  constructor
  · intro h
    apply BitVec.toNat_lt_two_pow_sub_clz.trans_le
    exact Nat.pow_le_pow_right (by decide) (by omega)
  · intro h
    by_contra hle
    rcases eq_or_ne x 0 with rfl | hx
    · have hclz : (0 : BitVec 64).clz.toNat = 64 := by decide
      omega
    · have hge := BitVec.two_pow_sub_clz_le_toNat_of_ne_zero (by decide) hx
      have hpow : 2 ^ (63 - n) ≤ 2 ^ (64 - 1 - x.clz.toNat) :=
        Nat.pow_le_pow_right (by decide) (by omega)
      omega

theorem immediateWidthBits_of_ne {imm : BitVec 64} (h : imm ≠ -1) :
    immediateWidthBits imm = some (signedWidthBits imm) := by
  have hcond := BitVec.toInt_eq_toNat_cond imm
  have hlt := imm.isLt
  have hnot : ~~~imm ≠ 0 := by bv_omega
  by_cases hzero : imm = 0
  · subst hzero
    rfl
  · have hpos : imm.toNat ≠ 0 := by bv_omega
    simp only [immediateWidthBits, builtinClzl, if_neg hzero, if_neg hnot, Option.bind_eq_bind,
      Option.bind_some, Option.pure_def, signedWidthBits, lt_clz_iff _ (by decide : 56 < 64),
      lt_clz_iff _ (by decide : 48 < 64), lt_clz_iff _ (by decide : 32 < 64), BitVec.toNat_not,
      Nat.reduceSub, Nat.reducePow] at hcond ⊢
    split_ifs at hcond ⊢ <;> first | rfl | omega

theorem immediateWidthBits_neg_one : immediateWidthBits (-1) = none := by decide

theorem signedWidthBits_le_iff (imm : BitVec 64) :
    signedWidthBits imm ≤ 32 ↔ -2 ^ 31 ≤ imm.toInt ∧ imm.toInt < 2 ^ 31 := by
  unfold signedWidthBits
  split_ifs <;> omega

theorem signExtended_eq_iff_le (imm : BitVec 64) {width : ℕ} (hwidth : width ∈ [8, 16, 32, 64]) :
    signExtended width imm = imm ↔ signedWidthBits imm ≤ width := by
  have hle := BitVec.le_toInt imm
  have hlt := BitVec.toInt_lt (x := imm)
  simp only [List.mem_cons, List.not_mem_nil, or_false] at hwidth
  rw [signExtended_eq_iff width (by omega) (by omega), signedWidthBits]
  rcases hwidth with rfl | rfl | rfl | rfl <;> split_ifs <;> omega

theorem signedWidthBits_mem (imm : BitVec 64) :
    signedWidthBits imm ∈ [8, 16, 32, 64] := by
  rw [signedWidthBits]
  split_ifs <;> decide

theorem signedWidthBits_isLeast (imm : BitVec 64) :
    IsLeast {width | width ∈ [8, 16, 32, 64] ∧ signExtended width imm = imm}
      (signedWidthBits imm) := by
  have hmem := signedWidthBits_mem imm
  constructor
  · exact ⟨hmem, (signExtended_eq_iff_le imm hmem).2 le_rfl⟩
  · rintro width ⟨hwidth, hext⟩
    exact (signExtended_eq_iff_le imm hwidth).1 hext

theorem signedWidthBits_signExtend_le (disp : BitVec 32) :
    signedWidthBits (disp.signExtend 64) ≤ 32 := by
  apply (signedWidthBits_le_iff _).2
  have hle := BitVec.le_toInt disp
  have hlt := BitVec.toInt_lt (x := disp)
  rw [BitVec.toInt_signExtend_of_le (by decide)]
  omega

/-- The width that the encoder takes in place of 16 bits is one of those that
determine the immediate. -/
theorem signExtended_widened (imm : BitVec 64) {width : ℕ} (hwidth : width ∈ [8, 16, 32, 64])
    (hle : signedWidthBits imm ≤ width) :
    signExtended (if width = 16 then 32 else width) imm = imm := by
  split_ifs with h
  · exact (signExtended_eq_iff_le imm (by decide)).2 (by omega)
  · exact (signExtended_eq_iff_le imm hwidth).2 hle

theorem encodeImm_push {imm : BitVec 64} (h : imm ≠ -1) (width : ℕ) :
    encodeImm .imm0 imm true width = some
      { imm0 := imm
        width := if signedWidthBits imm = 16 then 32 else signedWidthBits imm } := by
  rw [encodeImm, if_pos rfl, immediateWidthBits_of_ne h]
  rfl

theorem encodeImm_denotes {imm : BitVec 64} (h : imm ≠ -1) (width : ℕ) :
    ∃ x, encodeImm .imm0 imm true width = some x ∧ signExtended x.width x.imm0 = imm :=
  ⟨_, encodeImm_push h width, signExtended_widened imm (signedWidthBits_mem imm) le_rfl⟩

theorem encodeDisp_denotes {disp : BitVec 32} (h : disp.signExtend 64 ≠ -1) :
    ∃ width, encodeDisp disp = some (disp.signExtend 64, width) ∧
      (width = 0 ∧ disp.signExtend 64 = 0 ∨
        0 < width ∧ signExtended width (disp.signExtend 64) = disp.signExtend 64) := by
  by_cases hzero : disp = 0
  · subst hzero
    exact ⟨0, rfl, Or.inl ⟨rfl, rfl⟩⟩
  · have hmem := signedWidthBits_mem (disp.signExtend 64)
    have hpos : ∀ w ∈ [8, 16, 32, 64], 0 < if w = 16 then 32 else w := by decide
    refine ⟨_, by rw [encodeDisp, if_pos hzero, immediateWidthBits_of_ne h]; rfl, Or.inr ?_⟩
    rw [min_eq_right (signedWidthBits_signExtend_le disp)]
    exact ⟨hpos _ hmem, signExtended_widened _ hmem le_rfl⟩

/-- The width of an encoded displacement is its own, or 32 for an index without a
base, or there is none. -/
theorem encodeMem_cases {Reg : Type} {op : CompoundMem Reg} {displacement : BitVec 64} {width : ℕ}
    (h : encodeDisp op.disp = some (displacement, width)) :
    ∃ x, encodeMem op = some x ∧ x.displacement = displacement ∧
      (x.displacementWidth = 0 ∧ displacement = 0 ∨ x.displacementWidth = width ∨
        x.displacementWidth = 32) := by
  refine ⟨_, by rw [encodeMem, h]; rfl, rfl, ?_⟩
  dsimp only
  generalize (op.base.isNone && op.index.isSome && op.scale == 1) = isIndexOnly
  generalize (if isIndexOnly then op.index else op.base) = base
  generalize (if isIndexOnly then none else op.index) = index
  split_ifs with hindex hdisp hbase
  · exact Or.inl ⟨rfl, hdisp⟩
  · exact Or.inr (Or.inl rfl)
  · exact Or.inr (Or.inr rfl)
  · exact Or.inr (Or.inl rfl)

theorem encodeMem_denotes {Reg : Type} (op : CompoundMem Reg) (h : op.disp.signExtend 64 ≠ -1) :
    ∃ x, encodeMem op = some x ∧ x.denoted = op.disp.signExtend 64 := by
  obtain ⟨width, hdisp, hwidth⟩ := encodeDisp_denotes h
  obtain ⟨x, hx, hd, hcases⟩ := encodeMem_cases hdisp
  refine ⟨x, hx, ?_⟩
  rw [EncodedCompound.denoted, hd]
  rcases hcases with ⟨hx, hzero⟩ | hx | hx
  · rw [if_pos hx, hzero]
  · rw [hx]
    rcases hwidth with ⟨hnone, hzero⟩ | ⟨hpos, hext⟩
    · rw [if_pos hnone, hzero]
    · rw [if_neg hpos.ne', hext]
  · rw [hx, if_neg (by decide)]
    exact (signExtended_eq_iff_le _ (by decide)).2 (signedWidthBits_signExtend_le op.disp)

/-- The least of the widths whose low bits determine the immediate is found. -/
def HasLeastWidth (imm : BitVec 64) : Prop :=
  ∃ width, immediateWidthBits imm = some width ∧
    IsLeast {width | width ∈ [8, 16, 32, 64] ∧ signExtended width imm = imm} width

/-- A pushed immediate and a displacement with this value are encoded with it. -/
def EncodedAsItself (imm : BitVec 64) : Prop :=
  (∀ width, ∃ x, encodeImm .imm0 imm true width = some x ∧ signExtended x.width x.imm0 = imm) ∧
    ∀ (Reg : Type) (op : CompoundMem Reg), op.disp.signExtend 64 = imm →
      ∃ x, encodeMem op = some x ∧ x.denoted = imm

theorem immediateWidthBits_least_iff (imm : BitVec 64) :
    HasLeastWidth imm ∧ EncodedAsItself imm ↔ imm ≠ -1 := by
  constructor
  · rintro ⟨⟨width, hwidth, -⟩, -⟩ rfl
    rw [immediateWidthBits_neg_one] at hwidth
    exact nomatch hwidth
  · intro h
    refine ⟨⟨_, immediateWidthBits_of_ne h, signedWidthBits_isLeast imm⟩,
      encodeImm_denotes h, ?_⟩
    rintro Reg op rfl
    exact encodeMem_denotes op h

theorem neg_one_not_least : ¬ (HasLeastWidth (-1) ∧ EncodedAsItself (-1)) := by
  rintro ⟨⟨width, hwidth, -⟩, -⟩
  rw [immediateWidthBits_neg_one] at hwidth
  exact nomatch hwidth

end Granary.Arch.Util
