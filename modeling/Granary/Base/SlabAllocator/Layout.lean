import Granary.Base.SlabAllocator

namespace Granary.Base.SlabAllocator

theorem numBytesPerSlab_eq : kNewAllocatorNumBytesPerSlab = 16384 :=
  rfl

theorem wordSize_eq : wordSize = 18446744073709551616 :=
  rfl

section Align

variable {x align : ℕ}

theorem alignFactor_lt (h : 0 < align) : alignFactor x align < align := by
  rw [alignFactor]
  split_ifs
  · omega
  · exact h

theorem dvd_add_alignFactor (h : 0 < align) : align ∣ x + alignFactor x align := by
  have hlt := Nat.mod_lt x h
  have hdiv := Nat.div_add_mod x align
  rw [alignFactor]
  split_ifs with hmod
  · refine ⟨x / align + 1, ?_⟩
    rw [Nat.mul_add, Nat.mul_one]
    omega
  · rw [Nat.add_zero]
    exact Nat.dvd_of_mod_eq_zero (by omega)

theorem alignTo_eq (h : 0 < align) (hlt : align < wordSize) (hle : x ≤ alignTo x align) :
    alignTo x align = x + alignFactor x align := by
  have hfactor := alignFactor_lt (x := x) h
  have hx : x < wordSize := hle.trans_lt (Nat.mod_lt _ (by decide))
  rw [alignTo] at hle ⊢
  rw [wordSize_eq] at hle hx hlt ⊢
  omega

end Align

section Offsets

variable {p : Properties}

theorem Compiles.kMinimumAlignment_pos (h : Compiles p) : 0 < p.kMinimumAlignment :=
  h.kObjectAlignment_pos.trans_le (le_max_right ..)

theorem Compiles.kAlignedSize_eq (h : Compiles p) :
    p.kAlignedSize = p.sizeOf + alignFactor p.sizeOf p.kMinimumAlignment :=
  alignTo_eq h.kMinimumAlignment_pos h.kMinimumAlignment_lt h.sizeOf_le

theorem Compiles.kAlignedSize_pos (h : Compiles p) : 0 < p.kAlignedSize :=
  h.sizeOf_pos.trans_le h.sizeOf_le

theorem Compiles.kAlignedSize_lt (h : Compiles p) :
    p.kAlignedSize < p.sizeOf + p.kMinimumAlignment := by
  have hfactor := alignFactor_lt (x := p.sizeOf) h.kMinimumAlignment_pos
  rw [h.kAlignedSize_eq]
  omega

theorem Compiles.dvd_kAlignedSize (h : Compiles p) : p.kMinimumAlignment ∣ p.kAlignedSize := by
  rw [h.kAlignedSize_eq]
  exact dvd_add_alignFactor h.kMinimumAlignment_pos

/-- The header is followed by the first object, unless the alignment is larger than the header. -/
theorem Compiles.kStartOffset_eq (h : Compiles p) :
    p.kStartOffset = pointerSize + alignFactor pointerSize p.kMinimumAlignment := by
  have hfactor := alignFactor_lt (x := pointerSize) h.kMinimumAlignment_pos
  have hlt := h.kMinimumAlignment_lt
  have hpointer : pointerSize = 8 := rfl
  rw [Properties.kStartOffset, alignTo]
  apply Nat.mod_eq_of_lt
  by_cases hsmall : p.kMinimumAlignment ≤ 8
  · rw [wordSize_eq]
    omega
  · have hmod : pointerSize % p.kMinimumAlignment = 8 := Nat.mod_eq_of_lt (by omega)
    rw [alignFactor, hmod, if_pos (by decide)]
    omega

theorem Compiles.pointerSize_le_kStartOffset (h : Compiles p) : pointerSize ≤ p.kStartOffset := by
  rw [h.kStartOffset_eq]
  exact Nat.le_add_right ..

theorem Compiles.dvd_kStartOffset (h : Compiles p) : p.kMinimumAlignment ∣ p.kStartOffset := by
  rw [h.kStartOffset_eq]
  exact dvd_add_alignFactor h.kMinimumAlignment_pos

theorem Compiles.kStartOffset_lt (h : Compiles p) :
    p.kStartOffset < pointerSize + p.kMinimumAlignment := by
  have hfactor := alignFactor_lt (x := pointerSize) h.kMinimumAlignment_pos
  rw [h.kStartOffset_eq]
  omega

theorem Compiles.kStartOffset_eq_of_lt (h : Compiles p) (hlarge : pointerSize < p.kMinimumAlignment) :
    p.kStartOffset = p.kMinimumAlignment := by
  have hmod : pointerSize % p.kMinimumAlignment = pointerSize := Nat.mod_eq_of_lt hlarge
  rw [h.kStartOffset_eq, alignFactor, hmod, if_pos (by decide)]
  omega

theorem subWord_of_le {a b : ℕ} (hle : b ≤ a) (hlt : a < wordSize) : subWord a b = a - b := by
  rw [wordSize_eq] at hlt
  rw [subWord, wordSize_eq]
  omega

theorem kEndOffset_eq
    (hroom : p.kStartOffset + (p.kAlignedSize - 1) ≤ kNewAllocatorNumBytesPerSlab) :
    p.kNumObjsPerSlab = (16384 - p.kStartOffset - (p.kAlignedSize - 1)) / p.kAlignedSize ∧
      p.kEndOffset = p.kStartOffset + p.kNumObjsPerSlab * p.kAlignedSize := by
  rw [numBytesPerSlab_eq] at hroom
  have hfirst : subWord kNewAllocatorNumBytesPerSlab p.kStartOffset = 16384 - p.kStartOffset :=
    subWord_of_le (by rw [numBytesPerSlab_eq]; omega) (by decide)
  have hnum : p.kNumObjsPerSlab =
      (16384 - p.kStartOffset - (p.kAlignedSize - 1)) / p.kAlignedSize := by
    rw [Properties.kNumObjsPerSlab, hfirst, subWord_of_le (by omega)]
    rw [wordSize_eq]
    omega
  have hle := Nat.div_mul_le_self (16384 - p.kStartOffset - (p.kAlignedSize - 1)) p.kAlignedSize
  rw [← hnum] at hle
  refine ⟨hnum, Nat.mod_eq_of_lt ?_⟩
  rw [wordSize_eq]
  omega

theorem Fits.room (hf : Fits p) :
    p.kStartOffset + (p.kAlignedSize - 1) ≤ kNewAllocatorNumBytesPerSlab := by
  have hle := hf.le
  omega

theorem Compiles.kStartOffset_add_lt (h : Compiles p) :
    pageSizeBytes + p.kStartOffset < wordSize := by
  have hpage : pageSizeBytes = 4096 := rfl
  have hpointer : pointerSize = 8 := rfl
  have hlt := h.kMinimumAlignment_lt
  by_contra hlarge
  have hstart := h.kStartOffset_lt
  rw [wordSize_eq] at hlt hlarge
  have heq := h.kStartOffset_eq_of_lt (by omega)
  -- an object is as large as half of the address space
  have hsize : p.kAlignedSize = p.kMinimumAlignment := by
    obtain ⟨q, hq⟩ := h.dvd_kAlignedSize
    have hpos := h.kAlignedSize_pos
    have hsmall : p.kAlignedSize < wordSize := Nat.mod_lt _ (by decide)
    rw [wordSize_eq] at hsmall
    obtain hq0 | hq1 | hq2 : q = 0 ∨ q = 1 ∨ 2 ≤ q := by omega
    · rw [hq, hq0] at hpos
      omega
    · rw [hq, hq1, Nat.mul_one]
    · have hmul := Nat.mul_le_mul_left p.kMinimumAlignment hq2
      omega
  have hnum : p.kNumObjsPerSlab = 0 := by
    rw [Properties.kNumObjsPerSlab, hsize, heq]
    apply Nat.div_eq_of_lt
    rw [subWord, subWord, numBytesPerSlab_eq, wordSize_eq]
    omega
  have hend := h.kEndOffset_le
  rw [Properties.kEndOffset, hnum, Nat.zero_mul, Nat.add_zero, heq, numBytesPerSlab_eq,
    wordSize_eq] at hend
  omega

theorem Compiles.add_lt_kEndOffset (h : Compiles p) (hsmall : p.kAlignedSize < pointerSize) :
    p.kStartOffset + p.kAlignedSize < p.kEndOffset := by
  have hpointer : pointerSize = 8 := rfl
  have hle := Nat.le_of_dvd h.kAlignedSize_pos h.dvd_kAlignedSize
  have hpos := h.kAlignedSize_pos
  have hstart := h.kStartOffset_lt
  obtain ⟨hnum, hend⟩ := kEndOffset_eq (p := p) (by rw [numBytesPerSlab_eq]; omega)
  have htwo : 2 ≤ p.kNumObjsPerSlab := by
    rw [hnum, Nat.le_div_iff_mul_le hpos]
    omega
  have hmul := Nat.mul_le_mul_right p.kAlignedSize htwo
  omega

/-- With an alignment that divides the size of a slab, an object is in the slab only with the bytes
that align it. -/
theorem Compiles.kAlignedSize_le (h : Compiles p) (hdvd : p.kMinimumAlignment ∣ pageSizeBytes)
    (hle : p.kStartOffset + p.sizeOf ≤ kNewAllocatorNumBytesPerSlab) :
    p.kStartOffset + p.kAlignedSize ≤ kNewAllocatorNumBytesPerSlab := by
  have hslab : p.kMinimumAlignment ∣ kNewAllocatorNumBytesPerSlab := hdvd.mul_right _
  have hlt := h.kAlignedSize_lt
  obtain ⟨c, hc⟩ := hslab
  obtain ⟨n, hn⟩ := h.dvd_kStartOffset.add h.dvd_kAlignedSize
  rw [hc] at hle ⊢
  rw [hn]
  apply Nat.mul_le_mul_left
  have hmul : p.kMinimumAlignment * n < p.kMinimumAlignment * (c + 1) := by
    rw [Nat.mul_add, Nat.mul_one]
    omega
  exact Nat.le_of_lt_succ (Nat.lt_of_mul_lt_mul_left hmul)

end Offsets

end Granary.Base.SlabAllocator
