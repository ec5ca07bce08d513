import Granary.Base.Packing
import Granary.Base.SlabAllocator.Layout

namespace Granary.Base.SlabAllocator

open Granary.Base.Packing

def alignTo? (x align : ℕ) : Option ℕ :=
  if align = 0 then none else some (alignTo x align)

theorem alignTo?_of_pos {x align : ℕ} (h : 0 < align) : alignTo? x align = some (alignTo x align) :=
  if_neg h.ne'

theorem alignTo?_eq_some {x align y : ℕ} (h : alignTo? x align = some y) :
    0 < align ∧ y = alignTo x align := by
  unfold alignTo? at h
  split_ifs at h with hzero
  exact ⟨Nat.pos_of_ne_zero hzero, (Option.some_inj.1 h).symm⟩

/-- What the constructor of a slab allocator gets, with the values it is computed from. -/
structure Parameters where
  startOffset : ℕ
  remainingSize : ℕ
  maxNumAllocs : ℕ
  maxOffset : ℕ
  size : ℕ
deriving DecidableEq, Repr

/-- The parameters for objects of a size, of which the first is at `offset`. -/
def slabParameters (offset size : ℕ) : Option Parameters :=
  let remainingSize := subWord kNewAllocatorNumBytesPerSlab offset
  if size = 0 then none
  else
    let maxNumAllocs := (subWord remainingSize size + 1) % wordSize / size
    some {
      startOffset := offset
      remainingSize
      maxNumAllocs
      maxOffset := (offset + maxNumAllocs * size) % wordSize
      size }

/-- The objects start behind the header and end in the slab, no subtraction is one of more than
there is, and there is room for an object. -/
structure Parameters.Ok (p : Parameters) : Prop where
  header : pointerSize ≤ p.startOffset
  offset_le : p.startOffset ≤ kNewAllocatorNumBytesPerSlab
  size_le : p.size ≤ p.remainingSize
  room : 0 < p.maxNumAllocs
  within : p.startOffset + p.maxNumAllocs * p.size ≤ p.maxOffset
  maxOffset_le : p.maxOffset ≤ kNewAllocatorNumBytesPerSlab

theorem slabParameters_cases {offset size : ℕ} {p : Parameters}
    (h : slabParameters offset size = some p) : p.startOffset = offset ∧ p.size = size := by
  unfold slabParameters at h
  split_ifs at h
  obtain rfl := Option.some_inj.1 h
  exact ⟨rfl, rfl⟩

theorem slabParameters_ok_iff {offset size : ℕ} (header : pointerSize ≤ offset) :
    (∃ p, slabParameters offset size = some p ∧ p.Ok) ↔
      0 < size ∧ offset + 2 * size ≤ kNewAllocatorNumBytesPerSlab + 1 := by
  have hbytes := numBytesPerSlab_eq
  have hword := wordSize_eq
  constructor
  · rintro ⟨p, hp, hok⟩
    unfold slabParameters at hp
    split_ifs at hp with hzero
    obtain rfl := Option.some_inj.1 hp
    have hoffset := hok.offset_le
    have hsize := hok.size_le
    have hroom := hok.room
    dsimp only at hoffset hsize hroom
    rw [subWord_of_le hoffset (by omega)] at hsize hroom
    rw [subWord_of_le hsize (by omega), Nat.mod_eq_of_lt (by omega), Nat.div_pos_iff] at hroom
    omega
  · rintro ⟨hpos, hle⟩
    have hzero : size ≠ 0 := by omega
    have hremaining : subWord kNewAllocatorNumBytesPerSlab offset =
        kNewAllocatorNumBytesPerSlab - offset := subWord_of_le (by omega) (by omega)
    have hrest : (subWord (kNewAllocatorNumBytesPerSlab - offset) size + 1) % wordSize =
        kNewAllocatorNumBytesPerSlab - offset - size + 1 := by
      rw [subWord_of_le (by omega) (by omega), Nat.mod_eq_of_lt (by omega)]
    set n := (kNewAllocatorNumBytesPerSlab - offset - size + 1) / size with hn
    have hmul : n * size ≤ kNewAllocatorNumBytesPerSlab - offset - size + 1 :=
      Nat.div_mul_le_self _ size
    have hend : (offset + n * size) % wordSize = offset + n * size :=
      Nat.mod_eq_of_lt (by omega)
    refine ⟨_, if_neg hzero, header, by simp only; omega, ?_, ?_, ?_, ?_⟩
    · simp only [hremaining]
      omega
    · simp only [hremaining, hrest]
      exact Nat.div_pos (by omega) hpos
    · simp only [hremaining, hrest, ← hn, hend]
      exact le_rfl
    · simp only [hremaining, hrest, ← hn, hend]
      omega

/-- Aligned intervals that are apart and end in an object, with sound slabs of such objects. -/
structure ObjectsOk (placed : List (ℕ × Piece)) (size : ℕ) (p : Parameters) : Prop where
  packed : Packed placed size
  size_le : size ≤ p.size
  slab : p.Ok

section Objects

variable {ps : List Piece}

theorem alignTo_finish (halign : ∀ p ∈ ps, p.align ≤ 2 ^ 62) (hfinish : finish 0 ps ≤ 2 ^ 63) :
    alignTo (finish 0 ps) (maxAlign ps) = objectSize ps := by
  apply Nat.mod_eq_of_lt
  have hmax := maxAlign_le halign
  have hpad : padding (finish 0 ps) (maxAlign ps) ≤ 2 ^ 62 := by
    rcases Nat.eq_zero_or_pos (maxAlign ps) with h | h
    · unfold padding
      split_ifs <;> omega
    · exact (padding_lt h).le.trans hmax
  show finish 0 ps + padding (finish 0 ps) (maxAlign ps) < wordSize
  unfold wordSize
  omega

theorem alignTo_of_packed {limit : ℕ} (hdvd : ∀ p ∈ ps, p.align ∣ 2 ^ 63)
    (halign : ∀ p ∈ ps, p.align ≤ 2 ^ 62) (h : Packed (wrapPlace wordSize 0 ps) limit)
    (hlimit : limit ≤ 2 ^ 63) :
    alignTo (wrapFinish wordSize 0 ps) (maxAlign ps) = objectSize ps := by
  obtain ⟨hfinish, hle⟩ := wrapFinish_of_packed hdvd h hlimit
  exact (congrArg (alignTo · (maxAlign ps)) hfinish).trans (alignTo_finish halign hle)

theorem layout_of_objectSize_le (halign : ∀ p ∈ ps, p.align ≤ 2 ^ 62)
    (h : objectSize ps ≤ 2 ^ 63) :
    wrapPlace wordSize 0 ps = place 0 ps ∧ wrapFinish wordSize 0 ps = finish 0 ps ∧
      alignTo (finish 0 ps) (maxAlign ps) = objectSize ps := by
  have hle : finish 0 ps ≤ objectSize ps := Nat.le_add_right _ _
  have hword : finish 0 ps < wordSize := by
    unfold wordSize
    omega
  obtain ⟨hplace, hfinish⟩ := wrapPlace_of_finish_lt hword
  exact ⟨hplace, hfinish, alignTo_finish halign (hle.trans h)⟩

theorem ne_nil_of_objectSize_pos (h : 0 < objectSize ps) : ps ≠ [] := by
  rintro rfl
  exact absurd h (by decide)

end Objects

theorem alignTo_pointerSize {size : ℕ} (hpos : 0 < size) (hsize : size ≤ 2 ^ 63) :
    alignTo pointerSize size = pointerSize + padding pointerSize size := by
  apply Nat.mod_eq_of_lt
  have hpad := padding_lt (x := pointerSize) hpos
  show pointerSize + padding pointerSize size < wordSize
  unfold pointerSize wordSize at *
  omega

end Granary.Base.SlabAllocator
