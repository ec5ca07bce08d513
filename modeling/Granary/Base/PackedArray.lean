import Granary.Base.Bits
import Granary.Base.Run

namespace Granary.Base.PackedArray

open Granary.Base.Bits

def alignTo (x align : ℕ) : ℕ :=
  x + if x % align ≠ 0 then align - x % align else 0

/-- The bytes from the address of `storage` on. -/
abbrev Storage := ℕ → BitVec 8

section Code

variable (kSizeBits kNumElems : ℕ)

def size : ℕ := alignTo kSizeBits 2

def numElems : ℕ := alignTo kNumElems 8

def numPerByte : ℕ := 8 / size kSizeBits

def numBytes : ℕ := numElems kNumElems / numPerByte kSizeBits

def bitMask : BitVec 8 := (~~~(0xFF#32 <<< kSizeBits)).setWidth 8

def indexOf (i : ℕ) : ℕ := i / numPerByte kSizeBits

def shiftOf (i : ℕ) : ℕ := i % numPerByte kSizeBits * kSizeBits

/-- What an index becomes that is passed as an `unsigned`. -/
def unsigned (i : ℕ) : ℕ := i % 2 ^ 32

/-- What `memset` and `memcpy` make of the storage, whose bytes are those of `that`. -/
def fill (that s : Storage) : Storage :=
  fun k ↦ if k < numBytes kSizeBits kNumElems then that k else s k

def init (s : Storage) : Storage := fill kSizeBits kNumElems (fun _ ↦ 0) s

def get (s : Storage) (i : ℕ) : BitVec 8 :=
  (s (indexOf kSizeBits (unsigned i)) >>> shiftOf kSizeBits (unsigned i)) &&& bitMask kSizeBits

def set (s : Storage) (i : ℕ) (val : BitVec 8) : Storage :=
  let byteVal := val &&& bitMask kSizeBits
  let index := indexOf kSizeBits (unsigned i)
  let shift := shiftOf kSizeBits (unsigned i)
  let oldVal := s index &&& ~~~(bitMask kSizeBits <<< shift)
  Function.update s index (oldVal ||| (byteVal <<< shift))

def copy (s that : Storage) : Storage := fill kSizeBits kNumElems that s

end Code

section Layout

variable {w n i j : ℕ}

theorem numPerByte_pos (h : w < 8) (h₀ : 0 < w) : 0 < numPerByte w := by
  interval_cases w <;> decide

theorem numPerByte_mul_le (h : w < 8) : numPerByte w * w ≤ 8 := by
  interval_cases w <;> decide

theorem numPerByte_dvd (h : w < 8) (h₀ : 0 < w) : numPerByte w ∣ 8 := by
  interval_cases w <;> decide

theorem bitMask_eq (h : w < 8) : bitMask w = low 8 w := by
  interval_cases w <;> decide

theorem dvd_numElems (n : ℕ) : 8 ∣ numElems n := by
  unfold numElems alignTo
  split_ifs <;> omega

theorem le_numElems (n : ℕ) : n ≤ numElems n :=
  Nat.le_add_right _ _

theorem indexOf_lt (h : w < 8) (h₀ : 0 < w) (hi : i < n) : indexOf w i < numBytes w n := by
  have hdvd : numPerByte w ∣ numElems n := (numPerByte_dvd h h₀).trans (dvd_numElems n)
  rw [indexOf, numBytes, Nat.div_lt_iff_lt_mul (numPerByte_pos h h₀), Nat.div_mul_cancel hdvd]
  exact hi.trans_le (le_numElems n)

theorem shiftOf_add_le (h : w < 8) (h₀ : 0 < w) (i : ℕ) : shiftOf w i + w ≤ 8 := by
  have hlt : i % numPerByte w + 1 ≤ numPerByte w := Nat.mod_lt _ (numPerByte_pos h h₀)
  calc shiftOf w i + w = (i % numPerByte w + 1) * w := by rw [shiftOf]; ring
    _ ≤ numPerByte w * w := Nat.mul_le_mul_right w hlt
    _ ≤ 8 := numPerByte_mul_le h

theorem indexOf_ne_or (hij : i ≠ j) :
    indexOf w i ≠ indexOf w j ∨ shiftOf w i + w ≤ shiftOf w j ∨ shiftOf w j + w ≤ shiftOf w i := by
  by_cases hindex : indexOf w i = indexOf w j
  · have hmod : i % numPerByte w ≠ j % numPerByte w := fun hmod ↦ hij (by
      rw [← Nat.div_add_mod i (numPerByte w), ← Nat.div_add_mod j (numPerByte w), hmod]
      exact congrArg (numPerByte w * · + j % numPerByte w) hindex)
    have hstep (a b : ℕ) (hab : a < b) : a * w + w ≤ b * w := by
      rw [← Nat.succ_mul]
      exact Nat.mul_le_mul_right w hab
    rcases lt_or_gt_of_ne hmod with hlt | hlt
    · exact Or.inr (Or.inl (hstep _ _ hlt))
    · exact Or.inr (Or.inr (hstep _ _ hlt))
  · exact Or.inl hindex

end Layout

inductive Op where
  | set (i : ℕ) (val : BitVec 8)
  | copy (that : Storage)

namespace Op

variable (w n : ℕ)

def Ok : Op → Prop
  | set i val => i < n ∧ val.toNat < 2 ^ w
  | copy _ => True

def apply (s : Storage) : Op → Storage
  | set i val => PackedArray.set w s i val
  | copy that => PackedArray.copy w n s that

def effect (j : ℕ) (old : BitVec 8) : Op → BitVec 8
  | set i val => if i = j then val else old
  | copy that => get w that j

end Op

def Independent (w n : ℕ) : Prop :=
  ∀ s (ops : List Op), (∀ op ∈ ops, op.Ok w n) → ∀ j < n,
    get w (ops.foldl (Op.apply w n) (init w n s)) j = ops.foldl (Op.effect w j) 0

section Entries

variable {w n i j : ℕ} {s that : Storage} {val : BitVec 8}

theorem get_eq_field (h : w < 8) (s : Storage) (i : ℕ) :
    get w s i = field w (s (indexOf w (unsigned i))) (shiftOf w (unsigned i)) := by
  rw [get, bitMask_eq h]
  rfl

theorem set_eq_setField (h : w < 8) (hval : Sub val (low 8 w)) (s : Storage) (i : ℕ) :
    set w s i val = Function.update s (indexOf w (unsigned i))
      (setField w (s (indexOf w (unsigned i))) (shiftOf w (unsigned i)) val) := by
  rw [set, bitMask_eq h, hval.and_eq]
  rfl

theorem get_set_self (h : w < 8) (h₀ : 0 < w) (hval : val.toNat < 2 ^ w) (s : Storage) (i : ℕ) :
    get w (set w s i val) i = val := by
  rw [get_eq_field h, set_eq_setField h (sub_low hval), Function.update_self]
  exact field_setField_self (shiftOf_add_le h h₀ _) (sub_low hval)

theorem get_set_of_ne (h : w < 8) (h₀ : 0 < w) (hval : val.toNat < 2 ^ w) (s : Storage)
    (hij : unsigned i ≠ unsigned j) : get w (set w s i val) j = get w s j := by
  rw [get_eq_field h, get_eq_field h, set_eq_setField h (sub_low hval)]
  obtain hindex | hshift := indexOf_ne_or (w := w) hij
  · rw [Function.update_of_ne hindex.symm]
  · by_cases hindex : indexOf w (unsigned i) = indexOf w (unsigned j)
    · rw [hindex, Function.update_self]
      exact field_setField_of_disjoint (shiftOf_add_le h h₀ _) (sub_low hval) hshift
    · rw [Function.update_of_ne (Ne.symm hindex)]

theorem get_fill (h : w < 8) (h₀ : 0 < w) (hj : j < n) :
    get w (fill w n that s) j = get w that j := by
  have hlt : unsigned j < n := (Nat.mod_le _ _).trans_lt hj
  rw [get, get, fill, if_pos (indexOf_lt h h₀ hlt)]

theorem unsigned_ne (hn : n ≤ 2 ^ 32) (hi : i < n) (hj : j < n) (hij : i ≠ j) :
    unsigned i ≠ unsigned j := by
  rwa [unsigned, unsigned, Nat.mod_eq_of_lt (hi.trans_le hn), Nat.mod_eq_of_lt (hj.trans_le hn)]

theorem get_apply (h : w < 8) (h₀ : 0 < w) (hn : n ≤ 2 ^ 32) (hj : j < n) {op : Op}
    (hop : op.Ok w n) (s : Storage) : get w (op.apply w n s) j = op.effect w j (get w s j) := by
  cases op with
  | set i val =>
    rw [Op.apply, Op.effect]
    split_ifs with hij
    · subst hij
      exact get_set_self h h₀ hop.2 s i
    · exact get_set_of_ne h h₀ hop.2 s (unsigned_ne hn hop.1 hj hij)
  | copy that => exact get_fill h h₀ hj

theorem independent_iff (h : w < 8) (h₀ : 0 < w) : Independent w n ↔ n ≤ 2 ^ 32 := by
  constructor
  · intro hind
    by_contra hn
    -- The last element that an `unsigned` can name is before this one.
    have hlast : 2 ^ 32 < n := not_le.mp hn
    have hone : (1#8).toNat < 2 ^ w := Nat.one_lt_two_pow h₀.ne'
    have hops : ∀ op ∈ [Op.set 0 1#8], op.Ok w n := by
      rw [List.forall_mem_singleton]
      exact ⟨by omega, hone⟩
    have hget := hind (fun _ ↦ 0) [Op.set 0 1#8] hops (2 ^ 32) hlast
    have hwrap (t : Storage) : get w t (2 ^ 32) = get w t 0 := rfl
    rw [hwrap, List.foldl_cons, List.foldl_nil, Op.apply, get_set_self h h₀ hone] at hget
    exact absurd hget (by simp [Op.effect])
  · intro hn s ops hops j hj
    have hzero : get w (init w n s) j = 0 := by
      rw [init, get_fill h h₀ hj, get]
      simp
    rw [← hzero]
    exact Base.Run.foldl_view (get w · j) (fun t op hop ↦ get_apply h h₀ hn hj (hops op hop) t) _

end Entries

end Granary.Base.PackedArray
