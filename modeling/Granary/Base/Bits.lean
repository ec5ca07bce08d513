import Mathlib.Data.BitVec
import Mathlib.Data.Fintype.Card
import Mathlib.Data.Finset.Card
import Mathlib.Tactic

namespace Granary.Base.Bits

variable {w : ℕ}

def Sub (a b : BitVec w) : Prop := ∀ i, a.getLsbD i = true → b.getLsbD i = true

theorem Sub.refl (a : BitVec w) : Sub a a := fun _ h ↦ h

theorem Sub.trans {a b c : BitVec w} (h : Sub a b) (h' : Sub b c) : Sub a c :=
  fun i hi ↦ h' i (h i hi)

theorem zero_sub (a : BitVec w) : Sub 0 a := by
  intro i hi
  simp at hi

theorem Sub.antisymm {a b : BitVec w} (h : Sub a b) (h' : Sub b a) : a = b := by
  apply BitVec.eq_of_getLsbD_eq
  intro i _
  exact Bool.eq_iff_iff.mpr ⟨h i, h' i⟩

theorem sub_or_left (a b : BitVec w) : Sub a (a ||| b) := by
  intro i hi
  simp [hi]

theorem sub_or_right (a b : BitVec w) : Sub b (a ||| b) := by
  intro i hi
  simp [hi]

theorem or_sub {a b c : BitVec w} (h : Sub a c) (h' : Sub b c) : Sub (a ||| b) c := by
  intro i hi
  rw [BitVec.getLsbD_or, Bool.or_eq_true] at hi
  exact hi.elim (h i) (h' i)

theorem Sub.or {a b c d : BitVec w} (h : Sub a b) (h' : Sub c d) : Sub (a ||| c) (b ||| d) :=
  or_sub (h.trans (sub_or_left b d)) (h'.trans (sub_or_right b d))

theorem Sub.and_eq {a b : BitVec w} (h : Sub a b) : a &&& b = a := by
  apply BitVec.eq_of_getLsbD_eq
  intro i _
  rw [BitVec.getLsbD_and]
  cases hi : a.getLsbD i with
  | false => exact Bool.false_and _
  | true => rw [h i hi, Bool.and_self]

theorem Sub.and {a b : BitVec w} (h : Sub a b) (c : BitVec w) : Sub (a &&& c) (b &&& c) := by
  intro i hi
  rw [BitVec.getLsbD_and, Bool.and_eq_true] at hi ⊢
  exact ⟨h i hi.1, hi.2⟩

theorem and_ne_zero_iff {a b : BitVec w} :
    a &&& b ≠ 0 ↔ ∃ i, a.getLsbD i = true ∧ b.getLsbD i = true := by
  rw [ne_eq, ← not_iff_not, not_not, not_exists]
  constructor
  · intro h i hi
    have hbit : (a &&& b).getLsbD i = false := by
      rw [h]
      exact BitVec.getLsbD_zero
    rw [BitVec.getLsbD_and, hi.1, hi.2] at hbit
    exact Bool.false_ne_true hbit.symm
  · intro h
    apply BitVec.eq_of_getLsbD_eq
    intro i _
    rw [BitVec.getLsbD_and, BitVec.ofNat_eq_ofNat, BitVec.getLsbD_zero, Bool.and_eq_false_iff]
    by_contra hi
    rw [not_or, Bool.not_eq_false, Bool.not_eq_false] at hi
    exact h i hi

def ones (a : BitVec w) : Finset (Fin w) := Finset.univ.filter fun i ↦ a.getLsbD i = true

theorem card_ones_le (a : BitVec w) : (ones a).card ≤ w := by
  simpa using Finset.card_le_univ (ones a)

theorem ones_subset {a b : BitVec w} (h : Sub a b) : ones a ⊆ ones b := by
  intro i hi
  simp only [ones, Finset.mem_filter, Finset.mem_univ, true_and] at hi ⊢
  exact h i hi

theorem card_ones_mono {a b : BitVec w} (h : Sub a b) : (ones a).card ≤ (ones b).card :=
  Finset.card_le_card (ones_subset h)

theorem card_ones_lt {a b : BitVec w} (h : Sub a b) (hne : a ≠ b) :
    (ones a).card < (ones b).card := by
  refine Finset.card_lt_card (Finset.ssubset_iff_subset_ne.mpr ⟨ones_subset h, fun he ↦ hne ?_⟩)
  refine h.antisymm fun i hi ↦ ?_
  have hlt : i < w := BitVec.lt_of_getLsbD hi
  have hmem : (⟨i, hlt⟩ : Fin w) ∈ ones a := by
    rw [he]
    exact Finset.mem_filter.mpr ⟨Finset.mem_univ _, hi⟩
  exact (Finset.mem_filter.mp hmem).2

section Field

variable {k s t : ℕ} {a v : BitVec w}

def low (w k : ℕ) : BitVec w := ~~~(BitVec.allOnes w <<< k)

@[simp] theorem getLsbD_low (w k i : ℕ) :
    (low w k).getLsbD i = (decide (i < w) && decide (i < k)) := by
  by_cases hi : i < w
  · by_cases hk : i < k
    · simp [low, hi, hk]
    · simp [low, hi, hk]
  · simp [low, hi]

theorem sub_low (h : v.toNat < 2 ^ k) : Sub v (low w k) := by
  intro i hi
  have hik : i < k := by
    by_contra hle
    have hv : v.toNat < 2 ^ i := h.trans_le (Nat.pow_le_pow_right (by omega) (not_lt.mp hle))
    rw [BitVec.getLsbD, Nat.testBit_lt_two_pow hv] at hi
    exact Bool.false_ne_true hi
  rw [getLsbD_low, decide_eq_true (BitVec.lt_of_getLsbD hi), decide_eq_true hik, Bool.and_self]

def field (k : ℕ) (a : BitVec w) (s : ℕ) : BitVec w := (a >>> s) &&& low w k

/-- `a` with `v` in the `k` bits from the bit `s` on. -/
def setField (k : ℕ) (a : BitVec w) (s : ℕ) (v : BitVec w) : BitVec w :=
  (a &&& ~~~(low w k <<< s)) ||| (v <<< s)

theorem getLsbD_field (k : ℕ) (a : BitVec w) (s i : ℕ) :
    (field k a s).getLsbD i = (a.getLsbD (s + i) && decide (i < k)) := by
  rw [field, BitVec.getLsbD_and, BitVec.getLsbD_ushiftRight, getLsbD_low]
  by_cases hi : i < w
  · rw [decide_eq_true hi, Bool.true_and]
  · rw [BitVec.getLsbD_of_ge a (s + i) (by omega), Bool.false_and, Bool.false_and]

theorem Sub.eq_false_of_le (hv : Sub v (low w k)) {i : ℕ} (hi : k ≤ i) : v.getLsbD i = false := by
  rw [Bool.eq_false_iff]
  intro h
  have hlow := hv i h
  simp only [getLsbD_low, Bool.and_eq_true, decide_eq_true_eq] at hlow
  omega

theorem getLsbD_setField (hv : Sub v (low w k)) (hs : s + k ≤ w) (i : ℕ) :
    (setField k a s v).getLsbD i =
      if s ≤ i ∧ i < s + k then v.getLsbD (i - s) else a.getLsbD i := by
  simp only [setField, BitVec.getLsbD_or, BitVec.getLsbD_and, BitVec.getLsbD_not,
    BitVec.getLsbD_shiftLeft, getLsbD_low]
  split_ifs with h
  · have hiw : i < w := by omega
    have hsub : i - s < k := by omega
    have hsubw : i - s < w := by omega
    simp [hiw, hsub, hsubw, not_lt.mpr h.1]
  · by_cases hiw : i < w
    · by_cases hsi : i < s
      · simp [hiw, hsi]
      · have hle : k ≤ i - s := by omega
        simp [hiw, hle, hv.eq_false_of_le hle]
    · simp [hiw, BitVec.getLsbD_of_ge a i (not_lt.mp hiw)]

theorem field_setField_self (hs : s + k ≤ w) (hv : Sub v (low w k)) :
    field k (setField k a s v) s = v := by
  apply BitVec.eq_of_getLsbD_eq
  intro i hi
  rw [getLsbD_field, getLsbD_setField hv hs]
  by_cases hk : i < k
  · rw [if_pos (by omega), Nat.add_sub_cancel_left, decide_eq_true hk, Bool.and_true]
  · rw [decide_eq_false hk, Bool.and_false, hv.eq_false_of_le (not_lt.mp hk)]

theorem field_setField_of_disjoint (hs : s + k ≤ w) (hv : Sub v (low w k))
    (h : s + k ≤ t ∨ t + k ≤ s) : field k (setField k a s v) t = field k a t := by
  apply BitVec.eq_of_getLsbD_eq
  intro i hi
  rw [getLsbD_field, getLsbD_field, getLsbD_setField hv hs]
  by_cases hk : i < k
  · rw [if_neg (by omega)]
  · rw [decide_eq_false hk, Bool.and_false, Bool.and_false]

theorem field_one_ne_zero_iff (hw : 0 < w) : field 1 a s ≠ 0 ↔ a.getLsbD s = true := by
  rw [field, and_ne_zero_iff]
  simp only [BitVec.getLsbD_ushiftRight, getLsbD_low, Bool.and_eq_true, decide_eq_true_eq]
  constructor
  · intro ⟨i, ha, _, hi⟩
    rwa [Nat.lt_one_iff.mp hi, Nat.add_zero] at ha
  · intro ha
    exact ⟨0, ha, hw, Nat.one_pos⟩

end Field

end Granary.Base.Bits
