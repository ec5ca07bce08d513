import Granary.Base.Format

namespace Granary.Base.Format

variable {base : ℕ}

/-- The products that the loop over the powers computes, before they are cut to a word. -/
def growBaseProducts (data base : ℕ) : ℕ → ℕ → List ℕ
  | 0, _ => []
  | fuel + 1, maxBase =>
    if data / maxBase ≠ 0 then
      maxBase * base :: growBaseProducts data base fuel (maxBase * base % 2 ^ 64)
    else []

theorem growBaseProducts_lt {data j fuel : ℕ} (hdata : data * base < 2 ^ 64) :
    ∀ product ∈ growBaseProducts data base fuel (base ^ (j + 1)), product < 2 ^ 64 := by
  induction fuel generalizing j with
  | zero => simp [growBaseProducts]
  | succ fuel ih =>
    rw [growBaseProducts]
    split_ifs with hdiv
    · have hsmall := (pow_mul_lt hdata hdiv).2
      rw [Nat.mod_eq_of_lt hsmall, ← pow_succ]
      rw [← pow_succ] at hsmall
      exact List.forall_mem_cons.2 ⟨hsmall, ih⟩
    · simp

theorem peeled_lt_growBase (hbase : IsBase base) {data : ℕ} (hdata : data < 2 ^ 64) :
    peeled data base < growBase (peeled data base) base 64 base := by
  obtain ⟨k, -, hgrow, hlt, -⟩ :=
    growBase_spec hbase (peeled_mul_lt hbase hdata) (peeled_lt_pow hbase hdata) (Or.inr rfl)
  rw [zero_add, pow_one] at hgrow
  rw [hgrow]
  exact hlt

theorem formatDigit_eq (hbase : IsBase base) {d : ℕ} (hd : d < base) :
    formatDigit d = d.digitChar := by
  have hlt : d < 16 := hd.trans_le hbase.le
  interval_cases d <;> rfl

theorem formatDigit_eq_toDigits (hbase : IsBase base) {d : ℕ} (hd : d < base) :
    [formatDigit d] = Nat.toDigits base d := by
  rw [formatDigit_eq hbase hd, Nat.toDigits_of_lt_base hd]

theorem toDigits_append_formatDigits (hbase : IsBase base) {k fuel data n : ℕ} (hfuel : k < fuel)
    (hdata : data < base ^ (k + 1)) (hn : 0 < n) :
    Nat.toDigits base n ++ formatDigits base fuel (base ^ k) data =
      Nat.toDigits base (n * base ^ (k + 1) + data) := by
  induction k generalizing fuel data n with
  | zero =>
    obtain ⟨fuel, rfl⟩ := Nat.exists_eq_succ_of_ne_zero (by omega : fuel ≠ 0)
    have hdigit : data < base := by simpa using hdata
    rw [formatDigits_one hbase, formatDigit_eq_toDigits hbase hdigit,
      Nat.toDigits_append_toDigits hbase.one_lt hn hdigit, zero_add, pow_one, Nat.mul_comm]
  | succ k ih =>
    obtain ⟨fuel, rfl⟩ := Nat.exists_eq_succ_of_ne_zero (by omega : fuel ≠ 0)
    have hpow : 0 < base ^ (k + 1) := Nat.pow_pos hbase.pos
    have hdigit := div_pow_lt hbase hdata
    have hpos : 0 < base * n + data / base ^ (k + 1) :=
      Nat.add_pos_left (Nat.mul_pos hbase.pos hn) _
    have hrest := ih (show k < fuel by omega) (Nat.mod_lt data hpow) hpos
    have hsum := Nat.div_add_mod' data (base ^ (k + 1))
    rw [formatDigits_succ hbase, ← List.singleton_append, ← List.append_assoc,
      formatDigit_eq_toDigits hbase hdigit,
      Nat.toDigits_append_toDigits hbase.one_lt hn hdigit, hrest]
    congr 1
    calc (base * n + data / base ^ (k + 1)) * base ^ (k + 1) + data % base ^ (k + 1) =
          base * n * base ^ (k + 1) +
            (data / base ^ (k + 1) * base ^ (k + 1) + data % base ^ (k + 1)) := by ring
      _ = base * n * base ^ (k + 1) + data := by rw [hsum]
      _ = n * base ^ (k + 1 + 1) + data := by ring

theorem formatDigits_eq_toDigits (hbase : IsBase base) {k fuel data : ℕ} (hfuel : k < fuel)
    (hdata : data < base ^ (k + 1)) (hleast : base ^ k ≤ data ∨ k = 0) :
    formatDigits base fuel (base ^ k) data = Nat.toDigits base data := by
  obtain ⟨fuel, rfl⟩ := Nat.exists_eq_succ_of_ne_zero (by omega : fuel ≠ 0)
  cases k with
  | zero =>
    have hdigit : data < base := by simpa using hdata
    rw [formatDigits_one hbase, formatDigit_eq_toDigits hbase hdigit]
  | succ k =>
    have hpow : 0 < base ^ (k + 1) := Nat.pow_pos hbase.pos
    have hle : base ^ (k + 1) ≤ data := hleast.resolve_right (Nat.succ_ne_zero k)
    have hdigit := div_pow_lt hbase hdata
    have hlead : 0 < data / base ^ (k + 1) := Nat.div_pos hle hpow
    rw [formatDigits_succ hbase, ← List.singleton_append, formatDigit_eq_toDigits hbase hdigit,
      toDigits_append_formatDigits hbase (by omega) (Nat.mod_lt data hpow) hlead,
      Nat.div_add_mod' data (base ^ (k + 1))]

theorem formatGenericInt_eq_toDigits (hbase : IsBase base) {data : ℕ} (hdata : data < 2 ^ 64) :
    formatGenericInt data base = Nat.toDigits base data := by
  by_cases hzero : data = 0
  · rw [hzero, formatGenericInt, if_pos rfl, Nat.toDigits_zero]
  obtain ⟨k, hk, hlt, hleast, heq⟩ := formatGenericInt_eq hbase hdata hzero
  rw [heq, formatDigits_eq_toDigits hbase hk hlt hleast]
  by_cases hlast : data ≥ base
  · have hpos : 0 < data / base := Nat.div_pos hlast hbase.pos
    have hlow := Nat.mod_lt data hbase.pos
    rw [if_pos hlast, peeled, if_pos hlast, formatDigit_eq_toDigits hbase hlow,
      Nat.toDigits_append_toDigits hbase.one_lt hpos hlow, Nat.div_add_mod]
  · rw [if_neg hlast, List.append_nil, peeled, if_neg hlast]

theorem formatSigned_eq_toString (v : BitVec 64) : formatSigned v = (toString v.toInt).toList := by
  have hdecimal : IsBase 10 := Or.inl rfl
  unfold formatSigned
  split_ifs with hneg
  · have hpos : 0 < (-v).toNat := by
      rw [BitVec.toNat_neg]
      have hlt := v.isLt
      rw [BitVec.msb_eq_decide, decide_eq_true_eq] at hneg
      omega
    have hint : v.toInt = Int.negSucc ((-v).toNat - 1) := by
      rw [BitVec.toInt_eq_msb_cond, if_pos hneg, Int.negSucc_eq, BitVec.toNat_neg] at *
      have hlt := v.isLt
      rw [BitVec.msb_eq_decide, decide_eq_true_eq] at hneg
      omega
    rw [formatGenericInt_eq_toDigits hdecimal (-v).isLt, hint]
    change _ = ("-" ++ Nat.repr ((-v).toNat - 1 + 1)).toList
    rw [Nat.sub_add_cancel hpos, String.toList_append, Nat.toList_repr]
    rfl
  · have hint : v.toInt = Int.ofNat v.toNat := by
      rw [BitVec.toInt_eq_msb_cond, if_neg hneg]
      rfl
    rw [formatGenericInt_eq_toDigits hdecimal v.isLt, hint]
    change _ = (Nat.repr v.toNat).toList
    rw [Nat.toList_repr]

end Granary.Base.Format
