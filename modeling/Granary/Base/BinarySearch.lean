import Mathlib.Order.Interval.Set.Basic
import Mathlib.Order.Monotone.Basic
import Mathlib.Tactic

namespace Granary.Base.BinarySearch

variable {K : Type*} [LinearOrder K]

theorem half_nonneg (size : ℕ) {d : ℤ} (hd : 0 ≤ d) : 0 ≤ d / size / 2 * size := by
  have hq : 0 ≤ d / size := Int.ediv_nonneg hd (Int.natCast_nonneg size)
  exact mul_nonneg (by omega) (Int.natCast_nonneg size)

theorem half_le (size : ℕ) [NeZero size] {d : ℤ} (hd : 0 ≤ d) : d / size / 2 * size ≤ d := by
  have hsize : (size : ℤ) ≠ 0 := Int.natCast_ne_zero.mpr (NeZero.ne size)
  have hq : 0 ≤ d / size := Int.ediv_nonneg hd (Int.natCast_nonneg size)
  calc d / size / 2 * size ≤ d / size * size :=
        mul_le_mul_of_nonneg_right (by omega) (Int.natCast_nonneg size)
    _ ≤ d := Int.ediv_mul_le d hsize

/-- The binary search for `k` between two pointers to entries of `size` bytes. Both bounds are
inclusive. The result is the pointers that were read, and the one at which the search ended. -/
def search (size : ℕ) [NeZero size] (key : ℤ → K) (k : K) (first last : ℤ) : List ℤ × Option ℤ :=
  if first ≤ last then
    let mid := first + (last - first) / size / 2 * size
    if key mid < k then
      let r := search size key k (mid + size) last
      (mid :: r.1, r.2)
    else if k < key mid then
      let r := search size key k first (mid - size)
      (mid :: r.1, r.2)
    else ([mid], some mid)
  else ([], none)
termination_by (last + 1 - first).toNat
decreasing_by
  all_goals
    have hsize : (0 : ℤ) < size := by exact_mod_cast NeZero.pos size
    have hnonneg := half_nonneg size (sub_nonneg.mpr ‹first ≤ last›)
    have hle := half_le size (sub_nonneg.mpr ‹first ≤ last›)
    omega

section Index

variable {size : ℕ} [NeZero size] {key : ℤ → K} {k : K} {b i j : ℤ}

def entry (size : ℕ) (b n : ℤ) : ℤ := b + n * size

theorem entry_injective (size : ℕ) [NeZero size] (b : ℤ) : Function.Injective (entry size b) := by
  intro m n h
  have hsize : (size : ℤ) ≠ 0 := Int.natCast_ne_zero.mpr (NeZero.ne size)
  exact mul_right_cancel₀ hsize (add_left_cancel h)

theorem entry_le_entry : entry size b i ≤ entry size b j ↔ i ≤ j := by
  have hsize : (0 : ℤ) < size := by exact_mod_cast NeZero.pos size
  rw [entry, entry, add_le_add_iff_left, mul_le_mul_iff_left₀ hsize]

omit [NeZero size] in
theorem entry_add_size : entry size b i + size = entry size b (i + 1) := by
  rw [entry, entry]
  ring

omit [NeZero size] in
theorem entry_sub_size : entry size b i - size = entry size b (i - 1) := by
  rw [entry, entry]
  ring

theorem entry_mid :
    entry size b i + (entry size b j - entry size b i) / size / 2 * size =
      entry size b (i + (j - i) / 2) := by
  have hsize : (size : ℤ) ≠ 0 := Int.natCast_ne_zero.mpr (NeZero.ne size)
  have hdiff : entry size b j - entry size b i = (j - i) * size := by
    rw [entry, entry]
    ring
  rw [hdiff, Int.mul_ediv_cancel _ hsize, entry, entry]
  ring

theorem search_of_lt (h : j < i) : search size key k (entry size b i) (entry size b j) = ([], none) := by
  rw [search, if_neg]
  rw [entry_le_entry]
  omega

theorem search_entry (h : i ≤ j) :
    search size key k (entry size b i) (entry size b j) =
      let m := i + (j - i) / 2
      if key (entry size b m) < k then
        (entry size b m :: (search size key k (entry size b (m + 1)) (entry size b j)).1,
          (search size key k (entry size b (m + 1)) (entry size b j)).2)
      else if k < key (entry size b m) then
        (entry size b m :: (search size key k (entry size b i) (entry size b (m - 1))).1,
          (search size key k (entry size b i) (entry size b (m - 1))).2)
      else ([entry size b m], some (entry size b m)) := by
  rw [search, if_pos (entry_le_entry.mpr h)]
  simp only [entry_mid, entry_add_size, entry_sub_size]

theorem bisect {P : ℤ → ℤ → Prop} (empty : ∀ i j, j < i → P i j)
    (split : ∀ i j, i ≤ j → P (i + (j - i) / 2 + 1) j → P i (i + (j - i) / 2 - 1) → P i j)
    (i j : ℤ) : P i j := by
  induction h : (j + 1 - i).toNat using Nat.strong_induction_on generalizing i j with
  | _ n ih =>
    rcases lt_or_ge j i with hlt | hle
    · exact empty i j hlt
    · exact split i j hle (ih _ (by omega) _ _ rfl) (ih _ (by omega) _ _ rfl)

theorem mem_search_reads {p : ℤ} (hp : p ∈ (search size key k (entry size b i) (entry size b j)).1) :
    ∃ n, i ≤ n ∧ n ≤ j ∧ p = entry size b n := by
  induction i, j using bisect with
  | empty i j h =>
    rw [search_of_lt h] at hp
    exact absurd hp List.not_mem_nil
  | split i j h ihright ihleft =>
    rw [search_entry h] at hp
    simp only at hp
    split_ifs at hp with hlt hgt
    · rcases List.mem_cons.mp hp with rfl | hp
      · exact ⟨i + (j - i) / 2, by omega, by omega, rfl⟩
      · obtain ⟨n, hin, hnj, rfl⟩ := ihright hp
        exact ⟨n, by omega, hnj, rfl⟩
    · rcases List.mem_cons.mp hp with rfl | hp
      · exact ⟨i + (j - i) / 2, by omega, by omega, rfl⟩
      · obtain ⟨n, hin, hnj, rfl⟩ := ihleft hp
        exact ⟨n, hin, by omega, rfl⟩
    · rw [List.mem_singleton.mp hp]
      exact ⟨i + (j - i) / 2, by omega, by omega, rfl⟩

theorem of_search_eq_some {p : ℤ}
    (hp : (search size key k (entry size b i) (entry size b j)).2 = some p) :
    p ∈ (search size key k (entry size b i) (entry size b j)).1 ∧ key p = k := by
  induction i, j using bisect with
  | empty i j h =>
    rw [search_of_lt h] at hp
    exact absurd hp (by simp)
  | split i j h ihright ihleft =>
    rw [search_entry h] at hp ⊢
    simp only at hp ⊢
    split_ifs at hp ⊢ with hlt hgt
    · exact (ihright hp).imp_left (List.mem_cons_of_mem _)
    · exact (ihleft hp).imp_left (List.mem_cons_of_mem _)
    · obtain rfl := Option.some.inj hp
      exact ⟨List.mem_singleton_self _, le_antisymm (not_lt.mp hgt) (not_lt.mp hlt)⟩

theorem exists_search_eq_some (hmono : MonotoneOn (fun n ↦ key (entry size b n)) (Set.Icc i j))
    {n : ℤ} (hn : n ∈ Set.Icc i j) (hk : key (entry size b n) = k) :
    ∃ p, (search size key k (entry size b i) (entry size b j)).2 = some p := by
  induction i, j using bisect with
  | empty i j h =>
    have hij := hn.1.trans hn.2
    omega
  | split i j h ihright ihleft =>
    have hm : i + (j - i) / 2 ∈ Set.Icc i j := ⟨by omega, by omega⟩
    rw [search_entry h]
    simp only
    split_ifs with hlt hgt
    · have hmn : i + (j - i) / 2 < n := hmono.reflect_lt hm hn (hlt.trans_eq hk.symm)
      refine ihright (hmono.mono ?_) ⟨hmn, hn.2⟩
      exact Set.Icc_subset_Icc_left (by omega)
    · have hnm : n < i + (j - i) / 2 := hmono.reflect_lt hn hm (hk.trans_lt hgt)
      refine ihleft (hmono.mono ?_) ⟨hn.1, by omega⟩
      exact Set.Icc_subset_Icc_right (by omega)
    · exact ⟨_, rfl⟩

theorem last_mem_search_reads_iff (hij : i ≤ j)
    (hmono : MonotoneOn (fun n ↦ key (entry size b n)) (Set.Ico i j)) :
    entry size b j ∈ (search size key k (entry size b i) (entry size b j)).1 ↔
      ∀ n ∈ Set.Ico i j, key (entry size b n) < k := by
  induction i, j using bisect with
  | empty i j h => omega
  | split i j h ihright ihleft =>
    rw [search_entry h]
    simp only
    rcases h.eq_or_lt with rfl | hlt
    · rw [sub_self, Int.zero_ediv, add_zero]
      split_ifs <;> simp
    · have hm : i + (j - i) / 2 ∈ Set.Ico i j := ⟨by omega, by omega⟩
      have hne : entry size b j ≠ entry size b (i + (j - i) / 2) :=
        fun he ↦ hm.2.ne' (entry_injective size b he)
      split_ifs with hkey hgt
      · rw [List.mem_cons, or_iff_right hne]
        rw [ihright (by omega) (hmono.mono (Set.Ico_subset_Ico_left (by omega)))]
        refine ⟨fun hright n hn ↦ ?_, fun hall n hn ↦ hall n ⟨by have := hn.1; omega, hn.2⟩⟩
        rcases le_or_gt n (i + (j - i) / 2) with hle | hgt
        · exact (hmono hn hm hle).trans_lt hkey
        · exact hright n ⟨by omega, hn.2⟩
      · rw [List.mem_cons, or_iff_right hne]
        refine ⟨fun hleft ↦ ?_, fun hall ↦ absurd (hall _ hm) hkey⟩
        obtain ⟨n, -, hnj, he⟩ := mem_search_reads hleft
        have hjn := entry_injective size b he
        omega
      · rw [List.mem_singleton, iff_false_left hne]
        exact fun hall ↦ hkey (hall _ hm)

theorem search_eq_of_forall_lt (hij : i ≤ j)
    (hlt : ∀ n ∈ Set.Ico i j, key (entry size b n) < k) :
    (search size key k (entry size b i) (entry size b j)).2 =
      if key (entry size b j) = k then some (entry size b j) else none := by
  induction i, j using bisect with
  | empty i j h => omega
  | split i j h ihright ihleft =>
    rw [search_entry h]
    simp only
    rcases h.eq_or_lt with rfl | hij
    · rw [sub_self, Int.zero_ediv, add_zero, search_of_lt (lt_add_one i),
        search_of_lt (sub_one_lt i)]
      rcases lt_trichotomy (key (entry size b i)) k with hk | hk | hk
      · simp [hk, hk.ne]
      · simp [hk]
      · simp [hk, hk.ne', hk.not_gt]
    · rw [if_pos (hlt _ ⟨by omega, by omega⟩)]
      exact ihright (by omega) fun n hn ↦ hlt n ⟨by have hle := hn.1; omega, hn.2⟩

theorem exists_search_eq_some_of_mem_Ico
    (hmono : MonotoneOn (fun n ↦ key (entry size b n)) (Set.Ico i j)) {n : ℤ}
    (hn : n ∈ Set.Ico i j) (hk : key (entry size b n) = k) :
    ∃ p, (search size key k (entry size b i) (entry size b j)).2 = some p := by
  induction i, j using bisect with
  | empty i j h =>
    have hij := hn.1.trans_lt hn.2
    omega
  | split i j h ihright ihleft =>
    have hij := hn.1.trans_lt hn.2
    have hm : i + (j - i) / 2 ∈ Set.Ico i j := ⟨by omega, by omega⟩
    rw [search_entry h]
    simp only
    split_ifs with hlt hgt
    · have hmn : i + (j - i) / 2 < n := hmono.reflect_lt hm hn (hlt.trans_eq hk.symm)
      refine ihright (hmono.mono ?_) ⟨hmn, hn.2⟩
      exact Set.Ico_subset_Ico_left (by omega)
    · -- The bounds of the left half are entries of the array.
      have hnm : n < i + (j - i) / 2 := hmono.reflect_lt hn hm (hk.trans_lt hgt)
      refine exists_search_eq_some (hmono.mono fun l hl ↦ ⟨hl.1, ?_⟩) ⟨hn.1, by omega⟩ hk
      have hle := hl.2
      omega
    · exact ⟨_, rfl⟩

end Index

end Granary.Base.BinarySearch
