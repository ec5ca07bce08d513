import Mathlib.Data.List.Basic
import Mathlib.Data.List.GetD
import Mathlib.Data.List.Nodup
import Mathlib.Logic.Function.Basic
import Mathlib.Tactic.Linarith

namespace Granary.Tool

open Function

abbrev Name := List Char

instance : LawfulBEq Name := inferInstance

def kMaxToolNameLength : ℕ := 32

def kMaxNumTools : ℕ := 64

/-- The names that have an identifier, which is their place, and the identifier of the next. -/
structure NameTable where
  gNextToolId : ℕ
  gToolNames : ℕ → Name

namespace NameTable

def empty : NameTable where
  gNextToolId := 0
  gToolNames := fun _ ↦ []

/-- The loop over the names that `IdForName` and `DescForName` share. -/
def slotOf (t : NameTable) (name : Name) : Option ℕ :=
  (List.range kMaxNumTools).find? fun i ↦ name = t.gToolNames i

/-- A new name is copied to the next slot, which is asserted to be one. -/
def idForName (t : NameTable) (name : Name) : Option (ℕ × NameTable) :=
  match t.slotOf name with
  | some i => some (i, t)
  | none =>
    if kMaxNumTools > t.gNextToolId then
      some (t.gNextToolId,
        { gNextToolId := t.gNextToolId + 1
          gToolNames := update t.gToolNames t.gNextToolId (name.take (kMaxToolNameLength - 1)) })
    else none

def descForName {δ : Type*} (t : NameTable) (gRegisteredTools : ℕ → Option δ) (name : Name) :
    Option δ :=
  (t.slotOf name).bind gRegisteredTools

/-- The table of a list of names, from the first slot on. -/
structure Holds (names : List Name) (t : NameTable) : Prop where
  next : t.gNextToolId = names.length
  slot (i : ℕ) : t.gToolNames i = names.getD i []
  nodup : names.Nodup
  ne_nil : [] ∉ names
  le_max : names.length ≤ kMaxNumTools

theorem holds_empty : Holds [] .empty := by
  constructor <;> simp [empty]

variable {names : List Name} {t : NameTable} {n : Name}

theorem Holds.slot_eq_iff (h : Holds names t) (hn : n ≠ []) {i : ℕ} :
    n = t.gToolNames i ↔ n ∈ names ∧ i = names.idxOf n := by
  rw [h.slot]
  by_cases hi : i < names.length
  · rw [List.getD_eq_getElem _ _ hi]
    constructor
    · rintro rfl
      exact ⟨List.getElem_mem hi, (h.nodup.idxOf_getElem i hi).symm⟩
    · rintro ⟨hmem, rfl⟩
      exact (List.getElem_idxOf hi).symm
  · rw [List.getD_eq_default _ _ (not_lt.mp hi)]
    refine iff_of_false hn ?_
    rintro ⟨hmem, rfl⟩
    exact hi (List.idxOf_lt_length_of_mem hmem)

theorem Holds.slotOf (h : Holds names t) (hn : n ≠ []) :
    t.slotOf n = if n ∈ names then some (names.idxOf n) else none := by
  have hiff (i : ℕ) : decide (n = t.gToolNames i) = true ↔ n ∈ names ∧ i = names.idxOf n := by
    rw [decide_eq_true_iff, h.slot_eq_iff hn]
  split_ifs with hmem
  · have hlt := List.idxOf_lt_length_of_mem hmem
    refine List.find?_range_eq_some.mpr ⟨(hiff _).mpr ⟨hmem, rfl⟩, ?_, fun j hj ↦ ?_⟩
    · exact List.mem_range.mpr (hlt.trans_le h.le_max)
    · have hne : ¬(n ∈ names ∧ j = names.idxOf n) := fun hc ↦ by omega
      rw [← hiff] at hne
      simpa using hne
  · refine List.find?_eq_none.mpr fun i _ hi ↦ hmem ?_
    exact ((hiff i).mp hi).1

theorem Holds.idForName_of_mem (h : Holds names t) (hmem : n ∈ names) :
    t.idForName n = some (names.idxOf n, t) := by
  have hn : n ≠ [] := fun hnil ↦ h.ne_nil (hnil ▸ hmem)
  simp only [idForName, h.slotOf hn, if_pos hmem]

theorem Holds.idForName_of_notMem (h : Holds names t) (hn : n ≠ [])
    (hlen : n.length < kMaxToolNameLength) (hmem : n ∉ names) :
    kMaxNumTools ≤ names.length ∧ t.idForName n = none ∨
      names.length < kMaxNumTools ∧
        ∃ t', t.idForName n = some (names.length, t') ∧ Holds (names ++ [n]) t' := by
  have htake : n.take (kMaxToolNameLength - 1) = n :=
    List.take_of_length_le (Nat.le_sub_one_of_lt hlen)
  simp only [idForName, h.slotOf hn, if_neg hmem, htake, h.next]
  by_cases hlt : names.length < kMaxNumTools
  · refine Or.inr ⟨hlt, _, if_pos hlt, ⟨?_, fun i ↦ ?_, ?_, ?_, ?_⟩⟩
    · simp
    · by_cases hi : i = names.length
      · subst hi
        simp
      · dsimp only
        rw [update_of_ne hi, h.slot]
        obtain hlt' | hgt := Nat.lt_or_gt_of_ne hi
        · rw [List.getD_append _ _ _ _ hlt']
        · rw [List.getD_eq_default _ _ hgt.le, List.getD_eq_default _ _ (by simp; omega)]
    · exact List.nodup_append.mpr ⟨h.nodup, List.nodup_singleton n, by
        intro a ha b hb hab
        exact hmem (List.mem_singleton.mp hb ▸ hab ▸ ha)⟩
    · simpa [h.ne_nil] using hn.symm
    · rw [List.length_append, List.length_singleton]
      exact hlt
  · exact Or.inl ⟨not_lt.mp hlt, if_neg hlt⟩

theorem Holds.length_le_of_slotOf_nil (h : Holds names t) {i : ℕ} (hi : t.slotOf [] = some i) :
    names.length ≤ i := by
  have hslot : [] = t.gToolNames i := by simpa using List.find?_some hi
  by_contra hlt
  rw [h.slot, List.getD_eq_getElem _ _ (not_le.mp hlt)] at hslot
  exact h.ne_nil (hslot ▸ List.getElem_mem _)

theorem Holds.descForName {δ : Type*} (h : Holds names t) (hn : n ≠ [])
    (gRegisteredTools : ℕ → Option δ) :
    t.descForName gRegisteredTools n =
      if n ∈ names then gRegisteredTools (names.idxOf n) else none := by
  rw [NameTable.descForName, h.slotOf hn]
  split_ifs <;> rfl

end NameTable

end Granary.Tool
