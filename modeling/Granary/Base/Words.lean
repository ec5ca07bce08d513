import Mathlib.Data.List.Basic
import Mathlib.Data.List.DropRight
import Mathlib.Algebra.Order.BigOperators.Group.List
import Mathlib.Tactic

namespace Granary.Base.Words

variable {α : Type*} {p : α → Bool} {xs ys w : List α} {sep : α}

/-- The maximal runs of elements that are not separators. -/
def words (p : α → Bool) (xs : List α) : List (List α) :=
  (xs.splitOnP p).filter fun w ↦ !w.isEmpty

@[simp] theorem words_nil : words p [] = [] := by
  simp [words]

theorem words_append_cons (hsep : p sep = true) (xs ys : List α) :
    words p (xs ++ sep :: ys) = words p xs ++ words p ys := by
  rw [words, List.splitOnP_append_cons xs ys hsep, List.filter_append, words, words]

theorem words_cons (hsep : p sep = true) (xs : List α) : words p (sep :: xs) = words p xs := by
  have h := words_append_cons hsep [] xs
  rwa [List.nil_append, words_nil, List.nil_append] at h

theorem words_eq_singleton (h : ∀ x ∈ xs, p x = false) (hne : xs ≠ []) : words p xs = [xs] := by
  rw [words, List.splitOnP_eq_singleton h]
  simp [hne]

theorem exists_separator (p : α → Bool) (xs : List α) :
    (∀ x ∈ xs, p x = false) ∨
      ∃ before sep after, xs = before ++ sep :: after ∧ p sep = true ∧ ∀ x ∈ before, p x = false := by
  induction xs with
  | nil => exact Or.inl (by simp)
  | cons x xs ih =>
    by_cases hx : p x = true
    · exact Or.inr ⟨[], x, xs, rfl, hx, by simp⟩
    rw [Bool.not_eq_true] at hx
    obtain hall | ⟨before, sep, after, rfl, hsep, hbefore⟩ := ih
    · exact Or.inl (List.forall_mem_cons.2 ⟨hx, hall⟩)
    · exact Or.inr ⟨x :: before, sep, after, rfl, hsep, List.forall_mem_cons.2 ⟨hx, hbefore⟩⟩

theorem length_le_of_mem_words (h : w ∈ words p xs) : w.length ≤ xs.length := by
  induction hn : xs.length using Nat.strong_induction_on generalizing xs with
  | _ n ih =>
    obtain hall | ⟨before, sep, after, rfl, hsep, hbefore⟩ := exists_separator p xs
    · by_cases hne : xs = []
      · simp [hne] at h
      · rw [words_eq_singleton hall hne, List.mem_singleton] at h
        rw [h, hn]
    · rw [words_append_cons hsep, List.mem_append] at h
      simp only [List.length_append, List.length_cons] at hn
      rcases h with h | h
      · have hle := ih before.length (by omega) h rfl
        omega
      · have hle := ih after.length (by omega) h rfl
        omega

/-- A text that starts with `n` elements of which none is a separator has a word of that length. -/
theorem exists_long_word {n : ℕ} (hpos : 0 < n) (hlen : n ≤ xs.length)
    (h : ∀ x ∈ xs.take n, p x = false) : ∃ w ∈ words p xs, n ≤ w.length := by
  have hne : xs ≠ [] := by
    rintro rfl
    simp only [List.length_nil] at hlen
    omega
  obtain hall | ⟨before, sep, after, rfl, hsep, hbefore⟩ := exists_separator p xs
  · exact ⟨xs, by simp [words_eq_singleton hall hne], hlen⟩
  · have hlong : n ≤ before.length := by
      by_contra hlt
      have hmem : sep ∈ (before ++ sep :: after).take n := by
        rw [List.take_append, List.mem_append]
        apply Or.inr
        rw [List.take_cons (by omega)]
        exact List.mem_cons_self
      rw [h sep hmem] at hsep
      exact Bool.noConfusion hsep
    refine ⟨before, ?_, hlong⟩
    rw [words_append_cons hsep, words_eq_singleton hbefore (by rintro rfl; simp at hlong; omega)]
    exact List.mem_cons_self

/-- Two ways to replace each element by some are the same only if they are for each element, when one
of them never gives less. -/
theorem flatMap_eq_flatMap_iff {β : Type*} {f g : α → List β}
    (h : ∀ x ∈ xs, (g x).length ≤ (f x).length) :
    xs.flatMap f = xs.flatMap g ↔ ∀ x ∈ xs, f x = g x := by
  refine ⟨fun heq ↦ ?_, fun heq ↦ List.flatMap_congr heq⟩
  induction xs with
  | nil => exact fun x hx ↦ absurd hx List.not_mem_nil
  | cons x xs ih =>
    obtain ⟨hx, hxs⟩ := List.forall_mem_cons.1 h
    have hle : (xs.flatMap g).length ≤ (xs.flatMap f).length := by
      rw [List.length_flatMap, List.length_flatMap]
      exact List.sum_le_sum hxs
    rw [List.flatMap_cons, List.flatMap_cons] at heq
    have hlength := congrArg List.length heq
    rw [List.length_append, List.length_append] at hlength
    obtain ⟨hhead, hrest⟩ := List.append_inj heq (by omega)
    exact List.forall_mem_cons.2 ⟨hhead, ih hxs hrest⟩

section Trim

def trim (p : α → Bool) (xs : List α) : List α :=
  (xs.dropWhile p).rdropWhile p

theorem of_getLast?_trim {x : α} (h : (trim p xs).getLast? = some x) : p x = false := by
  have hne : trim p xs ≠ [] := by
    intro hnil
    rw [hnil] at h
    cases h
  rw [List.getLast?_eq_getLast_of_ne_nil hne, Option.some_inj] at h
  rw [← h, ← Bool.not_eq_true]
  exact List.rdropWhile_last_not p _ hne

theorem trim_eq_nil_iff : trim p xs = [] ↔ ∀ x ∈ xs, p x = true := by
  rw [trim, List.rdropWhile_eq_nil_iff]
  constructor
  · intro h x hx
    rw [← List.takeWhile_append_dropWhile (p := p) (l := xs), List.mem_append] at hx
    rcases hx with hx | hx
    · exact List.mem_takeWhile_imp hx
    · exact h x hx
  · intro h x hx
    exact h x ((List.dropWhile_suffix p).subset hx)

end Trim

end Granary.Base.Words
