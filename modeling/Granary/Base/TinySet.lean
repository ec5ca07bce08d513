import Mathlib.Data.Finset.Basic
import Mathlib.Data.Finset.Dedup
import Mathlib.Data.List.Nodup
import Mathlib.Tactic

namespace Granary.Base

abbrev TinySet (α : Type*) := List α

namespace TinySet

variable {α : Type*} [DecidableEq α]

def add (s : TinySet α) (a : α) : TinySet α := if a ∈ s then s else s ++ [a]

def remove (s : TinySet α) (a : α) : TinySet α := s.filter (· ≠ a)

def union (s t : TinySet α) : TinySet α := t.foldl add s

theorem union_concat (s t : TinySet α) (a : α) : s.union (t ++ [a]) = (s.union t).add a := by
  rw [union, List.foldl_append]
  rfl

theorem union_eq_self {s t : TinySet α} (h : ∀ a ∈ t, a ∈ s) : s.union t = s := by
  induction t with
  | nil => rfl
  | cons a t ih =>
    obtain ⟨ha, ht⟩ := List.forall_mem_cons.mp h
    rw [union, List.foldl_cons, add, if_pos ha]
    exact ih ht

def Same (s t : TinySet α) : Prop := ∀ a, a ∈ s ↔ a ∈ t

@[simp] theorem mem_add {s : TinySet α} {a b : α} : b ∈ s.add a ↔ b ∈ s ∨ b = a := by
  unfold add
  split_ifs with h
  · exact ⟨Or.inl, fun hb ↦ hb.elim id fun e ↦ e ▸ h⟩
  · simp

@[simp] theorem mem_remove {s : TinySet α} {a b : α} : b ∈ s.remove a ↔ b ∈ s ∧ b ≠ a := by
  simp [remove]

@[simp] theorem mem_union {s t : TinySet α} {b : α} : b ∈ s.union t ↔ b ∈ s ∨ b ∈ t := by
  unfold union
  induction t generalizing s with
  | nil => simp
  | cons a t ih =>
    rw [List.foldl_cons, ih, mem_add, List.mem_cons]
    tauto

theorem nodup_add {s : TinySet α} (h : s.Nodup) (a : α) : (s.add a).Nodup := by
  unfold add
  split_ifs with ha
  · exact h
  · rw [← List.concat_eq_append]
    exact h.concat ha

theorem nodup_remove {s : TinySet α} (h : s.Nodup) (a : α) : (s.remove a).Nodup :=
  h.filter _

theorem remove_middle {s t : TinySet α} {a : α} (h : (s ++ a :: t).Nodup) :
    TinySet.remove (s ++ a :: t) a = s ++ t := by
  have ha : a ∉ s ++ t := (List.nodup_cons.mp (List.nodup_middle.mp h)).1
  have hne : ∀ b ∈ s ++ t, decide (b ≠ a) = true := fun b hb ↦
    decide_eq_true (ne_of_mem_of_not_mem hb ha)
  rw [remove, List.filter_append, List.filter_cons_of_neg (by simp), ← List.filter_append]
  exact List.filter_eq_self.mpr hne

@[simp] theorem toFinset_add (s : TinySet α) (a : α) :
    (s.add a).toFinset = insert a s.toFinset := by
  ext b
  rw [Finset.mem_insert, List.mem_toFinset, List.mem_toFinset, mem_add, or_comm]

@[simp] theorem toFinset_remove (s : TinySet α) (a : α) :
    (s.remove a).toFinset = s.toFinset.erase a := by
  ext b
  rw [Finset.mem_erase, List.mem_toFinset, List.mem_toFinset, mem_remove, and_comm]

@[simp] theorem toFinset_union (s t : TinySet α) :
    (s.union t).toFinset = s.toFinset ∪ t.toFinset := by
  ext b
  rw [Finset.mem_union, List.mem_toFinset, List.mem_toFinset, List.mem_toFinset, mem_union]

instance (s t : TinySet α) : Decidable (Same s t) :=
  decidable_of_iff ((∀ a ∈ s, a ∈ t) ∧ ∀ a ∈ t, a ∈ s)
    ⟨fun h a ↦ ⟨h.1 a, h.2 a⟩, fun h ↦ ⟨fun a ↦ (h a).1, fun a ↦ (h a).2⟩⟩

end TinySet

end Granary.Base
