import Mathlib.Data.List.Basic
import Mathlib.Tactic

namespace Granary.Base.Memory

section Cells

variable {ι : Type*}

def CodeAt (code : ℕ → Option ι) : ℕ → List ι → Prop
  | _, [] => True
  | pc, i :: is => code pc = some i ∧ CodeAt code (pc + 1) is

def write (code : ℕ → Option ι) (pc : ℕ) (is : List ι) (p : ℕ) : Option ι :=
  if pc ≤ p ∧ p < pc + is.length then is[p - pc]? else code p

def free (code : ℕ → Option ι) (pc n : ℕ) : Bool :=
  (List.range n).all fun i ↦ (code (pc + i)).isNone

variable {code code' : ℕ → Option ι} {pc p : ℕ} {is js : List ι}

theorem codeAt_append :
    CodeAt code pc (is ++ js) ↔ CodeAt code pc is ∧ CodeAt code (pc + is.length) js := by
  induction is generalizing pc with
  | nil => simp [CodeAt]
  | cons i is ih =>
    rw [List.cons_append, CodeAt, CodeAt, ih, List.length_cons, and_assoc,
      show pc + 1 + is.length = pc + (is.length + 1) by omega]

theorem CodeAt.occupied (h : CodeAt code pc is) (hle : pc ≤ p) (hlt : p < pc + is.length) :
    code p ≠ none := by
  induction is generalizing pc with
  | nil =>
    rw [List.length_nil] at hlt
    omega
  | cons i is ih =>
    rw [List.length_cons] at hlt
    rcases hle.eq_or_lt with rfl | hlt'
    · simp [h.1]
    · exact ih h.2 hlt' (by omega)

theorem CodeAt.mono (h : CodeAt code pc is) (hcode : ∀ q, code q ≠ none → code' q = code q) :
    CodeAt code' pc is := by
  induction is generalizing pc with
  | nil => trivial
  | cons i is ih => exact ⟨by rw [hcode pc (by simp [h.1]), h.1], ih h.2⟩

theorem free_eq_true {n : ℕ} : free code pc n = true ↔ ∀ i < n, code (pc + i) = none := by
  simp [free]

theorem write_of_occupied (hfree : free code pc is.length = true) (hp : code p ≠ none) :
    write code pc is p = code p := by
  apply if_neg
  intro hin
  have h := free_eq_true.1 hfree (p - pc) (by omega)
  rw [Nat.add_sub_cancel' hin.1] at h
  exact hp h

theorem codeAt_of_getElem? (h : ∀ i < is.length, code (pc + i) = is[i]?) : CodeAt code pc is := by
  induction is generalizing pc with
  | nil => trivial
  | cons i is ih =>
    refine ⟨h 0 (by simp), ih fun j hj ↦ ?_⟩
    rw [show pc + 1 + j = pc + (j + 1) by omega, h (j + 1) (by simpa using hj),
      List.getElem?_cons_succ]

theorem codeAt_write (code : ℕ → Option ι) (pc : ℕ) (is : List ι) :
    CodeAt (write code pc is) pc is := by
  apply codeAt_of_getElem?
  intro i hi
  rw [write, if_pos ⟨by omega, by omega⟩, Nat.add_sub_cancel_left]

end Cells

section Until

variable {σ : Type*} (stop : σ → Bool) (step : σ → Option σ)

def runUntil : ℕ → σ → Option σ
  | 0, _ => none
  | fuel + 1, s => if stop s then some s else (step s).bind (runUntil fuel)

def Goes (s t : σ) : Prop :=
  ∃ k, ∀ fuel, runUntil stop step (k + fuel) s = runUntil stop step fuel t

variable {stop step} {s t u : σ}

theorem Goes.refl (s : σ) : Goes stop step s s :=
  ⟨0, fun fuel ↦ by rw [Nat.zero_add]⟩

theorem Goes.trans (h : Goes stop step s t) (h' : Goes stop step t u) : Goes stop step s u := by
  obtain ⟨k, hk⟩ := h
  obtain ⟨l, hl⟩ := h'
  exact ⟨k + l, fun fuel ↦ by rw [Nat.add_assoc, hk, hl]⟩

theorem Goes.one (hs : stop s = false) (h : step s = some t) : Goes stop step s t :=
  ⟨1, fun fuel ↦ by rw [Nat.add_comm, runUntil, hs, h, Option.bind_some, if_neg (by simp)]⟩

theorem Goes.ends (h : Goes stop step s t) (ht : stop t = true) :
    ∃ N, ∀ fuel, N ≤ fuel → runUntil stop step fuel s = some t := by
  obtain ⟨k, hk⟩ := h
  refine ⟨k + 1, fun fuel hfuel ↦ ?_⟩
  obtain ⟨n, rfl⟩ := Nat.exists_eq_add_of_le hfuel
  rw [Nat.add_assoc, hk, Nat.add_comm, runUntil, if_pos ht]

end Until

end Granary.Base.Memory
