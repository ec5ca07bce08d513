import Mathlib.Data.List.Basic
import Mathlib.Logic.Function.Basic
import Mathlib.Tactic

namespace Granary.Base.Chain

open Function

variable {α σ R V : Type*}

/-- Following `next` from `o` visits the elements of `l`, and then arrives at `e`. -/
def Path (next : α → Option α) : Option α → List α → Option α → Prop
  | o, [], e => o = e
  | o, a :: l, e => o = some a ∧ Path next (next a) l e

theorem path_congr {next next' : α → Option α} {o e : Option α} {l : List α}
    (h : ∀ a ∈ l, next' a = next a) (hp : Path next o l e) : Path next' o l e := by
  induction l generalizing o with
  | nil => exact hp
  | cons a l ih =>
    obtain ⟨ho, hl⟩ := hp
    refine ⟨ho, ?_⟩
    rw [h a List.mem_cons_self]
    exact ih (fun b hb ↦ h b (List.mem_cons_of_mem a hb)) hl

theorem path_concat {next : α → Option α} {o e : Option α} {l : List α} {a : α} :
    Path next o (l ++ [a]) e ↔ Path next o l (some a) ∧ next a = e := by
  induction l generalizing o with
  | nil => exact Iff.rfl
  | cons b l ih =>
    rw [List.cons_append, Path, Path, ih]
    tauto

theorem path_append {next : α → Option α} {o e : Option α} {l r : List α} :
    Path next o (l ++ r) e ↔ ∃ m, Path next o l m ∧ Path next m r e := by
  induction l generalizing o with
  | nil => exact ⟨fun h ↦ ⟨o, rfl, h⟩, fun ⟨m, hm, h⟩ ↦ by rwa [show o = m from hm]⟩
  | cons a l ih =>
    rw [List.cons_append, Path, ih]
    exact ⟨fun ⟨ho, m, hl, hr⟩ ↦ ⟨m, ⟨ho, hl⟩, hr⟩, fun ⟨m, ⟨ho, hl⟩, hr⟩ ↦ ⟨ho, m, hl, hr⟩⟩

theorem path_head {next : α → Option α} {o : Option α} {l : List α} (h : Path next o l none) :
    o = l.head? := by
  cases l with
  | nil => exact h
  | cons a l => exact h.1

theorem path_next_mem {next : α → Option α} {o : Option α} {l : List α} {a b : α}
    (h : Path next o l none) (ha : a ∈ l) (hb : next a = some b) :
    ∃ pre post, l = pre ++ a :: b :: post := by
  induction l generalizing o with
  | nil => exact absurd ha List.not_mem_nil
  | cons c l ih =>
    rcases List.mem_cons.mp ha with rfl | ha
    · cases l with
      | nil =>
        have hnone : next a = none := h.2
        rw [hb] at hnone
        exact absurd hnone (by simp)
      | cons d l =>
        have hd : next a = some d := h.2.1
        rw [hb] at hd
        obtain rfl := Option.some.inj hd
        exact ⟨[], l, rfl⟩
    · obtain ⟨pre, post, rfl⟩ := ih h.2 ha
      exact ⟨c :: pre, post, rfl⟩

theorem path_unique {next : α → Option α} {o : Option α} {l m : List α}
    (hl : Path next o l none) (hm : Path next o m none) : l = m := by
  induction l generalizing o m with
  | nil =>
    obtain rfl : o = none := hl
    cases m with
    | nil => rfl
    | cons b m => exact absurd hm.1 (by simp)
  | cons a l ih =>
    obtain ⟨rfl, hl⟩ := hl
    cases m with
    | nil => exact absurd hm (by simp [Path])
    | cons b m =>
      obtain rfl := Option.some.inj hm.1
      exact congrArg (a :: ·) (ih hl hm.2)

/-- `for (auto a : LinkedListIterator(o))`, cut off after `fuel` elements. -/
def walk (next : σ → α → Option α) (body : σ → α → σ) : ℕ → Option α → σ → Option σ
  | _, none, s => some s
  | 0, some _, _ => none
  | n + 1, some a, s => walk next body n (next (body s a) a) (body s a)

theorem walk_eq_foldl {next : σ → α → Option α} {body : σ → α → σ}
    (hbody : ∀ s a b, next (body s a) b = next s b) {o : Option α} {l : List α} {s : σ} {n : ℕ}
    (h : Path (next s) o l none) (hn : l.length ≤ n) :
    walk next body n o s = some (l.foldl body s) := by
  induction l generalizing o s n with
  | nil =>
    rw [show o = none from h]
    cases n <;> rfl
  | cons a l ih =>
    obtain ⟨rfl, hl⟩ := h
    obtain ⟨n, rfl⟩ : ∃ k, n = k + 1 := ⟨n - 1, by rw [List.length_cons] at hn; omega⟩
    rw [List.length_cons] at hn
    rw [walk, hbody, List.foldl_cons]
    exact ih (path_congr (fun b _ ↦ hbody s a b) hl) (by omega)

theorem walk_self {next : σ → α → Option α} {body : σ → α → σ}
    (hbody : ∀ s a b, next (body s a) b = next s b) {a : α} {s : σ} (h : next s a = some a)
    (n : ℕ) : walk next body n (some a) s = none := by
  induction n generalizing s with
  | zero => rfl
  | succ n ih =>
    rw [walk, hbody, h]
    exact ih (by rw [hbody, h])

/-- A loop over a list that reads the successor of an element before its body runs. It fails where
one of the two does, and is cut off after `fuel` elements. -/
def drain (next : σ → α → Option (Option α)) (body : σ → α → Option σ) : ℕ → Option α → σ → Option σ
  | _, none, s => some s
  | 0, some _, _ => none
  | n + 1, some a, s =>
    match next s a, body s a with
    | some o, some s' => drain next body n o s'
    | _, _ => none

/-- `I` tells the elements that are left from the state, and holds from turn to turn. -/
theorem drain_rule {f : σ → α → Option (Option α)} {g : σ → α → Option σ}
    {I : List α → σ → Prop} (hturn : ∀ a l s, I (a :: l) s →
      f s a = some l.head? ∧ ∃ s', g s a = some s' ∧ I l s')
    {l : List α} {s : σ} {n : ℕ} (hs : I l s) (hn : l.length ≤ n) :
    ∃ s', drain f g n l.head? s = some s' ∧ I [] s' := by
  induction l generalizing s n with
  | nil => exact ⟨s, by cases n <;> rfl, hs⟩
  | cons a l ih =>
    obtain ⟨hnext, s', hbody, hs'⟩ := hturn a l s hs
    rw [List.length_cons] at hn
    obtain ⟨n, rfl⟩ : ∃ m, n = m + 1 := ⟨n - 1, by omega⟩
    obtain ⟨u, hu, hI⟩ := ih hs' (Nat.le_of_succ_le_succ hn)
    refine ⟨u, ?_, hI⟩
    rw [List.head?_cons, drain, hnext, hbody]
    exact hu

/-- A loop over a list that is left at the first element with `p`, cut off after `fuel` elements. -/
def search (next : α → Option α) (p : α → Bool) : ℕ → Option α → Option (Option α)
  | _, none => some none
  | 0, some _ => none
  | n + 1, some a => if p a then some (some a) else search next p n (next a)

theorem search_eq_find? {next : α → Option α} {p : α → Bool} {o : Option α} {l : List α} {n : ℕ}
    (h : Path next o l none) (hn : l.length ≤ n) : search next p n o = some (l.find? p) := by
  induction l generalizing o n with
  | nil =>
    rw [show o = none from h]
    cases n <;> rfl
  | cons a l ih =>
    obtain ⟨rfl, hl⟩ := h
    rw [List.length_cons] at hn
    obtain ⟨n, rfl⟩ : ∃ m, n = m + 1 := ⟨n - 1, by omega⟩
    rw [search, List.find?_cons]
    cases hp : p a with
    | true => rfl
    | false => exact ih hl (by omega)

theorem path_next {next : α → Option α} {o : Option α} {done rest : List α} {a : α}
    (h : Path next o (done ++ a :: rest) none) : Path next (next a) rest none := by
  obtain ⟨m, -, ha⟩ := path_append.mp h
  exact ha.2

/-- A loop over a list that grows: what the body does at an element may put elements behind it, at
which it then does nothing. -/
theorem walk_eq_foldl_of_grows {next : σ → α → Option α} {body : σ → α → σ} {list : σ → List α}
    {P : σ → Prop} (hpath : ∀ s, P s → Path (next s) (list s).head? (list s) none)
    (hbody : ∀ d a rest s, P s → list s = d ++ a :: rest → P (body s a) ∧ ∃ new,
      list (body s a) = d ++ a :: (new ++ rest) ∧ ∀ b ∈ new, body (body s a) b = body s a)
    {d rest : List α} {s : σ} (hP : P s) (hs : list s = d ++ rest) :
    ∃ N, ∀ n, N ≤ n → walk next body n rest.head? s = some (rest.foldl body s) := by
  have hskip {s : σ} {new p rest : List α} {n : ℕ}
      (hs : Path (next s) (list s).head? (list s) none) (hl : list s = p ++ (new ++ rest))
      (hnew : ∀ b ∈ new, body s b = s) :
      walk next body (n + new.length) (new ++ rest).head? s = walk next body n rest.head? s := by
    induction new generalizing p with
    | nil => rfl
    | cons b new ih =>
      rw [List.forall_mem_cons] at hnew
      have hb : Path (next s) (list s).head? (p ++ b :: (new ++ rest)) none := by
        rw [hl] at hs ⊢
        exact hs
      have hstep := ih (p := p ++ [b]) (by simp [hl]) hnew.2
      rw [List.length_cons, ← Nat.add_assoc, List.cons_append, List.head?_cons, walk, hnew.1,
        path_head (path_next hb)]
      exact hstep
  induction rest generalizing s d with
  | nil => exact ⟨0, fun n _ ↦ by cases n <;> rfl⟩
  | cons a rest ih =>
    obtain ⟨hkeep, new, hl, hquiet⟩ := hbody d a rest s hP hs
    obtain ⟨N, hN⟩ := ih (d := d ++ a :: new) hkeep (by rw [hl]; simp)
    have hp := hpath _ hkeep
    have ha : Path (next (body s a)) (list (body s a)).head? (d ++ a :: (new ++ rest)) none := by
      rw [← hl]
      exact hp
    refine ⟨N + new.length + 1, fun n hn ↦ ?_⟩
    obtain ⟨m, rfl⟩ : ∃ m, n = m + new.length + 1 := ⟨n - new.length - 1, by omega⟩
    rw [List.head?_cons, walk, path_head (path_next ha),
      hskip hp (p := d ++ [a]) (by simp [hl]) hquiet, List.foldl_cons]
    exact hN m (by omega)

theorem search_filter {next : α → Option α} {p : α → Bool} {o : Option α} {l : List α} {n : ℕ}
    (h : Path next o l none) (hn : l.length ≤ n) : search next p n o = some (l.filter p).head? := by
  rw [search_eq_find? h hn, List.head?_filter]

theorem search_filter_next {next : α → Option α} {p : α → Bool} {o : Option α}
    {l done rest : List α} {a : α} {n : ℕ} (h : Path next o l none)
    (hl : l.filter p = done ++ a :: rest) (hn : l.length ≤ n) :
    search next p n (next a) = some rest.head? := by
  obtain ⟨l₁, l₂, rfl, -, h₂⟩ := List.filter_eq_append_iff.mp hl
  obtain ⟨m₁, m₂, rfl, -, -, hrest⟩ := List.filter_eq_cons_iff.mp h₂
  rw [← List.append_assoc] at h hn
  rw [search_filter (path_next h) (by simp at hn; omega), hrest]

section Heads

variable {κ : Type*} {next : α → Option α} {head : κ → Option α} {l l' : κ → List α} {a b : α}

def Heads (next : α → Option α) (head : κ → Option α) (l : κ → List α) : Prop :=
  ∀ k, Path next (head k) (l k) none

theorem Heads.unique (h : Heads next head l) (h' : Heads next head l') : l = l' :=
  funext fun k ↦ path_unique (h k) (h' k)

theorem Heads.frame [DecidableEq α] (h : Heads next head l) (ha : ∀ k, a ∉ l k) (o : Option α) :
    Heads (update next a o) head l :=
  fun k ↦ path_congr (fun _ hb ↦ update_of_ne (ne_of_mem_of_not_mem hb (ha k)) o next) (h k)

variable [DecidableEq κ]

theorem Heads.push [DecidableEq α] (h : Heads next head l) (ha : ∀ k, a ∉ l k) (k : κ) :
    Heads (update next a (head k)) (update head k (some a)) (update l k (a :: l k)) := by
  intro j
  have hframe := h.frame ha (head k)
  rcases eq_or_ne j k with rfl | hj
  · rw [update_self, update_self]
    refine ⟨rfl, ?_⟩
    rw [update_self]
    exact hframe j
  · rw [update_of_ne hj, update_of_ne hj]
    exact hframe j

theorem mem_update_cons {k j : κ} :
    b ∈ update l k (a :: l k) j ↔ b = a ∧ j = k ∨ b ∈ l j := by
  rcases eq_or_ne j k with rfl | hj
  · simp
  · simp [hj]

theorem nodup_update_cons {k : κ} (hl : ∀ j, (l j).Nodup) (ha : ∀ j, a ∉ l j) (j : κ) :
    (update l k (a :: l k) j).Nodup := by
  rcases eq_or_ne j k with rfl | hj
  · rw [update_self]
    exact List.nodup_cons.mpr ⟨ha j, hl j⟩
  · rw [update_of_ne hj]
    exact hl j

end Heads

variable [DecidableEq α]

/-- A loop that changes the record of each element, and whose body reads the
records of the other elements through `view` only, which it does not change, does
the same as if the body read everything before the loop. -/
theorem foldl_update {F : (α → R) → α → R} {view : R → V}
    (hview : ∀ h a, view (F h a) = view (h a))
    (hlocal : ∀ h h' a, h a = h' a → (∀ b, view (h b) = view (h' b)) → F h a = F h' a)
    {l : List α} (hl : l.Nodup) (h : α → R) (a : α) :
    l.foldl (fun h a ↦ update h a (F h a)) h a = if a ∈ l then F h a else h a := by
  induction l generalizing h with
  | nil => rfl
  | cons b l ih =>
    obtain ⟨hb, hl⟩ := List.nodup_cons.mp hl
    rw [List.foldl_cons, ih hl]
    by_cases hab : a = b
    · subst hab
      rw [if_neg hb, if_pos List.mem_cons_self, update_self]
    · rw [update_of_ne hab]
      have hF : F (update h b (F h b)) a = F h a := by
        refine hlocal _ _ _ (update_of_ne hab _ _) fun c ↦ ?_
        rcases eq_or_ne c b with rfl | hc
        · rw [update_self, hview]
        · rw [update_of_ne hc]
      simp only [hF, List.mem_cons, hab, false_or]

end Granary.Base.Chain
