import Mathlib.Data.List.GetD
import Mathlib.Tactic

namespace Granary.Base.Bytes

open Function

variable {α : Type*} {mem mem' : ℕ → α} {a b i m n : ℕ} {xs ys : List α} {x : α}

def store (mem : ℕ → α) (a : ℕ) (xs : List α) : ℕ → α :=
  fun i ↦ if a ≤ i then xs.getD (i - a) (mem i) else mem i

def load (mem : ℕ → α) (a n : ℕ) : List α :=
  (List.range n).map fun i ↦ mem (a + i)

theorem store_of_lt (h : i < a) : store mem a xs i = mem i :=
  if_neg (Nat.not_le_of_lt h)

theorem store_of_ge (h : a + xs.length ≤ i) : store mem a xs i = mem i := by
  rw [store, if_pos (by omega), List.getD_eq_default]
  omega

theorem store_of_apart (h : i < a ∨ a + xs.length ≤ i) : store mem a xs i = mem i :=
  h.elim store_of_lt store_of_ge

theorem store_replicate (hle : a ≤ i) (hlt : i < a + n) :
    store mem a (List.replicate n x) i = x := by
  rw [store, if_pos hle, List.getD_eq_getElem _ _ (by rw [List.length_replicate]; omega),
    List.getElem_replicate]

theorem store_add (mem : ℕ → α) (a : ℕ) (h : i < xs.length) : store mem a xs (a + i) = xs[i] := by
  rw [store, if_pos (Nat.le_add_right a i), Nat.add_sub_cancel_left, List.getD_eq_getElem _ _ h]

@[simp] theorem store_nil : store mem a [] = mem := by
  ext i
  simp [store]

theorem store_singleton : store mem a [x] = update mem a x := by
  ext i
  obtain hlt | rfl | hgt := Nat.lt_trichotomy i a
  · rw [store_of_lt hlt, update_of_ne hlt.ne]
  · rw [update_self]
    exact store_add mem i (show 0 < [x].length from Nat.zero_lt_one)
  · rw [store_of_ge hgt, update_of_ne hgt.ne']

theorem store_append : store mem a (xs ++ ys) = store (store mem a xs) (a + xs.length) ys := by
  ext i
  by_cases hlt : i < a
  · rw [store_of_lt hlt, store_of_lt (by omega), store_of_lt hlt]
  obtain ⟨j, rfl⟩ := Nat.exists_eq_add_of_le (Nat.le_of_not_lt hlt)
  by_cases hleft : j < xs.length
  · have hframe : store (store mem a xs) (a + xs.length) ys (a + j) = store mem a xs (a + j) :=
      store_of_lt (by omega)
    rw [hframe, store_add _ _ hleft, store_add _ _ (by simp; omega), List.getElem_append_left hleft]
  obtain ⟨k, rfl⟩ := Nat.exists_eq_add_of_le (Nat.le_of_not_lt hleft)
  by_cases hright : k < ys.length
  · rw [← Nat.add_assoc, store_add _ _ hright, Nat.add_assoc, store_add _ _ (by simp; omega),
      List.getElem_append_right (by omega)]
    simp
  · rw [store_of_ge (by simp; omega), store_of_ge (by omega), store_of_ge (by omega)]

theorem store_cons : store mem a (x :: xs) = store (update mem a x) (a + 1) xs := by
  rw [← List.singleton_append, store_append, store_singleton]
  rfl

theorem store_set (h : i < xs.length) : store mem a (xs.set i x) = update (store mem a xs) (a + i) x := by
  ext j
  by_cases hj : j = a + i
  · rw [hj, update_self, store_add _ _ (by rwa [List.length_set]), List.getElem_set_self]
  · rw [update_of_ne hj]
    by_cases hlt : j < a
    · rw [store_of_lt hlt, store_of_lt hlt]
    obtain ⟨k, rfl⟩ := Nat.exists_eq_add_of_le (Nat.le_of_not_lt hlt)
    by_cases hk : k < xs.length
    · rw [store_add _ _ (by rwa [List.length_set]), store_add _ _ hk, List.getElem_set_ne (by omega)]
    · rw [store_of_ge (by simp; omega), store_of_ge (by omega)]

theorem store_store (h : xs.length ≤ ys.length) : store (store mem a xs) a ys = store mem a ys := by
  ext j
  by_cases hlt : j < a
  · rw [store_of_lt hlt, store_of_lt hlt, store_of_lt hlt]
  obtain ⟨k, rfl⟩ := Nat.exists_eq_add_of_le (Nat.le_of_not_lt hlt)
  by_cases hk : k < ys.length
  · rw [store_add _ _ hk, store_add _ _ hk]
  · rw [store_of_ge (by omega), store_of_ge (by omega), store_of_ge (by omega)]

theorem store_comm (h : a + xs.length ≤ b) :
    store (store mem b ys) a xs = store (store mem a xs) b ys := by
  ext j
  by_cases hlt : j < b
  · rw [store_of_lt hlt]
    by_cases hlt' : j < a
    · rw [store_of_lt hlt', store_of_lt hlt', store_of_lt hlt]
    obtain ⟨k, rfl⟩ := Nat.exists_eq_add_of_le (Nat.le_of_not_lt hlt')
    by_cases hk : k < xs.length
    · rw [store_add _ _ hk, store_add _ _ hk]
    · have hge : a + xs.length ≤ a + k := by omega
      rw [store_of_ge hge, store_of_ge hge, store_of_lt hlt]
  · rw [store_of_ge (a := a) (by omega)]
    obtain ⟨k, rfl⟩ := Nat.exists_eq_add_of_le (Nat.le_of_not_lt hlt)
    by_cases hk : k < ys.length
    · rw [store_add _ _ hk, store_add _ _ hk]
    · rw [store_of_ge (by omega), store_of_ge (by omega), store_of_ge (by omega)]

@[simp] theorem length_load : (load mem a n).length = n := by
  simp [load]

theorem getElem?_load (mem : ℕ → α) (a : ℕ) (h : i < n) :
    (load mem a n)[i]? = some (mem (a + i)) := by
  simp [load, h]

theorem load_congr (h : ∀ i, a ≤ i → i < a + n → mem i = mem' i) :
    load mem a n = load mem' a n := by
  apply List.map_congr_left
  intro i hi
  apply h
  · omega
  · rw [List.mem_range] at hi
    omega

theorem load_add : load mem a (m + n) = load mem a m ++ load mem (a + m) n := by
  rw [load, load, load, List.range_add, List.map_append, List.map_map]
  simp only [Function.comp_def, Nat.add_assoc]

theorem load_succ : load mem a (n + 1) = mem a :: load mem (a + 1) n := by
  rw [Nat.add_comm n 1, load_add]
  rfl

theorem load_update_length (hxs : load mem a xs.length = xs) :
    load (update mem (a + xs.length) x) a (xs ++ [x]).length = xs ++ [x] := by
  have hold : load (update mem (a + xs.length) x) a xs.length = load mem a xs.length :=
    load_congr fun i _ hlt ↦ update_of_ne (by omega) ..
  rw [List.length_append, List.length_singleton, load_add, hold, hxs]
  simp [load]

theorem load_store (mem : ℕ → α) (a : ℕ) (xs : List α) : load (store mem a xs) a xs.length = xs := by
  apply List.ext_getElem
  · simp
  · intro i hi hi'
    simp only [load, List.getElem_map, List.getElem_range]
    exact store_add mem a hi'

theorem load_store_drop (mem : ℕ → α) (a : ℕ) (h : n ≤ xs.length) :
    load (store mem a xs) (a + n) (xs.length - n) = xs.drop n := by
  have hload := load_store mem a xs
  rw [← Nat.add_sub_of_le h, load_add] at hload
  have hdrop := congrArg (List.drop n) hload
  rwa [List.drop_left' length_load] at hdrop

section Numbers

def encode : (n : ℕ) → ℕ → List (BitVec 8)
  | 0, _ => []
  | n + 1, v => BitVec.ofNat 8 v :: encode n (v / 256)

def decode : List (BitVec 8) → ℕ
  | [] => 0
  | byte :: bytes => byte.toNat + 256 * decode bytes

@[simp] theorem length_encode (n v : ℕ) : (encode n v).length = n := by
  induction n generalizing v with
  | zero => rfl
  | succ n ih => rw [encode, List.length_cons, ih]

theorem decode_encode {n v : ℕ} (h : v < 256 ^ n) : decode (encode n v) = v := by
  induction n generalizing v with
  | zero =>
    rw [pow_zero] at h
    rw [encode, decode]
    omega
  | succ n ih =>
    have hdiv : v / 256 < 256 ^ n := by
      apply Nat.div_lt_of_lt_mul
      rwa [pow_succ, Nat.mul_comm] at h
    rw [encode, decode, ih hdiv, BitVec.toNat_ofNat]
    exact Nat.mod_add_div v 256

end Numbers

end Granary.Base.Bytes
