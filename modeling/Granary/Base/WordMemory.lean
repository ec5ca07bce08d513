import Mathlib.Data.BitVec
import Mathlib.Data.Set.Function
import Mathlib.Logic.Function.Basic
import Mathlib.Tactic

namespace Granary.Base.WordMemory

abbrev Mem := BitVec 64 → BitVec 8

def load (mem : Mem) (a : BitVec 64) : BitVec 64 :=
  mem (a + 7) ++ mem (a + 6) ++ mem (a + 5) ++ mem (a + 4) ++ mem (a + 3) ++ mem (a + 2) ++
    mem (a + 1) ++ mem a

def store (mem : Mem) (a v : BitVec 64) : Mem :=
  fun b ↦ if (b - a).toNat < 8 then v.extractLsb' (8 * (b - a).toNat) 8 else mem b

def Span (lo hi : ℕ) : Set (BitVec 64) :=
  {b | lo ≤ b.toNat ∧ b.toNat < hi}

variable {mem mem' : Mem} {a b v : BitVec 64} {lo hi lo' hi' k n : ℕ}

theorem mem_span : b ∈ Span lo hi ↔ lo ≤ b.toNat ∧ b.toNat < hi :=
  Iff.rfl

theorem span_subset (hlo : lo' ≤ lo) (hhi : hi ≤ hi') : Span lo hi ⊆ Span lo' hi' :=
  fun _ hb ↦ ⟨hlo.trans hb.1, hb.2.trans_le hhi⟩

theorem sub_lt_eight (ha : a.toNat + 8 ≤ 2 ^ 64) :
    (b - a).toNat < 8 ↔ b ∈ Span a.toNat (a.toNat + 8) := by
  rw [mem_span, BitVec.toNat_sub]
  omega

theorem store_of_notMem (ha : a.toNat + 8 ≤ 2 ^ 64) (hb : b ∉ Span a.toNat (a.toNat + 8)) :
    store mem a v b = mem b :=
  if_neg fun h ↦ hb ((sub_lt_eight ha).1 h)

theorem eqOn_store {K : Set (BitVec 64)} (ha : a.toNat + 8 ≤ 2 ^ 64)
    (hK : ∀ b ∈ K, b ∉ Span a.toNat (a.toNat + 8)) : Set.EqOn (store mem a v) mem K :=
  fun _ hb ↦ store_of_notMem ha (hK _ hb)

theorem store_add (mem : Mem) (a v : BitVec 64) (hk : k < 8) :
    store mem a v (a + BitVec.ofNat 64 k) = v.extractLsb' (8 * k) 8 := by
  have hsub : (a + BitVec.ofNat 64 k - a).toNat = k := by
    rw [add_sub_cancel_left, BitVec.toNat_ofNat, Nat.mod_eq_of_lt (by omega)]
  rw [store, hsub, if_pos hk]

theorem append_extractLsb' (v : BitVec 64) :
    v.extractLsb' 56 8 ++ v.extractLsb' 48 8 ++ v.extractLsb' 40 8 ++ v.extractLsb' 32 8 ++
      v.extractLsb' 24 8 ++ v.extractLsb' 16 8 ++ v.extractLsb' 8 8 ++ v.extractLsb' 0 8 = v := by
  have hjoin : ∀ start len : ℕ, v.extractLsb' (start + 8) len ++ v.extractLsb' start 8 =
      v.extractLsb' start (len + 8) :=
    fun _ _ ↦ BitVec.extractLsb'_append_extractLsb'_eq_extractLsb' rfl
  rw [hjoin 48, hjoin 40, hjoin 32, hjoin 24, hjoin 16, hjoin 8, hjoin 0]
  exact BitVec.extractLsb'_eq_self

@[simp] theorem load_store (mem : Mem) (a v : BitVec 64) : load (store mem a v) a = v := by
  have hbyte : ∀ k < 8, store mem a v (a + BitVec.ofNat 64 k) = v.extractLsb' (8 * k) 8 :=
    fun k hk ↦ store_add mem a v hk
  have hzero : store mem a v a = v.extractLsb' 0 8 := by
    simpa using hbyte 0 (by omega)
  have h := append_extractLsb' v
  rw [load, hzero]
  rw [← hbyte 7 (by omega), ← hbyte 6 (by omega), ← hbyte 5 (by omega), ← hbyte 4 (by omega),
    ← hbyte 3 (by omega), ← hbyte 2 (by omega), ← hbyte 1 (by omega)] at h
  exact h

theorem load_congr (ha : a.toNat + 8 ≤ 2 ^ 64)
    (h : Set.EqOn mem mem' (Span a.toNat (a.toNat + 8))) : load mem a = load mem' a := by
  have hbyte : ∀ k < 8, mem (a + BitVec.ofNat 64 k) = mem' (a + BitVec.ofNat 64 k) := by
    intro k hk
    apply h
    rw [mem_span, BitVec.toNat_add, BitVec.toNat_ofNat]
    omega
  have hzero : mem a = mem' a := by
    simpa using hbyte 0 (by omega)
  rw [load, load, hzero]
  congr 1
  congr 1
  · congr 1
    · congr 1
      · congr 1
        · congr 1
          · congr 1
            · exact hbyte 7 (by omega)
            · exact hbyte 6 (by omega)
          · exact hbyte 5 (by omega)
        · exact hbyte 4 (by omega)
      · exact hbyte 3 (by omega)
    · exact hbyte 2 (by omega)
  · exact hbyte 1 (by omega)

theorem load_store_of_apart (ha : a.toNat + 8 ≤ 2 ^ 64) (hb : b.toNat + 8 ≤ 2 ^ 64)
    (h : a.toNat + 8 ≤ b.toNat ∨ b.toNat + 8 ≤ a.toNat) :
    load (store mem a v) b = load mem b := by
  apply load_congr hb
  apply eqOn_store ha
  intro c hc
  rw [mem_span] at hc ⊢
  omega

theorem toNat_sub_ofNat (h : k ≤ a.toNat) : (a - BitVec.ofNat 64 k).toNat = a.toNat - k := by
  rw [BitVec.toNat_sub, BitVec.toNat_ofNat]
  omega

theorem toNat_sub_eight (h : 8 ≤ a.toNat) : (a - 8).toNat = a.toNat - 8 :=
  toNat_sub_ofNat h

/-- The memory after words have been pushed onto the stack of a stack pointer. -/
def pushAll (mem : Mem) (a : BitVec 64) : List (BitVec 64) → Mem
  | [] => mem
  | v :: vs => pushAll (store mem (a - 8) v) (a - 8) vs

def topWords (mem : Mem) (a : BitVec 64) : ℕ → List (BitVec 64)
  | 0 => []
  | n + 1 => load mem a :: topWords mem (a + 8) n

variable {vs : List (BitVec 64)}

theorem sub_eight_sub (a : BitVec 64) (n : ℕ) :
    a - 8 - BitVec.ofNat 64 (8 * n) = a - BitVec.ofNat 64 (8 * (n + 1)) := by
  rw [Nat.mul_succ, Nat.add_comm, BitVec.ofNat_add, ← sub_sub]
  rfl

theorem pushAll_append (mem : Mem) (a : BitVec 64) (us vs : List (BitVec 64)) :
    pushAll mem a (us ++ vs) =
      pushAll (pushAll mem a us) (a - BitVec.ofNat 64 (8 * us.length)) vs := by
  induction us generalizing mem a with
  | nil => simp [pushAll]
  | cons u us ih => rw [List.cons_append, pushAll, ih, sub_eight_sub, pushAll, List.length_cons]

theorem pushAll_append_singleton (mem : Mem) (a v : BitVec 64) (vs : List (BitVec 64)) :
    pushAll mem a (vs ++ [v]) =
      store (pushAll mem a vs) (a - BitVec.ofNat 64 (8 * (vs.length + 1))) v := by
  rw [pushAll_append, pushAll, pushAll, Nat.mul_succ, BitVec.ofNat_add, ← sub_sub]
  rfl

theorem pushAll_of_notMem (ha : 8 * vs.length ≤ a.toNat)
    (hb : b ∉ Span (a.toNat - 8 * vs.length) a.toNat) : pushAll mem a vs b = mem b := by
  induction vs generalizing mem a with
  | nil => rfl
  | cons v vs ih =>
    rw [List.length_cons] at ha hb
    have ha' := toNat_sub_eight (a := a) (by omega)
    rw [pushAll, ih]
    · apply store_of_notMem
      · have := a.isLt
        omega
      · rw [mem_span] at hb ⊢
        omega
    · omega
    · rw [mem_span] at hb ⊢
      omega

theorem topWords_add (mem : Mem) (a : BitVec 64) (m n : ℕ) :
    topWords mem a (m + n) =
      topWords mem a m ++ topWords mem (a + BitVec.ofNat 64 (8 * m)) n := by
  induction m generalizing a with
  | zero => simp [topWords]
  | succ m ih =>
    rw [Nat.add_right_comm, topWords, ih, topWords, List.cons_append, Nat.mul_succ,
      Nat.add_comm (8 * m), BitVec.ofNat_add, ← add_assoc]
    rfl

@[simp] theorem length_topWords (mem : Mem) (a : BitVec 64) (n : ℕ) :
    (topWords mem a n).length = n := by
  induction n generalizing a with
  | zero => rfl
  | succ n ih => rw [topWords, List.length_cons, ih]

theorem topWords_congr (ha : a.toNat + 8 * n ≤ 2 ^ 64)
    (h : Set.EqOn mem mem' (Span a.toNat (a.toNat + 8 * n))) :
    topWords mem a n = topWords mem' a n := by
  induction n generalizing a with
  | zero => rfl
  | succ n ih =>
    have hload : load mem a = load mem' a := by
      apply load_congr
      · omega
      · exact h.mono (span_subset le_rfl (by omega))
    rw [topWords, topWords, hload]
    obtain rfl | hn := Nat.eq_zero_or_pos n
    · rfl
    have ha' : (a + 8).toNat = a.toNat + 8 := by
      bv_omega
    rw [ih]
    · omega
    · apply h.mono
      apply span_subset <;> omega

theorem topWords_pushAll (mem : Mem) (a : BitVec 64) (vs : List (BitVec 64))
    (ha : 8 * vs.length ≤ a.toNat) :
    topWords (pushAll mem a vs) (a - BitVec.ofNat 64 (8 * vs.length)) vs.length = vs.reverse := by
  induction vs using List.reverseRecOn with
  | nil => rfl
  | append_singleton vs v ih =>
    rw [List.length_append, List.length_singleton] at ha ⊢
    have hpointer := toNat_sub_ofNat (k := 8 * (vs.length + 1)) ha
    have hnext : a - BitVec.ofNat 64 (8 * (vs.length + 1)) + 8 =
        a - BitVec.ofNat 64 (8 * vs.length) := by
      rw [← sub_eight_sub, sub_right_comm, BitVec.sub_add_cancel]
    have hrest := toNat_sub_ofNat (k := 8 * vs.length) (a := a) (by omega)
    have := a.isLt
    rw [topWords, hnext, pushAll_append_singleton, load_store, List.reverse_append,
      List.reverse_singleton, List.singleton_append]
    congr 1
    rw [← ih (by omega)]
    apply topWords_congr
    · omega
    · apply eqOn_store
      · omega
      · intro b hb
        rw [mem_span] at hb ⊢
        omega

end Granary.Base.WordMemory
