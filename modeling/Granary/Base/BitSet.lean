import Granary.Base.PackedArray

namespace Granary.Base.BitSet

open Granary.Base.Bits

namespace FastBitSet

variable (shl : ℕ → BitVec 32) {width : ℕ}

/-- The value of `1U << i` is undefined from 32 on, it is whatever `shl` says. -/
def get (s : BitVec width) (i : ℕ) : Bool :=
  decide (s.setWidth (max width 32) &&& (shl i).setWidth (max width 32) ≠ 0)

def set (s : BitVec width) (i : ℕ) (val : Bool) : BitVec width :=
  if val then s ||| (shl i).setWidth width else s &&& (~~~shl i).setWidth width

def setAll (val : Bool) : BitVec width :=
  if val then ~~~0 else 0

end FastBitSet

namespace SlowBitSet

variable (kNumBits : ℕ)

def setAll (s : PackedArray.Storage) (val : Bool) : PackedArray.Storage :=
  PackedArray.fill 1 kNumBits (fun _ ↦ if val then 0xFF else 0) s

def get (s : PackedArray.Storage) (i : ℕ) : Bool :=
  decide (PackedArray.get 1 s i ≠ 0)

def set (s : PackedArray.Storage) (i : ℕ) (val : Bool) : PackedArray.Storage :=
  PackedArray.set 1 s i (if val then 1 else 0)

def union (s that : PackedArray.Storage) : PackedArray.Storage :=
  PackedArray.fill 1 kNumBits (fun k ↦ s k ||| that k) s

def intersect (s that : PackedArray.Storage) : PackedArray.Storage :=
  PackedArray.fill 1 kNumBits (fun k ↦ s k &&& that k) s

end SlowBitSet

/-- The storage of a class and its methods. A constructor runs on whatever the memory holds. -/
structure Class where
  Storage : Type
  init : Storage → Storage
  get : Storage → ℕ → Bool
  set : Storage → ℕ → Bool → Storage
  copy : Storage → Storage → Storage
  setAll : Storage → Bool → Storage
  union : Storage → Storage → Storage
  intersect : Storage → Storage → Storage

def fastBitSet (shl : ℕ → BitVec 32) (width : ℕ) : Class where
  Storage := BitVec width
  init _ := 0
  get := FastBitSet.get shl
  set := FastBitSet.set shl
  copy _ that := that
  setAll _ val := FastBitSet.setAll val
  union s that := s ||| that
  intersect s that := s &&& that

def slowBitSet (kNumBits : ℕ) : Class where
  Storage := PackedArray.Storage
  init s := SlowBitSet.setAll kNumBits (PackedArray.init 1 kNumBits s) false
  get := SlowBitSet.get
  set := SlowBitSet.set
  copy := PackedArray.copy 1 kNumBits
  setAll := SlowBitSet.setAll kNumBits
  union := SlowBitSet.union kNumBits
  intersect := SlowBitSet.intersect kNumBits

/-- `BitSet<kNumBits>`, which is specialised for 1 to 64 bits. -/
def bitSet (shl : ℕ → BitVec 32) (kNumBits : ℕ) : Class :=
  if kNumBits = 0 then slowBitSet kNumBits
  else if kNumBits ≤ 8 then fastBitSet shl 8
  else if kNumBits ≤ 16 then fastBitSet shl 16
  else if kNumBits ≤ 32 then fastBitSet shl 32
  else if kNumBits ≤ 64 then fastBitSet shl 64
  else slowBitSet kNumBits

inductive Op (S : Type) where
  | set (i : ℕ) (val : Bool)
  | copy (that : S)
  | setAll (val : Bool)
  | union (that : S)
  | intersect (that : S)

namespace Op

def Ok {S : Type} (n : ℕ) : Op S → Prop
  | set i _ => i < n
  | _ => True

variable (c : Class)

def apply (s : c.Storage) : Op c.Storage → c.Storage
  | set i val => c.set s i val
  | copy that => c.copy s that
  | setAll val => c.setAll s val
  | union that => c.union s that
  | intersect that => c.intersect s that

def effect (j : ℕ) (old : Bool) : Op c.Storage → Bool
  | set i val => if i = j then val else old
  | copy that => c.get that j
  | setAll val => val
  | union that => old || c.get that j
  | intersect that => old && c.get that j

end Op

def Independent (c : Class) (n : ℕ) : Prop :=
  ∀ s (ops : List (Op c.Storage)), (∀ op ∈ ops, op.Ok n) → ∀ j < n,
    c.get (ops.foldl (Op.apply c) (c.init s)) j = ops.foldl (Op.effect c j) false

/-- The bits of a class are independent, if each method sees to each bit alone. -/
structure Bitwise (c : Class) (n : ℕ) : Prop where
  init : ∀ s, ∀ j < n, c.get (c.init s) j = false
  set : ∀ s val, ∀ i < n, ∀ j < n, c.get (c.set s i val) j = if i = j then val else c.get s j
  copy : ∀ s that, ∀ j < n, c.get (c.copy s that) j = c.get that j
  setAll : ∀ s val, ∀ j < n, c.get (c.setAll s val) j = val
  union : ∀ s that, ∀ j < n, c.get (c.union s that) j = (c.get s j || c.get that j)
  intersect : ∀ s that, ∀ j < n, c.get (c.intersect s that) j = (c.get s j && c.get that j)

theorem Bitwise.get_apply {c : Class} {n j : ℕ} (h : Bitwise c n) (s : c.Storage)
    (op : Op c.Storage) (hop : op.Ok n) (hj : j < n) :
    c.get (op.apply c s) j = op.effect c j (c.get s j) := by
  cases op with
  | set i val => exact h.set s val i hop j hj
  | copy that => exact h.copy s that j hj
  | setAll val => exact h.setAll s val j hj
  | union that => exact h.union s that j hj
  | intersect that => exact h.intersect s that j hj

theorem Bitwise.independent {c : Class} {n : ℕ} (h : Bitwise c n) : Independent c n := by
  intro s ops hops j hj
  rw [← h.init s j hj]
  exact Base.Run.foldl_view (c.get · j) (fun t op hop ↦ h.get_apply t op (hops op hop) hj) _

section Fast

variable {shl : ℕ → BitVec 32} {width n i j : ℕ}

def Shifts (shl : ℕ → BitVec 32) : Prop := ∀ i < 32, shl i = 1#32 <<< i

theorem Shifts.getLsbD (h : Shifts shl) (hi : i < 32) (k : ℕ) :
    (shl i).getLsbD k = decide (k = i) := by
  rw [h i hi]
  by_cases hk : k = i
  · subst hk
    simp [hi]
  · simp [hk]
    omega

theorem Shifts.get_fast (h : Shifts shl) (h32 : i < 32) (hi : i < width) (s : BitVec width) :
    FastBitSet.get shl s i = s.getLsbD i := by
  have hbit (k : ℕ) : ((shl i).setWidth (max width 32)).getLsbD k = decide (k = i) := by
    rw [BitVec.getLsbD_setWidth, h.getLsbD h32]
    by_cases hk : k = i
    · subst hk
      simp [hi]
    · simp [hk]
  rw [FastBitSet.get, Bool.eq_iff_iff, decide_eq_true_eq, and_ne_zero_iff]
  simp only [hbit, decide_eq_true_eq, BitVec.getLsbD_setWidth, Bool.and_eq_true]
  exact ⟨fun ⟨k, ⟨_, hk⟩, he⟩ ↦ he ▸ hk, fun hs ↦ ⟨i, ⟨by omega, hs⟩, rfl⟩⟩

theorem Shifts.getLsbD_set (h : Shifts shl) (hw : width ≤ 32) (hi : i < width) (s : BitVec width)
    (val : Bool) (hj : j < width) :
    (FastBitSet.set shl s i val).getLsbD j = if i = j then val else s.getLsbD j := by
  have hbit := h.getLsbD (show i < 32 by omega) j
  have hj32 : j < 32 := by omega
  cases val with
  | true =>
    have hset : (FastBitSet.set shl s i true).getLsbD j = (s.getLsbD j || (shl i).getLsbD j) := by
      simp [FastBitSet.set, hj]
    rw [hset, hbit]
    split_ifs with hij
    · simp [hij]
    · simp [Ne.symm hij]
  | false =>
    have hset : (FastBitSet.set shl s i false).getLsbD j =
        (s.getLsbD j && !(shl i).getLsbD j) := by
      simp [FastBitSet.set, hj, hj32]
    rw [hset, hbit]
    split_ifs with hij
    · simp [hij]
    · simp [Ne.symm hij]

theorem Shifts.bitwise_fast (h : Shifts shl) (hw : width ≤ 32) (hn : n ≤ width) :
    Bitwise (fastBitSet shl width) n := by
  have hget (s : BitVec width) (j : ℕ) (hj : j < n) : FastBitSet.get shl s j = s.getLsbD j :=
    h.get_fast (by omega) (by omega) s
  refine ⟨fun s j hj ↦ ?_, fun (s : BitVec width) val i hi j hj ↦ ?_, fun _ _ _ _ ↦ rfl,
    fun s val j hj ↦ ?_, fun (s that : BitVec width) j hj ↦ ?_,
    fun (s that : BitVec width) j hj ↦ ?_⟩
  · exact (hget 0 j hj).trans BitVec.getLsbD_zero
  · have hset := h.getLsbD_set hw (hi.trans_le hn) s val (hj.trans_le hn)
    rw [← hget _ j hj, ← hget _ j hj] at hset
    exact hset
  · refine (hget (FastBitSet.setAll val) j hj).trans ?_
    cases val <;> simp [FastBitSet.setAll, hj.trans_le hn]
  · have hor : (s ||| that).getLsbD j = (s.getLsbD j || that.getLsbD j) := BitVec.getLsbD_or
    rw [← hget _ j hj, ← hget _ j hj, ← hget _ j hj] at hor
    exact hor
  · have hand : (s &&& that).getLsbD j = (s.getLsbD j && that.getLsbD j) := BitVec.getLsbD_and
    rw [← hget _ j hj, ← hget _ j hj, ← hget _ j hj] at hand
    exact hand

theorem Shifts.not_independent_fast (h : Shifts shl) (hw : 32 < width) (hn : 32 < n) :
    ¬Independent (fastBitSet shl width) n := by
  intro hind
  have hops : ∀ op ∈ [(.set 32 true : Op (BitVec width))], op.Ok n := by
    rw [List.forall_mem_singleton]
    exact hn
  have hget : ∀ j < n, FastBitSet.get shl (FastBitSet.set shl (0 : BitVec width) 32 true) j =
      if 32 = j then true else false :=
    hind (0 : BitVec width) [.set 32 true] hops
  have hzero : shl 32 = 0 := by
    apply BitVec.eq_of_getLsbD_eq
    intro j hj
    have hbit := hget j (by omega)
    rw [h.get_fast hj (by omega), if_neg (by omega)] at hbit
    simpa [FastBitSet.set, show j < width by omega] using hbit
  have hlost := hget 32 hn
  simp [FastBitSet.get, hzero] at hlost

end Fast

section Slow

open PackedArray

variable {n i j : ℕ} {s that : Storage}

theorem get_slow (s : Storage) (i : ℕ) : SlowBitSet.get s i =
    (s (indexOf 1 (unsigned i))).getLsbD (shiftOf 1 (unsigned i)) := by
  rw [SlowBitSet.get, get_eq_field (by omega), Bool.eq_iff_iff, decide_eq_true_eq]
  exact field_one_ne_zero_iff (by omega)

theorem get_fill_slow (hj : j < n) :
    SlowBitSet.get (fill 1 n that s) j = SlowBitSet.get that j := by
  rw [SlowBitSet.get, SlowBitSet.get, get_fill (by omega) (by omega) hj]

theorem get_setAll_slow (hj : j < n) (s : Storage) (val : Bool) :
    SlowBitSet.get (SlowBitSet.setAll n s val) j = val := by
  rw [SlowBitSet.setAll, get_fill_slow hj, get_slow]
  have hfits : shiftOf 1 (unsigned j) + 1 ≤ 8 := shiftOf_add_le (by omega) (by omega) _
  have hshift : shiftOf 1 (unsigned j) < 8 := hfits
  cases val with
  | false => exact BitVec.getLsbD_zero
  | true =>
    have hones : (0xFF#8).getLsbD (shiftOf 1 (unsigned j)) = true := by
      rw [show 0xFF#8 = BitVec.allOnes 8 from rfl, BitVec.getLsbD_allOnes, decide_eq_true hshift]
    exact hones

theorem toNat_bool_lt (val : Bool) : (if val then 1 else 0 : BitVec 8).toNat < 2 ^ 1 := by
  cases val <;> decide

theorem get_set_slow_self (s : Storage) (i : ℕ) (val : Bool) :
    SlowBitSet.get (SlowBitSet.set s i val) i = val := by
  rw [SlowBitSet.get, SlowBitSet.set, get_set_self (by omega) (by omega) (toNat_bool_lt val)]
  cases val <;> rfl

theorem get_set_slow_of_ne (hij : unsigned i ≠ unsigned j) (s : Storage) (val : Bool) :
    SlowBitSet.get (SlowBitSet.set s i val) j = SlowBitSet.get s j := by
  rw [SlowBitSet.get, SlowBitSet.set,
    get_set_of_ne (by omega) (by omega) (toNat_bool_lt val) s hij, SlowBitSet.get]

theorem bitwise_slow (hn : n ≤ 2 ^ 32) : Bitwise (slowBitSet n) n := by
  refine ⟨fun s j hj ↦ get_setAll_slow hj _ false, fun (s : Storage) val i hi j hj ↦ ?_,
    fun s that j hj ↦ get_fill_slow hj, fun s val j hj ↦ get_setAll_slow hj s val,
    fun (s that : Storage) j hj ↦ (get_fill_slow hj).trans ?_,
    fun (s that : Storage) j hj ↦ (get_fill_slow hj).trans ?_⟩
  · split_ifs with hij
    · subst hij
      exact get_set_slow_self s i val
    · exact get_set_slow_of_ne (unsigned_ne hn hi hj hij) s val
  · have hor := (get_slow (fun k ↦ s k ||| that k) j).trans BitVec.getLsbD_or
    rwa [← get_slow, ← get_slow] at hor
  · have hand := (get_slow (fun k ↦ s k &&& that k) j).trans BitVec.getLsbD_and
    rwa [← get_slow, ← get_slow] at hand

theorem not_independent_slow (hn : 2 ^ 32 < n) : ¬Independent (slowBitSet n) n := by
  intro hind
  have hops : ∀ op ∈ [(.set 0 true : Op Storage)], op.Ok n := by
    rw [List.forall_mem_singleton]
    exact (Nat.zero_le _).trans_lt hn
  have hget : ∀ j < n, SlowBitSet.get (SlowBitSet.set (SlowBitSet.setAll n
      (PackedArray.init 1 n fun _ ↦ 0) false) 0 true) j = if 0 = j then true else false :=
    hind (fun _ ↦ 0 : Storage) [.set 0 true] hops
  have hwrap (t : Storage) : SlowBitSet.get t (2 ^ 32) = SlowBitSet.get t 0 := rfl
  have hlast := hget (2 ^ 32) hn
  rw [hwrap, get_set_slow_self, if_neg (by omega)] at hlast
  exact Bool.false_ne_true hlast.symm

end Slow

variable {shl : ℕ → BitVec 32} {n : ℕ}

theorem Shifts.independent_bitSet_iff (h : Shifts shl) :
    Independent (bitSet shl n) n ↔ n ≤ 32 ∨ 64 < n ∧ n ≤ 2 ^ 32 := by
  by_cases hslow : n = 0 ∨ 64 < n
  · have hclass : bitSet shl n = slowBitSet n := by
      unfold bitSet
      split_ifs <;> first | rfl | omega
    rw [hclass]
    by_cases hn : n ≤ 2 ^ 32
    · exact iff_of_true (bitwise_slow hn).independent (by omega)
    · exact iff_of_false (not_independent_slow (not_le.mp hn)) (by omega)
  · by_cases hn : n ≤ 32
    · refine iff_of_true ?_ (Or.inl hn)
      unfold bitSet
      split_ifs
      · omega
      · exact (h.bitwise_fast (by omega) (by omega)).independent
      · exact (h.bitwise_fast (by omega) (by omega)).independent
      · exact (h.bitwise_fast (by omega) (by omega)).independent
    · have hclass : bitSet shl n = fastBitSet shl 64 := by
        unfold bitSet
        split_ifs <;> first | rfl | omega
      rw [hclass]
      exact iff_of_false (h.not_independent_fast (by omega) (by omega)) (by omega)

/-- A bit set of 33 to 64 bits does not keep its bits apart: `1U << i` is too narrow for its word.
The indices of the larger ones are `unsigned`, and so are those of packed arrays. -/
theorem keepsBitsApart_iff (h : Shifts shl) :
    (∀ n, Independent (bitSet shl n) n ↔ n ≤ 32 ∨ 64 < n ∧ n ≤ 2 ^ 32) ∧
      ∀ w n, 0 < w → w < 8 → (PackedArray.Independent w n ↔ n ≤ 2 ^ 32) :=
  ⟨fun _ ↦ h.independent_bitSet_iff, fun _ _ h₀ hw ↦ PackedArray.independent_iff hw h₀⟩

def shiftMod (i : ℕ) : BitVec 32 := 1#32 <<< (i % 32)

theorem shiftMod_shifts : Shifts shiftMod := by
  intro i hi
  rw [shiftMod, Nat.mod_eq_of_lt hi]

theorem keepsBitsApart_iff_shiftMod :
    (∀ n, Independent (bitSet shiftMod n) n ↔ n ≤ 32 ∨ 64 < n ∧ n ≤ 2 ^ 32) ∧
      ∀ w n, 0 < w → w < 8 → (PackedArray.Independent w n ↔ n ≤ 2 ^ 32) :=
  keepsBitsApart_iff shiftMod_shifts

/-- In a set of 33 bits, setting the last one sets the first one. -/
theorem bitSet_overlap :
    ∃ ops : List (Op (bitSet shiftMod 33).Storage), (∀ op ∈ ops, op.Ok 33) ∧
      ∃ j < 33, (bitSet shiftMod 33).get (ops.foldl (Op.apply (bitSet shiftMod 33))
        ((bitSet shiftMod 33).init (0 : BitVec 64))) j ≠
          ops.foldl (Op.effect (bitSet shiftMod 33) j) false := by
  refine ⟨[.set 32 true], ?_, 0, by omega, ?_⟩
  · rw [List.forall_mem_singleton]
    exact Nat.lt_succ_self 32
  · decide

end Granary.Base.BitSet
