import Granary.Base.Loop

namespace Granary.Base.TinyVector

open Function Filter Granary.Base.Chain Granary.Base.Loop

/-- The elements of a vector object, and the word that `num_elems` and `next` share. -/
structure Chunk (T : Type*) where
  elems : ℕ → T
  word : ℕ

/-- The vector objects by their addresses, and the addresses in use. -/
structure Memory (T : Type*) where
  chunk : ℕ → Chunk T
  live : Finset ℕ

/-- An `Iterator` that is not at the end, and what it refers to. -/
structure Position where
  vec : ℕ
  i : ℕ
deriving DecidableEq

variable {T : Type*}

section Code

variable [Inhabited T] (kMinSize : ℕ) (alloc : Memory T → ℕ)

def deref (m : Memory T) (p : Position) : T := (m.chunk p.vec).elems p.i

def write (m : Memory T) (p : Position) (v : T) : Memory T :=
  let c := m.chunk p.vec
  { m with chunk := update m.chunk p.vec { c with elems := update c.elems p.i v } }

def setWord (m : Memory T) (a word : ℕ) : Memory T :=
  { m with chunk := update m.chunk a { m.chunk a with word := word } }

def new (m : Memory T) : Memory T :=
  { chunk := update m.chunk (alloc m) ⟨fun _ ↦ default, 0⟩, live := insert (alloc m) m.live }

def begin (m : Memory T) (a : ℕ) : Option Position :=
  if (m.chunk a).word ≠ 0 then some ⟨a, 0⟩ else none

/-- `operator++` of an iterator. -/
def next (m : Memory T) (p : Position) : Option Position :=
  if p.i + 1 < kMinSize then
    if (m.chunk p.vec).word ≤ p.i + 1 then none else some ⟨p.vec, p.i + 1⟩
  else if kMinSize = (m.chunk p.vec).word then none
  else begin m (m.chunk p.vec).word

/-- `Append`, cut off after `fuel` nested calls. -/
def append : ℕ → Memory T → ℕ → T → Option (Memory T × Position)
  | 0, _, _, _ => none
  | n + 1, m, a, val =>
    if (m.chunk a).word < kMinSize then
      let p : Position := ⟨a, (m.chunk a).word⟩
      some (setWord (write m p val) a ((m.chunk a).word + 1), p)
    else
      let m := if kMinSize = (m.chunk a).word then setWord (new alloc m) a (alloc m) else m
      append n m (m.chunk a).word val

/-- The loop of `Size`, cut off after `fuel` objects. -/
def sizeLoop (m : Memory T) : ℕ → ℕ → ℕ → Option ℕ
  | 0, _, _ => none
  | n + 1, size, curr =>
    if kMinSize < (m.chunk curr).word then sizeLoop m n (size + kMinSize) (m.chunk curr).word
    else some (size + (m.chunk curr).word)

def size (fuel : ℕ) (m : Memory T) (a : ℕ) : Option ℕ := sizeLoop kMinSize m fuel 0 a

/-- `ElementAt`, cut off after `fuel` objects. -/
def elementAt (m : Memory T) : ℕ → ℕ → ℕ → Option Position
  | 0, _, _ => none
  | n + 1, curr, index =>
    if kMinSize ≤ index then elementAt m n (m.chunk curr).word (index - kMinSize)
    else some ⟨curr, index⟩

def elements (fuel : ℕ) (m : Memory T) (a : ℕ) : Option (List T) :=
  forEach (fun _ p ↦ some (next kMinSize m p)) (fun out p ↦ some (out ++ [deref m p])) fuel
    (begin m a) []

/-- `Advance` of an iterator that passes over elements that are not `used`. -/
def advance (used : T → Bool) (fuel : ℕ) (m : Memory T) (o : Option Position) :
    Option (Option Position) :=
  search (next kMinSize m) (fun p ↦ used (deref m p)) fuel o

def usedElements (used : T → Bool) (fuel : ℕ) (m : Memory T) (a : ℕ) : Option (List T) :=
  (advance kMinSize used fuel m (begin m a)).bind fun o ↦
    forEach (fun _ p ↦ advance kMinSize used fuel m (next kMinSize m p))
      (fun out p ↦ some (out ++ [deref m p])) fuel o []

/-- `--size` of a set or a map, whose size is a `size_t`. -/
def decrement (size : ℕ) : ℕ := if size = 0 then 2 ^ 64 - 1 else size - 1

inductive Op (ι T : Type*) where
  | append (i : ι) (val : T)
  | set (i : ι) (index : ℕ) (val : T)

/-- An operation on one of the vectors at the addresses `addr`. An assignment goes through the
reference that `operator[]` returns. -/
def step {ι : Type*} (addr : ι → ℕ) (fuel : ℕ) (m : Memory T) : Op ι T → Option (Memory T)
  | .append i val => (append kMinSize alloc fuel m (addr i) val).map Prod.fst
  | .set i index val =>
    (elementAt kMinSize m fuel (addr i) index).map fun p ↦ write m p val

end Code

section Linked

variable {k : ℕ} {m m' : Memory T} {a b : ℕ} {cs : List ℕ} {len : ℕ} {p q : Position} {v : T}

/-- The objects `cs` hold `len` elements. All are full but the last one, which is not empty unless
it is the only one. -/
def Linked (k : ℕ) (m : Memory T) : List ℕ → ℕ → Prop
  | [], _ => False
  | [a], len => (m.chunk a).word = len ∧ len ≤ k
  | a :: b :: cs, len => (m.chunk a).word = b ∧ k < b ∧ k < len ∧ Linked k m (b :: cs) (len - k)

def slots (k : ℕ) : List ℕ → ℕ → List Position
  | [], _ => []
  | a :: cs, len => (List.range (min len k)).map (Position.mk a) ++ slots k cs (len - k)

theorem slots_cons (k a : ℕ) (cs : List ℕ) (len : ℕ) : slots k (a :: cs) len =
    (List.range (min len k)).map (Position.mk a) ++ slots k cs (len - k) :=
  rfl

theorem slots_singleton (a : ℕ) (h : len ≤ k) :
    slots k [a] len = (List.range len).map (Position.mk a) := by
  rw [slots, slots, List.append_nil, Nat.min_eq_left h]

theorem linked_congr (h : ∀ c ∈ cs, (m'.chunk c).word = (m.chunk c).word)
    (hl : Linked k m cs len) : Linked k m' cs len := by
  induction cs generalizing len with
  | nil => exact hl
  | cons a cs ih =>
    obtain ⟨ha, hcs⟩ := List.forall_mem_cons.mp h
    cases cs with
    | nil => exact ⟨ha.trans hl.1, hl.2⟩
    | cons b cs => exact ⟨ha.trans hl.1, hl.2.1, hl.2.2.1, ih hcs hl.2.2.2⟩

theorem slots_vec_mem (h : p ∈ slots k cs len) : p.vec ∈ cs := by
  induction cs generalizing len with
  | nil => exact absurd h List.not_mem_nil
  | cons a cs ih =>
    rcases List.mem_append.mp h with h | h
    · obtain ⟨i, -, rfl⟩ := List.mem_map.mp h
      exact List.mem_cons_self
    · exact List.mem_cons_of_mem a (ih h)

theorem nodup_slots (h : cs.Nodup) : (slots k cs len).Nodup := by
  induction cs generalizing len with
  | nil => exact List.nodup_nil
  | cons a cs ih =>
    obtain ⟨ha, hcs⟩ := List.nodup_cons.mp h
    refine List.Nodup.append (List.nodup_range.map fun i j hij ↦ congrArg Position.i hij)
      (ih hcs) fun p hp hp' ↦ ha ?_
    obtain ⟨i, -, rfl⟩ := List.mem_map.mp hp
    exact slots_vec_mem hp'

theorem path_range {o : Position → Option Position} (h : ∀ i < b, o ⟨a, i⟩ = some ⟨a, i + 1⟩) :
    Path o (some ⟨a, 0⟩) ((List.range b).map (Position.mk a)) (some ⟨a, b⟩) := by
  induction b with
  | zero => rfl
  | succ b ih =>
    rw [List.range_succ, List.map_append, List.map_singleton]
    exact path_concat.mpr ⟨ih fun i hi ↦ h i (by omega), h b (by omega)⟩

theorem Linked.path (hk : 0 < k) (h : Linked k m (a :: cs) len) :
    Path (next k m) (begin m a) (slots k (a :: cs) len) none := by
  induction cs generalizing a len with
  | nil =>
    obtain ⟨hword, hle⟩ := h
    rw [slots_singleton a hle]
    rcases Nat.eq_zero_or_pos len with rfl | hlen
    · rw [begin, if_neg (not_not.mpr hword)]
      rfl
    · obtain ⟨n, rfl⟩ : ∃ n, len = n + 1 := ⟨len - 1, by omega⟩
      rw [begin, if_pos (by omega), List.range_succ, List.map_append, List.map_singleton]
      refine path_concat.mpr ⟨path_range fun i hi ↦ ?_, ?_⟩
      · rw [next, if_pos (by dsimp only; omega), if_neg (by dsimp only; omega)]
      · rw [next]
        dsimp only
        split_ifs <;> first | rfl | omega
  | cons b cs ih =>
    obtain ⟨hword, hb, hlen, hcs⟩ := h
    rw [slots, Nat.min_eq_right hlen.le, begin, if_pos (by omega)]
    obtain ⟨j, rfl⟩ : ∃ j, k = j + 1 := ⟨k - 1, by omega⟩
    refine path_append.mpr ⟨begin m b, ?_, ih hcs⟩
    rw [List.range_succ, List.map_append, List.map_singleton]
    refine path_concat.mpr ⟨path_range fun i hi ↦ ?_, ?_⟩
    · rw [next, if_pos (by dsimp only; omega), if_neg (by dsimp only; omega)]
    · rw [next, if_neg (by dsimp only; omega), if_neg (by dsimp only; omega), hword]

theorem Linked.sizeLoop (h : Linked k m (a :: cs) len) {n size : ℕ} (hn : cs.length < n) :
    sizeLoop k m n size a = some (size + len) := by
  induction cs generalizing a len n size with
  | nil =>
    obtain ⟨n, rfl⟩ : ∃ j, n = j + 1 := ⟨n - 1, by omega⟩
    rw [TinyVector.sizeLoop, h.1, if_neg (not_lt.mpr h.2)]
  | cons b cs ih =>
    obtain ⟨hword, hb, hlen, hcs⟩ := h
    rw [List.length_cons] at hn
    obtain ⟨n, rfl⟩ : ∃ j, n = j + 1 := ⟨n - 1, by omega⟩
    rw [TinyVector.sizeLoop, hword, if_pos hb, ih hcs (by omega), Nat.add_assoc,
      Nat.add_sub_cancel' hlen.le]

theorem Linked.elementAt (h : Linked k m (a :: cs) len) {n index : ℕ} (hn : cs.length < n)
    (hp : (slots k (a :: cs) len)[index]? = some p) : elementAt k m n a index = some p := by
  induction cs generalizing a len n index with
  | nil =>
    obtain ⟨n, rfl⟩ : ∃ j, n = j + 1 := ⟨n - 1, by omega⟩
    rw [slots_singleton a h.2, List.getElem?_map] at hp
    obtain ⟨i, hi, rfl⟩ := Option.map_eq_some_iff.mp hp
    obtain ⟨hlt, hi⟩ := List.getElem?_eq_some_iff.mp hi
    rw [List.length_range] at hlt
    rw [List.getElem_range] at hi
    rw [TinyVector.elementAt, if_neg (by have := h.2; omega), hi]
  | cons b cs ih =>
    obtain ⟨hword, hb, hlen, hcs⟩ := h
    rw [List.length_cons] at hn
    obtain ⟨n, rfl⟩ : ∃ j, n = j + 1 := ⟨n - 1, by omega⟩
    rw [slots, Nat.min_eq_right hlen.le, List.getElem?_append, List.length_map,
      List.length_range] at hp
    rw [TinyVector.elementAt]
    split_ifs at hp with hindex
    · rw [List.getElem?_map, List.getElem?_range hindex] at hp
      rw [if_neg (not_le.mpr hindex)]
      exact hp
    · rw [if_pos (not_lt.mp hindex), hword]
      exact ih hcs (by omega) hp

theorem word_write (m : Memory T) (p : Position) (v : T) (c : ℕ) :
    ((write m p v).chunk c).word = (m.chunk c).word := by
  by_cases hc : c = p.vec
  · subst hc
    simp [write]
  · simp [write, hc]

theorem chunk_write_of_ne (m : Memory T) (v : T) {c : ℕ} (hc : c ≠ p.vec) :
    (write m p v).chunk c = m.chunk c :=
  update_of_ne hc _ _

theorem deref_write (m : Memory T) (p q : Position) (v : T) :
    deref (write m p v) q = if q = p then v else deref m q := by
  obtain ⟨a, i⟩ := p
  obtain ⟨b, j⟩ := q
  by_cases hab : b = a
  · subst hab
    by_cases hij : j = i <;> simp [deref, write, hij]
  · simp [deref, write, hab]

theorem chunk_setWord (m : Memory T) (a word c : ℕ) : (setWord m a word).chunk c =
    if c = a then { m.chunk a with word := word } else m.chunk c :=
  update_apply _ _ _ _

theorem deref_setWord (m : Memory T) (a word : ℕ) (q : Position) :
    deref (setWord m a word) q = deref m q := by
  by_cases hq : q.vec = a
  · subst hq
    simp [deref, setWord]
  · simp [deref, setWord, hq]

variable [Inhabited T] {alloc : Memory T → ℕ}

/-- The place of a new object is not in use. Its address is not a number of elements. -/
def Allocates (k : ℕ) (alloc : Memory T → ℕ) : Prop := ∀ m, alloc m ∉ m.live ∧ k < alloc m

/-- `m'` and `cs'` are a vector after `v` was appended to it. -/
structure Appended (k : ℕ) (alloc : Memory T → ℕ) (m : Memory T) (cs : List ℕ) (len : ℕ) (v : T)
    (m' : Memory T) (cs' : List ℕ) (p : Position) : Prop where
  linked : Linked k m' cs' (len + 1)
  slots : slots k cs' (len + 1) = slots k cs len ++ [p]
  deref : deref m' p = v
  chunks : cs' = cs ∨ cs' = cs ++ [alloc m]
  live : ∀ c, c ∈ m'.live ↔ c ∈ m.live ∨ c ∈ cs'
  frame : ∀ c ∉ cs', m'.chunk c = m.chunk c
  old : ∀ q ∈ TinyVector.slots k cs len, TinyVector.deref m' q = TinyVector.deref m q

omit [Inhabited T] in
theorem appended_place {len : ℕ} (ha : a ∈ m.live) (hlt : len < k) (v : T) :
    Appended k alloc m [a] len v (setWord (write m ⟨a, len⟩ v) a (len + 1)) [a] ⟨a, len⟩ := by
  constructor
  · exact ⟨by rw [chunk_setWord, if_pos rfl], hlt⟩
  · rw [slots_singleton a hlt, slots_singleton a hlt.le, List.range_succ, List.map_append,
      List.map_singleton]
  · rw [deref_setWord, deref_write, if_pos rfl]
  · exact Or.inl rfl
  · intro c
    rw [List.mem_singleton]
    exact ⟨Or.inl, fun hc ↦ hc.elim id fun he ↦ he ▸ ha⟩
  · intro c hc
    have hca : c ≠ a := fun he ↦ hc (List.mem_singleton.mpr he)
    rw [chunk_setWord, if_neg hca, chunk_write_of_ne m v hca]
  · intro q hq
    have hne : q ≠ ⟨a, len⟩ := by
      rintro rfl
      rw [slots_singleton a hlt.le] at hq
      simp at hq
    rw [deref_setWord, deref_write, if_neg hne]

theorem appended_grow (hk : 0 < k) (halloc : Allocates k alloc) (ha : a ∈ m.live)
    (hword : (m.chunk a).word = k) (v : T) :
    Appended k alloc m [a] k v (setWord (write (setWord (new alloc m) a (alloc m)) ⟨alloc m, 0⟩ v)
      (alloc m) 1) [a, alloc m] ⟨alloc m, 0⟩ := by
  obtain ⟨hfresh, hb⟩ := halloc m
  have hab : a ≠ alloc m := fun he ↦ hfresh (he ▸ ha)
  set b := alloc m
  set m' := setWord (write (setWord (new alloc m) a b) ⟨b, 0⟩ v) b 1
  have ha' : m'.chunk a = { m.chunk a with word := b } := by
    simp [m', b, setWord, write, new, hab]
  have hb' : (m'.chunk b).word = 1 := by
    simp [m', setWord]
  have hother (c : ℕ) (hca : c ≠ a) (hcb : c ≠ b) : m'.chunk c = m.chunk c := by
    simp [m', b, setWord, write, new, hca, hcb]
  constructor
  · refine ⟨by rw [ha'], hb, Nat.lt_succ_self k, ?_, by omega⟩
    rw [hb']
    omega
  · rw [slots_singleton a le_rfl, slots_cons, Nat.add_sub_cancel_left, slots_singleton b hk,
      Nat.min_eq_right (Nat.le_succ k)]
    rfl
  · rw [deref_setWord, deref_write, if_pos rfl]
  · exact Or.inr rfl
  · intro c
    have hc : c ∈ m'.live ↔ c = b ∨ c ∈ m.live := Finset.mem_insert
    rw [hc, List.mem_cons, List.mem_singleton]
    exact ⟨fun h ↦ h.elim (fun h ↦ Or.inr (Or.inr h)) Or.inl,
      fun h ↦ h.elim Or.inr fun h ↦ h.elim (fun h ↦ Or.inr (h ▸ ha)) Or.inl⟩
  · intro c hc
    rw [List.mem_cons, List.mem_singleton, not_or] at hc
    exact hother c hc.1 hc.2
  · intro q hq
    have hqa : q.vec = a := List.mem_singleton.mp (slots_vec_mem hq)
    rw [deref, deref, hqa, ha']

omit [Inhabited T] in
theorem Appended.cons (halloc : Allocates k alloc) {len : ℕ} {cs' : List ℕ}
    (hadd : Appended k alloc m (b :: cs) (len - k) v m' (b :: cs') p)
    (hword : (m.chunk a).word = b) (hb : k < b) (hlen : k < len) (ha : a ∉ b :: cs)
    (hla : a ∈ m.live) : Appended k alloc m (a :: b :: cs) len v m' (a :: b :: cs') p := by
  have ha' : a ∉ b :: cs' := by
    intro hmem
    rcases hadd.chunks with he | he
    · exact ha (he ▸ hmem)
    · rw [he, List.mem_append, List.mem_singleton] at hmem
      exact hmem.elim ha fun he ↦ (halloc m).1 (he ▸ hla)
  have hsub : len + 1 - k = len - k + 1 := by omega
  constructor
  · refine ⟨by rw [hadd.frame a ha', hword], hb, by omega, ?_⟩
    rw [hsub]
    exact hadd.linked
  · have hmin : min (len + 1) k = min len k := by omega
    rw [slots_cons, hsub, hadd.slots, slots_cons k a (b :: cs) len, List.append_assoc, hmin]
  · exact hadd.deref
  · rcases hadd.chunks with he | he
    · exact Or.inl (by rw [he])
    · exact Or.inr (congrArg (List.cons a) he)
  · intro c
    rw [hadd.live]
    refine ⟨fun h ↦ h.imp_right (List.mem_cons_of_mem a), fun h ↦ h.elim Or.inl fun h ↦ ?_⟩
    rcases List.mem_cons.mp h with rfl | h
    · exact Or.inl hla
    · exact Or.inr h
  · exact fun c hc ↦ hadd.frame c fun hmem ↦ hc (List.mem_cons_of_mem a hmem)
  · intro q hq
    rcases List.mem_append.mp hq with hq | hq
    · obtain ⟨i, -, rfl⟩ := List.mem_map.mp hq
      rw [TinyVector.deref, TinyVector.deref, hadd.frame a ha']
    · exact hadd.old q hq

theorem Linked.append (hk : 0 < k) (halloc : Allocates k alloc) {len : ℕ}
    (h : Linked k m (a :: cs) len) (hn : (a :: cs).Nodup) (hlive : ∀ c ∈ a :: cs, c ∈ m.live)
    (v : T) : ∃ m' cs' p, (∀ n, cs.length + 1 < n → append k alloc n m a v = some (m', p)) ∧
      Appended k alloc m (a :: cs) len v m' (a :: cs') p := by
  induction cs generalizing a len with
  | nil =>
    obtain ⟨hword, hle⟩ := h
    have ha : a ∈ m.live := hlive a List.mem_cons_self
    rcases lt_or_eq_of_le hle with hlt | rfl
    · refine ⟨_, [], _, fun n hn ↦ ?_, appended_place ha hlt v⟩
      obtain ⟨n, rfl⟩ : ∃ j, n = j + 1 := ⟨n - 1, by omega⟩
      rw [TinyVector.append, hword, if_pos hlt]
    · refine ⟨_, [alloc m], _, fun n hn ↦ ?_, appended_grow hk halloc ha hword v⟩
      rw [List.length_nil] at hn
      obtain ⟨n, rfl⟩ : ∃ j, n = j + 2 := ⟨n - 2, by omega⟩
      have hab : alloc m ≠ a := fun he ↦ (halloc m).1 (he ▸ ha)
      have hnext : ((setWord (new alloc m) a (alloc m)).chunk a).word = alloc m := by
        simp [setWord]
      have hempty : ((setWord (new alloc m) a (alloc m)).chunk (alloc m)).word = 0 := by
        simp [setWord, new, hab]
      rw [TinyVector.append, hword, if_neg (lt_irrefl _), if_pos rfl]
      dsimp only
      rw [hnext, TinyVector.append, hempty, if_pos hk]
  | cons b cs ih =>
    obtain ⟨hword, hb, hlen, hcs⟩ := h
    obtain ⟨ha, hn'⟩ := List.nodup_cons.mp hn
    obtain ⟨hla, hlive'⟩ := List.forall_mem_cons.mp hlive
    obtain ⟨m', cs', p, happend, hadd⟩ := ih hcs hn' hlive'
    refine ⟨m', b :: cs', p, fun n hn ↦ ?_, hadd.cons halloc hword hb hlen ha hla⟩
    rw [List.length_cons] at hn
    obtain ⟨n, rfl⟩ : ∃ j, n = j + 1 := ⟨n - 1, by omega⟩
    rw [TinyVector.append, hword, if_neg (by omega), if_neg (by omega)]
    dsimp only
    rw [hword]
    exact happend n (by omega)

end Linked

section Family

variable {ι : Type*} {k : ℕ} {m m' : Memory T} {addr : ι → ℕ} {cs : ι → List ℕ}
  {pos : ι → List Position} {p q : Position} {i j : ι} {v : T}

/-- The vector at `addr i` consists of the objects `cs i`, and its elements are at `pos i`. -/
structure Family (k : ℕ) (m : Memory T) (addr : ι → ℕ) (cs : ι → List ℕ)
    (pos : ι → List Position) : Prop where
  linked : ∀ i, Linked k m (addr i :: cs i) (pos i).length
  slots : ∀ i, pos i = slots k (addr i :: cs i) (pos i).length
  nodup : ∀ i, (addr i :: cs i).Nodup
  live : ∀ i, ∀ c ∈ addr i :: cs i, c ∈ m.live
  apart : ∀ i j, i ≠ j → (addr i :: cs i).Disjoint (addr j :: cs j)

def Holds (k : ℕ) (m : Memory T) (addr : ι → ℕ) (pos : ι → List Position) : Prop :=
  ∃ cs, Family k m addr cs pos

/-- The vectors are where no other is, and have no elements. -/
structure Constructed (m : Memory T) (addr : ι → ℕ) : Prop where
  injective : Injective addr
  live : ∀ i, addr i ∈ m.live
  empty : ∀ i, (m.chunk (addr i)).word = 0

theorem Constructed.holds (h : Constructed m addr) : Holds k m addr fun _ ↦ [] := by
  refine ⟨fun _ ↦ [], fun i ↦ ⟨h.empty i, Nat.zero_le k⟩, fun i ↦ ?_, fun i ↦ ?_, fun i c hc ↦ ?_,
    fun i j hij c hi hj ↦ ?_⟩
  · rw [List.length_nil, slots_singleton _ (Nat.zero_le k)]
    rfl
  · exact List.nodup_singleton _
  · rw [List.mem_singleton.mp hc]
    exact h.live i
  · exact hij (h.injective ((List.mem_singleton.mp hi).symm.trans (List.mem_singleton.mp hj)))

namespace Holds

theorem path (h : Holds k m addr pos) (hk : 0 < k) (i : ι) :
    Path (next k m) (begin m (addr i)) (pos i) none := by
  obtain ⟨cs, h⟩ := h
  rw [h.slots i]
  exact (h.linked i).path hk

theorem nodup (h : Holds k m addr pos) (i : ι) : (pos i).Nodup := by
  obtain ⟨cs, h⟩ := h
  rw [h.slots i]
  exact nodup_slots (h.nodup i)

theorem not_mem (h : Holds k m addr pos) (hij : i ≠ j) (hp : p ∈ pos i) : p ∉ pos j := by
  obtain ⟨cs, h⟩ := h
  intro hp'
  rw [h.slots] at hp hp'
  exact h.apart i j hij (slots_vec_mem hp) (slots_vec_mem hp')

theorem write (h : Holds k m addr pos) (p : Position) (v : T) : Holds k (write m p v) addr pos := by
  obtain ⟨cs, h⟩ := h
  exact ⟨cs, fun i ↦ linked_congr (fun c _ ↦ word_write m p v c) (h.linked i), h.slots, h.nodup,
    h.live, h.apart⟩

theorem size (h : Holds k m addr pos) (i : ι) :
    ∀ᶠ n in atTop, size k n m (addr i) = some (pos i).length := by
  obtain ⟨cs, h⟩ := h
  filter_upwards [eventually_gt_atTop (cs i).length] with n hn
  rw [TinyVector.size, (h.linked i).sizeLoop hn, Nat.zero_add]

theorem elementAt (h : Holds k m addr pos) {index : ℕ} (hp : (pos i)[index]? = some p) :
    ∀ᶠ n in atTop, elementAt k m n (addr i) index = some p := by
  obtain ⟨cs, h⟩ := h
  rw [h.slots i] at hp
  filter_upwards [eventually_gt_atTop (cs i).length] with n hn
  exact (h.linked i).elementAt hn hp

theorem elements (h : Holds k m addr pos) (hk : 0 < k) (i : ι) :
    ∀ᶠ n in atTop, elements k n m (addr i) = some ((pos i).map (deref m)) := by
  have hpath := h.path hk i
  have hnext (done : List Position) (p : Position) (rest : List Position)
      (hl : pos i = done ++ p :: rest) :
      ∀ᶠ _ in (atTop : Filter ℕ), some (next k m p) = some rest.head? := by
    rw [hl] at hpath
    exact Eventually.of_forall fun _ ↦ congrArg some (path_head (path_next hpath))
  have hcollect := forEach_collect (f := deref m) hnext
  rw [← path_head hpath] at hcollect
  exact hcollect

/-- The loop of an iterator that passes over elements starts at the first one in use. -/
theorem advance_begin (h : Holds k m addr pos) (hk : 0 < k) (i : ι) (used : T → Bool) :
    ∀ᶠ n in atTop, advance k used n m (begin m (addr i)) =
      some ((pos i).filter fun p ↦ used (deref m p)).head? := by
  filter_upwards [eventually_ge_atTop (pos i).length] with n hn
  exact search_filter (h.path hk i) hn

theorem advance_next (h : Holds k m addr pos) (hk : 0 < k) {used : T → Bool}
    {done rest : List Position}
    (hl : ((pos i).filter fun p ↦ used (deref m p)) = done ++ p :: rest) :
    ∀ᶠ n in atTop, advance k used n m (next k m p) = some rest.head? := by
  filter_upwards [eventually_ge_atTop (pos i).length] with n hn
  exact search_filter_next (h.path hk i) hl hn

theorem usedElements (h : Holds k m addr pos) (hk : 0 < k) (i : ι) (used : T → Bool) :
    ∀ᶠ n in atTop, usedElements k used n m (addr i) =
      some (((pos i).map (deref m)).filter used) := by
  have hnext (done : List Position) (p : Position) (rest : List Position)
      (hl : ((pos i).filter fun p ↦ used (deref m p)) = done ++ p :: rest) :
      ∀ᶠ n in atTop, advance k used n m (next k m p) = some rest.head? :=
    h.advance_next hk hl
  filter_upwards [h.advance_begin hk i used, forEach_collect (f := deref m) hnext]
    with n hbegin hcollect
  rw [TinyVector.usedElements, hbegin, Option.bind_some, List.filter_map]
  exact hcollect

theorem map_write_self (h : Holds k m addr pos) {pre post : List Position}
    (hi : pos i = pre ++ p :: post) (v : T) : (pos i).map (deref (TinyVector.write m p v)) =
      pre.map (deref m) ++ v :: post.map (deref m) := by
  have hn := h.nodup i
  rw [hi] at hn ⊢
  have hp : p ∉ pre ++ post := (List.nodup_cons.mp (List.nodup_middle.mp hn)).1
  rw [List.mem_append, not_or] at hp
  have hframe (l : List Position) (hl : p ∉ l) :
      l.map (deref (TinyVector.write m p v)) = l.map (deref m) := by
    refine List.map_congr_left fun q hq ↦ ?_
    rw [deref_write, if_neg (ne_of_mem_of_not_mem hq hl)]
  rw [List.map_append, List.map_cons, hframe pre hp.1, hframe post hp.2, deref_write, if_pos rfl]

theorem map_write_of_ne (h : Holds k m addr pos) (hp : p ∈ pos i) (hij : j ≠ i) (v : T) :
    (pos j).map (deref (TinyVector.write m p v)) = (pos j).map (deref m) := by
  refine List.map_congr_left fun q hq ↦ ?_
  have hne : q ≠ p := fun he ↦ h.not_mem hij hq (he ▸ hp)
  rw [deref_write, if_neg hne]

variable [Inhabited T] {alloc : Memory T → ℕ} [DecidableEq ι]

theorem append (h : Holds k m addr pos) (hk : 0 < k) (halloc : Allocates k alloc) (i : ι) (v : T) :
    ∃ m' p, (∀ᶠ n in atTop, append k alloc n m (addr i) v = some (m', p)) ∧
      Holds k m' addr (update pos i (pos i ++ [p])) ∧ deref m' p = v ∧
      ∀ j, ∀ q ∈ pos j, deref m' q = deref m q := by
  obtain ⟨cs, h⟩ := h
  obtain ⟨m', cs', p, happend, hadd⟩ :=
    (h.linked i).append hk halloc (h.nodup i) (h.live i) v
  have hframe (j : ι) (hj : j ≠ i) (c : ℕ) (hc : c ∈ addr j :: cs j) : c ∉ addr i :: cs' := by
    intro hc'
    rcases hadd.chunks with he | he
    · exact h.apart j i hj hc (he ▸ hc')
    · rw [he, List.mem_append, List.mem_singleton] at hc'
      exact hc'.elim (h.apart j i hj hc) fun he ↦ (halloc m).1 (he ▸ h.live j c hc)
  have hlength : (pos i ++ [p]).length = (pos i).length + 1 := List.length_append
  refine ⟨m', p, ?_, ⟨update cs i cs', fun j ↦ ?_, fun j ↦ ?_, fun j ↦ ?_, fun j ↦ ?_, ?_⟩,
    hadd.deref, fun j q hq ↦ ?_⟩
  · filter_upwards [eventually_gt_atTop ((cs i).length + 1)] with n hn
    exact happend n hn
  · rcases eq_or_ne j i with rfl | hj
    · rw [update_self, update_self, hlength]
      exact hadd.linked
    · rw [update_of_ne hj, update_of_ne hj]
      exact linked_congr (fun c hc ↦ congrArg Chunk.word (hadd.frame c (hframe j hj c hc)))
        (h.linked j)
  · rcases eq_or_ne j i with rfl | hj
    · rw [update_self, update_self, hlength, hadd.slots, ← h.slots j]
    · rw [update_of_ne hj, update_of_ne hj]
      exact h.slots j
  · rcases eq_or_ne j i with rfl | hj
    · rw [update_self]
      rcases hadd.chunks with he | he
      · exact he ▸ h.nodup j
      · rw [he]
        exact List.nodup_append.mpr ⟨h.nodup j, List.nodup_singleton _, fun c hc b hb hcb ↦
          (halloc m).1 ((hcb.trans (List.mem_singleton.mp hb)) ▸ h.live j c hc)⟩
    · rw [update_of_ne hj]
      exact h.nodup j
  · rcases eq_or_ne j i with rfl | hj
    · rw [update_self]
      exact fun c hc ↦ (hadd.live c).mpr (Or.inr hc)
    · rw [update_of_ne hj]
      exact fun c hc ↦ (hadd.live c).mpr (Or.inl (h.live j c hc))
  · intro j l hjl
    rcases eq_or_ne j i with rfl | hj
    · rw [update_self, update_of_ne hjl.symm]
      exact fun c hc hc' ↦ hframe l hjl.symm c hc' hc
    · rw [update_of_ne hj]
      rcases eq_or_ne l i with rfl | hl
      · rw [update_self]
        exact fun c hc hc' ↦ hframe j hj c hc hc'
      · rw [update_of_ne hl]
        exact h.apart j l hjl
  · rcases eq_or_ne j i with rfl | hj
    · rw [h.slots j] at hq
      exact hadd.old q hq
    · rw [h.slots j] at hq
      rw [deref, deref, hadd.frame q.vec (hframe j hj q.vec (slots_vec_mem hq))]

end Holds

/-- What an operation does to the lists. The index of an assignment is that of an element. -/
def Op.effect [DecidableEq ι] (l : ι → List T) : Op ι T → Option (ι → List T)
  | .append i val => some (update l i (l i ++ [val]))
  | .set i index val =>
    if index < (l i).length then some (update l i ((l i).set index val)) else none

def Represents (k : ℕ) (addr : ι → ℕ) (m : Memory T) (l : ι → List T) : Prop :=
  ∃ pos, Holds k m addr pos ∧ ∀ i, (pos i).map (deref m) = l i

variable {l l' : ι → List T}

theorem Represents.size (h : Represents k addr m l) (i : ι) :
    ∀ᶠ n in atTop, size k n m (addr i) = some (l i).length := by
  obtain ⟨pos, hpos, hl⟩ := h
  rw [← hl i, List.length_map]
  exact hpos.size i

theorem Represents.elements (h : Represents k addr m l) (hk : 0 < k) (i : ι) :
    ∀ᶠ n in atTop, elements k n m (addr i) = some (l i) := by
  obtain ⟨pos, hpos, hl⟩ := h
  rw [← hl i]
  exact hpos.elements hk i

theorem Represents.elementAt (h : Represents k addr m l) {index : ℕ}
    (hv : (l i)[index]? = some v) :
    ∀ᶠ n in atTop, (elementAt k m n (addr i) index).map (deref m) = some v := by
  obtain ⟨pos, hpos, hl⟩ := h
  rw [← hl i, List.getElem?_map] at hv
  obtain ⟨p, hp, rfl⟩ := Option.map_eq_some_iff.mp hv
  filter_upwards [hpos.elementAt hp] with n hn
  rw [hn, Option.map_some]

variable [Inhabited T] {alloc : Memory T → ℕ} [DecidableEq ι]

theorem Represents.step (h : Represents k addr m l) (hk : 0 < k) (halloc : Allocates k alloc)
    {op : Op ι T} (hop : op.effect l = some l') : ∃ m', Represents k addr m' l' ∧
      ∀ᶠ n in atTop, step k alloc addr n m op = some m' := by
  obtain ⟨pos, hpos, hl⟩ := h
  cases op with
  | append i val =>
    obtain rfl := Option.some.inj hop
    obtain ⟨m', p, happend, hpos', hp, hold⟩ := hpos.append hk halloc i val
    refine ⟨m', ⟨_, hpos', fun j ↦ ?_⟩, ?_⟩
    · have hsame : (pos j).map (deref m') = l j :=
        (List.map_congr_left fun q hq ↦ hold j q hq).trans (hl j)
      rcases eq_or_ne j i with rfl | hj
      · rw [update_self, update_self, List.map_append, hsame, List.map_singleton, hp]
      · rw [update_of_ne hj, update_of_ne hj, hsame]
    · filter_upwards [happend] with n hn
      rw [TinyVector.step, hn]
      rfl
  | set i index val =>
    rw [Op.effect] at hop
    split_ifs at hop with hindex
    obtain rfl := Option.some.inj hop
    have hlength : index < (pos i).length := by
      rwa [← hl i, List.length_map] at hindex
    set p := (pos i)[index]
    have hp : (pos i)[index]? = some p := List.getElem?_eq_getElem hlength
    refine ⟨write m p val, ⟨pos, hpos.write p val, fun j ↦ ?_⟩, ?_⟩
    · rcases eq_or_ne j i with rfl | hj
      · have hsplit : pos j = (pos j).take index ++ p :: (pos j).drop (index + 1) := by
          rw [← List.drop_eq_getElem_cons, List.take_append_drop]
        rw [update_self, ← hl j, hpos.map_write_self hsplit, List.map_take, List.map_drop,
          List.set_eq_take_append_cons_drop, if_pos]
        rwa [List.length_map]
      · rw [update_of_ne hj, ← hl j]
        exact hpos.map_write_of_ne (List.getElem_mem hlength) hj val
    · filter_upwards [hpos.elementAt hp] with n hn
      rw [TinyVector.step, hn]
      rfl

theorem exists_run (hk : 0 < k) (halloc : Allocates k alloc) (hm : Constructed m addr)
    {ops : List (Op ι T)} (h : Base.Run.run Op.effect (fun _ ↦ []) ops = some l) :
    ∃ m', Represents k addr m' l ∧
      ∀ᶠ n in atTop, Base.Run.run (step k alloc addr n) m ops = some m' :=
  Base.Loop.exists_run_of_simulates
    (fun _ _ _ _ hr (_ : True) hop ↦ Represents.step hr hk halloc hop) (fun _ _ _ _ _ ↦ trivial)
    ⟨_, hm.holds, fun _ ↦ rfl⟩ h

end Family

end Granary.Base.TinyVector
