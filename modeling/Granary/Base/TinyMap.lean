import Granary.Base.TinySet.Slots
import Mathlib.Data.Finmap

namespace Granary.Base.TinyMap

open Function Filter Granary.Base.Chain Granary.Base.Loop Granary.Base.TinyVector

@[ext]
structure MapPair (K V : Type*) where
  key : K
  value : V
deriving DecidableEq

instance {K V : Type*} [Inhabited K] [Inhabited V] : Inhabited (MapPair K V) :=
  ⟨⟨default, default⟩⟩

/-- The `TinyMap` objects: their vectors and their `size` fields. -/
structure Maps (ι K V : Type*) where
  memory : Memory (MapPair K V)
  size : ι → ℕ

variable {ι K V : Type*} [DecidableEq ι] [DecidableEq K] [Inhabited K] [Inhabited V]

section Code

variable (kMinMapSize : ℕ) (alloc : Memory (MapPair K V) → ℕ)
  (leave : MapPair K V → MapPair K V) (addr : ι → ℕ) (fuel : ℕ)

def find (m : Memory (MapPair K V)) (a : ℕ) (key : K) : Option (Option Position) :=
  search (next kMinMapSize m) (fun p ↦ (deref m p).key = key) fuel (begin m a)

/-- `Exists`. -/
def keyExists (s : Maps ι K V) (i : ι) (key : K) : Option Bool :=
  (find kMinMapSize fuel s.memory (addr i) key).map Option.isSome

/-- The loop of `operator[]` finds the entry, or the last unused one. -/
def indexLoop (m : Memory (MapPair K V)) (key : K) :
    ℕ → Option Position → Option Position → Option (Position ⊕ Option Position)
  | _, none, last => some (.inr last)
  | 0, some _, _ => none
  | n + 1, some p, last =>
    if (deref m p).key = key then some (.inl p)
    else indexLoop m key n (next kMinMapSize m p)
      (if default = (deref m p).key then some p else last)

/-- `operator[]`. An assertion that does not hold is a failure. -/
def index (s : Maps ι K V) (i : ι) (key : K) : Option (Maps ι K V × Position) :=
  if key = default then none
  else (indexLoop kMinMapSize s.memory key fuel (begin s.memory (addr i)) none).bind fun
    | .inl p => some (s, p)
    | .inr (some p) =>
      some (⟨write s.memory p ⟨key, default⟩, update s.size i (s.size i + 1)⟩, p)
    | .inr none =>
      (append kMinMapSize alloc fuel s.memory (addr i) ⟨key, default⟩).map fun (m, p) ↦
        (⟨m, update s.size i (s.size i + 1)⟩, p)

def assign (s : Maps ι K V) (i : ι) (key : K) (value : V) : Option (Maps ι K V) :=
  (index kMinMapSize alloc addr fuel s i key).map fun (s, p) ↦
    { s with memory := write s.memory p { deref s.memory p with value := value } }

/-- `new (&entry) MapPair` initialises the entry by default, which makes `leave entry` of it: a key
of a scalar type is left as it is. -/
def remove (s : Maps ι K V) (i : ι) (key : K) : Option (Maps ι K V) :=
  if key = default then none
  else (find kMinMapSize fuel s.memory (addr i) key).map fun
    | some p =>
      ⟨write s.memory p (leave (deref s.memory p)), update s.size i (decrement (s.size i))⟩
    | none => s

/-- The iterator of a map passes over the entries that were removed. -/
def used (entry : MapPair K V) : Bool := default ≠ entry.key

def entries (s : Maps ι K V) (i : ι) : Option (List (MapPair K V)) :=
  usedElements kMinMapSize used fuel s.memory (addr i)

inductive Op (ι K V : Type*) where
  | index (i : ι) (key : K)
  | assign (i : ι) (key : K) (value : V)
  | remove (i : ι) (key : K)

def step (s : Maps ι K V) : Op ι K V → Option (Maps ι K V)
  | .index i key => (index kMinMapSize alloc addr fuel s i key).map Prod.fst
  | .assign i key value => assign kMinMapSize alloc addr fuel s i key value
  | .remove i key => remove kMinMapSize leave addr fuel s i key

end Code

structure Entries (es : List (MapPair K V)) (M : Finmap fun _ : K ↦ V) : Prop where
  nodup : (es.map MapPair.key).Nodup
  lookup : ∀ k v, ⟨k, v⟩ ∈ es ↔ M.lookup k = some v

section Entries

omit [Inhabited K] [Inhabited V]

variable {es fs : List (MapPair K V)} {M : Finmap fun _ : K ↦ V} {e : MapPair K V} {k : K}
  {v w : V}

theorem Entries.mem_iff (h : Entries es M) : k ∈ M ↔ ∃ e ∈ es, e.key = k := by
  rw [Finmap.mem_iff]
  constructor
  · intro ⟨v, hv⟩
    exact ⟨⟨k, v⟩, (h.lookup k v).mpr hv, rfl⟩
  · intro ⟨e, he, hk⟩
    exact ⟨e.value, (h.lookup k e.value).mp (hk ▸ he)⟩

theorem Entries.length (h : Entries es M) : es.length = M.keys.card := by
  have hkeys : (es.map MapPair.key).toFinset = M.keys := by
    ext k
    rw [List.mem_toFinset, List.mem_map, Finmap.mem_keys, h.mem_iff]
  rw [← hkeys, List.toFinset_card_of_nodup h.nodup, List.length_map]

theorem Entries.insert (h : Entries (es ++ fs) M) (hk : k ∉ M) (v : V) :
    Entries (es ++ ⟨k, v⟩ :: fs) (M.insert k v) := by
  have hnot : k ∉ (es ++ fs).map MapPair.key := by
    intro hmem
    obtain ⟨e, he, hek⟩ := List.mem_map.mp hmem
    exact hk (h.mem_iff.mpr ⟨e, he, hek⟩)
  constructor
  · have hn := h.nodup
    rw [List.map_append] at hn hnot
    rw [List.map_append, List.map_cons]
    exact List.nodup_middle.mpr (List.nodup_cons.mpr ⟨hnot, hn⟩)
  · intro k' v'
    have hmem : (⟨k', v'⟩ : MapPair K V) ∈ es ++ ⟨k, v⟩ :: fs ↔
        ⟨k', v'⟩ ∈ es ++ fs ∨ k' = k ∧ v' = v := by
      rw [List.perm_middle.mem_iff, List.mem_cons, MapPair.mk.injEq, or_comm]
    rw [hmem, h.lookup]
    rcases eq_or_ne k' k with rfl | hne
    · rw [Finmap.lookup_insert, Finmap.lookup_eq_none.mpr hk]
      simp [eq_comm]
    · rw [Finmap.lookup_insert_of_ne M hne]
      simp [hne]

theorem Entries.erase (h : Entries (es ++ ⟨k, v⟩ :: fs) M) : Entries (es ++ fs) (M.erase k) := by
  have hn := h.nodup
  rw [List.map_append, List.map_cons] at hn
  obtain ⟨hnot, hn'⟩ := List.nodup_cons.mp (List.nodup_middle.mp hn)
  rw [← List.map_append] at hnot hn'
  refine ⟨hn', fun k' v' ↦ ?_⟩
  rcases eq_or_ne k' k with rfl | hne
  · rw [Finmap.lookup_erase]
    exact iff_of_false (fun hmem ↦ hnot (List.mem_map.mpr ⟨_, hmem, rfl⟩)) (by simp)
  · rw [Finmap.lookup_erase_ne hne, ← h.lookup, List.perm_middle.mem_iff, List.mem_cons]
    simp [hne]

theorem Entries.replace (h : Entries (es ++ ⟨k, v⟩ :: fs) M) (w : V) :
    Entries (es ++ ⟨k, w⟩ :: fs) (M.insert k w) := by
  have hnot : k ∉ M.erase k := fun hmem ↦ (Finmap.mem_erase.mp hmem).1 rfl
  have hsame : (M.erase k).insert k w = M.insert k w := by
    apply Finmap.ext_lookup
    intro k'
    rcases eq_or_ne k' k with rfl | hne
    · rw [Finmap.lookup_insert, Finmap.lookup_insert]
    · rw [Finmap.lookup_insert_of_ne _ hne, Finmap.lookup_insert_of_ne _ hne,
        Finmap.lookup_erase_ne hne]
  rw [← hsame]
  exact h.erase.insert hnot w

end Entries

variable {n : ℕ} {k : ℕ} {alloc : Memory (MapPair K V) → ℕ} {leave : MapPair K V → MapPair K V}
  {addr : ι → ℕ} {s s' : Maps ι K V} {pos : ι → List Position} {M : ι → Finmap fun _ : K ↦ V}
  {i j : ι} {key : K} {value : V} {p : Position} {pre post : List Position}

omit [DecidableEq ι] [Inhabited V] in
/-- The loop of `operator[]` finds what a search finds, and otherwise the last unused entry. -/
theorem indexLoop_eq {m : Memory (MapPair K V)} {o last : Option Position} {l : List Position}
    (h : Path (next k m) o l none) (hn : l.length ≤ n) (key : K) :
    indexLoop k m key n o last = some
      (match l.find? fun p ↦ (deref m p).key = key with
      | some p => .inl p
      | none => .inr ((l.filter fun p ↦ default = (deref m p).key).getLast?.or last)) := by
  induction l generalizing o n last with
  | nil =>
    rw [show o = none from h]
    cases n <;> rfl
  | cons p l ih =>
    obtain ⟨rfl, hl⟩ := h
    rw [List.length_cons] at hn
    obtain ⟨n, rfl⟩ : ∃ m, n = m + 1 := ⟨n - 1, by omega⟩
    rw [indexLoop]
    by_cases hkey : (deref m p).key = key
    · have hfind : ((p :: l).find? fun p ↦ (deref m p).key = key) = some p :=
        List.find?_cons_of_pos (by simpa using hkey)
      rw [if_pos hkey, hfind]
    · have hfind : ((p :: l).find? fun p ↦ (deref m p).key = key) =
          l.find? fun p ↦ (deref m p).key = key :=
        List.find?_cons_of_neg (by simpa using hkey)
      have hlast : ((p :: l).filter fun p ↦ default = (deref m p).key).getLast?.or last =
          (l.filter fun p ↦ default = (deref m p).key).getLast?.or
            (if default = (deref m p).key then some p else last) := by
        by_cases hempty : default = (deref m p).key
        · simp only [List.filter_cons, hempty, decide_true, if_true, List.getLast?_cons]
          cases (l.filter fun q ↦ (deref m p).key = (deref m q).key).getLast? <;> rfl
        · simp [hempty]
      rw [if_neg hkey, ih hl (by omega), hfind, hlast]

/-- The entries of the maps are in the slots at `pos` that are in use. -/
structure Stores (k : ℕ) (addr : ι → ℕ) (s : Maps ι K V) (pos : ι → List Position)
    (M : ι → Finmap fun _ : K ↦ V) : Prop where
  holds : Holds k s.memory addr pos
  entries : ∀ i, Entries (((pos i).map (deref s.memory)).filter used) (M i)
  size : ∀ i, s.size i = (M i).keys.card

omit [DecidableEq ι] [Inhabited V] in
theorem used_iff {e : MapPair K V} : used e = true ↔ e.key ≠ default :=
  decide_eq_true_iff.trans ne_comm

namespace Stores

omit [DecidableEq ι] [Inhabited V] in
theorem mem_iff (h : Stores k addr s pos M) (hkey : key ≠ default) :
    key ∈ M i ↔ ∃ p ∈ pos i, (deref s.memory p).key = key := by
  rw [(h.entries i).mem_iff]
  constructor
  · intro ⟨e, he, hek⟩
    obtain ⟨p, hp, rfl⟩ := List.mem_map.mp (List.mem_filter.mp he).1
    exact ⟨p, hp, hek⟩
  · intro ⟨p, hp, hek⟩
    have hused : used (deref s.memory p) = true := used_iff.mpr (hek ▸ hkey)
    exact ⟨_, List.mem_filter.mpr ⟨List.mem_map_of_mem hp, hused⟩, hek⟩

omit [DecidableEq ι] [Inhabited V] in
theorem entries_split (h : Stores k addr s pos M) (hi : pos i = pre ++ p :: post) :
    Entries ((pre.map (deref s.memory)).filter used ++ ([deref s.memory p].filter used ++
      (post.map (deref s.memory)).filter used)) (M i) := by
  have he := h.entries i
  rw [hi, List.map_append, List.map_cons, ← List.singleton_append, List.filter_append,
    List.filter_append] at he
  exact he

omit [Inhabited V] in
/-- A slot of the map `i` was written to, and the entries in use are those of `F` now. -/
theorem write (h : Stores k addr s pos M) (hi : pos i = pre ++ p :: post) (e : MapPair K V)
    {F : Finmap fun _ : K ↦ V} {size : ℕ}
    (hF : Entries ((pre.map (deref s.memory)).filter used ++ ([e].filter used ++
      (post.map (deref s.memory)).filter used)) F) (hsize : size = F.keys.card) :
    Stores k addr ⟨TinyVector.write s.memory p e, update s.size i size⟩ pos (update M i F) := by
  have hp : p ∈ pos i := by
    rw [hi]
    simp
  refine ⟨h.holds.write p e, fun j ↦ ?_, fun j ↦ ?_⟩
  · rcases eq_or_ne j i with rfl | hj
    · rw [update_self, h.holds.map_write_self hi, ← List.singleton_append, List.filter_append,
        List.filter_append]
      exact hF
    · rw [update_of_ne hj, h.holds.map_write_of_ne hp hj]
      exact h.entries j
  · dsimp only
    rcases eq_or_ne j i with rfl | hj
    · rw [update_self, update_self, hsize]
    · rw [update_of_ne hj, update_of_ne hj]
      exact h.size j

theorem append (h : Stores k addr s pos M) (hk : 0 < k) (halloc : Allocates k alloc) (i : ι)
    (hkey : key ≠ default) (hmem : key ∉ M i) (value : V) :
    ∃ m' p, (∀ᶠ n in atTop, append k alloc n s.memory (addr i) ⟨key, value⟩ = some (m', p)) ∧
      Stores k addr ⟨m', update s.size i (s.size i + 1)⟩ (update pos i (pos i ++ [p]))
        (update M i ((M i).insert key value)) ∧ deref m' p = ⟨key, value⟩ := by
  obtain ⟨m', p, happend, hholds, hp, hold⟩ := h.holds.append hk halloc i ⟨key, value⟩
  have hentries : Entries (((pos i).map (deref s.memory)).filter used ++ [⟨key, value⟩])
      ((M i).insert key value) := by
    refine Entries.insert ?_ hmem value
    rw [List.append_nil]
    exact h.entries i
  refine ⟨m', p, happend, ⟨hholds, fun j ↦ ?_, fun j ↦ ?_⟩, hp⟩
  · have hsame : (pos j).map (deref m') = (pos j).map (deref s.memory) :=
      List.map_congr_left fun q hq ↦ hold j q hq
    rcases eq_or_ne j i with rfl | hj
    · rw [update_self, update_self, List.map_append, hsame, List.map_singleton, hp,
        List.filter_append, List.filter_cons_of_pos (used_iff.mpr hkey)]
      exact hentries
    · rw [update_of_ne hj, update_of_ne hj, hsame]
      exact h.entries j
  · dsimp only
    rcases eq_or_ne j i with rfl | hj
    · rw [update_self, update_self, h.size j, ← hentries.length, List.length_append,
        (h.entries j).length]
      rfl
    · rw [update_of_ne hj, update_of_ne hj]
      exact h.size j

omit [DecidableEq ι] [Inhabited V] in
theorem loop (h : Stores k addr s pos M) (hk : 0 < k) (i : ι) (key : K) :
    ∀ᶠ n in atTop, indexLoop k s.memory key n (begin s.memory (addr i)) none = some
      (match (pos i).find? fun p ↦ (deref s.memory p).key = key with
      | some p => .inl p
      | none => .inr ((pos i).filter fun p ↦ default = (deref s.memory p).key).getLast?) := by
  filter_upwards [eventually_ge_atTop (pos i).length] with n hn
  rw [indexLoop_eq (h.holds.path hk i) hn key, Option.or_none]

variable (alloc) in
theorem index_of_mem (h : Stores k addr s pos M) (hk : 0 < k) (hkey : key ≠ default)
    (hmem : key ∈ M i) :
    ∃ p, (∀ᶠ n in atTop, index k alloc addr n s i key = some (s, p)) ∧ p ∈ pos i ∧
      (deref s.memory p).key = key ∧
      (M i).lookup key = some (deref s.memory p).value := by
  cases hf : (pos i).find? fun p ↦ (deref s.memory p).key = key with
  | some p =>
    have hp : p ∈ pos i := List.mem_of_find?_eq_some hf
    have hpkey : (deref s.memory p).key = key := by simpa using List.find?_some hf
    refine ⟨p, ?_, hp, hpkey, ?_⟩
    · filter_upwards [h.loop hk i key] with n hn
      rw [index, if_neg hkey, hn, hf]
      rfl
    · have hused : used (deref s.memory p) = true := used_iff.mpr (hpkey ▸ hkey)
      have hentry := List.mem_filter.mpr ⟨List.mem_map_of_mem hp, hused⟩
      rw [← hpkey]
      exact ((h.entries i).lookup _ _).mp hentry
  | none =>
    obtain ⟨p, hp, hpkey⟩ := (h.mem_iff hkey).mp hmem
    exact absurd (decide_eq_true hpkey) (List.find?_eq_none.mp hf p hp)

/-- `operator[]` makes an entry for a key that is not in the map: the last unused one, or a new
one. -/
theorem index_of_not_mem (h : Stores k addr s pos M) (hk : 0 < k) (halloc : Allocates k alloc)
    (hkey : key ≠ default) (hmem : key ∉ M i) :
    ∃ s' pos' p, (∀ᶠ n in atTop, index k alloc addr n s i key = some (s', p)) ∧
      Stores k addr s' pos' (update M i ((M i).insert key default)) ∧ p ∈ pos' i ∧
      deref s'.memory p = ⟨key, default⟩ := by
  have hf : ((pos i).find? fun p ↦ (deref s.memory p).key = key) = none := by
    refine List.find?_eq_none.mpr fun p hp hpkey ↦ hmem ?_
    exact (h.mem_iff hkey).mpr ⟨p, hp, of_decide_eq_true hpkey⟩
  cases hlast : ((pos i).filter fun p ↦ default = (deref s.memory p).key).getLast? with
  | some p =>
    obtain ⟨hp, hunused⟩ := List.mem_filter.mp (List.mem_of_getLast? hlast)
    obtain ⟨pre, post, hi⟩ := List.append_of_mem hp
    have hold := h.entries_split hi
    have hskip : [deref s.memory p].filter used = [] := by
      refine List.filter_cons_of_neg fun hused ↦ used_iff.mp hused ?_
      exact (of_decide_eq_true hunused).symm
    rw [hskip, List.nil_append] at hold
    have hnew := hold.insert hmem default
    have hsize : s.size i + 1 = ((M i).insert key default).keys.card := by
      rw [h.size i, ← hold.length, ← hnew.length, List.length_append, List.length_append,
        List.length_cons, Nat.add_assoc]
    have hone : [(⟨key, default⟩ : MapPair K V)].filter used = [⟨key, default⟩] :=
      List.filter_cons_of_pos (used_iff.mpr hkey)
    have hwrite := h.write hi ⟨key, default⟩ (by rwa [hone, List.singleton_append]) hsize
    refine ⟨_, pos, p, ?_, hwrite, hp, by rw [deref_write, if_pos rfl]⟩
    filter_upwards [h.loop hk i key] with n hn
    rw [index, if_neg hkey, hn, hf]
    simp only [hlast, Option.bind_some]
  | none =>
    obtain ⟨m', p, happend, hstores, hp⟩ := h.append hk halloc i hkey hmem default
    refine ⟨_, _, p, ?_, hstores, ?_, hp⟩
    · filter_upwards [h.loop hk i key, happend] with n hn hn'
      rw [index, if_neg hkey, hn, hf]
      simp only [hlast, Option.bind_some, hn', Option.map_some]
    · rw [update_self]
      simp

omit [Inhabited V] in
theorem write_value (h : Stores k addr s pos M) (hkey : key ≠ default) (hp : p ∈ pos i)
    (hpkey : (deref s.memory p).key = key) (value : V) :
    Stores k addr
      { s with memory := TinyVector.write s.memory p { deref s.memory p with value := value } } pos
      (update M i ((M i).insert key value)) := by
  subst hpkey
  obtain ⟨pre, post, hi⟩ := List.append_of_mem hp
  have hold := h.entries_split hi
  have hused (e : MapPair K V) (he : e.key = (deref s.memory p).key) : [e].filter used = [e] :=
    List.filter_cons_of_pos (used_iff.mpr (he ▸ hkey))
  rw [hused _ rfl] at hold
  have hnew : Entries ((pre.map (deref s.memory)).filter used ++
      ⟨(deref s.memory p).key, value⟩ :: (post.map (deref s.memory)).filter used)
      ((M i).insert (deref s.memory p).key value) :=
    Entries.replace (v := (deref s.memory p).value) hold value
  have hsize : s.size i = ((M i).insert (deref s.memory p).key value).keys.card := by
    rw [h.size i, ← hold.length, ← hnew.length]
    simp only [List.length_append, List.length_cons, List.length_nil]
    omega
  have hF : Entries ((pre.map (deref s.memory)).filter used ++
      ([⟨(deref s.memory p).key, value⟩].filter used ++ (post.map (deref s.memory)).filter used))
      ((M i).insert (deref s.memory p).key value) := by
    rw [hused ⟨(deref s.memory p).key, value⟩ rfl]
    exact hnew
  have hwrite := h.write hi ⟨(deref s.memory p).key, value⟩ hF hsize
  rw [update_eq_self] at hwrite
  exact hwrite

theorem assign (h : Stores k addr s pos M) (hk : 0 < k) (halloc : Allocates k alloc)
    (hkey : key ≠ default) (i : ι) (value : V) :
    ∃ s' pos', (∀ᶠ n in atTop, assign k alloc addr n s i key value = some s') ∧
      Stores k addr s' pos' (update M i ((M i).insert key value)) := by
  by_cases hmem : key ∈ M i
  · obtain ⟨p, hindex, hp, hpkey, -⟩ := h.index_of_mem alloc hk hkey hmem
    refine ⟨_, pos, ?_, h.write_value hkey hp hpkey value⟩
    filter_upwards [hindex] with n hn
    rw [TinyMap.assign, hn]
    rfl
  · obtain ⟨s', pos', p, hindex, hs', hp, hentry⟩ := h.index_of_not_mem hk halloc hkey hmem
    have hwrite := hs'.write_value hkey hp (congrArg MapPair.key hentry) value
    rw [update_self, update_idem, Finmap.insert_insert] at hwrite
    refine ⟨_, pos', ?_, hwrite⟩
    filter_upwards [hindex] with n hn
    rw [TinyMap.assign, hn]
    rfl

omit [Inhabited V] in
theorem remove (h : Stores k addr s pos M) (hk : 0 < k) (hkey : key ≠ default) (i : ι)
    (hleave : key ∈ M i → ∀ v, (leave ⟨key, v⟩).key = default) :
    ∃ s', (∀ᶠ n in atTop, remove k leave addr n s i key = some s') ∧
      Stores k addr s' pos (update M i ((M i).erase key)) := by
  have hfind : ∀ᶠ n in atTop, find k n s.memory (addr i) key =
      some ((pos i).find? fun p ↦ (deref s.memory p).key = key) := by
    filter_upwards [eventually_ge_atTop (pos i).length] with n hn
    exact search_eq_find? (h.holds.path hk i) hn
  cases hf : (pos i).find? fun p ↦ (deref s.memory p).key = key with
  | none =>
    have hmem : key ∉ M i := by
      rw [h.mem_iff hkey]
      intro ⟨p, hp, hpkey⟩
      exact absurd (decide_eq_true hpkey) (List.find?_eq_none.mp hf p hp)
    have hsame : (M i).erase key = M i := by
      apply Finmap.ext_lookup
      intro key'
      rcases eq_or_ne key' key with rfl | hne
      · rw [Finmap.lookup_erase, Finmap.lookup_eq_none.mpr hmem]
      · exact Finmap.lookup_erase_ne hne
    refine ⟨s, ?_, by rwa [hsame, update_eq_self]⟩
    filter_upwards [hfind] with n hn
    rw [TinyMap.remove, if_neg hkey, hn, hf]
    rfl
  | some p =>
    have hp : p ∈ pos i := List.mem_of_find?_eq_some hf
    have hpkey : (deref s.memory p).key = key := by simpa using List.find?_some hf
    have hentry : deref s.memory p = ⟨key, (deref s.memory p).value⟩ := MapPair.ext hpkey rfl
    obtain ⟨pre, post, hi⟩ := List.append_of_mem hp
    have hold := h.entries_split hi
    have hone : [deref s.memory p].filter used = [deref s.memory p] :=
      List.filter_cons_of_pos (used_iff.mpr (hpkey ▸ hkey))
    rw [hone, List.singleton_append, hentry] at hold
    have hnew := hold.erase
    have hreset : [leave (deref s.memory p)].filter used = [] := by
      refine List.filter_cons_of_neg fun hused ↦ used_iff.mp hused ?_
      rw [hentry]
      exact hleave ((h.mem_iff hkey).mpr ⟨p, hp, hpkey⟩) _
    have hsize : decrement (s.size i) = ((M i).erase key).keys.card := by
      rw [h.size i, ← hold.length, ← hnew.length, decrement]
      simp
    refine ⟨_, ?_, h.write hi _ (by rwa [hreset, List.nil_append]) hsize⟩
    filter_upwards [hfind] with n hn
    rw [TinyMap.remove, if_neg hkey, hn, hf]
    rfl

end Stores

/-- What an operation does to the maps. The default key stands for no entry. -/
def Op.effect (M : ι → Finmap fun _ : K ↦ V) : Op ι K V → Option (ι → Finmap fun _ : K ↦ V)
  | .index i key =>
    if key = default then none
    else some (update M i (if key ∈ M i then M i else (M i).insert key default))
  | .assign i key value =>
    if key = default then none else some (update M i ((M i).insert key value))
  | .remove i key => if key = default then none else some (update M i ((M i).erase key))

/-- No key of a map is removed, unless the default initialisation of an entry resets it. -/
def Resets (leave : MapPair K V → MapPair K V) (M : ι → Finmap fun _ : K ↦ V) :
    Op ι K V → Prop
  | .remove i key => key ∈ M i → ∀ v, (leave ⟨key, v⟩).key = default
  | _ => True

def Represents (k : ℕ) (addr : ι → ℕ) (s : Maps ι K V) (M : ι → Finmap fun _ : K ↦ V) : Prop :=
  ∃ pos, Stores k addr s pos M

variable {M' : ι → Finmap fun _ : K ↦ V}

theorem Represents.step (h : Represents k addr s M) (hk : 0 < k) (halloc : Allocates k alloc)
    {op : Op ι K V} (hleave : Resets leave M op) (hop : op.effect M = some M') :
    ∃ s', Represents k addr s' M' ∧ ∀ᶠ n in atTop, step k alloc leave addr n s op = some s' := by
  obtain ⟨pos, hs⟩ := h
  cases op with
  | index i key =>
    rw [Op.effect] at hop
    split_ifs at hop with hkey hmem
    · obtain rfl := Option.some.inj hop
      obtain ⟨p, hindex, -⟩ := hs.index_of_mem alloc hk hkey hmem
      refine ⟨s, ⟨pos, by rwa [update_eq_self]⟩, ?_⟩
      filter_upwards [hindex] with n hn
      rw [TinyMap.step, hn]
      rfl
    · obtain rfl := Option.some.inj hop
      obtain ⟨s', pos', p, hindex, hs', -⟩ := hs.index_of_not_mem hk halloc hkey hmem
      refine ⟨s', ⟨pos', hs'⟩, ?_⟩
      filter_upwards [hindex] with n hn
      rw [TinyMap.step, hn]
      rfl
  | assign i key value =>
    rw [Op.effect] at hop
    split_ifs at hop with hkey
    obtain rfl := Option.some.inj hop
    obtain ⟨s', pos', hassign, hs'⟩ := hs.assign hk halloc hkey i value
    exact ⟨s', ⟨pos', hs'⟩, hassign⟩
  | remove i key =>
    rw [Op.effect] at hop
    split_ifs at hop with hkey
    obtain rfl := Option.some.inj hop
    obtain ⟨s', hremove, hs'⟩ := hs.remove hk hkey i hleave
    exact ⟨s', ⟨pos, hs'⟩, hremove⟩

theorem Represents.observe (h : Represents k addr s M) (hk : 0 < k) (i : ι) :
    (∃ es : List (MapPair K V), Entries es (M i) ∧
      ∀ᶠ n in atTop, entries k addr n s i = some es) ∧
      s.size i = (M i).keys.card ∧
      ∀ key, key ≠ default →
        (∀ᶠ n in atTop, keyExists k addr n s i key = some (decide (key ∈ M i))) ∧
        ∀ v, (M i).lookup key = some v → ∀ᶠ n in atTop,
          (index k alloc addr n s i key).map (fun (s', p) ↦ (s', (deref s'.memory p).value)) =
            some (s, v) := by
  obtain ⟨pos, hs⟩ := h
  refine ⟨⟨_, hs.entries i, hs.holds.usedElements hk i used⟩, hs.size i, fun key hkey ↦
    ⟨?_, fun v hv ↦ ?_⟩⟩
  · have hfound : ((pos i).find? fun p ↦ (deref s.memory p).key = key).isSome =
        decide (key ∈ M i) := by
      rw [Bool.eq_iff_iff, List.find?_isSome, decide_eq_true_eq, hs.mem_iff hkey]
      simp only [decide_eq_true_eq]
    filter_upwards [eventually_ge_atTop (pos i).length] with n hn
    rw [keyExists, find, search_eq_find? (hs.holds.path hk i) hn, Option.map_some, hfound]
  · have hmem : key ∈ M i := Finmap.mem_iff.mpr ⟨v, hv⟩
    obtain ⟨p, hindex, -, -, hlookup⟩ := hs.index_of_mem alloc hk hkey hmem
    filter_upwards [hindex] with n hn
    rw [hn, Option.map_some, ← Option.some.inj (hlookup.symm.trans hv)]

omit [DecidableEq ι] [Inhabited V] in
theorem represents_start {m : Memory (MapPair K V)} (hm : Constructed m addr) :
    Represents k addr (⟨m, fun _ ↦ 0⟩ : Maps ι K V) fun _ ↦ ∅ := by
  refine ⟨_, hm.holds, fun _ ↦ ⟨List.nodup_nil, fun key v ↦ ?_⟩, fun _ ↦ rfl⟩
  rw [Finmap.lookup_empty]
  exact iff_of_false List.not_mem_nil (by simp)

theorem exists_run (hk : 0 < k) (halloc : Allocates k alloc) {m : Memory (MapPair K V)}
    (hm : Constructed m addr) {ops : List (Op ι K V)}
    (h : Base.Run.run Op.effect (fun _ ↦ ∅) ops = some M)
    (hleave : Base.Run.Along Op.effect (fun _ ↦ ∅) (Resets leave) ops) :
    ∃ s, Represents k addr s M ∧
      ∀ᶠ n in atTop, Base.Run.run (step k alloc leave addr n) ⟨m, fun _ ↦ 0⟩ ops = some s :=
  Base.Loop.exists_run_of_simulates
    (fun _ _ _ _ hr hC hop ↦ Represents.step hr hk halloc hC hop) hleave (represents_start hm) h

/-- Vectors, sets and maps refine lists, finite sets and finite maps, a map if the default
initialisation of an entry resets the keys that are removed. -/
theorem tinyContainers_refine {T : Type*} [DecidableEq T] [Inhabited T] (hk : 0 < k)
    (addr : ι → ℕ) :
    (∀ (alloc : Memory T → ℕ) (m : Memory T), Allocates k alloc → Constructed m addr →
      (∀ (ops : List (TinyVector.Op ι T)) (l : ι → List T),
        Base.Run.run TinyVector.Op.effect (fun _ ↦ []) ops = some l →
        ∃ m', (∀ᶠ n in atTop,
            Base.Run.run (TinyVector.step k alloc addr n) m ops = some m') ∧
          ∀ i, (∀ᶠ n in atTop, elements k n m' (addr i) = some (l i)) ∧
            (∀ᶠ n in atTop, size k n m' (addr i) = some (l i).length) ∧
            ∀ index v, (l i)[index]? = some v →
              ∀ᶠ n in atTop, (elementAt k m' n (addr i) index).map (deref m') = some v) ∧
      ∀ (ops : List (TinySet.Slots.Op ι T)) (S : ι → Finset T),
        Base.Run.run TinySet.Slots.Op.effect (fun _ ↦ ∅) ops = some S →
        ∃ s, (∀ᶠ n in atTop,
            Base.Run.run (TinySet.Slots.step k alloc addr n) ⟨m, fun _ ↦ 0⟩ ops = some s) ∧
          ∀ i, (∃ l : List T, l.Nodup ∧ l.toFinset = S i ∧
              ∀ᶠ n in atTop, TinySet.Slots.elements k addr n s i = some l) ∧
            s.size i = (S i).card ∧
            ∀ v, v ≠ default →
              ∀ᶠ n in atTop, TinySet.Slots.contains k addr n s i v = some (decide (v ∈ S i))) ∧
    ∀ (alloc : Memory (MapPair K V) → ℕ) (leave : MapPair K V → MapPair K V)
      (m : Memory (MapPair K V)), Allocates k alloc → Constructed m addr →
      ∀ (ops : List (Op ι K V)) (M : ι → Finmap fun _ : K ↦ V),
        Base.Run.run Op.effect (fun _ ↦ ∅) ops = some M →
        Base.Run.Along Op.effect (fun _ ↦ ∅) (Resets leave) ops →
        ∃ s, (∀ᶠ n in atTop,
            Base.Run.run (step k alloc leave addr n) ⟨m, fun _ ↦ 0⟩ ops = some s) ∧
          ∀ i, (∃ es : List (MapPair K V), Entries es (M i) ∧
              ∀ᶠ n in atTop, entries k addr n s i = some es) ∧
            s.size i = (M i).keys.card ∧
            ∀ key, key ≠ default →
              (∀ᶠ n in atTop, keyExists k addr n s i key = some (decide (key ∈ M i))) ∧
              ∀ v, (M i).lookup key = some v → ∀ᶠ n in atTop,
                (index k alloc addr n s i key).map (fun (s', p) ↦
                  (s', (deref s'.memory p).value)) = some (s, v) := by
  refine ⟨fun alloc m halloc hm ↦ ⟨fun ops l h ↦ ?_, fun ops S h ↦ ?_⟩,
    fun alloc leave m halloc hm ops M h hleave ↦ ?_⟩
  · obtain ⟨m', hm', hrun⟩ := TinyVector.exists_run hk halloc hm h
    exact ⟨m', hrun, fun i ↦ ⟨hm'.elements hk i, hm'.size i, fun _ _ hv ↦ hm'.elementAt hv⟩⟩
  · obtain ⟨s, hs, hrun⟩ := TinySet.Slots.exists_run hk halloc hm h
    exact ⟨s, hrun, fun i ↦ hs.observe hk i⟩
  · obtain ⟨s, hs, hrun⟩ := exists_run hk halloc hm h hleave
    exact ⟨s, hrun, fun i ↦ hs.observe hk i⟩

def above {T : Type*} (k : ℕ) (m : Memory T) : ℕ := m.live.sup id + k + 1

theorem allocates_above {T : Type*} (k : ℕ) : Allocates k (above k : Memory T → ℕ) := by
  intro m
  refine ⟨fun hmem ↦ ?_, by unfold above; omega⟩
  have hle : above k m ≤ m.live.sup id := Finset.le_sup (f := id) hmem
  unfold above at hle
  omega

theorem tinyContainers_refine_small :
    ∃ (m : Memory ℕ) (t : TinySet.Slots.Sets Unit ℕ) (s : Maps Unit ℕ ℕ),
      (∀ᶠ n in atTop, elements 1 n m 8 = some [3, 7]) ∧
      t.size () = 1 ∧ (∀ᶠ n in atTop, TinySet.Slots.contains 1 (fun _ ↦ 8) n t () 4 = some true) ∧
      ∀ᶠ n in atTop, keyExists 1 (fun _ ↦ 8) n s () 1 = some false := by
  have hconstructed {T : Type} [Inhabited T] :
      Constructed (⟨fun _ ↦ ⟨fun _ ↦ default, 0⟩, {8}⟩ : Memory T) fun _ : Unit ↦ 8 :=
    ⟨fun _ _ _ ↦ rfl, fun _ ↦ Finset.mem_singleton_self 8, fun _ ↦ rfl⟩
  have hresets (M : Unit → Finmap fun _ : ℕ ↦ ℕ) (op : Op Unit ℕ ℕ) :
      Resets (fun _ ↦ default) M op := by
    cases op with
    | remove i key => exact fun _ _ ↦ rfl
    | index i key => trivial
    | assign i key value => trivial
  have hk : 0 < 1 := Nat.one_pos
  obtain ⟨hvec, hmap⟩ :=
    tinyContainers_refine (ι := Unit) (K := ℕ) (V := ℕ) (T := ℕ) hk fun _ ↦ 8
  obtain ⟨hlist, hset⟩ := hvec (above 1) _ (allocates_above 1) hconstructed
  obtain ⟨m, -, hm⟩ := hlist [.append () 3, .append () 4, .set () 1 7] _ rfl
  obtain ⟨t, -, ht⟩ := hset [.add () 3, .add () 4, .add () 4, .remove () 3] _ rfl
  obtain ⟨s, -, hs⟩ := hmap (above 1) (fun _ ↦ default) _ (allocates_above 1) hconstructed
    [.assign () 1 5, .remove () 1] _ rfl fun _ op M _ _ ↦ hresets M op
  refine ⟨m, t, s, (hm ()).1, (ht ()).2.1.trans ?_, ?_, ?_⟩
  · decide
  · exact (ht ()).2.2 4 (by decide)
  have hexists := ((hs ()).2.2 1 (by decide)).1
  simpa using hexists

/-- The key of an entry that was removed is found again, where the default initialisation of an
entry leaves it as it is. -/
theorem tinyMap_finds_removed :
    (∃ M, Base.Run.run Op.effect (fun _ : Unit ↦ (∅ : Finmap fun _ : ℕ ↦ ℕ))
      [.assign () 1 5, .remove () 1] = some M ∧ 1 ∉ M ()) ∧
    (Base.Run.run (step 1 (above 1) id (fun _ ↦ 8) 2)
      (⟨⟨fun _ ↦ ⟨fun _ ↦ default, 0⟩, {8}⟩, fun _ ↦ 0⟩ : Maps Unit ℕ ℕ)
      [.assign () 1 5, .remove () 1]).bind (fun s ↦ keyExists 1 (fun _ ↦ 8) 2 s () 1) =
        some true := by
  refine ⟨⟨_, rfl, ?_⟩, rfl⟩
  simp

end Granary.Base.TinyMap
