import Granary.Base.TinySet
import Granary.Base.TinyVector

namespace Granary.Base.TinySet.Slots

open Function Filter Granary.Base.Chain Granary.Base.Loop Granary.Base.TinyVector

/-- The `TinySet` objects: their vectors and their `size` fields. -/
structure Sets (ι T : Type*) where
  memory : Memory T
  size : ι → ℕ

variable {ι T : Type*} [DecidableEq ι] [DecidableEq T] [Inhabited T]

section Code

variable (kMinSize : ℕ) (alloc : Memory T → ℕ) (addr : ι → ℕ) (fuel : ℕ)

def find (m : Memory T) (a : ℕ) (elem : T) : Option (Option Position) :=
  search (next kMinSize m) (fun p ↦ deref m p = elem) fuel (begin m a)

/-- An assertion that does not hold is a failure. -/
def contains (s : Sets ι T) (i : ι) (elem : T) : Option Bool :=
  if elem = default then none else (find kMinSize fuel s.memory (addr i) elem).map Option.isSome

def add (s : Sets ι T) (i : ι) (elem : T) : Option (Sets ι T × Bool) :=
  if elem = default then none
  else (contains kMinSize addr fuel s i elem).bind fun found ↦
    if found then some (s, false)
    else (append kMinSize alloc fuel s.memory (addr i) elem).map fun (m, _) ↦
      (⟨m, update s.size i (s.size i + 1)⟩, true)

def remove (s : Sets ι T) (i : ι) (elem : T) : Option (Sets ι T × Bool) :=
  if elem = default then none
  else (find kMinSize fuel s.memory (addr i) elem).map fun
    | some p => (⟨write s.memory p default, update s.size i (decrement (s.size i))⟩, true)
    | none => (s, false)

def used (elem : T) : Bool := elem ≠ default

def union (s : Sets ι T) (i that : ι) : Option (Sets ι T) :=
  if that = i then some s
  else (advance kMinSize used fuel s.memory (begin s.memory (addr that))).bind fun o ↦
    forEach (fun s p ↦ advance kMinSize used fuel s.memory (next kMinSize s.memory p))
      (fun s p ↦ (add kMinSize alloc addr fuel s i (deref s.memory p)).map Prod.fst) fuel o s

def elements (s : Sets ι T) (i : ι) : Option (List T) :=
  usedElements kMinSize used fuel s.memory (addr i)

inductive Op (ι T : Type*) where
  | add (i : ι) (elem : T)
  | remove (i : ι) (elem : T)
  | union (i that : ι)

def step (s : Sets ι T) : Op ι T → Option (Sets ι T)
  | .add i elem => (add kMinSize alloc addr fuel s i elem).map Prod.fst
  | .remove i elem => (remove kMinSize addr fuel s i elem).map Prod.fst
  | .union i that => union kMinSize alloc addr fuel s i that

end Code

variable {k : ℕ} {alloc : Memory T → ℕ} {addr : ι → ℕ} {s s' : Sets ι T} {pos : ι → List Position}
  {l : ι → TinySet T} {i j : ι} {v : T}

omit [DecidableEq ι] in
theorem used_iff : used v = true ↔ v ≠ default :=
  decide_eq_true_iff

/-- The elements of the sets are in the slots at `pos` that are in use. -/
structure Stores (k : ℕ) (addr : ι → ℕ) (s : Sets ι T) (pos : ι → List Position)
    (l : ι → TinySet T) : Prop where
  holds : Holds k s.memory addr pos
  elements : ∀ i, ((pos i).map (deref s.memory)).filter used = l i
  nodup : ∀ i, (l i).Nodup
  size : ∀ i, s.size i = (l i).length

namespace Stores

omit [DecidableEq ι] in
theorem mem_iff (h : Stores k addr s pos l) (hv : v ≠ default) :
    v ∈ l i ↔ ∃ p ∈ pos i, deref s.memory p = v := by
  rw [← h.elements i, List.mem_filter, List.mem_map, used_iff]
  exact and_iff_left hv

omit [DecidableEq ι] in
theorem find (h : Stores k addr s pos l) (hk : 0 < k) (i : ι) (v : T) :
    ∀ᶠ n in atTop, find k n s.memory (addr i) v =
      some ((pos i).find? fun p ↦ deref s.memory p = v) := by
  filter_upwards [eventually_ge_atTop (pos i).length] with n hn
  exact search_eq_find? (h.holds.path hk i) hn

omit [DecidableEq ι] in
theorem contains (h : Stores k addr s pos l) (hk : 0 < k) (hv : v ≠ default) (i : ι) :
    ∀ᶠ n in atTop, contains k addr n s i v = some (decide (v ∈ l i)) := by
  filter_upwards [h.find hk i v] with n hn
  have hfound : ((pos i).find? fun p ↦ deref s.memory p = v).isSome = decide (v ∈ l i) := by
    rw [Bool.eq_iff_iff, List.find?_isSome, decide_eq_true_eq, h.mem_iff hv]
    simp only [decide_eq_true_eq]
  rw [Slots.contains, if_neg hv, hn, Option.map_some, hfound]

theorem add (h : Stores k addr s pos l) (hk : 0 < k) (halloc : Allocates k alloc)
    (hv : v ≠ default) (i : ι) :
    ∃ s' pos', (∀ᶠ n in atTop, add k alloc addr n s i v = some (s', decide (v ∉ l i))) ∧
      Stores k addr s' pos' (update l i ((l i).add v)) ∧
      ∀ j ≠ i, pos' j = pos j ∧ ∀ p ∈ pos j, deref s'.memory p = deref s.memory p := by
  by_cases hmem : v ∈ l i
  · refine ⟨s, pos, ?_, ?_, fun j _ ↦ ⟨rfl, fun _ _ ↦ rfl⟩⟩
    · filter_upwards [h.contains hk hv i] with n hn
      rw [Slots.add, if_neg hv, hn, decide_eq_true hmem, Option.bind_some, if_pos rfl]
      simp [hmem]
    · rw [TinySet.add, if_pos hmem, update_eq_self]
      exact h
  · obtain ⟨m', p, happend, hholds, hp, hold⟩ := h.holds.append hk halloc i v
    refine ⟨⟨m', update s.size i (s.size i + 1)⟩, update pos i (pos i ++ [p]), ?_,
      ⟨hholds, fun j ↦ ?_, fun j ↦ ?_, fun j ↦ ?_⟩, fun j hj ↦ ⟨update_of_ne hj _ _, hold j⟩⟩
    · filter_upwards [h.contains hk hv i, happend] with n hn hn'
      rw [Slots.add, if_neg hv, hn, decide_eq_false hmem, Option.bind_some, if_neg (by simp), hn']
      simp [hmem]
    · have hsame : (pos j).map (deref m') = (pos j).map (deref s.memory) :=
        List.map_congr_left fun q hq ↦ hold j q hq
      rcases eq_or_ne j i with rfl | hj
      · rw [update_self, update_self, List.map_append, hsame, List.filter_append, h.elements j,
          TinySet.add, if_neg hmem, List.map_singleton, hp]
        rw [List.filter_cons_of_pos (used_iff.mpr hv), List.filter_nil]
      · rw [update_of_ne hj, update_of_ne hj, hsame]
        exact h.elements j
    · rcases eq_or_ne j i with rfl | hj
      · rw [update_self]
        exact nodup_add (h.nodup j) v
      · rw [update_of_ne hj]
        exact h.nodup j
    · rcases eq_or_ne j i with rfl | hj
      · dsimp only
        rw [update_self, update_self, TinySet.add, if_neg hmem, List.length_append, h.size j]
        rfl
      · dsimp only
        rw [update_of_ne hj, update_of_ne hj]
        exact h.size j

theorem remove (h : Stores k addr s pos l) (hk : 0 < k) (hv : v ≠ default) (i : ι) :
    ∃ s', (∀ᶠ n in atTop, remove k addr n s i v = some (s', decide (v ∈ l i))) ∧
      Stores k addr s' pos (update l i ((l i).remove v)) := by
  cases hf : (pos i).find? fun p ↦ deref s.memory p = v with
  | none =>
    have hmem : v ∉ l i := by
      rw [h.mem_iff hv]
      intro ⟨p, hp, he⟩
      exact absurd (decide_eq_true he) (List.find?_eq_none.mp hf p hp)
    refine ⟨s, ?_, ?_⟩
    · filter_upwards [h.find hk i v] with n hn
      rw [Slots.remove, if_neg hv, hn, hf]
      simp [hmem]
    · have hsame : (l i).remove v = l i :=
        List.filter_eq_self.mpr fun a ha ↦ decide_eq_true (ne_of_mem_of_not_mem ha hmem)
      rw [hsame, update_eq_self]
      exact h
  | some p =>
    obtain ⟨hp, pre, post, hsplit, hpre⟩ := List.find?_eq_some_iff_append.mp hf
    rw [decide_eq_true_eq] at hp
    have hl : l i = (pre.map (deref s.memory)).filter used ++
        v :: (post.map (deref s.memory)).filter used := by
      rw [← h.elements i, hsplit, List.map_append, List.map_cons, hp, List.filter_append,
        List.filter_cons_of_pos (used_iff.mpr hv)]
    have hmem : v ∈ l i := by
      rw [hl]
      simp
    have hremove : (l i).remove v = (pre.map (deref s.memory)).filter used ++
        (post.map (deref s.memory)).filter used := by
      have hn := h.nodup i
      rw [hl] at hn ⊢
      exact remove_middle hn
    have hpi : p ∈ pos i := by
      rw [hsplit]
      simp
    refine ⟨⟨write s.memory p default, update s.size i (decrement (s.size i))⟩, ?_,
      ⟨h.holds.write p default, fun j ↦ ?_, fun j ↦ ?_, fun j ↦ ?_⟩⟩
    · filter_upwards [h.find hk i v] with n hn
      rw [Slots.remove, if_neg hv, hn, hf, decide_eq_true hmem]
      rfl
    · rcases eq_or_ne j i with rfl | hj
      · rw [update_self, h.holds.map_write_self hsplit, hremove, List.filter_append,
          List.filter_cons_of_neg (mt used_iff.mp (not_not.mpr rfl))]
      · rw [update_of_ne hj, h.holds.map_write_of_ne hpi hj]
        exact h.elements j
    · rcases eq_or_ne j i with rfl | hj
      · rw [update_self]
        exact nodup_remove (h.nodup j) v
      · rw [update_of_ne hj]
        exact h.nodup j
    · rcases eq_or_ne j i with rfl | hj
      · dsimp only
        rw [update_self, update_self, h.size j, hremove, hl, decrement]
        simp
      · dsimp only
        rw [update_of_ne hj, update_of_ne hj]
        exact h.size j

/-- What holds of `s'` when the elements at `done` of the set `j` were added to the set `i`: the
slots of `j` are as they were. -/
def Adding (k : ℕ) (addr : ι → ℕ) (s : Sets ι T) (pos : ι → List Position) (l : ι → TinySet T)
    (i j : ι) (done : List Position) (s' : Sets ι T) : Prop :=
  ∃ pos', Stores k addr s' pos' (update l i ((l i).union (done.map (deref s.memory)))) ∧
    pos' j = pos j ∧ ∀ p ∈ pos j, deref s'.memory p = deref s.memory p

theorem adding_start (h : Stores k addr s pos l) (i j : ι) : Adding k addr s pos l i j [] s := by
  refine ⟨pos, ?_, rfl, fun _ _ ↦ rfl⟩
  have hnil : (l i).union ([].map (deref s.memory)) = l i := rfl
  rw [hnil, update_eq_self]
  exact h

theorem Adding.step {done rest : List Position} {p : Position}
    (h : Adding k addr s pos l i j done s') (hk : 0 < k) (halloc : Allocates k alloc) (hji : j ≠ i)
    (hl : (pos j).filter (fun q ↦ used (deref s.memory q)) = done ++ p :: rest) :
    ∃ s₂, Adding k addr s pos l i j (done ++ [p]) s₂ ∧ ∀ᶠ n in atTop,
      (Slots.add k alloc addr n s' i (deref s'.memory p)).map Prod.fst = some s₂ ∧
        advance k used n s₂.memory (next k s₂.memory p) = some rest.head? := by
  obtain ⟨pos₁, hs₁, hpos₁, hsame₁⟩ := h
  have hmem : p ∈ (pos j).filter fun q ↦ used (deref s.memory q) := by
    rw [hl]
    simp
  obtain ⟨hp, hused⟩ := List.mem_filter.mp hmem
  have hne : deref s'.memory p ≠ default := by
    rw [hsame₁ p hp]
    exact used_iff.mp hused
  obtain ⟨s₂, pos₂, hadd, hs₂, hold⟩ := hs₁.add hk halloc hne i
  obtain ⟨hpos₂, hsame₂⟩ := hold j hji
  have hsame (q : Position) (hq : q ∈ pos j) : deref s₂.memory q = deref s.memory q :=
    (hsame₂ q (hpos₁ ▸ hq)).trans (hsame₁ q hq)
  have hrest : (pos₂ j).filter (fun q ↦ used (deref s₂.memory q)) = done ++ p :: rest := by
    rw [← hl, hpos₂, hpos₁]
    exact List.filter_congr fun q hq ↦ by rw [hsame q hq]
  refine ⟨s₂, ⟨pos₂, ?_, hpos₂.trans hpos₁, hsame⟩, ?_⟩
  · rw [update_self, update_idem, hsame₁ p hp] at hs₂
    rw [List.map_append, List.map_singleton, union_concat]
    exact hs₂
  · filter_upwards [hadd, hs₂.holds.advance_next hk hrest] with n hn hn'
    rw [hn]
    exact ⟨rfl, hn'⟩

/-- Adding to a set leaves the others as they are, also the one that is gone through. -/
theorem union (h : Stores k addr s pos l) (hk : 0 < k) (halloc : Allocates k alloc) (i j : ι) :
    ∃ s' pos', (∀ᶠ n in atTop, union k alloc addr n s i j = some s') ∧
      Stores k addr s' pos' (update l i ((l i).union (l j))) := by
  rcases eq_or_ne j i with rfl | hji
  · refine ⟨s, pos, Eventually.of_forall fun n ↦ by rw [Slots.union, if_pos rfl], ?_⟩
    rw [union_eq_self fun a ha ↦ ha, update_eq_self]
    exact h
  · obtain ⟨s', ⟨pos', hs', -, -⟩, hloop⟩ :=
      forEach_spec (fun _ _ _ _ hl hI ↦ Adding.step hI hk halloc hji hl) (h.adding_start i j)
    have hlj : ((pos j).filter fun q ↦ used (deref s.memory q)).map (deref s.memory) = l j := by
      rw [← h.elements j, List.filter_map]
      rfl
    rw [hlj] at hs'
    refine ⟨s', pos', ?_, hs'⟩
    filter_upwards [h.holds.advance_begin hk j used, hloop] with n hn hn'
    rw [Slots.union, if_neg hji, hn]
    exact hn'

end Stores

/-- What an operation does to the sets. The default value stands for no element. -/
def Op.effect (S : ι → Finset T) : Op ι T → Option (ι → Finset T)
  | .add i elem => if elem = default then none else some (update S i (insert elem (S i)))
  | .remove i elem => if elem = default then none else some (update S i ((S i).erase elem))
  | .union i that => some (update S i (S i ∪ S that))

def Represents (k : ℕ) (addr : ι → ℕ) (s : Sets ι T) (S : ι → Finset T) : Prop :=
  ∃ pos l, Stores k addr s pos l ∧ ∀ i, (l i).toFinset = S i

variable {S S' : ι → Finset T}

omit [Inhabited T] in
theorem toFinset_update {t : TinySet T} {F : Finset T} (hl : ∀ j, (l j).toFinset = S j)
    (ht : t.toFinset = F) (j : ι) : (update l i t j).toFinset = update S i F j := by
  rcases eq_or_ne j i with rfl | hj
  · rw [update_self, update_self, ht]
  · rw [update_of_ne hj, update_of_ne hj, hl j]

theorem Represents.step (h : Represents k addr s S) (hk : 0 < k) (halloc : Allocates k alloc)
    {op : Op ι T} (hop : op.effect S = some S') : ∃ s', Represents k addr s' S' ∧
      ∀ᶠ n in atTop, step k alloc addr n s op = some s' := by
  obtain ⟨pos, l, hs, hl⟩ := h
  cases op with
  | add i v =>
    rw [Op.effect] at hop
    split_ifs at hop with hv
    obtain rfl := Option.some.inj hop
    obtain ⟨s', pos', hadd, hs', -⟩ := hs.add hk halloc hv i
    refine ⟨s', ⟨pos', _, hs', toFinset_update hl ?_⟩, ?_⟩
    · rw [TinySet.toFinset_add, hl i]
    · filter_upwards [hadd] with n hn
      rw [Slots.step, hn]
      rfl
  | remove i v =>
    rw [Op.effect] at hop
    split_ifs at hop with hv
    obtain rfl := Option.some.inj hop
    obtain ⟨s', hremove, hs'⟩ := hs.remove hk hv i
    refine ⟨s', ⟨pos, _, hs', toFinset_update hl ?_⟩, ?_⟩
    · rw [TinySet.toFinset_remove, hl i]
    · filter_upwards [hremove] with n hn
      rw [Slots.step, hn]
      rfl
  | union i j =>
    obtain rfl := Option.some.inj hop
    obtain ⟨s', pos', hunion, hs'⟩ := hs.union hk halloc i j
    refine ⟨s', ⟨pos', _, hs', toFinset_update hl ?_⟩, hunion⟩
    rw [TinySet.toFinset_union, hl i, hl j]

omit [DecidableEq ι] in
theorem Represents.observe (h : Represents k addr s S) (hk : 0 < k) (i : ι) :
    (∃ l : List T, l.Nodup ∧ l.toFinset = S i ∧ ∀ᶠ n in atTop, elements k addr n s i = some l) ∧
      s.size i = (S i).card ∧ ∀ v, v ≠ default →
        ∀ᶠ n in atTop, contains k addr n s i v = some (decide (v ∈ S i)) := by
  obtain ⟨pos, l, hs, hl⟩ := h
  refine ⟨⟨l i, hs.nodup i, hl i, ?_⟩, ?_, fun v hv ↦ ?_⟩
  · rw [← hs.elements i]
    exact hs.holds.usedElements hk i used
  · rw [hs.size i, ← hl i, List.toFinset_card_of_nodup (hs.nodup i)]
  · have hiff : v ∈ S i ↔ v ∈ l i := by rw [← hl i, List.mem_toFinset]
    simp only [hiff]
    exact hs.contains hk hv i

omit [DecidableEq ι] in
theorem represents_start {m : Memory T} (hm : Constructed m addr) :
    Represents k addr (⟨m, fun _ ↦ 0⟩ : Sets ι T) fun _ ↦ ∅ :=
  ⟨_, fun _ ↦ [], ⟨hm.holds, fun _ ↦ rfl, fun _ ↦ List.nodup_nil, fun _ ↦ rfl⟩, fun _ ↦ rfl⟩

theorem exists_run (hk : 0 < k) (halloc : Allocates k alloc) {m : Memory T}
    (hm : Constructed m addr) {ops : List (Op ι T)}
    (h : Base.Run.run Op.effect (fun _ ↦ ∅) ops = some S) :
    ∃ s, Represents k addr s S ∧
      ∀ᶠ n in atTop, Base.Run.run (step k alloc addr n) ⟨m, fun _ ↦ 0⟩ ops = some s :=
  Base.Loop.exists_run_of_simulates
    (fun _ _ _ _ hr (_ : True) hop ↦ Represents.step hr hk halloc hop) (fun _ _ _ _ _ ↦ trivial)
    (represents_start hm) h

end Granary.Base.TinySet.Slots
