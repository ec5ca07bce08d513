import Granary.Base.Chain
import Granary.Base.Run

namespace Granary.Clients.WrapFunc

open Function Granary.Base.Chain

structure FunctionWrapper (α : Type*) where
  next : Option α
  id : BitVec 8
  moduleName : String
  moduleOffset : ℕ
deriving DecidableEq, Repr

/-- The head of the list of wrappers, and the wrappers by their addresses. -/
structure Registry (α : Type*) where
  wrappers : Option α
  wrapper : α → FunctionWrapper α

variable {α : Type*}

namespace Registry

variable [DecidableEq α]

/-- The pointer that a pointer to a pointer points to: `wrappers`, or the `next` of a wrapper. -/
def read (s : Registry α) : Option α → Option α
  | none => s.wrappers
  | some w => (s.wrapper w).next

def write (s : Registry α) (loc : Option α) (p : Option α) : Registry α :=
  match loc with
  | none => { s with wrappers := p }
  | some w => { s with wrapper := update s.wrapper w { s.wrapper w with next := p } }

def setId (s : Registry α) (w : α) (id : BitVec 8) : Registry α :=
  { s with wrapper := update s.wrapper w { s.wrapper w with id := id } }

def wrappingSameFunction (s : Registry α) (a b : α) : Bool :=
  (s.wrapper a).moduleOffset = (s.wrapper b).moduleOffset &&
    (s.wrapper a).moduleName = (s.wrapper b).moduleName

/-- The loop over the wrappers of one function, cut off after `fuel` of them. -/
def lastWrapper (s : Registry α) : ℕ → α → Option α
  | 0, _ => none
  | n + 1, w =>
    match (s.wrapper w).next with
    | some next => if s.wrappingSameFunction w next then lastWrapper s n next else some w
    | none => some w

/-- The loop of `FunctionWrapperInsertPoint`, at the wrapper that `prev` points to. -/
def insertPoint (s : Registry α) (new : α) : ℕ → Option α → Option (Registry α × Option α)
  | n, prev =>
    match s.read prev with
    | none => some (s, prev)
    | some w =>
      match n with
      | 0 => none
      | n + 1 =>
        if (s.wrapper new).moduleOffset ≤ (s.wrapper w).moduleOffset ∧
            (s.wrapper new).moduleName = (s.wrapper w).moduleName then
          if (s.wrapper new).moduleOffset ≠ (s.wrapper w).moduleOffset then some (s, prev)
          else do
            let last ← s.lastWrapper n w
            some (s.setId new ((s.wrapper last).id + 1), some last)
        else insertPoint s new n (some w)

/-- The assertions of `AddFunctionWrapper` are guards. -/
def addFunctionWrapper (fuel : ℕ) (s : Registry α) (new : α) : Option (Registry α) :=
  if (s.wrapper new).next ≠ none then none
  else do
    let (s, insertPoint) ← s.insertPoint new fuel none
    let s := s.write (some new) (s.read insertPoint)
    let s := s.write insertPoint (some new)
    if s.wrappers = none then none else some s

/-- `FunctionWrapperFor` a block at an offset in a module, if it is in one, with the id in its
meta-data. -/
def functionWrapperFor (fuel : ℕ) (s : Registry α) (module : Option String) (offset : ℕ)
    (id : BitVec 8) : Option (Option α) :=
  match module with
  | none => some none
  | some name => search (fun w ↦ (s.wrapper w).next) (fun w ↦ offset = (s.wrapper w).moduleOffset ∧
      id = (s.wrapper w).id ∧ name = (s.wrapper w).moduleName) fuel s.wrappers

end Registry

abbrev FunctionKey := String × ℕ

/-- The wrappers of each function, in the order of the list. -/
abbrev Table (α : Type*) := List (FunctionKey × List α)

def Table.flatten (t : Table α) : List α := t.flatMap Prod.snd

section Insert

variable (key : α → FunctionKey) (a : α)

/-- A wrapper comes behind the others of its function. A new function comes before the first one of
its module at a higher offset. -/
def insertGroup : Table α → Table α
  | [] => [(key a, [a])]
  | (k, group) :: t =>
    if (key a).2 ≤ k.2 ∧ (key a).1 = k.1 then
      if (key a).2 ≠ k.2 then (key a, [a]) :: (k, group) :: t else (k, group ++ [a]) :: t
    else (k, group) :: insertGroup t

end Insert

def Sorted (t : Table α) : Prop :=
  t.Pairwise fun p q ↦ p.1.1 = q.1.1 → p.1.2 < q.1.2

/-- The table is that of the wrappers in `registered`. -/
structure Grouped (key : α → FunctionKey) (registered : List α) (t : Table α) : Prop where
  sorted : Sorted t
  group : ∀ p ∈ t, p.2 = registered.filter (key · = p.1)
  nonempty : ∀ p ∈ t, p.2 ≠ []
  complete : ∀ a ∈ registered, ∃ p ∈ t, p.1 = key a

section Table

variable {key : α → FunctionKey} {a : α} {t : Table α} {k : FunctionKey} {group : List α}
  {p : FunctionKey × List α} {registered : List α}

theorem Sorted.ne (h : Sorted ((k, group) :: t)) (hp : p ∈ t) : k ≠ p.1 := by
  intro he
  have hlt := (List.pairwise_cons.mp h).1 p hp (congrArg Prod.fst he)
  exact absurd (congrArg Prod.snd he) hlt.ne

theorem Sorted.ne_of_le (h : Sorted ((k, group) :: t)) (hle : (key a).2 ≤ k.2)
    (hname : (key a).1 = k.1) (hne : (key a).2 ≠ k.2) : ∀ q ∈ (k, group) :: t, q.1 ≠ key a := by
  intro q hq he
  rcases List.mem_cons.mp hq with rfl | hq
  · exact hne (congrArg Prod.snd he.symm)
  · have hlt : k.2 < q.1.2 := (List.pairwise_cons.mp h).1 q hq (he ▸ hname.symm)
    rw [he] at hlt
    exact absurd hlt (not_lt.mpr hle)

/-- What an insertion makes of a table: it changes the group of the function or makes one. -/
theorem mem_insertGroup (h : Sorted t) (hp : p ∈ insertGroup key a t) :
    p ∈ t ∧ p.1 ≠ key a ∨ (∃ group, (key a, group) ∈ t ∧ p = (key a, group ++ [a])) ∨
      (∀ q ∈ t, q.1 ≠ key a) ∧ p = (key a, [a]) := by
  induction t with
  | nil => exact Or.inr (Or.inr ⟨by simp, List.mem_singleton.mp hp⟩)
  | cons q t ih =>
    obtain ⟨k, group⟩ := q
    rw [insertGroup] at hp
    split_ifs at hp with hle hne
    · have hnew := h.ne_of_le hle.1 hle.2 hne
      rcases List.mem_cons.mp hp with rfl | hp
      · exact Or.inr (Or.inr ⟨hnew, rfl⟩)
      · exact Or.inl ⟨hp, hnew p hp⟩
    · obtain rfl : key a = k := Prod.ext hle.2 (not_not.mp hne)
      rcases List.mem_cons.mp hp with rfl | hp
      · exact Or.inr (Or.inl ⟨group, List.mem_cons_self, rfl⟩)
      · exact Or.inl ⟨List.mem_cons_of_mem _ hp, (h.ne hp).symm⟩
    · have hk : k ≠ key a := by
        intro he
        subst he
        exact hle ⟨le_rfl, rfl⟩
      rcases List.mem_cons.mp hp with rfl | hp
      · exact Or.inl ⟨List.mem_cons_self, hk⟩
      · rcases ih (List.pairwise_cons.mp h).2 hp with ⟨hpt, hne⟩ | ⟨g, hg, he⟩ | ⟨hnew, he⟩
        · exact Or.inl ⟨List.mem_cons_of_mem _ hpt, hne⟩
        · exact Or.inr (Or.inl ⟨g, List.mem_cons_of_mem _ hg, he⟩)
        · exact Or.inr (Or.inr ⟨List.forall_mem_cons.mpr ⟨hk, hnew⟩, he⟩)

theorem exists_mem_insertGroup (k : FunctionKey) :
    (∃ q ∈ insertGroup key a t, q.1 = k) ↔ (∃ q ∈ t, q.1 = k) ∨ k = key a := by
  induction t with
  | nil => simp [insertGroup, eq_comm]
  | cons q t ih =>
    obtain ⟨k', group⟩ := q
    rw [insertGroup]
    split_ifs with hle hne
    · simp only [List.exists_mem_cons_iff, eq_comm (a := k)]
      exact or_comm
    · obtain rfl : key a = k' := Prod.ext hle.2 (not_not.mp hne)
      simp only [List.exists_mem_cons_iff, eq_comm (a := k)]
      exact ⟨Or.inl, fun h ↦ h.elim id Or.inl⟩
    · simp only [List.exists_mem_cons_iff, ih]
      exact or_assoc.symm

theorem Sorted.insertGroup (h : Sorted t) : Sorted (insertGroup key a t) := by
  induction t with
  | nil => exact List.pairwise_singleton _ _
  | cons q t ih =>
    obtain ⟨k, group⟩ := q
    obtain ⟨hk, ht⟩ := List.pairwise_cons.mp h
    rw [WrapFunc.insertGroup]
    split_ifs with hle hne
    · refine List.pairwise_cons.mpr ⟨fun q hq he ↦ ?_, h⟩
      have hlt : (key a).2 < k.2 := lt_of_le_of_ne hle.1 hne
      rcases List.mem_cons.mp hq with rfl | hq
      · exact hlt
      · exact hlt.trans (hk q hq (hle.2.symm.trans he))
    · exact List.pairwise_cons.mpr ⟨hk, ht⟩
    · refine List.pairwise_cons.mpr ⟨fun q hq he ↦ ?_, ih ht⟩
      obtain ⟨q', hq', hkey⟩ | hkey := (exists_mem_insertGroup q.1).mp ⟨q, hq, rfl⟩
      · rw [← hkey] at he ⊢
        exact hk q' hq' he
      · rw [hkey] at he ⊢
        exact not_le.mp fun hle' ↦ hle ⟨hle', he.symm⟩

theorem filter_concat (key : α → FunctionKey) (registered : List α) (a : α) (k : FunctionKey) :
    (registered ++ [a]).filter (key · = k) =
      registered.filter (key · = k) ++ if key a = k then [a] else [] := by
  rw [List.filter_append]
  by_cases hk : key a = k <;> simp [hk]

theorem Grouped.filter_eq_nil (h : Grouped key registered t) (hk : ∀ q ∈ t, q.1 ≠ k) :
    registered.filter (key · = k) = [] := by
  rw [List.filter_eq_nil_iff]
  intro b hb hkey
  obtain ⟨q, hq, he⟩ := h.complete b hb
  exact hk q hq (he.trans (of_decide_eq_true hkey))

theorem Grouped.insertGroup (h : Grouped key registered t) :
    Grouped key (registered ++ [a]) (insertGroup key a t) := by
  refine ⟨h.sorted.insertGroup, fun p hp ↦ ?_, fun p hp ↦ ?_, fun b hb ↦ ?_⟩
  · rw [filter_concat]
    rcases mem_insertGroup h.sorted hp with ⟨hpt, hne⟩ | ⟨g, hg, rfl⟩ | ⟨hnew, rfl⟩
    · rw [if_neg (Ne.symm hne), List.append_nil]
      exact h.group p hpt
    · rw [if_pos rfl, ← h.group _ hg]
    · rw [if_pos rfl, h.filter_eq_nil hnew, List.nil_append]
  · rcases mem_insertGroup h.sorted hp with ⟨hpt, -⟩ | ⟨g, -, rfl⟩ | ⟨-, rfl⟩
    · exact h.nonempty p hpt
    · simp
    · simp
  · rcases List.mem_append.mp hb with hb | hb
    · exact (exists_mem_insertGroup _).mpr (Or.inl (h.complete b hb))
    · rw [List.mem_singleton.mp hb]
      exact (exists_mem_insertGroup _).mpr (Or.inr rfl)

namespace Grouped

theorem key_eq (h : Grouped key registered t) (hp : p ∈ t) (ha : a ∈ p.2) : key a = p.1 := by
  rw [h.group p hp] at ha
  exact of_decide_eq_true (List.mem_filter.mp ha).2

theorem mem_flatten (h : Grouped key registered t) : a ∈ Table.flatten t ↔ a ∈ registered := by
  rw [Table.flatten, List.mem_flatMap]
  constructor
  · intro ⟨p, hp, ha⟩
    rw [h.group p hp] at ha
    exact (List.mem_filter.mp ha).1
  · intro ha
    obtain ⟨p, hp, hkey⟩ := h.complete a ha
    refine ⟨p, hp, ?_⟩
    rw [h.group p hp]
    exact List.mem_filter.mpr ⟨ha, decide_eq_true hkey.symm⟩

theorem nodup_flatten (h : Grouped key registered t) (hn : registered.Nodup) :
    (Table.flatten t).Nodup := by
  refine List.nodup_flatMap.mpr ⟨fun p hp ↦ ?_, ?_⟩
  · rw [h.group p hp]
    exact hn.filter _
  · refine h.sorted.imp_of_mem fun {p q} hp hq hpq a ha ha' ↦ ?_
    have he : p.1 = q.1 := (h.key_eq hp ha).symm.trans (h.key_eq hq ha')
    exact absurd (congrArg Prod.snd he) (hpq (congrArg Prod.fst he)).ne

theorem perm (h : Grouped key registered t) (hn : registered.Nodup) :
    (Table.flatten t).Perm registered :=
  (List.perm_ext_iff_of_nodup (h.nodup_flatten hn) hn).mpr fun _ ↦ h.mem_flatten

theorem pairwise (h : Grouped key registered t) :
    (Table.flatten t).Pairwise fun a b ↦ (key a).1 = (key b).1 → (key a).2 ≤ (key b).2 := by
  refine List.pairwise_flatMap.mpr ⟨fun p hp ↦ ?_, ?_⟩
  · refine List.pairwise_of_forall_mem_list fun a ha b hb _ ↦ ?_
    rw [h.key_eq hp ha, h.key_eq hp hb]
  · refine h.sorted.imp_of_mem fun {p q} hp hq hpq a ha b hb he ↦ ?_
    rw [h.key_eq hp ha, h.key_eq hq hb] at he ⊢
    exact (hpq he).le

/-- The wrappers of a function stand side by side, in the order in which they were registered. -/
theorem isInfix (h : Grouped key registered t) (k : FunctionKey) :
    registered.filter (key · = k) <:+: Table.flatten t := by
  by_cases hk : ∃ p ∈ t, p.1 = k
  · obtain ⟨p, hp, rfl⟩ := hk
    obtain ⟨x, y, rfl⟩ := List.append_of_mem hp
    refine ⟨Table.flatten x, Table.flatten y, ?_⟩
    rw [← h.group p hp]
    simp [Table.flatten]
  · rw [h.filter_eq_nil fun q hq hqk ↦ hk ⟨q, hq, hqk⟩]
    exact List.nil_infix

end Grouped

end Table

namespace Registry

variable [DecidableEq α] {s : Registry α} {key : α → FunctionKey} {a b w : α} {t : Table α}
  {k : FunctionKey} {group l r : List α} {prev : Option α} {n : ℕ} {id : BitVec 8}

def next (s : Registry α) (w : α) : Option α := (s.wrapper w).next

/-- The names and offsets of the wrappers. -/
def HasKeys (s : Registry α) (key : α → FunctionKey) : Prop :=
  ∀ a, ((s.wrapper a).moduleName, (s.wrapper a).moduleOffset) = key a

omit [DecidableEq α] in
theorem HasKeys.eq (h : s.HasKeys key) (a : α) :
    (s.wrapper a).moduleName = (key a).1 ∧ (s.wrapper a).moduleOffset = (key a).2 := by
  rw [← h a]
  exact ⟨rfl, rfl⟩

omit [DecidableEq α] in
theorem HasKeys.wrappingSameFunction_iff (h : s.HasKeys key) :
    s.wrappingSameFunction a b = true ↔ key a = key b := by
  simp only [wrappingSameFunction, (h.eq a).1, (h.eq a).2, (h.eq b).1, (h.eq b).2, Bool.and_eq_true,
    decide_eq_true_eq]
  exact ⟨fun ⟨h2, h1⟩ ↦ Prod.ext h1 h2, fun he ↦ he ▸ ⟨rfl, rfl⟩⟩

omit [DecidableEq α] in
theorem HasKeys.lastWrapper (h : s.HasKeys key) (hp : Path s.next (s.next w) (l ++ r) none)
    (hl : ∀ b ∈ l, key b = key w) (hr : ∀ b, r.head? = some b → key b ≠ key w)
    (hn : l.length < n) : s.lastWrapper n w = some (l.getLast?.getD w) := by
  induction l generalizing w n with
  | nil =>
    obtain ⟨n, rfl⟩ : ∃ k, n = k + 1 := ⟨n - 1, by omega⟩
    have hnext : (s.wrapper w).next = r.head? := path_head hp
    rw [Registry.lastWrapper, hnext]
    cases hb : r.head? with
    | none => rfl
    | some b =>
      have hne : ¬s.wrappingSameFunction w b = true := fun hsame ↦
        hr b hb (h.wrappingSameFunction_iff.mp hsame).symm
      exact if_neg hne
  | cons c l ih =>
    rw [List.length_cons] at hn
    obtain ⟨n, rfl⟩ : ∃ k, n = k + 1 := ⟨n - 1, by omega⟩
    obtain ⟨hnext, hl'⟩ := hp
    have hc : key c = key w := hl c List.mem_cons_self
    have hsame : s.wrappingSameFunction w c = true := h.wrappingSameFunction_iff.mpr hc.symm
    have hn' : l.length < n := by omega
    have hlast := ih hl' (fun b hb ↦ (hl b (List.mem_cons_of_mem c hb)).trans hc.symm)
      (fun b hb ↦ hc ▸ hr b hb) hn'
    rw [next] at hnext
    rw [Registry.lastWrapper, hnext]
    simp only [hsame, if_true, hlast, List.getLast?_cons, Option.getD_some]

theorem insertPoint_pass (hp : Path s.next (s.read prev) (l ++ r) none)
    (hl : ∀ b ∈ l, ¬((s.wrapper a).moduleOffset ≤ (s.wrapper b).moduleOffset ∧
      (s.wrapper a).moduleName = (s.wrapper b).moduleName)) :
    s.insertPoint a (l.length + n) prev = s.insertPoint a n (l.getLast?.or prev) ∧
      Path s.next (s.read (l.getLast?.or prev)) r none := by
  induction l generalizing prev with
  | nil =>
    rw [List.length_nil, Nat.zero_add]
    exact ⟨rfl, hp⟩
  | cons b l ih =>
    obtain ⟨hread, hl'⟩ := hp
    have hafter : Path s.next (s.read (some b)) (l ++ r) none := hl'
    obtain ⟨hpass, hpath⟩ := ih hafter fun c hc ↦ hl c (List.mem_cons_of_mem b hc)
    have hlast : (b :: l).getLast?.or prev = l.getLast?.or (some b) := by
      rw [List.getLast?_cons]
      cases l.getLast? <;> rfl
    rw [hlast, ← hpass]
    refine ⟨?_, hpath⟩
    rw [List.length_cons, Nat.add_right_comm, insertPoint, hread]
    exact if_neg (hl b List.mem_cons_self)

theorem HasKeys.insertPoint (h : s.HasKeys key) (ht : Sorted t)
    (hkey : ∀ p ∈ t, p.2 ≠ [] ∧ ∀ b ∈ p.2, key b = p.1)
    (hp : Path s.next (s.read prev) (Table.flatten t) none) (hn : (Table.flatten t).length < n) :
    ∃ s' l r, s.insertPoint a n prev = some (s', l.getLast?.or prev) ∧ Table.flatten t = l ++ r ∧
      Table.flatten (insertGroup key a t) = l ++ a :: r ∧
      ((∀ q ∈ t, q.1 ≠ key a) → s' = s) ∧
      ∀ group, (key a, group) ∈ t → ∃ last, group.getLast? = some last ∧
        s' = s.setId a ((s.wrapper last).id + 1) := by
  induction t generalizing prev n with
  | nil =>
    have hread : s.read prev = none := hp
    refine ⟨s, [], [], ?_, rfl, rfl, fun _ ↦ rfl, fun group hmem ↦ absurd hmem List.not_mem_nil⟩
    rw [Registry.insertPoint, hread]
    rfl
  | cons q t ih =>
    obtain ⟨k, group⟩ := q
    obtain ⟨⟨hne, hgroup⟩, htkey⟩ := List.forall_mem_cons.mp hkey
    obtain ⟨w, g, rfl⟩ := List.exists_cons_of_ne_nil hne
    have hflat : Table.flatten ((k, w :: g) :: t) = (w :: g) ++ Table.flatten t := rfl
    rw [hflat] at hp hn ⊢
    have hread : s.read prev = some w := hp.1
    have hcond (b : α) (hb : b ∈ w :: g) : (s.wrapper a).moduleOffset ≤ (s.wrapper b).moduleOffset ∧
        (s.wrapper a).moduleName = (s.wrapper b).moduleName ↔
          (key a).2 ≤ k.2 ∧ (key a).1 = k.1 := by
      rw [(h.eq a).1, (h.eq a).2, (h.eq b).1, (h.eq b).2, hgroup b hb]
    have hw := hcond w List.mem_cons_self
    rw [WrapFunc.insertGroup]
    split_ifs with hle hoff
    · obtain ⟨n, rfl⟩ : ∃ k, n = k + 1 := ⟨n - 1, by simp at hn; omega⟩
      have hnew := ht.ne_of_le hle.1 hle.2 hoff
      refine ⟨s, [], (w :: g) ++ Table.flatten t, ?_, rfl, rfl, fun _ ↦ rfl,
        fun group hmem ↦ absurd rfl (hnew _ hmem)⟩
      rw [Registry.insertPoint, hread]
      have hoff' : (s.wrapper a).moduleOffset ≠ (s.wrapper w).moduleOffset := by
        rwa [(h.eq a).2, (h.eq w).2, hgroup w List.mem_cons_self]
      simp only [if_pos (hw.mpr hle), if_pos hoff']
      rfl
    · obtain rfl : key a = k := Prod.ext hle.2 (not_not.mp hoff)
      obtain ⟨n, rfl⟩ : ∃ k, n = k + 1 := ⟨n - 1, by simp at hn; omega⟩
      have hr (b : α) (hb : (Table.flatten t).head? = some b) : key b ≠ key w := by
        obtain ⟨p, hpt, hbp⟩ := List.mem_flatMap.mp (List.mem_of_head? hb)
        rw [hgroup w List.mem_cons_self, (htkey p hpt).2 b hbp]
        exact (ht.ne hpt).symm
      have hlast : s.lastWrapper n w = some (g.getLast?.getD w) := by
        refine h.lastWrapper hp.2 (fun b hb ↦ ?_) hr (by simp at hn; omega)
        rw [hgroup b (List.mem_cons_of_mem w hb), hgroup w List.mem_cons_self]
      refine ⟨s.setId a ((s.wrapper (g.getLast?.getD w)).id + 1), w :: g, Table.flatten t, ?_, rfl,
        ?_, fun hnew ↦ absurd rfl (hnew _ List.mem_cons_self), fun group hmem ↦ ?_⟩
      · rw [Registry.insertPoint, hread]
        have hoff' : ¬(s.wrapper a).moduleOffset ≠ (s.wrapper w).moduleOffset := by
          rwa [(h.eq a).2, (h.eq w).2, hgroup w List.mem_cons_self]
        simp only [if_pos (hw.mpr hle), if_neg hoff', hlast, List.getLast?_cons]
        rfl
      · simp [Table.flatten]
      · rcases List.mem_cons.mp hmem with he | hmem
        · obtain ⟨-, rfl⟩ := Prod.ext_iff.mp he
          exact ⟨_, List.getLast?_cons, rfl⟩
        · exact absurd rfl (ht.ne hmem)
    · obtain ⟨m, rfl⟩ : ∃ m, n = (w :: g).length + m :=
        ⟨n - (w :: g).length, by simp at hn ⊢; omega⟩
      have hpassed : ∀ b ∈ w :: g, ¬((s.wrapper a).moduleOffset ≤ (s.wrapper b).moduleOffset ∧
          (s.wrapper a).moduleName = (s.wrapper b).moduleName) := fun b hb hc ↦
        hle ((hcond b hb).mp hc)
      obtain ⟨hpass, hpath⟩ := s.insertPoint_pass (n := m) hp hpassed
      rw [List.length_append, Nat.add_lt_add_iff_left] at hn
      obtain ⟨s', l, r, hpoint, hlr, hins, hnew, hold⟩ :=
        ih (List.pairwise_cons.mp ht).2 htkey hpath hn
      have hk : k ≠ key a := by
        intro he
        subst he
        exact hle ⟨le_rfl, rfl⟩
      refine ⟨s', w :: g ++ l, r, ?_, ?_, ?_, fun hall ↦ ?_, fun group hmem ↦ ?_⟩
      · rw [hpass, hpoint, List.getLast?_append, Option.or_assoc]
      · rw [hlr, List.append_assoc]
      · rw [List.append_assoc, ← hins]
        rfl
      · exact hnew (List.forall_mem_cons.mp hall).2
      · rcases List.mem_cons.mp hmem with he | hmem
        · exact absurd (Prod.ext_iff.mp he).1.symm hk
        · exact hold group hmem

theorem wrapper_write_of_ne {loc p : Option α} (h : loc ≠ some b) :
    (s.write loc p).wrapper b = s.wrapper b := by
  cases loc with
  | none => rfl
  | some w => exact update_of_ne (fun he ↦ h (congrArg some he.symm)) _ _

theorem id_write (s : Registry α) (loc p : Option α) (b : α) :
    ((s.write loc p).wrapper b).id = (s.wrapper b).id := by
  by_cases h : loc = some b
  · subst h
    simp [write]
  · rw [wrapper_write_of_ne h]

theorem HasKeys.write (h : s.HasKeys key) (loc p : Option α) : (s.write loc p).HasKeys key := by
  intro b
  by_cases hb : loc = some b
  · subst hb
    simpa [Registry.write] using h b
  · rw [wrapper_write_of_ne hb]
    exact h b

theorem path_link (hp : Path s.next s.wrappers (l ++ r) none) (hn : (l ++ r).Nodup)
    (ha : a ∉ l ++ r) :
    Path ((s.write (some a) (s.read l.getLast?)).write l.getLast? (some a)).next
      ((s.write (some a) (s.read l.getLast?)).write l.getLast? (some a)).wrappers
      (l ++ a :: r) none := by
  rw [List.mem_append, not_or] at ha
  rcases List.eq_nil_or_concat' l with rfl | ⟨l, z, rfl⟩
  · refine ⟨rfl, ?_⟩
    have hnext : ((s.write (some a) (s.read none)).write none (some a)).next a = s.wrappers := by
      simp [next, write, read]
    simp only [List.getLast?_nil, hnext]
    refine path_congr (fun b hb ↦ ?_) hp
    have hba : b ≠ a := ne_of_mem_of_not_mem hb ha.2
    simp [next, write, hba]
  · obtain ⟨m, hleft, hright⟩ := path_append.mp hp
    obtain ⟨hleft, hz⟩ := path_concat.mp hleft
    obtain ⟨hnl, -, hd⟩ := List.nodup_append.mp hn
    have hzl : z ∉ l := fun h ↦ (List.nodup_append.mp hnl).2.2 z h z (List.mem_singleton_self z) rfl
    have hzr : z ∉ r := fun h ↦ hd z (by simp) z h rfl
    have hal : a ∉ l := fun h ↦ ha.1 (List.mem_append_left _ h)
    have hza : z ≠ a := fun h ↦ ha.1 (by simp [h])
    rw [List.getLast?_concat]
    have hframe (b : α) (hbz : b ≠ z) (hba : b ≠ a) :
        ((s.write (some a) (s.read (some z))).write (some z) (some a)).next b = s.next b := by
      simp [next, write, hbz, hba]
    refine path_append.mpr ⟨some a, path_concat.mpr ⟨?_, ?_⟩, rfl, ?_⟩
    · refine path_congr (fun b hb ↦ ?_) hleft
      exact hframe b (ne_of_mem_of_not_mem hb hzl) (ne_of_mem_of_not_mem hb hal)
    · simp [next, write]
    · have hnext : ((s.write (some a) (s.read (some z))).write (some z) (some a)).next a = m := by
        rw [← hz]
        simp [next, write, read, hza.symm]
      rw [hnext]
      refine path_congr (fun b hb ↦ ?_) hright
      exact hframe b (ne_of_mem_of_not_mem hb hzr) (ne_of_mem_of_not_mem hb ha.2)

theorem wrapper_setId (s : Registry α) (a : α) (id : BitVec 8) (b : α) :
    (s.setId a id).wrapper b = if b = a then { s.wrapper a with id := id } else s.wrapper b :=
  update_apply _ _ _ _

theorem next_setId (s : Registry α) (a : α) (id : BitVec 8) : (s.setId a id).next = s.next := by
  funext b
  rw [next, wrapper_setId]
  split_ifs with hb
  · rw [hb, next]
  · rfl

theorem HasKeys.setId (h : s.HasKeys key) (a : α) (id : BitVec 8) : (s.setId a id).HasKeys key := by
  intro b
  rw [wrapper_setId]
  split_ifs with hb
  · rw [hb]
    exact h a
  · exact h b

theorem setId_self (s : Registry α) (a : α) : s.setId a (s.wrapper a).id = s := by
  rw [Registry.setId, update_eq_self]

/-- The registry `s` was made from `s₀` by adding the wrappers in `registered` one after the
other. -/
structure Holds (key : α → FunctionKey) (s₀ : Registry α) (registered : List α) (s : Registry α) :
    Prop where
  keys : s.HasKeys key
  table : ∃ t, Grouped key registered t ∧ Path s.next s.wrappers (Table.flatten t) none
  ids : ∀ k i a, (registered.filter (key · = k))[i]? = some a →
    (s.wrapper a).id = BitVec.ofNat 8 i
  fresh : ∀ a ∉ registered, s.wrapper a = s₀.wrapper a

variable {s₀ : Registry α} {registered : List α}

theorem Holds.insertPoint (h : Holds key s₀ registered s) (ha : a ∉ registered)
    (hid : (s₀.wrapper a).id = 0) (ht : Grouped key registered t)
    (hp : Path s.next s.wrappers (Table.flatten t) none) (hn : (Table.flatten t).length < n) :
    ∃ l r, s.insertPoint a n none =
        some (s.setId a (BitVec.ofNat 8 (registered.filter (key · = key a)).length), l.getLast?) ∧
      Table.flatten t = l ++ r ∧ Table.flatten (insertGroup key a t) = l ++ a :: r := by
  have hkey : ∀ p ∈ t, p.2 ≠ [] ∧ ∀ b ∈ p.2, key b = p.1 := fun p hpt ↦
    ⟨ht.nonempty p hpt, fun b hb ↦ ht.key_eq hpt hb⟩
  have hread : Path s.next (s.read none) (Table.flatten t) none := hp
  obtain ⟨s', l, r, hpoint, hlr, hins, hnew, hold⟩ :=
    h.keys.insertPoint (a := a) ht.sorted hkey hread hn
  rw [Option.or_none] at hpoint
  refine ⟨l, r, ?_, hlr, hins⟩
  have hs' : s' = s.setId a (BitVec.ofNat 8 (registered.filter (key · = key a)).length) := by
    by_cases hk : ∃ q ∈ t, q.1 = key a
    · obtain ⟨⟨k, group⟩, hq, rfl⟩ := hk
      obtain ⟨last, hlast, he⟩ := hold group hq
      have hgroup : group = registered.filter (key · = key a) := ht.group _ hq
      rw [hgroup, List.getLast?_eq_getElem?] at hlast
      have hpos : (registered.filter (key · = key a)).length ≠ 0 := fun hzero ↦
        ht.nonempty _ hq (hgroup.trans (List.length_eq_zero_iff.mp hzero))
      have hsucc : BitVec.ofNat 8 ((registered.filter (key · = key a)).length - 1) + 1 =
          BitVec.ofNat 8 (registered.filter (key · = key a)).length := by
        rw [← Nat.sub_add_cancel (Nat.pos_of_ne_zero hpos), BitVec.ofNat_add, Nat.add_sub_cancel]
        rfl
      rw [he, h.ids _ _ _ hlast, hsucc]
    · have hnone : ∀ q ∈ t, q.1 ≠ key a := fun q hq hqk ↦ hk ⟨q, hq, hqk⟩
      rw [hnew hnone, ht.filter_eq_nil hnone]
      have hzero : (s.wrapper a).id = BitVec.ofNat 8 0 := (congrArg _ (h.fresh a ha)).trans hid
      rw [List.length_nil, ← hzero, setId_self]
  rw [hpoint, hs']

theorem Holds.add (h : Holds key s₀ registered s) (hn : registered.Nodup) (ha : a ∉ registered)
    (hnext : (s₀.wrapper a).next = none) (hid : (s₀.wrapper a).id = 0)
    (hfuel : registered.length < n) :
    ∃ s', s.addFunctionWrapper n a = some s' ∧ Holds key s₀ (registered ++ [a]) s' := by
  obtain ⟨t, ht, hp⟩ := h.table
  have hlength : (Table.flatten t).length < n := (ht.perm hn).length_eq ▸ hfuel
  obtain ⟨l, r, hpoint, hlr, hins⟩ := h.insertPoint ha hid ht hp hlength
  set id := BitVec.ofNat 8 (registered.filter (key · = key a)).length with hcount
  have hpath : Path (s.setId a id).next (s.setId a id).wrappers (l ++ r) none := by
    rw [next_setId, ← hlr]
    exact hp
  have hnodup : (l ++ r).Nodup := hlr ▸ ht.nodup_flatten hn
  have hmem (b : α) : b ∈ l ++ r ↔ b ∈ registered := hlr ▸ ht.mem_flatten
  have hlinked := path_link hpath hnodup (mt (hmem a).mp ha)
  have hfirst : (((s.setId a id).write (some a) ((s.setId a id).read l.getLast?)).write l.getLast?
      (some a)).wrappers ≠ none := by
    rw [path_head hlinked]
    simp
  have hadd : s.addFunctionWrapper n a = some (((s.setId a id).write (some a)
      ((s.setId a id).read l.getLast?)).write l.getLast? (some a)) := by
    have hnull : (s.wrapper a).next = none := (congrArg _ (h.fresh a ha)).trans hnext
    simp [addFunctionWrapper, hpoint, hnull, hfirst]
  have hids (b : α) : ((((s.setId a id).write (some a)
      ((s.setId a id).read l.getLast?)).write l.getLast? (some a)).wrapper b).id =
        if b = a then id else (s.wrapper b).id := by
    rw [id_write, id_write, wrapper_setId]
    split_ifs <;> rfl
  refine ⟨_, hadd, ((h.keys.setId a id).write _ _).write _ _,
    ⟨insertGroup key a t, ht.insertGroup, ?_⟩, fun k i b hb ↦ ?_, fun b hb ↦ ?_⟩
  · rw [hins]
    exact hlinked
  · rw [hids]
    rw [filter_concat, List.getElem?_append] at hb
    split_ifs at hb with hi hk
    · have hba : b ≠ a := by
        rintro rfl
        exact ha (List.mem_filter.mp (List.mem_of_getElem? hb)).1
      rw [if_neg hba]
      exact h.ids k i b hb
    · obtain ⟨hlt, he⟩ := List.getElem?_eq_some_iff.mp hb
      rw [List.length_singleton] at hlt
      rw [List.getElem_singleton] at he
      have hlast : (registered.filter (key · = k)).length = i := by omega
      rw [if_pos he.symm, hcount, hk, hlast]
    · exact absurd hb (by simp)
  · rw [List.mem_append, not_or, List.mem_singleton] at hb
    have hlast : l.getLast? ≠ some b := fun he ↦
      hb.1 ((hmem b).mp (List.mem_append_left r (List.mem_of_getLast? he)))
    have hab : some a ≠ some b := fun he ↦ hb.2 (Option.some.inj he).symm
    rw [wrapper_write_of_ne hlast, wrapper_write_of_ne hab, wrapper_setId, if_neg hb.2]
    exact h.fresh b hb.1

omit [DecidableEq α] in
theorem holds_start (wrapper : α → FunctionWrapper α) :
    Holds (fun w ↦ ((wrapper w).moduleName, (wrapper w).moduleOffset)) ⟨none, wrapper⟩ []
      ⟨none, wrapper⟩ := by
  refine ⟨fun _ ↦ rfl, ⟨[], ⟨List.Pairwise.nil, ?_, ?_, ?_⟩, rfl⟩, fun k i a hi ↦ ?_, fun _ _ ↦ rfl⟩
  · exact fun p hp ↦ absurd hp List.not_mem_nil
  · exact fun p hp ↦ absurd hp List.not_mem_nil
  · exact fun a ha ↦ absurd ha List.not_mem_nil
  · exact absurd hi (by simp)

omit [DecidableEq α] in
theorem HasKeys.functionWrapperFor (h : s.HasKeys key) (hp : Path s.next s.wrappers l none)
    (hn : l.length ≤ n) (name : String) (offset : ℕ) (id : BitVec 8) :
    s.functionWrapperFor n (some name) offset id =
      some (l.find? fun w ↦ key w = (name, offset) ∧ (s.wrapper w).id = id) := by
  have hiff (w : α) : (offset = (s.wrapper w).moduleOffset ∧ id = (s.wrapper w).id ∧
      name = (s.wrapper w).moduleName) ↔ key w = (name, offset) ∧ (s.wrapper w).id = id := by
    rw [← h w, Prod.mk.injEq]
    tauto
  simp only [Registry.functionWrapperFor, hiff]
  exact search_eq_find? hp hn

omit [DecidableEq α] in
theorem Holds.id_toNat (h : Holds key s₀ registered s)
    (hcount : (registered.filter (key · = k)).length ≤ 256) {i : ℕ}
    (hi : (registered.filter (key · = k))[i]? = some a) : (s.wrapper a).id.toNat = i := by
  have hlt := (List.getElem?_eq_some_iff.mp hi).1
  rw [h.ids k i a hi, BitVec.toNat_ofNat, Nat.mod_eq_of_lt (by omega)]

omit [DecidableEq α] in
theorem Holds.find? (h : Holds key s₀ registered s)
    (hcount : (registered.filter (key · = k)).length ≤ 256) (hl : ∀ w, w ∈ l ↔ w ∈ registered)
    (id : BitVec 8) : l.find? (fun w ↦ key w = k ∧ (s.wrapper w).id = id) =
      (registered.filter (key · = k))[id.toNat]? := by
  cases hf : l.find? (fun w ↦ key w = k ∧ (s.wrapper w).id = id) with
  | none =>
    cases hi : (registered.filter (key · = k))[id.toNat]? with
    | none => rfl
    | some a =>
      obtain ⟨ha, hk⟩ := List.mem_filter.mp (List.mem_of_getElem? hi)
      have hid : (s.wrapper a).id = id := BitVec.eq_of_toNat_eq (h.id_toNat hcount hi)
      exact absurd (decide_eq_true ⟨of_decide_eq_true hk, hid⟩)
        (List.find?_eq_none.mp hf a ((hl a).mpr ha))
  | some w =>
    obtain ⟨hk, hid⟩ : key w = k ∧ (s.wrapper w).id = id := by simpa using List.find?_some hf
    have hw : w ∈ registered := (hl w).mp (List.mem_of_find?_eq_some hf)
    have hmem : w ∈ registered.filter (key · = k) := List.mem_filter.mpr ⟨hw, decide_eq_true hk⟩
    obtain ⟨i, hi⟩ := List.mem_iff_getElem?.mp hmem
    rw [← hid, h.id_toNat hcount hi, hi]

/-- After any calls of `AddFunctionWrapper` the list has every wrapper once, sorted by offset within
each module and with the wrappers of a function side by side. They are numbered in the order of
the calls, and a wrapper is found under its number. -/
theorem addFunctionWrapper_runs (wrapper : α → FunctionWrapper α) {ws : List α} {fuel : ℕ}
    (hn : ws.Nodup) (hid : ∀ w ∈ ws, (wrapper w).next = none ∧ (wrapper w).id = 0)
    (hcount : ∀ name offset, (ws.filter fun w ↦
      ((wrapper w).moduleName, (wrapper w).moduleOffset) = (name, offset)).length ≤ 256)
    (hfuel : ws.length < fuel) :
    ∃ s l, Base.Run.run (addFunctionWrapper fuel) ⟨none, wrapper⟩ ws = some s ∧
      (∀ w, (s.wrapper w).moduleName = (wrapper w).moduleName ∧
        (s.wrapper w).moduleOffset = (wrapper w).moduleOffset) ∧
      Path s.next s.wrappers l none ∧ l.Perm ws ∧
      l.Pairwise (fun a b ↦ (wrapper a).moduleName = (wrapper b).moduleName →
        (wrapper a).moduleOffset ≤ (wrapper b).moduleOffset) ∧
      (∀ id offset, s.functionWrapperFor fuel none offset id = some none) ∧
      ∀ name offset, ∃ group, group = ws.filter (fun w ↦
          ((wrapper w).moduleName, (wrapper w).moduleOffset) = (name, offset)) ∧
        group <:+: l ∧
        (∀ i w, group[i]? = some w → (s.wrapper w).id.toNat = i) ∧
        ∀ id, s.functionWrapperFor fuel (some name) offset id = some group[id.toNat]? := by
  set key : α → FunctionKey := fun w ↦ ((wrapper w).moduleName, (wrapper w).moduleOffset)
  have hadd (past : List α) (a : α) (s : Registry α) (hpast : past ++ [a] <+: ws)
      (_ : Base.Run.run (addFunctionWrapper fuel) ⟨none, wrapper⟩ past = some s)
      (hI : Holds key ⟨none, wrapper⟩ past s) : ∃ s', s.addFunctionWrapper fuel a = some s' ∧
        Holds key ⟨none, wrapper⟩ (past ++ [a]) s' := by
    have hnodup : (past ++ [a]).Nodup := hn.sublist hpast.sublist
    have ha : a ∈ ws := hpast.subset (by simp)
    have hlength := hpast.length_le
    rw [List.length_append, List.length_singleton] at hlength
    rw [← List.concat_eq_append, List.nodup_concat] at hnodup
    exact hI.add hnodup.2 hnodup.1 (hid a ha).1 (hid a ha).2 (by omega)
  obtain ⟨s, hs, hholds⟩ := Base.Run.exists_run hadd (holds_start wrapper)
  obtain ⟨t, ht, hp⟩ := hholds.table
  have hperm := ht.perm hn
  refine ⟨s, Table.flatten t, hs, fun w ↦ hholds.keys.eq w, hp, hperm, ht.pairwise,
    fun _ _ ↦ rfl, fun name offset ↦ ⟨_, rfl, ht.isInfix (name, offset), ?_, fun id ↦ ?_⟩⟩
  · exact fun i w hi ↦ hholds.id_toNat (hcount name offset) hi
  · have hlength : (Table.flatten t).length ≤ fuel := by
      rw [hperm.length_eq]
      exact hfuel.le
    rw [hholds.keys.functionWrapperFor hp hlength]
    exact congrArg some (hholds.find? (hcount name offset) (fun w ↦ hperm.mem_iff) id)

theorem addFunctionWrapper_runs_three :
    let wrapper : Fin 3 → FunctionWrapper (Fin 3) := fun w ↦
      ⟨none, 0, "libc", if w = 1 then 8 else 16⟩
    ∃ s, Base.Run.run (addFunctionWrapper 4) ⟨none, wrapper⟩ [0, 1, 2] = some s ∧
      s.functionWrapperFor 4 (some "libc") 16 1 = some (some 2) := by
  intro wrapper
  have hcount (name : String) (offset : ℕ) : (([0, 1, 2] : List (Fin 3)).filter fun w ↦
      ((wrapper w).moduleName, (wrapper w).moduleOffset) = (name, offset)).length ≤ 256 :=
    (List.length_filter_le _ _).trans (by decide)
  have hfuel : ([0, 1, 2] : List (Fin 3)).length < 4 := by decide
  obtain ⟨s, l, hs, -, -, -, -, -, hfor⟩ :=
    addFunctionWrapper_runs wrapper (by decide) (by decide) hcount hfuel
  obtain ⟨group, rfl, -, -, hlook⟩ := hfor "libc" 16
  exact ⟨s, hs, hlook 1⟩

end Registry

end Granary.Clients.WrapFunc
