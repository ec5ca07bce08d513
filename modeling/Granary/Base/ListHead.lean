import Mathlib.Data.List.Basic
import Mathlib.Logic.Function.Basic
import Mathlib.Tactic

namespace Granary.Base.ListHead

open Function

/-- The links that an element of an intrusive list carries. -/
structure Links (α : Type*) where
  next : Option α := none
  prev : Option α := none
deriving DecidableEq, Repr

structure Ends (α : Type*) where
  first : Option α := none
  last : Option α := none
deriving DecidableEq, Repr

abbrev Memory (α : Type*) := α → Links α

variable {α : Type*} [DecidableEq α]

def isLinked (m : Memory α) (a : α) : Bool := (m a).prev.isSome || (m a).next.isSome

def setNextOf (m : Memory α) (o : Option α) (n : Option α) : Memory α :=
  match o with
  | some a => update m a { m a with next := n }
  | none => m

def setPrevOf (m : Memory α) (o : Option α) (p : Option α) : Memory α :=
  match o with
  | some a => update m a { m a with prev := p }
  | none => m

def setNext (m : Memory α) (self new : α) : Memory α :=
  let next := (m self).next
  let m := update m new { next := next, prev := some self }
  let m := setPrevOf m next (some new)
  setNextOf m (some self) (some new)

def setPrevious (m : Memory α) (self new : α) : Memory α :=
  let prev := (m self).prev
  let m := update m new { next := some self, prev := prev }
  let m := setNextOf m prev (some new)
  setPrevOf m (some self) (some new)

def unlink (m : Memory α) (a : α) : Memory α :=
  let next := (m a).next
  let prev := (m a).prev
  let m := setNextOf m prev next
  let m := setPrevOf m next prev
  update m a {}

def append (m : Memory α) (L : Ends α) (a : α) : Memory α × Ends α :=
  (match L.last with
    | some z => setNext m z a
    | none => m,
    { first := L.first.or (some a), last := some a })

def prepend (m : Memory α) (L : Ends α) (a : α) : Memory α × Ends α :=
  (match L.first with
    | some z => setPrevious m z a
    | none => m,
    { first := some a, last := L.last.or (some a) })

/-- A null `before` is the place before the first element of an empty list. In another list it is
followed all the same. -/
def insertBefore (m : Memory α) (L : Ends α) (before : Option α) (a : α) :
    Option (Memory α × Ends α) :=
  if before = L.first then some (prepend m L a)
  else before.map fun b ↦ (setPrevious m b a, L)

def insertAfter (m : Memory α) (L : Ends α) (after : Option α) (a : α) :
    Option (Memory α × Ends α) :=
  if after = L.last then some (append m L a)
  else after.map fun b ↦ (setNext m b a, L)

def remove (m : Memory α) (L : Ends α) (a : α) : Memory α × Ends α :=
  (unlink m a,
    { first := if L.first = some a then (m a).next else L.first
      last := if L.last = some a then (m a).prev else L.last })

def extend (m : Memory α) (L K : Ends α) : Memory α × Ends α :=
  match L.first, L.last, K.first with
  | none, _, _ => (m, K)
  | some _, some z, some a =>
    (setPrevOf (setNextOf m (some z) (some a)) (some a) (some z), { L with last := K.last })
  | some _, _, _ => (m, L)

def Seg (m : Memory α) : Option α → List α → Option α → Prop
  | _, [], _ => True
  | p, a :: l, n => (m a).prev = p ∧ (m a).next = l.head?.or n ∧ Seg m (some a) l n

instance decidableSeg (m : Memory α) : ∀ p l n, Decidable (Seg m p l n)
  | _, [], _ => .isTrue trivial
  | _, a :: l, n =>
    have := decidableSeg m (some a) l n
    inferInstanceAs (Decidable (_ ∧ _ ∧ _))

/-- The ends `L` and the links in `m` form the list `l`. -/
structure Rep (m : Memory α) (L : Ends α) (l : List α) : Prop where
  nodup : l.Nodup
  first : L.first = l.head?
  last : L.last = l.getLast?
  seg : Seg m none l none

omit [DecidableEq α] in
theorem seg_congr {m m' : Memory α} {p n : Option α} {l : List α} (h : ∀ a ∈ l, m' a = m a)
    (hs : Seg m p l n) : Seg m' p l n := by
  induction l generalizing p with
  | nil => trivial
  | cons a l ih =>
    obtain ⟨hp, hn, hl⟩ := hs
    rw [← h a List.mem_cons_self] at hp hn
    exact ⟨hp, hn, ih (fun b hb ↦ h b (List.mem_cons_of_mem a hb)) hl⟩

omit [DecidableEq α] in
theorem seg_append {m : Memory α} {p n : Option α} {l r : List α} :
    Seg m p (l ++ r) n ↔ Seg m p l (r.head?.or n) ∧ Seg m (l.getLast?.or p) r n := by
  induction l generalizing p with
  | nil => simp [Seg]
  | cons a l ih =>
    have hlast : (a :: l).getLast?.or p = l.getLast?.or (some a) := by
      cases l with
      | nil => rfl
      | cons b l => simp [List.getLast?_cons]
    have hhead : (l ++ r).head?.or n = l.head?.or (r.head?.or n) := by
      cases l <;> rfl
    simp only [List.cons_append, Seg, ih, hlast, hhead, and_assoc]

theorem seg_setNextOf {m : Memory α} {p n : Option α} (n' : Option α) {l : List α}
    (hn : l.Nodup) (hs : Seg m p l n) : Seg (setNextOf m l.getLast? n') p l n' := by
  rcases List.eq_nil_or_concat' l with rfl | ⟨l, a, rfl⟩
  · trivial
  · rw [List.getLast?_concat]
    rw [seg_append] at hs ⊢
    have ha : a ∉ l := fun ha ↦ (List.nodup_append.mp hn).2.2 a ha a (List.mem_singleton_self a) rfl
    refine ⟨seg_congr (fun b hb ↦ ?_) hs.1, ?_, ?_, trivial⟩
    · exact update_of_ne (ne_of_mem_of_not_mem hb ha) _ _
    · simp only [setNextOf, update_self]
      exact hs.2.1
    · simp [setNextOf]

theorem seg_setPrevOf {m : Memory α} {p n : Option α} (p' : Option α) {l : List α}
    (hn : l.Nodup) (hs : Seg m p l n) : Seg (setPrevOf m l.head? p') p' l n := by
  cases l with
  | nil => trivial
  | cons a l =>
    obtain ⟨-, hnext, hl⟩ := hs
    rw [List.nodup_cons] at hn
    refine ⟨?_, ?_, seg_congr (fun b hb ↦ ?_) hl⟩
    · simp [setPrevOf]
    · simpa only [setPrevOf, List.head?_cons, update_self] using hnext
    · exact update_of_ne (ne_of_mem_of_not_mem hb hn.1) _ _

theorem setNextOf_of_ne {m : Memory α} {o n : Option α} {b : α} (hb : o ≠ some b) :
    setNextOf m o n b = m b := by
  cases o with
  | none => rfl
  | some a => exact update_of_ne (fun h ↦ hb (congrArg some h.symm)) _ _

theorem setPrevOf_of_ne {m : Memory α} {o n : Option α} {b : α} (hb : o ≠ some b) :
    setPrevOf m o n b = m b := by
  cases o with
  | none => rfl
  | some a => exact update_of_ne (fun h ↦ hb (congrArg some h.symm)) _ _

omit [DecidableEq α] in
theorem rep_nil (m : Memory α) : Rep m {} [] := ⟨List.nodup_nil, rfl, rfl, trivial⟩

omit [DecidableEq α] in
theorem Rep.congr {m m' : Memory α} {L : Ends α} {l : List α} (h : ∀ a ∈ l, m' a = m a)
    (hr : Rep m L l) : Rep m' L l := ⟨hr.nodup, hr.first, hr.last, seg_congr h hr.seg⟩

omit [DecidableEq α] in
theorem ne_of_getLast? {l : List α} {b : α} (hb : b ∉ l) : l.getLast? ≠ some b := fun h ↦
  hb (List.mem_of_getLast? h)

omit [DecidableEq α] in
theorem ne_of_head? {l : List α} {b : α} (hb : b ∉ l) : l.head? ≠ some b := fun h ↦
  hb (List.mem_of_head? h)

def link (m : Memory α) (p n : Option α) (a : α) : Memory α :=
  update (setPrevOf (setNextOf m p (some a)) n (some a)) a { next := n, prev := p }

theorem setNext_eq_link {m : Memory α} {z a : α} (hz : z ≠ a) (hn : (m z).next ≠ some a)
    (hs : (m z).next ≠ some z) : setNext m z a = link m (some z) (m z).next a := by
  simp only [setNext, link]
  cases h : (m z).next with
  | none => simp only [setPrevOf, setNextOf, update_of_ne hz, update_comm hz]
  | some n =>
    rw [h] at hn hs
    have hna : n ≠ a := fun he ↦ hn (congrArg some he)
    have hnz : z ≠ n := fun he ↦ hs (congrArg some he.symm)
    simp only [setPrevOf, setNextOf, update_of_ne hna, update_of_ne hz, update_of_ne hnz,
      update_of_ne hnz.symm]
    rw [update_comm hna.symm, update_comm hz.symm, update_comm hnz.symm]

theorem setPrevious_eq_link {m : Memory α} {z a : α} (hz : z ≠ a) (hp : (m z).prev ≠ some a)
    (hs : (m z).prev ≠ some z) : setPrevious m z a = link m (m z).prev (some z) a := by
  simp only [setPrevious, link]
  cases h : (m z).prev with
  | none => simp only [setPrevOf, setNextOf, update_of_ne hz, update_comm hz]
  | some p =>
    rw [h] at hp hs
    have hpa : p ≠ a := fun he ↦ hp (congrArg some he)
    have hpz : z ≠ p := fun he ↦ hs (congrArg some he.symm)
    simp only [setPrevOf, setNextOf, update_of_ne hpa, update_of_ne hz, update_of_ne hpz]
    rw [update_comm hpa.symm, update_comm hz.symm]

section Link

variable {m : Memory α} {l r : List α} {a b : α}

theorem link_of_ne (hl : b ∉ l) (hr : b ∉ r) (hb : b ≠ a) :
    link m l.getLast? r.head? a b = m b := by
  rw [link, update_of_ne hb, setPrevOf_of_ne (ne_of_head? hr), setNextOf_of_ne (ne_of_getLast? hl)]

theorem seg_link (hlr : (l ++ r).Nodup) (ha : a ∉ l ++ r) (hs : Seg m none (l ++ r) none) :
    Seg (link m l.getLast? r.head? a) none (l ++ a :: r) none := by
  obtain ⟨hl, hr, hd⟩ := List.nodup_append.mp hlr
  obtain ⟨hsl, hsr⟩ := seg_append.mp hs
  rw [List.mem_append, not_or] at ha
  refine seg_append.mpr ⟨?_, ?_, ?_, ?_⟩
  · refine seg_congr (fun b hb ↦ ?_) (seg_setNextOf (some a) hl hsl)
    have hbr : b ∉ r := fun h ↦ hd b hb b h rfl
    rw [link, update_of_ne (ne_of_mem_of_not_mem hb ha.1), setPrevOf_of_ne (ne_of_head? hbr)]
  · rw [link, update_self, Option.or_none]
  · rw [link, update_self, Option.or_none]
  · have hset : Seg (setNextOf m l.getLast? (some a)) (l.getLast?.or none) r none :=
      seg_congr (fun b hb ↦ setNextOf_of_ne (ne_of_getLast? fun hbl ↦ hd b hbl b hb rfl)) hsr
    refine seg_congr (fun b hb ↦ ?_) (seg_setPrevOf (some a) hr hset)
    rw [link, update_of_ne (ne_of_mem_of_not_mem hb ha.2)]

omit [DecidableEq α] in
theorem nodup_link (hlr : (l ++ r).Nodup) (ha : a ∉ l ++ r) : (l ++ a :: r).Nodup :=
  List.nodup_middle.mpr (List.nodup_cons.mpr ⟨ha, hlr⟩)

omit [DecidableEq α] in
theorem Rep.neighbours {L : Ends α} (hr : Rep m L (l ++ a :: r)) :
    (m a).prev = l.getLast? ∧ (m a).next = r.head? := by
  obtain ⟨-, hprev, hnext, -⟩ := seg_append.mp hr.seg
  rw [Option.or_none] at hprev hnext
  exact ⟨hprev, hnext⟩

end Link

theorem Rep.append {m : Memory α} {L : Ends α} {l : List α} {a : α} (hr : Rep m L l) (ha : a ∉ l)
    (hm : m a = {}) : Rep (append m L a).1 (append m L a).2 (l ++ [a]) ∧
      ∀ b ∉ l, b ≠ a → (ListHead.append m L a).1 b = m b := by
  have hmem : (ListHead.append m L a).1 = link m l.getLast? none a := by
    simp only [ListHead.append, hr.last]
    rcases List.eq_nil_or_concat' l with rfl | ⟨l, z, rfl⟩
    · simp only [List.getLast?_nil, link, setNextOf, setPrevOf]
      rw [← hm, update_eq_self]
    · have hza : z ≠ a := fun h ↦ ha (by simp [h])
      have hz : (m z).next = none := hr.neighbours.2
      simp only [List.getLast?_concat]
      rw [setNext_eq_link hza (by simp [hz]) (by simp [hz]), hz]
  have hnil : l ++ [] = l := List.append_nil l
  have hseg := seg_link (r := []) (hnil.symm ▸ hr.nodup) (hnil.symm ▸ ha) (hnil.symm ▸ hr.seg)
  have hnodup := nodup_link (r := []) (hnil.symm ▸ hr.nodup) (hnil.symm ▸ ha)
  rw [hmem]
  refine ⟨⟨hnodup, ?_, ?_, hseg⟩, fun b hb hba ↦ link_of_ne (r := []) hb List.not_mem_nil hba⟩
  · simp only [ListHead.append, hr.first]
    cases l <;> rfl
  · simp [ListHead.append]

theorem Rep.prepend {m : Memory α} {L : Ends α} {l : List α} {a : α} (hr : Rep m L l) (ha : a ∉ l)
    (hm : m a = {}) : Rep (prepend m L a).1 (prepend m L a).2 (a :: l) ∧
      ∀ b ∉ l, b ≠ a → (ListHead.prepend m L a).1 b = m b := by
  have hmem : (ListHead.prepend m L a).1 = link m none l.head? a := by
    simp only [ListHead.prepend, hr.first]
    cases l with
    | nil =>
      simp only [List.head?_nil, link, setNextOf, setPrevOf]
      rw [← hm, update_eq_self]
    | cons z l =>
      have hza : z ≠ a := fun h ↦ ha (by simp [h])
      have hz : (m z).prev = none := hr.seg.1
      simp only [List.head?_cons]
      rw [setPrevious_eq_link hza (by simp [hz]) (by simp [hz]), hz]
  have hseg := seg_link (l := []) hr.nodup ha hr.seg
  rw [hmem]
  refine ⟨⟨nodup_link (l := []) hr.nodup ha, rfl, ?_, hseg⟩,
    fun b hb hba ↦ link_of_ne (l := []) List.not_mem_nil hb hba⟩
  simp only [ListHead.prepend, hr.last, List.getLast?_cons]
  cases l.getLast? <;> rfl

theorem Rep.insertBefore {m : Memory α} {L : Ends α} {l r : List α} {a b : α}
    (hr : Rep m L (l ++ b :: r)) (ha : a ∉ l ++ b :: r) (hm : m a = {}) :
    ∃ x, insertBefore m L (some b) a = some x ∧ Rep x.1 x.2 (l ++ a :: b :: r) ∧
      ∀ c ∉ l ++ b :: r, c ≠ a → x.1 c = m c := by
  have hbl : b ∉ l := fun h ↦ (List.nodup_append.mp hr.nodup).2.2 b h b List.mem_cons_self rfl
  have hba : b ≠ a := fun h ↦ ha (by simp [h])
  have hprev := hr.neighbours.1
  cases l with
  | nil => exact ⟨_, if_pos hr.first.symm, hr.prepend ha hm⟩
  | cons c l =>
    have hfirst : some b ≠ L.first := fun h ↦ by
      rw [hr.first, List.cons_append, List.head?_cons, Option.some_inj] at h
      exact hbl (h ▸ List.mem_cons_self)
    have hal : a ∉ c :: l := fun h ↦ ha (List.mem_append_left _ h)
    have hlink : setPrevious m b a = link m (c :: l).getLast? (b :: r).head? a := by
      have hpa : (m b).prev ≠ some a := fun h ↦ ne_of_getLast? hal (hprev.symm.trans h)
      have hpb : (m b).prev ≠ some b := fun h ↦ ne_of_getLast? hbl (hprev.symm.trans h)
      rw [setPrevious_eq_link hba hpa hpb, hprev, List.head?_cons]
    refine ⟨(setPrevious m b a, L), if_neg hfirst, ?_⟩
    rw [hlink]
    refine ⟨⟨nodup_link hr.nodup ha, hr.first, ?_, seg_link hr.nodup ha hr.seg⟩,
      fun d hd hda ↦ ?_⟩
    · simp only [hr.last, List.getLast?_append, List.getLast?_cons_cons]
    · rw [List.mem_append, not_or] at hd
      exact link_of_ne hd.1 hd.2 hda

theorem Rep.insertAfter {m : Memory α} {L : Ends α} {l r : List α} {a b : α}
    (hr : Rep m L (l ++ b :: r)) (ha : a ∉ l ++ b :: r) (hm : m a = {}) :
    ∃ x, insertAfter m L (some b) a = some x ∧ Rep x.1 x.2 (l ++ b :: a :: r) ∧
      ∀ c ∉ l ++ b :: r, c ≠ a → x.1 c = m c := by
  have hbr : b ∉ r := (List.nodup_cons.mp (List.nodup_append.mp hr.nodup).2.1).1
  have hba : b ≠ a := fun h ↦ ha (by simp [h])
  have hnext := hr.neighbours.2
  have hcut : l ++ b :: r = (l ++ [b]) ++ r := by simp
  cases r with
  | nil =>
    obtain ⟨happ, hframe⟩ := hr.append ha hm
    refine ⟨_, if_pos ?_, by simpa using happ, hframe⟩
    rw [hr.last, List.getLast?_concat]
  | cons c r =>
    have hlast : some b ≠ L.last := fun h ↦ by
      rw [hr.last, hcut, List.getLast?_append_of_ne_nil _ (List.cons_ne_nil c r)] at h
      exact hbr (List.mem_of_getLast? h.symm)
    have har : a ∉ c :: r := fun h ↦ ha (by simp [List.mem_cons.mp h])
    have hlink : setNext m b a = link m (l ++ [b]).getLast? (c :: r).head? a := by
      have hna : (m b).next ≠ some a := fun h ↦ ne_of_head? har (hnext.symm.trans h)
      have hnb : (m b).next ≠ some b := fun h ↦ ne_of_head? hbr (hnext.symm.trans h)
      rw [setNext_eq_link hba hna hnb, hnext, List.getLast?_concat]
    have hcut' : l ++ b :: a :: c :: r = (l ++ [b]) ++ a :: c :: r := by simp
    rw [hcut] at hr ha ⊢
    rw [hcut']
    refine ⟨(setNext m b a, L), if_neg hlast, ?_⟩
    rw [hlink]
    refine ⟨⟨nodup_link hr.nodup ha, ?_, ?_, seg_link hr.nodup ha hr.seg⟩, fun d hd hda ↦ ?_⟩
    · rw [hr.first]
      cases l <;> rfl
    · simp only [hr.last, List.getLast?_append, List.getLast?_cons_cons]
    · rw [List.mem_append, not_or] at hd
      exact link_of_ne hd.1 hd.2 hda

theorem Rep.remove {m : Memory α} {L : Ends α} {l r : List α} {a : α} (hr : Rep m L (l ++ a :: r)) :
    Rep (remove m L a).1 (remove m L a).2 (l ++ r) ∧ (remove m L a).1 a = {} ∧
      ∀ b ∉ l ++ a :: r, (ListHead.remove m L a).1 b = m b := by
  obtain ⟨hl, hlr, hd⟩ := List.nodup_append.mp hr.nodup
  obtain ⟨har, hrn⟩ := List.nodup_cons.mp hlr
  have hal : a ∉ l := fun h ↦ hd a h a List.mem_cons_self rfl
  obtain ⟨hsl, hprev, hnext, hsr⟩ := seg_append.mp hr.seg
  rw [Option.or_none] at hprev hnext
  have hmem : (ListHead.remove m L a).1 =
      update (setPrevOf (setNextOf m l.getLast? r.head?) r.head? l.getLast?) a {} := by
    simp only [ListHead.remove, unlink, hprev, hnext]
  have hout (b : α) (hb : b ∉ l ++ a :: r) : (ListHead.remove m L a).1 b = m b := by
    simp only [List.mem_append, List.mem_cons, not_or] at hb
    rw [hmem, update_of_ne hb.2.1, setPrevOf_of_ne (ne_of_head? hb.2.2),
      setNextOf_of_ne (ne_of_getLast? hb.1)]
  refine ⟨⟨?_, ?_, ?_, ?_⟩, ?_, hout⟩
  · rw [List.nodup_append]
    exact ⟨hl, hrn, fun b hb c hc ↦ hd b hb c (List.mem_cons_of_mem a hc)⟩
  · simp only [ListHead.remove, hr.first, hnext]
    cases l with
    | nil => simp
    | cons b l =>
      have hba : b ≠ a := fun h ↦ hal (h ▸ List.mem_cons_self)
      simp [hba]
  · simp only [ListHead.remove, hr.last, hprev]
    rcases List.eq_nil_or_concat' r with rfl | ⟨r, z, rfl⟩
    · simp
    · have hza : z ≠ a := fun h ↦ har (by simp [h])
      simp only [← List.cons_append, ← List.append_assoc, List.getLast?_concat, Option.some_inj, hza,
        if_false]
  · rw [hmem, seg_append, Option.or_none, Option.or_none]
    constructor
    · refine seg_congr (fun b hb ↦ ?_) (seg_setNextOf r.head? hl hsl)
      have hbr : b ∉ r := fun h ↦ hd b hb b (List.mem_cons_of_mem a h) rfl
      rw [update_of_ne (ne_of_mem_of_not_mem hb hal), setPrevOf_of_ne (ne_of_head? hbr)]
    · have hset : Seg (setNextOf m l.getLast? r.head?) (some a) r none := by
        refine seg_congr (fun b hb ↦ setNextOf_of_ne (ne_of_getLast? fun hbl ↦ ?_)) hsr
        exact hd b hbl b (List.mem_cons_of_mem a hb) rfl
      refine seg_congr (fun b hb ↦ ?_) (seg_setPrevOf l.getLast? hrn hset)
      exact update_of_ne (ne_of_mem_of_not_mem hb har) _ _
  · rw [hmem, update_self]

theorem Rep.remove_of_not_mem {m : Memory α} {L : Ends α} {l : List α} {a : α} (hr : Rep m L l)
    (ha : a ∉ l) (hm : m a = {}) : ListHead.remove m L a = (m, L) := by
  have hfirst : L.first ≠ some a := hr.first ▸ ne_of_head? ha
  have hlast : L.last ≠ some a := hr.last ▸ ne_of_getLast? ha
  have hunlink : unlink m a = m := by
    simp only [unlink, hm, setNextOf, setPrevOf]
    rw [← hm, update_eq_self]
  rw [ListHead.remove, hunlink, if_neg hfirst, if_neg hlast]

theorem Rep.extend {m : Memory α} {L K : Ends α} {l k : List α} (hl : Rep m L l) (hk : Rep m K k)
    (hd : ∀ a ∈ l, a ∉ k) : Rep (extend m L K).1 (extend m L K).2 (l ++ k) ∧
      ∀ b ∉ l ++ k, (ListHead.extend m L K).1 b = m b := by
  rcases List.eq_nil_or_concat' l with rfl | ⟨l, z, rfl⟩
  · have he : ListHead.extend m L K = (m, K) := by
      have hfirst := hl.first
      rw [List.head?_nil] at hfirst
      simp only [ListHead.extend, hfirst]
    rw [he]
    exact ⟨hk, fun b _ ↦ rfl⟩
  · obtain ⟨f, hf⟩ : ∃ f, (l ++ [z]).head? = some f := by
      cases l with
      | nil => exact ⟨z, rfl⟩
      | cons f l => exact ⟨f, rfl⟩
    cases k with
    | nil =>
      have he : ListHead.extend m L K = (m, L) := by
        have hfirst := hk.first
        rw [List.head?_nil] at hfirst
        simp only [ListHead.extend, hl.first, hf, hl.last, List.getLast?_concat, hfirst]
      rw [he, List.append_nil]
      exact ⟨hl, fun b _ ↦ rfl⟩
    | cons a k =>
      have he : ListHead.extend m L K =
          (setPrevOf (setNextOf m (some z) (some a)) (some a) (some z),
            { L with last := K.last }) := by
        simp only [ListHead.extend, hl.first, hf, hl.last, List.getLast?_concat, hk.first,
          List.head?_cons]
      simp only [he]
      refine ⟨⟨?_, ?_, ?_, ?_⟩, fun b hb ↦ ?_⟩
      · rw [List.nodup_append]
        exact ⟨hl.nodup, hk.nodup, fun b hb c hc h ↦ hd b hb (h ▸ hc)⟩
      · simp only [hl.first]
        cases l <;> rfl
      · simp only [hk.last, List.getLast?_append, List.getLast?_cons]
        rfl
      · rw [seg_append]
        constructor
        · have hs := seg_setNextOf (some a) hl.nodup hl.seg
          rw [List.getLast?_concat] at hs
          refine seg_congr (fun b hb ↦ setPrevOf_of_ne fun h ↦ ?_) hs
          exact hd b hb (Option.some_inj.mp h ▸ List.mem_cons_self)
        · have hs : Seg (setNextOf m (some z) (some a)) none (a :: k) none := by
            refine seg_congr (fun b hb ↦ setNextOf_of_ne fun h ↦ ?_) hk.seg
            rw [Option.some_inj] at h
            exact hd b (by simp [h]) hb
          rw [List.getLast?_concat]
          exact seg_setPrevOf (some z) hk.nodup hs
      · simp only [List.mem_append, List.mem_cons, List.not_mem_nil, or_false, not_or] at hb
        refine (setPrevOf_of_ne fun h ↦ ?_).trans (setNextOf_of_ne fun h ↦ ?_)
        · exact hb.2.1 (Option.some_inj.mp h).symm
        · exact hb.1.2 (Option.some_inj.mp h).symm

omit [DecidableEq α] in
theorem Rep.next {m : Memory α} {L : Ends α} {l r : List α} {a : α} (hr : Rep m L (l ++ a :: r)) :
    (m a).next = r.head? := by
  have h := (seg_append.mp hr.seg).2.2.1
  rwa [Option.or_none] at h

omit [DecidableEq α] in
theorem seg_unique {m : Memory α} {p : Option α} {l k : List α} (hl : Seg m p l none)
    (hk : Seg m p k none) (hh : l.head? = k.head?) : l = k := by
  induction l generalizing p k with
  | nil =>
    cases k with
    | nil => rfl
    | cons b k => simp at hh
  | cons a l ih =>
    cases k with
    | nil => simp at hh
    | cons b k =>
      simp only [List.head?_cons, Option.some_inj] at hh
      subst hh
      obtain ⟨-, hnl, hsl⟩ := hl
      obtain ⟨-, hnk, hsk⟩ := hk
      rw [Option.or_none] at hnl hnk
      rw [ih hsl hsk (hnl.symm.trans hnk)]

omit [DecidableEq α] in
theorem Rep.unique {m : Memory α} {L : Ends α} {l k : List α} (hl : Rep m L l) (hk : Rep m L k) :
    l = k := seg_unique hl.seg hk.seg (hl.first.symm.trans hk.first)

omit [DecidableEq α] in
theorem Rep.isLinked {m : Memory α} {L : Ends α} {l : List α} {a : α} (hr : Rep m L l) (ha : a ∈ l) :
    isLinked m a = true ↔ l ≠ [a] := by
  obtain ⟨l, r, rfl⟩ := List.append_of_mem ha
  obtain ⟨-, hprev, hnext, -⟩ := seg_append.mp hr.seg
  rw [Option.or_none] at hprev hnext
  simp only [ListHead.isLinked, hprev, hnext]
  rcases List.eq_nil_or_concat' l with rfl | ⟨l, z, rfl⟩
  · cases r <;> simp
  · have hne : l ++ [z] ++ a :: r ≠ [a] := by
      intro h
      have hlen := congrArg List.length h
      simp only [List.length_append, List.length_cons] at hlen
      omega
    simp only [List.getLast?_concat, Option.isSome_some, Bool.true_or, true_iff]
    exact hne

/-- Several lists without common elements, that hold every linked element. -/
structure Family {ι : Type*} (m : Memory α) (E : ι → Ends α) (L : ι → List α) : Prop where
  rep : ∀ i, Rep m (E i) (L i)
  disjoint : ∀ i j, i ≠ j → ∀ a ∈ L i, a ∉ L j
  free : ∀ a, (∀ i, a ∉ L i) → m a = {}

theorem Family.drop {ι : Type*} [DecidableEq ι] {m : Memory α} {E : ι → Ends α} {L : ι → List α}
    (h : Family m E L) {i : ι} {l r : List α} {a : α} (hi : L i = l ++ a :: r) :
    Family (remove m (E i) a).1 (update E i (remove m (E i) a).2) (update L i (l ++ r)) := by
  have hri := h.rep i
  rw [hi] at hri
  obtain ⟨hrem, ha, hframe⟩ := hri.remove
  have hsub (k : ι) (b : α) (hb : b ∈ update L i (l ++ r) k) : b ∈ L k := by
    by_cases hk : k = i
    · subst hk
      rw [update_self] at hb
      rw [hi]
      simp only [List.mem_append, List.mem_cons] at hb ⊢
      tauto
    · rwa [update_of_ne hk] at hb
  refine ⟨fun k ↦ ?_, fun j k hjk b hb hb' ↦ ?_, fun b hb ↦ ?_⟩
  · by_cases hk : k = i
    · subst hk
      rw [update_self, update_self]
      exact hrem
    · rw [update_of_ne hk, update_of_ne hk]
      refine (h.rep k).congr fun b hb ↦ hframe b ?_
      rw [← hi]
      exact h.disjoint k i hk b hb
  · exact h.disjoint j k hjk b (hsub j b hb) (hsub k b hb')
  · by_cases hba : b = a
    · rw [hba]
      exact ha
    · have hbi : b ∉ L i := by
        intro hmem
        refine hb i ?_
        rw [hi] at hmem
        rw [update_self]
        simp only [List.mem_append, List.mem_cons] at hmem ⊢
        tauto
      rw [hframe b (by rwa [← hi])]
      refine h.free b fun k hk ↦ hb k ?_
      have hki : k ≠ i := fun he ↦ hbi (he ▸ hk)
      rwa [update_of_ne hki]

omit [DecidableEq α] in
theorem Family.insert {ι : Type*} [DecidableEq ι] {m m' : Memory α} {E : ι → Ends α}
    {L : ι → List α} (h : Family m E L) {i : ι} {a : α} (ha : ∀ k, a ∉ L k) {e : Ends α}
    {l : List α} (hr : Rep m' e l) (hl : ∀ b, b ∈ l ↔ b ∈ L i ∨ b = a)
    (hframe : ∀ b ∉ L i, b ≠ a → m' b = m b) :
    Family m' (update E i e) (update L i l) := by
  have hwhere (k : ι) (b : α) : b ∈ update L i l k ↔ b ∈ L k ∨ k = i ∧ b = a := by
    by_cases hk : k = i
    · subst hk
      rw [update_self, hl]
      simp
    · rw [update_of_ne hk]
      simp [hk]
  refine ⟨fun k ↦ ?_, fun k k' hk b hb hb' ↦ ?_, fun b hb ↦ ?_⟩
  · by_cases hk : k = i
    · subst hk
      rwa [update_self, update_self]
    · rw [update_of_ne hk, update_of_ne hk]
      refine (h.rep k).congr fun b hb ↦ hframe b (h.disjoint k i hk b hb) ?_
      exact ne_of_mem_of_not_mem hb (ha k)
  · rcases (hwhere k b).mp hb with hbk | ⟨rfl, rfl⟩
    · rcases (hwhere k' b).mp hb' with hbk' | ⟨-, rfl⟩
      · exact h.disjoint k k' hk b hbk hbk'
      · exact ha k hbk
    · rcases (hwhere k' b).mp hb' with hbk' | ⟨hk', -⟩
      · exact ha k' hbk'
      · exact hk hk'.symm
  · have hbL (k : ι) : b ∉ L k := fun hmem ↦ hb k ((hwhere k b).mpr (Or.inl hmem))
    have hba : b ≠ a := fun he ↦ hb i ((hwhere i b).mpr (Or.inr ⟨rfl, he⟩))
    rw [hframe b (hbL i) hba]
    exact h.free b hbL

theorem Family.move {ι : Type*} [DecidableEq ι] {m : Memory α} {E : ι → Ends α} {L : ι → List α}
    (h : Family m E L) {i j : ι} (hij : i ≠ j) {l r : List α} {a : α} (hi : L i = l ++ a :: r) :
    Family (append (remove m (E i) a).1 (E j) a).1
      (update (update E i (remove m (E i) a).2) j (append (remove m (E i) a).1 (E j) a).2)
      (update (update L i (l ++ r)) j (L j ++ [a])) := by
  have hdrop := h.drop hi
  have hai : a ∈ L i := by rw [hi]; simp
  have hfree (k : ι) : a ∉ update L i (l ++ r) k := by
    by_cases hk : k = i
    · subst hk
      have hn := (h.rep k).nodup
      rw [hi, List.nodup_middle, List.nodup_cons] at hn
      rw [update_self]
      exact hn.1
    · rw [update_of_ne hk]
      exact h.disjoint i k (Ne.symm hk) a hai
  have hj := hdrop.rep j
  rw [update_of_ne hij.symm, update_of_ne hij.symm] at hj
  have haj : a ∉ L j := h.disjoint i j hij a hai
  obtain ⟨happ, hframe⟩ := hj.append haj (hdrop.free a hfree)
  have hLj : update L i (l ++ r) j = L j := update_of_ne hij.symm _ _
  exact hdrop.insert hfree happ (fun b ↦ by rw [hLj]; simp) (by rwa [hLj])

theorem Family.extend {ι : Type*} [DecidableEq ι] {m : Memory α} {E : ι → Ends α}
    {L : ι → List α} (h : Family m E L) {i j : ι} (hij : i ≠ j) :
    Family (extend m (E i) (E j)).1 (update (update E i (extend m (E i) (E j)).2) j {})
      (update (update L i (L i ++ L j)) j []) := by
  obtain ⟨hrep, hframe⟩ := (h.rep i).extend (h.rep j) (h.disjoint i j hij)
  have hwhere (k : ι) (b : α) (hb : b ∈ update (update L i (L i ++ L j)) j [] k) :
      b ∈ L k ∧ k ≠ j ∨ k = i ∧ b ∈ L j := by
    by_cases hkj : k = j
    · subst hkj
      rw [update_self] at hb
      exact absurd hb List.not_mem_nil
    · rw [update_of_ne hkj] at hb
      by_cases hki : k = i
      · subst hki
        rw [update_self, List.mem_append] at hb
        exact hb.imp (fun hb ↦ ⟨hb, hkj⟩) fun hb ↦ ⟨rfl, hb⟩
      · rw [update_of_ne hki] at hb
        exact Or.inl ⟨hb, hkj⟩
  refine ⟨fun k ↦ ?_, fun k k' hk b hb hb' ↦ ?_, fun b hb ↦ ?_⟩
  · by_cases hkj : k = j
    · subst hkj
      rw [update_self, update_self]
      exact rep_nil _
    · rw [update_of_ne hkj, update_of_ne hkj]
      by_cases hki : k = i
      · subst hki
        rwa [update_self, update_self]
      · rw [update_of_ne hki, update_of_ne hki]
        refine (h.rep k).congr fun b hb ↦ hframe b ?_
        rw [List.mem_append, not_or]
        exact ⟨h.disjoint k i hki b hb, h.disjoint k j hkj b hb⟩
  · rcases hwhere k b hb with ⟨hbk, hkj⟩ | ⟨rfl, hbj⟩
    · rcases hwhere k' b hb' with ⟨hbk', -⟩ | ⟨-, hbj⟩
      · exact h.disjoint k k' hk b hbk hbk'
      · exact h.disjoint k j hkj b hbk hbj
    · rcases hwhere k' b hb' with ⟨hbk', hkj⟩ | ⟨hki, -⟩
      · exact h.disjoint k' j hkj b hbk' hbj
      · exact hk hki.symm
  · have hout : b ∉ L i ++ L j := by
      have hbi := hb i
      rwa [update_of_ne hij, update_self] at hbi
    rw [hframe b hout]
    rw [List.mem_append, not_or] at hout
    refine h.free b fun k hk ↦ ?_
    by_cases hkj : k = j
    · exact hout.2 (hkj ▸ hk)
    · by_cases hki : k = i
      · exact hout.1 (hki ▸ hk)
      · refine hb k ?_
        rwa [update_of_ne hkj, update_of_ne hki]

omit [DecidableEq α] in
theorem mem_move {ι : Type*} [DecidableEq ι] {L : ι → List α} {i j : ι} (hij : i ≠ j)
    {l r : List α} {a : α} (hi : L i = l ++ a :: r) (b : α) :
    (∃ k, b ∈ update (update L i (l ++ r)) j (L j ++ [a]) k) ↔ ∃ k, b ∈ L k := by
  constructor
  · rintro ⟨k, hk⟩
    by_cases hkj : k = j
    · subst hkj
      rw [update_self, List.mem_append, List.mem_singleton] at hk
      rcases hk with hk | rfl
      · exact ⟨k, hk⟩
      · exact ⟨i, by rw [hi]; simp⟩
    · rw [update_of_ne hkj] at hk
      by_cases hki : k = i
      · subst hki
        rw [update_self] at hk
        refine ⟨k, ?_⟩
        rw [hi]
        simp only [List.mem_append, List.mem_cons] at hk ⊢
        tauto
      · rw [update_of_ne hki] at hk
        exact ⟨k, hk⟩
  · rintro ⟨k, hk⟩
    by_cases hba : b = a
    · exact ⟨j, by rw [update_self, hba]; simp⟩
    · by_cases hkj : k = j
      · subst hkj
        exact ⟨k, by rw [update_self]; exact List.mem_append_left _ hk⟩
      · refine ⟨k, ?_⟩
        rw [update_of_ne hkj]
        by_cases hki : k = i
        · subst hki
          rw [hi] at hk
          rw [update_self]
          simp only [List.mem_append, List.mem_cons] at hk ⊢
          tauto
        · rwa [update_of_ne hki]

end Granary.Base.ListHead
