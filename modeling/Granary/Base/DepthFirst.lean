import Mathlib.Data.Finset.Card
import Mathlib.Data.List.Nodup
import Mathlib.Logic.Function.Basic
import Mathlib.Logic.Relation
import Mathlib.Tactic

namespace Granary.Base.DepthFirst

open Function Relation

variable {α : Type*}

/-- The nodes that a depth-first search has met, and those it is done with, in that order. -/
structure Marks (α : Type*) where
  marked : α → Bool
  done : List α

def Marks.empty : Marks α where
  marked := fun _ ↦ false
  done := []

def Marks.mark [DecidableEq α] (s : Marks α) (a : α) : Marks α :=
  { s with marked := update s.marked a true }

def Marks.finish (s : Marks α) (a : α) : Marks α :=
  { s with done := s.done ++ [a] }

/-- A node is done after the nodes that it leads to. A node that is met again is left alone, also
while it is still in progress. -/
def visit [DecidableEq α] (succ : α → List α) : ℕ → α → Marks α → Option (Marks α)
  | 0, _, _ => none
  | n + 1, a, s =>
    if s.marked a then some s
    else ((succ a).foldlM (fun s b ↦ visit succ n b s) (s.mark a)).map (·.finish a)

variable {succ : α → List α}

def Edge (succ : α → List α) (a b : α) : Prop :=
  b ∈ succ a

def ProperEdge (succ : α → List α) (a b : α) : Prop :=
  b ∈ succ a ∧ b ≠ a

structure Visits (succ : α → List α) (starts : List α) (s s' : Marks α) : Prop where
  mono {x : α} : s.marked x → s'.marked x
  started {a : α} : a ∈ starts → s'.marked a
  done_eq : ∃ new, s'.done = s.done ++ new ∧ new.Nodup ∧
    ∀ x, x ∈ new ↔ s'.marked x ∧ ¬s.marked x
  closed {x y : α} : s'.marked x → ¬s.marked x → y ∈ succ x → s'.marked y
  reached {x : α} : s'.marked x → ¬s.marked x → ∃ a ∈ starts, ReflTransGen (Edge succ) a x

namespace Visits

variable {starts : List α} {s t u : Marks α} {a : α}

theorem refl (h : ∀ a ∈ starts, s.marked a) : Visits succ starts s s where
  mono := id
  started := fun {a} ha ↦ h a ha
  done_eq := ⟨[], by simp, List.nodup_nil, by simp⟩
  closed := fun hx hx' ↦ absurd hx hx'
  reached := fun hx hx' ↦ absurd hx hx'

theorem cons (h : Visits succ [a] s t) (h' : Visits succ starts t u) :
    Visits succ (a :: starts) s u where
  mono := fun hx ↦ h'.mono (h.mono hx)
  started := by
    intro b hb
    obtain rfl | hb := List.mem_cons.mp hb
    · exact h'.mono (h.started List.mem_cons_self)
    · exact h'.started hb
  done_eq := by
    obtain ⟨new, hd, hn, hmem⟩ := h.done_eq
    obtain ⟨new', hd', hn', hmem'⟩ := h'.done_eq
    refine ⟨new ++ new', by rw [hd', hd, List.append_assoc], ?_, fun x ↦ ?_⟩
    · refine List.nodup_append.mpr ⟨hn, hn', fun x hx y hy hxy ↦ ?_⟩
      subst hxy
      exact ((hmem' x).mp hy).2 ((hmem x).mp hx).1
    · rw [List.mem_append, hmem, hmem']
      have := h.mono (x := x)
      have := h'.mono (x := x)
      tauto
  closed := by
    intro x y hx hx' hy
    by_cases ht : t.marked x
    · exact h'.mono (h.closed ht hx' hy)
    · exact h'.closed hx ht hy
  reached := by
    intro x hx hx'
    by_cases ht : t.marked x
    · obtain ⟨b, hb, hr⟩ := h.reached ht hx'
      obtain rfl := List.mem_singleton.mp hb
      exact ⟨b, List.mem_cons_self, hr⟩
    · obtain ⟨b, hb, hr⟩ := h'.reached hx ht
      exact ⟨b, List.mem_cons_of_mem a hb, hr⟩

variable [DecidableEq α]

theorem marked_mark {x : α} : (s.mark a).marked x ↔ x = a ∨ s.marked x := by
  by_cases hx : x = a
  · subst hx
    simp [Marks.mark]
  · simp [Marks.mark, hx]

theorem finish (ha : ¬s.marked a) (h : Visits succ (succ a) (s.mark a) t) :
    Visits succ [a] s (t.finish a) where
  mono := fun hx ↦ h.mono (marked_mark.mpr (Or.inr hx))
  started := by
    intro b hb
    obtain rfl := List.mem_singleton.mp hb
    exact h.mono (marked_mark.mpr (Or.inl rfl))
  done_eq := by
    obtain ⟨new, hd, hn, hmem⟩ := h.done_eq
    have hanew : a ∉ new := fun hc ↦ ((hmem a).mp hc).2 (marked_mark.mpr (Or.inl rfl))
    refine ⟨new ++ [a], ?_, ?_, fun x ↦ ?_⟩
    · simp only [Marks.finish, hd, Marks.mark, List.append_assoc]
    · exact List.nodup_append.mpr ⟨hn, List.nodup_singleton a, by
        intro x hx y hy hxy
        obtain rfl := List.mem_singleton.mp hy
        exact hanew (hxy ▸ hx)⟩
    · rw [List.mem_append, hmem, List.mem_singleton, marked_mark]
      simp only [Marks.finish]
      constructor
      · rintro (⟨hx, hno⟩ | rfl)
        · exact ⟨hx, fun hs ↦ hno (Or.inr hs)⟩
        · exact ⟨h.mono (marked_mark.mpr (Or.inl rfl)), ha⟩
      · rintro ⟨hx, hno⟩
        by_cases hxa : x = a
        · exact Or.inr hxa
        · exact Or.inl ⟨hx, fun hs ↦ hs.elim hxa hno⟩
  closed := by
    intro x y hx hx' hy
    by_cases hxa : x = a
    · subst hxa
      exact h.started hy
    · exact h.closed hx (fun hs ↦ (marked_mark.mp hs).elim hxa hx') hy
  reached := by
    intro x hx hx'
    by_cases hxa : x = a
    · subst hxa
      exact ⟨x, List.mem_singleton_self x, ReflTransGen.refl⟩
    · obtain ⟨b, hb, hr⟩ := h.reached hx fun hs ↦ (marked_mark.mp hs).elim hxa hx'
      exact ⟨a, List.mem_singleton_self a, ReflTransGen.head hb hr⟩

end Visits

def Ordered (succ : α → List α) (done : List α) : Prop :=
  ∀ pre x post, done = pre ++ x :: post → ∀ y, ProperEdge succ x y → y ∈ pre

def InProgress (s : Marks α) (w : α) : Prop :=
  s.marked w ∧ w ∉ s.done

theorem Visits.inProgress_iff {l : List α} {s t : Marks α} (h : Visits succ l s t) (w : α) :
    InProgress t w ↔ InProgress s w := by
  obtain ⟨new, hd, -, hmem⟩ := h.done_eq
  have hw := hmem w
  have hmono := h.mono (x := w)
  unfold InProgress
  rw [hd, List.mem_append]
  tauto

theorem ordered_concat {done : List α} (h : Ordered succ done)
    {a : α}
    (ha : ∀ y, ProperEdge succ a y → y ∈ done) : Ordered succ (done ++ [a]) := by
  intro pre x post hp y hy
  obtain ⟨rfl, rfl, rfl⟩ | ⟨post', hdone, -⟩ : (pre = done ∧ x = a ∧ post = []) ∨
      ∃ post', done = pre ++ x :: post' ∧ post = post' ++ [a] := by
    rcases List.eq_nil_or_concat post with rfl | ⟨post', b, rfl⟩
    · have hinj := List.append_inj' hp rfl
      exact Or.inl ⟨hinj.1.symm, by simpa using hinj.2.symm, rfl⟩
    · rw [List.concat_eq_append, ← List.cons_append, ← List.append_assoc] at hp
      have hinj := List.append_inj' hp rfl
      refine Or.inr ⟨post', hinj.1, ?_⟩
      rw [List.concat_eq_append]
      simpa using hinj.2.symm
  · exact ha y hy
  · exact h pre x post' hdone y hy

/-- The nodes of `U` that are not marked. -/
def unmarked (U : Finset α) (s : Marks α) : ℕ :=
  (U.filter fun x ↦ ¬s.marked x).card

theorem unmarked_le {U : Finset α} {s t : Marks α} (h : ∀ x, s.marked x → t.marked x) :
    unmarked U t ≤ unmarked U s := by
  refine Finset.card_le_card fun x hx ↦ ?_
  simp only [Finset.mem_filter] at hx ⊢
  exact ⟨hx.1, fun hs ↦ hx.2 (h x hs)⟩

theorem Ordered.idxOf_lt [BEq α] [LawfulBEq α] {done : List α} (h : Ordered succ done)
    (hnd : done.Nodup) {a b : α} (ha : a ∈ done) (hab : ProperEdge succ a b) :
    done.idxOf b < done.idxOf a := by
  obtain ⟨pre, post, rfl⟩ := List.append_of_mem ha
  have hpre : a ∉ pre := fun hc ↦ (List.nodup_append.mp hnd).2.2 a hc a List.mem_cons_self rfl
  have hb := h pre a post rfl b hab
  rw [List.idxOf_append_of_mem hb, List.idxOf_append_of_notMem hpre]
  exact (List.idxOf_lt_length_of_mem hb).trans_le (Nat.le_add_right _ _)

/-- Each node is one of `starts`, or one that comes later leads to it. -/
def Led (succ : α → List α) (starts : List α) : List α → Prop
  | [] => True
  | x :: done => (x ∈ starts ∨ ∃ z ∈ done, Edge succ z x) ∧ Led succ starts done

theorem Led.append {starts starts' done done' : List α} (h : Led succ starts done)
    (h' : Led succ starts' done') : Led succ (starts ++ starts') (done ++ done') := by
  induction done with
  | nil =>
    induction done' with
    | nil => trivial
    | cons x done' ih =>
      exact ⟨h'.1.imp (List.mem_append_right starts) id, ih h'.2⟩
  | cons x done ih =>
    refine ⟨h.1.imp (List.mem_append_left starts') ?_, ih h.2⟩
    rintro ⟨z, hz, hzx⟩
    exact ⟨z, List.mem_append_left done' hz, hzx⟩

theorem Led.finish {a : α} {done : List α} (h : Led succ (succ a) done) : Led succ [a] (done ++ [a]) := by
  induction done with
  | nil => exact ⟨Or.inl (List.mem_singleton_self a), trivial⟩
  | cons x done ih =>
    refine ⟨Or.inr ?_, ih h.2⟩
    obtain hx | ⟨z, hz, hzx⟩ := h.1
    · exact ⟨a, by simp, hx⟩
    · exact ⟨z, List.mem_append_left [a] hz, hzx⟩

theorem Led.idxOf_lt [BEq α] [LawfulBEq α] {starts done : List α} (h : Led succ starts done) (hnd : done.Nodup) {x : α}
    (hx : x ∈ done) (hstart : x ∉ starts) :
    ∃ z ∈ done, Edge succ z x ∧ done.idxOf x < done.idxOf z := by
  induction done with
  | nil => simp at hx
  | cons y done ih =>
    obtain ⟨hy, hnd⟩ := List.nodup_cons.mp hnd
    by_cases hxy : x = y
    · subst hxy
      obtain ⟨z, hz, hzx⟩ := h.1.resolve_left hstart
      have hne : x ≠ z := fun heq ↦ hy (heq ▸ hz)
      refine ⟨z, List.mem_cons_of_mem x hz, hzx, ?_⟩
      rw [List.idxOf_cons_self, List.idxOf_cons_ne _ hne]
      exact Nat.succ_pos _
    · have hx : x ∈ done := (List.mem_cons.mp hx).resolve_left hxy
      obtain ⟨z, hz, hzx, hlt⟩ := ih h.2 hnd hx
      have hne : y ≠ z := fun heq ↦ hy (heq ▸ hz)
      refine ⟨z, List.mem_cons_of_mem y hz, hzx, ?_⟩
      rw [List.idxOf_cons_ne _ (Ne.symm hxy), List.idxOf_cons_ne _ hne]
      exact Nat.succ_lt_succ hlt

section Search

variable [DecidableEq α] {n : ℕ} {a : α} {l : List α} {s s' t : Marks α}

def visitAll (succ : α → List α) (n : ℕ) (l : List α) (s : Marks α) : Option (Marks α) :=
  l.foldlM (fun s b ↦ visit succ n b s) s

theorem visitAll_cons_eq_some (h : visitAll succ n (a :: l) s = some s') :
    ∃ t, visit succ n a s = some t ∧ visitAll succ n l t = some s' := by
  rw [visitAll, List.foldlM_cons] at h
  exact Option.bind_eq_some_iff.mp h

theorem visit_cases (h : visit succ n a s = some s') :
    s.marked a ∧ s' = s ∨
      ¬s.marked a ∧ ∃ m t, n = m + 1 ∧ visitAll succ m (succ a) (s.mark a) = some t ∧
        s' = t.finish a := by
  cases n with
  | zero => cases h
  | succ m =>
    rw [visit] at h
    split_ifs at h with hm
    · exact Or.inl ⟨hm, (Option.some_inj.mp h).symm⟩
    · obtain ⟨t, ht, rfl⟩ := Option.map_eq_some_iff.mp h
      exact Or.inr ⟨hm, m, t, rfl, ht, rfl⟩

/-- A property of searches from lists of nodes holds of all that the fuel is enough for. -/
theorem visitAll_induction {P : List α → Marks α → Marks α → Prop} (hnil : ∀ s, P [] s s)
    (hcons : ∀ a l s t u, P [a] s t → P l t u → P (a :: l) s u)
    (hmarked : ∀ a s, s.marked a → P [a] s s)
    (hfinish : ∀ a s t, ¬s.marked a → P (succ a) (s.mark a) t → P [a] s (t.finish a))
    (h : visitAll succ n l s = some s') : P l s s' := by
  induction n generalizing l s s' with
  | zero =>
    cases l with
    | nil => exact Option.some_inj.mp h ▸ hnil s
    | cons a l =>
      obtain ⟨t, ht, -⟩ := visitAll_cons_eq_some h
      cases ht
  | succ n ih =>
    induction l generalizing s with
    | nil => exact Option.some_inj.mp h ▸ hnil s
    | cons a l ihl =>
      obtain ⟨t, ht, hl⟩ := visitAll_cons_eq_some h
      refine hcons a l s t s' ?_ (ihl hl)
      obtain ⟨hm, rfl⟩ | ⟨hm, m, u, hn, hu, rfl⟩ := visit_cases ht
      · exact hmarked a t hm
      · obtain rfl := Nat.succ.inj hn
        exact hfinish a s u hm (ih hu)

theorem visitAll_visits (h : visitAll succ n l s = some s') : Visits succ l s s' := by
  refine visitAll_induction (P := Visits succ) ?_ ?_ ?_ ?_ h
  · exact fun s ↦ Visits.refl (by simp)
  · exact fun a l s t u h h' ↦ h.cons h'
  · exact fun a s ha ↦ Visits.refl (by simpa using ha)
  · exact fun a s t ha h ↦ h.finish ha

theorem visit_eq_visitAll : visit succ n a s = visitAll succ n [a] s := by
  simp [visitAll]

theorem visit_visits (h : visit succ n a s = some s') : Visits succ [a] s s' :=
  visitAll_visits (visit_eq_visitAll.symm.trans h)

theorem visitAll_ordered (hac : ∀ x, ¬TransGen (ProperEdge succ) x x)
    (h : visitAll succ n l s = some s') (ho : Ordered succ s.done)
    (hp : ∀ a ∈ l, ¬s.marked a → ∀ w, InProgress s w → TransGen (ProperEdge succ) w a) :
    Ordered succ s'.done := by
  refine (visitAll_induction (P := fun l s s' ↦ Visits succ l s s' ∧ (Ordered succ s.done →
    (∀ a ∈ l, ¬s.marked a → ∀ w, InProgress s w → TransGen (ProperEdge succ) w a) →
      Ordered succ s'.done)) ?_ ?_ ?_ ?_ h).2 ho hp
  · exact fun s ↦ ⟨Visits.refl (by simp), fun ho _ ↦ ho⟩
  · rintro a l s t u ⟨hv, hst⟩ ⟨hv', htu⟩
    refine ⟨hv.cons hv', fun ho hp ↦ htu (hst ho ?_) fun b hb hm w hw ↦ ?_⟩
    · intro b hb
      obtain rfl := List.mem_singleton.mp hb
      exact hp b List.mem_cons_self
    · exact hp b (List.mem_cons_of_mem a hb) (fun hs ↦ hm (hv.mono hs)) w
        ((hv.inProgress_iff w).mp hw)
  · exact fun a s ha ↦ ⟨Visits.refl (by simpa using ha), fun ho _ ↦ ho⟩
  · rintro a s t ha ⟨hv, hst⟩
    refine ⟨hv.finish ha, fun ho hp ↦ ?_⟩
    have hprog (w : α) (hw : InProgress (s.mark a) w) : w = a ∨ TransGen (ProperEdge succ) w a :=
      (Visits.marked_mark.mp hw.1).imp_right fun hs ↦
        hp a (List.mem_singleton_self a) ha w ⟨hs, hw.2⟩
    have hdone : Ordered succ t.done := by
      refine hst ho fun b hb hm w hw ↦ ?_
      have hba : ProperEdge succ a b := ⟨hb, fun hba ↦ hm (Visits.marked_mark.mpr (Or.inl hba))⟩
      obtain rfl | hwa := hprog w hw
      · exact TransGen.single hba
      · exact hwa.tail hba
    -- a successor that is not done is in progress, and closes a cycle
    refine ordered_concat hdone fun y hy ↦ ?_
    by_contra hny
    have hyp := (hv.inProgress_iff y).mp ⟨hv.started hy.1, hny⟩
    obtain rfl | hya := hprog y hyp
    · exact hy.2 rfl
    · exact hac y (hya.tail hy)

theorem unmarked_mark_lt {U : Finset α} (hu : a ∈ U) (ha : ¬s.marked a) :
    unmarked U (s.mark a) < unmarked U s := by
  refine Finset.card_lt_card (Finset.ssubset_iff_of_subset ?_ |>.mpr ⟨a, ?_, ?_⟩)
  · intro x hx
    simp only [Finset.mem_filter] at hx ⊢
    exact ⟨hx.1, fun hs ↦ hx.2 (Visits.marked_mark.mpr (Or.inr hs))⟩
  · exact Finset.mem_filter.mpr ⟨hu, ha⟩
  · simp [Marks.mark]

theorem exists_visitAll {U : Finset α} (hclosed : ∀ x ∈ U, ∀ y ∈ succ x, y ∈ U)
    (hl : ∀ a ∈ l, a ∈ U) (hn : unmarked U s < n) :
    ∃ s', visitAll succ n l s = some s' := by
  induction n generalizing l s with
  | zero => omega
  | succ n ih =>
    induction l generalizing s with
    | nil => exact ⟨s, rfl⟩
    | cons a l ihl =>
      obtain ⟨t, ht⟩ : ∃ t, visit succ (n + 1) a s = some t := by
        rw [visit]
        split_ifs with hm
        · exact ⟨s, rfl⟩
        · have hlt := unmarked_mark_lt (hl a List.mem_cons_self) hm
          obtain ⟨t, ht⟩ := ih (s := s.mark a) (hclosed a (hl a List.mem_cons_self)) (by omega)
          exact ⟨t.finish a, Option.map_eq_some_iff.mpr ⟨t, ht, rfl⟩⟩
      have hle := unmarked_le (U := U) (t := t) fun x ↦ (visit_visits ht).mono
      obtain ⟨s', hs'⟩ := ihl (s := t) (fun b hb ↦ hl b (List.mem_cons_of_mem a hb)) (by omega)
      refine ⟨s', ?_⟩
      rw [visitAll, List.foldlM_cons, ht]
      exact hs'

/-- What a search that begins with nothing marked finds: all that can be reached, once each. -/
theorem visit_empty (h : visit succ n a .empty = some s') :
    s'.done.Nodup ∧ ∀ x, x ∈ s'.done ↔ ReflTransGen (Edge succ) a x := by
  have hv := visit_visits h
  obtain ⟨new, hd, hnd, hmem⟩ := hv.done_eq
  have hd : s'.done = new := by simpa [Marks.empty] using hd
  have hmem (x : α) : x ∈ s'.done ↔ s'.marked x := by simp [hd, hmem, Marks.empty]
  have hnew (x : α) : ¬(Marks.empty : Marks α).marked x := by simp [Marks.empty]
  refine ⟨hd ▸ hnd, fun x ↦ ⟨fun hx ↦ ?_, fun hx ↦ ?_⟩⟩
  · obtain ⟨b, hb, hr⟩ := hv.reached ((hmem x).mp hx) (hnew x)
    exact List.mem_singleton.mp hb ▸ hr
  · rw [hmem]
    induction hx with
    | refl => exact hv.started (List.mem_singleton_self a)
    | tail _ hbc ih => exact hv.closed ih (hnew _) hbc

theorem visit_empty_ordered (hac : ∀ x, ¬TransGen (ProperEdge succ) x x)
    (h : visit succ n a .empty = some s') : Ordered succ s'.done := by
  refine visitAll_ordered hac (visit_eq_visitAll.symm.trans h) ?_ ?_
  · intro pre x post hp
    simp [Marks.empty] at hp
  · intro b _ _ w hw
    simp [InProgress, Marks.empty] at hw

theorem visit_head {b : α} {bs : List α} (h : visit succ n a s = some s') (hm : ¬s.marked a)
    (hs : succ a = b :: bs) :
    ∃ m t, visit succ m b (s.mark a) = some t ∧ t.done <+: s'.done := by
  obtain ⟨hm', -⟩ | ⟨-, m, u, -, hu, rfl⟩ := visit_cases h
  · exact absurd hm' hm
  · rw [hs] at hu
    obtain ⟨t, ht, hrest⟩ := visitAll_cons_eq_some hu
    obtain ⟨new, hd, -, -⟩ := (visitAll_visits hrest).done_eq
    refine ⟨m, t, ht, ?_⟩
    rw [Marks.finish, hd, List.append_assoc]
    exact List.prefix_append _ _

def markAll (path : List α) (s : Marks α) : Marks α :=
  path.foldl Marks.mark s

theorem marked_markAll {path : List α} {x : α} :
    (markAll path s).marked x ↔ x ∈ path ∨ s.marked x := by
  induction path generalizing s with
  | nil => simp [markAll]
  | cons a path ih =>
    rw [markAll, List.foldl_cons, ← markAll, ih, Visits.marked_mark, List.mem_cons]
    tauto

theorem done_markAll {path : List α} : (markAll path s).done = s.done := by
  induction path generalizing s with
  | nil => rfl
  | cons a path ih => exact ih

/-- Down a path of first edges, the last node is visited while only the path was added. -/
theorem visit_along {path : List α} {b : α} (hnd : path.Nodup) (hm : ∀ x ∈ path, ¬s.marked x)
    (hpath : (path ++ [b]).IsChain fun x y ↦ (succ x).head? = some y)
    (h : visit succ n ((path ++ [b]).head (by simp)) s = some s') :
    ∃ m t, visit succ m b (markAll path s) = some t ∧ t.done <+: s'.done := by
  induction path generalizing n s s' with
  | nil => exact ⟨n, s', h, List.prefix_rfl⟩
  | cons a path ih =>
    have hne : path ++ [b] ≠ [] := by simp
    obtain ⟨c, cs, hc⟩ := List.exists_cons_of_ne_nil hne
    have hac : (succ a).head? = some c := by
      rw [List.cons_append, hc] at hpath
      exact (List.isChain_cons_cons.mp hpath).1
    obtain ⟨bs, hs⟩ : ∃ bs, succ a = c :: bs := by
      cases hsa : succ a with
      | nil => simp [hsa] at hac
      | cons d bs => exact ⟨bs, by simpa [hsa] using hac⟩
    obtain ⟨m, t, ht, hpre⟩ := visit_head h (hm a List.mem_cons_self) hs
    have hhead : (path ++ [b]).head hne = c := by simp [hc]
    have hunmarked : ∀ x ∈ path, ¬(s.mark a).marked x := by
      intro x hx hxm
      obtain rfl | hxm := Visits.marked_mark.mp hxm
      · exact (List.nodup_cons.mp hnd).1 hx
      · exact hm x (List.mem_cons_of_mem a hx) hxm
    have htail : (path ++ [b]).IsChain fun x y ↦ (succ x).head? = some y := by
      rw [List.cons_append] at hpath
      exact hpath.tail
    obtain ⟨m', t', ht', hpre'⟩ := ih (List.nodup_cons.mp hnd).2 hunmarked htail (hhead ▸ ht)
    exact ⟨m', t', ht', hpre'.trans hpre⟩

theorem visitAll_congr {succ' : α → List α} (h : ∀ x, ¬s.marked x → succ x = succ' x) :
    visitAll succ n l s = visitAll succ' n l s := by
  induction n generalizing l s with
  | zero => cases l <;> rfl
  | succ n ih =>
    induction l generalizing s with
    | nil => rfl
    | cons a l ihl =>
      have hhead : visit succ (n + 1) a s = visit succ' (n + 1) a s := by
        rw [visit, visit]
        split_ifs with hm
        · rfl
        · have hmark := ih (l := succ a) (s := s.mark a) fun x hx ↦
            h x fun hs ↦ hx (Visits.marked_mark.mpr (Or.inr hs))
          rw [visitAll, visitAll] at hmark
          rw [hmark, h a hm]
      rw [visitAll, visitAll, List.foldlM_cons, List.foldlM_cons, ← hhead]
      cases ht : visit succ (n + 1) a s with
      | none => rfl
      | some t => exact ihl fun x hx ↦ h x fun hs ↦ hx ((visit_visits ht).mono hs)

/-- An edge from the end of a path of first edges back to the path is as good as one from the end
to itself. -/
theorem visit_path_congr {succ' : α → List α} {path : List α} {b c c' : α} {cs : List α}
    (hagree : ∀ x, x ≠ b → succ x = succ' x) (hc : succ b = c :: cs) (hc' : succ' b = c' :: cs)
    (hback : c ∈ path ++ [b] ∨ s.marked c) (hback' : c' ∈ path ++ [b] ∨ s.marked c')
    (hnd : (path ++ [b]).Nodup) (hm : ∀ x ∈ path ++ [b], ¬s.marked x)
    (hpath : (path ++ [b]).IsChain fun x y ↦ (succ x).head? = some y) :
    visit succ n ((path ++ [b]).head (by simp)) s =
        visit succ' n ((path ++ [b]).head (by simp)) s ∧
      ∀ t, visit succ n ((path ++ [b]).head (by simp)) s = some t → t.marked b := by
  induction path generalizing n s with
  | nil =>
    refine ⟨?_, fun t ht ↦ (visit_visits ht).started (by simp)⟩
    have hback : (s.mark b).marked c := Visits.marked_mark.mpr (by simpa using hback)
    have hback' : (s.mark b).marked c' := Visits.marked_mark.mpr (by simpa using hback')
    cases n with
    | zero => rfl
    | succ n =>
      have hmb : ¬s.marked b := hm b (by simp)
      simp only [List.nil_append, List.head_cons]
      rw [visit, visit, if_neg hmb, if_neg hmb, hc, hc', List.foldlM_cons, List.foldlM_cons]
      cases n with
      | zero => rfl
      | succ n =>
        have hrest : visitAll succ (n + 1) cs (s.mark b) = visitAll succ' (n + 1) cs (s.mark b) := by
          refine visitAll_congr fun x hx ↦ hagree x ?_
          rintro rfl
          exact hx (Visits.marked_mark.mpr (Or.inl rfl))
        have hstay : visit succ (n + 1) c (s.mark b) = some (s.mark b) := by rw [visit, if_pos hback]
        have hstay' : visit succ' (n + 1) c' (s.mark b) = some (s.mark b) := by
          rw [visit, if_pos hback']
        rw [hstay, hstay']
        simp only [visitAll] at hrest
        simp only [Option.bind_eq_bind, Option.bind_some, hrest]
  | cons a path ih =>
    have hnd' := List.nodup_cons.mp hnd
    have hab : a ≠ b := fun hab ↦ hnd'.1 (by simp [hab])
    obtain ⟨d, ds, hd⟩ := List.exists_cons_of_ne_nil (by simp : path ++ [b] ≠ [])
    have hhead : (path ++ [b]).head (by simp) = d := by simp [hd]
    have had : (succ a).head? = some d := by
      rw [List.cons_append, hd] at hpath
      exact (List.isChain_cons_cons.mp hpath).1
    obtain ⟨bs, hs⟩ : ∃ bs, succ a = d :: bs := by
      cases hsa : succ a with
      | nil => simp [hsa] at had
      | cons e bs => exact ⟨bs, by simpa [hsa] using had⟩
    have hmark {x : α} (hx : x ∈ a :: path ++ [b] ∨ s.marked x) :
        x ∈ path ++ [b] ∨ (s.mark a).marked x := by
      rw [Visits.marked_mark]
      simp only [List.cons_append, List.mem_cons] at hx
      tauto
    have hunmarked : ∀ x ∈ path ++ [b], ¬(s.mark a).marked x := by
      intro x hx hxm
      obtain rfl | hxm := Visits.marked_mark.mp hxm
      · exact hnd'.1 hx
      · exact hm x (List.mem_cons_of_mem a hx) hxm
    have hma : ¬s.marked a := hm a List.mem_cons_self
    simp only [List.cons_append, List.head_cons]
    cases n with
    | zero => exact ⟨rfl, fun t ht ↦ by cases ht⟩
    | succ n =>
      obtain ⟨heq, hend⟩ := ih (n := n) (hmark hback) (hmark hback') hnd'.2 hunmarked hpath.tail
      rw [hhead] at heq hend
      rw [visit, visit, if_neg hma, if_neg hma, ← hagree a hab, hs, List.foldlM_cons,
        List.foldlM_cons, ← heq]
      cases ht : visit succ n d (s.mark a) with
      | none => exact ⟨rfl, fun t ht ↦ by cases ht⟩
      | some t =>
        have hrest : visitAll succ n bs t = visitAll succ' n bs t := by
          refine visitAll_congr fun x hx ↦ hagree x ?_
          rintro rfl
          exact hx (hend t ht)
        simp only [Option.bind_eq_bind, Option.bind_some]
        simp only [visitAll] at hrest
        refine ⟨by rw [hrest], fun u hu ↦ ?_⟩
        obtain ⟨v, hv, rfl⟩ := Option.map_eq_some_iff.mp hu
        exact (visitAll_visits hv).mono (hend t ht)

theorem visit_empty_led (h : visit succ n a .empty = some s') : Led succ [a] s'.done := by
  have hled : ∃ new, s'.done = (.empty : Marks α).done ++ new ∧ Led succ [a] new := by
    refine visitAll_induction (P := fun l s s' ↦ ∃ new, s'.done = s.done ++ new ∧ Led succ l new)
      (fun s ↦ ⟨[], by simp, trivial⟩) ?_ (fun a s _ ↦ ⟨[], by simp, trivial⟩) ?_
      (visit_eq_visitAll.symm.trans h)
    · rintro a l s t u ⟨new, hd, hled⟩ ⟨new', hd', hled'⟩
      refine ⟨new ++ new', by rw [hd', hd, List.append_assoc], ?_⟩
      have happend := hled.append hled'
      rwa [List.singleton_append] at happend
    · rintro a s t - ⟨new, hd, hled⟩
      refine ⟨new ++ [a], ?_, hled.finish⟩
      simp only [Marks.finish, hd, Marks.mark, List.append_assoc]
  obtain ⟨new, hd, hled⟩ := hled
  have hd : s'.done = new := by simpa [Marks.empty] using hd
  exact hd ▸ hled

/-- The same marks under the names that `f` gives to the nodes of `S`. -/
structure Renames {β : Type*} (f : α → β) (S : Set α) (s : Marks α) (s' : Marks β) : Prop where
  marked_eq {a : α} : a ∈ S → s'.marked (f a) = s.marked a
  done_eq : s'.done = s.done.map f

theorem visitAll_map {β : Type*} [DecidableEq β] {f : α → β} {S : Set α} {succ' : β → List β}
    (hf : S.InjOn f) (hsucc : ∀ a ∈ S, succ' (f a) = (succ a).map f)
    (hclosed : ∀ a ∈ S, ∀ b ∈ succ a, b ∈ S) {s : Marks α} {s' : Marks β}
    (hr : Renames f S s s') (hl : ∀ a ∈ l, a ∈ S) :
    match visitAll succ n l s with
    | none => visitAll succ' n (l.map f) s' = none
    | some t => ∃ t', visitAll succ' n (l.map f) s' = some t' ∧ Renames f S t t' := by
  induction n generalizing l s s' with
  | zero =>
    cases l with
    | nil => exact ⟨s', rfl, hr⟩
    | cons a l => rfl
  | succ n ih =>
    induction l generalizing s s' with
    | nil => exact ⟨s', rfl, hr⟩
    | cons a l ihl =>
      have ha := hl a List.mem_cons_self
      have hhead : match visit succ (n + 1) a s with
          | none => visit succ' (n + 1) (f a) s' = none
          | some t => ∃ t', visit succ' (n + 1) (f a) s' = some t' ∧ Renames f S t t' := by
        rw [visit, visit, hr.marked_eq ha]
        split_ifs with hm
        · exact ⟨s', rfl, hr⟩
        · have hmark : Renames f S (s.mark a) (s'.mark (f a)) := by
            refine ⟨fun {b} hb ↦ ?_, hr.done_eq⟩
            by_cases hba : b = a
            · subst hba
              simp [Marks.mark]
            · have hfb : f b ≠ f a := fun heq ↦ hba (hf hb ha heq)
              simp [Marks.mark, hba, hfb, hr.marked_eq hb]
          have ih := ih hmark (hclosed a ha)
          rw [← hsucc a ha] at ih
          simp only [visitAll] at ih
          cases ht : (succ a).foldlM (fun s b ↦ visit succ n b s) (s.mark a) with
          | none =>
            rw [ht] at ih
            simp only [ih, Option.map_none]
          | some t =>
            rw [ht] at ih
            obtain ⟨t', ht', hrt⟩ := ih
            simp only [ht', Option.map_some]
            refine ⟨_, rfl, hrt.marked_eq, ?_⟩
            simp [Marks.finish, hrt.done_eq]
      simp only [visitAll, List.map_cons, List.foldlM_cons] at ihl ⊢
      cases ht : visit succ (n + 1) a s with
      | none =>
        rw [ht] at hhead
        simp only [hhead, Option.bind_eq_bind, Option.bind_none]
      | some t =>
        rw [ht] at hhead
        obtain ⟨t', ht', hrt⟩ := hhead
        simp only [ht', Option.bind_eq_bind, Option.bind_some]
        exact ihl hrt fun b hb ↦ hl b (List.mem_cons_of_mem a hb)

end Search

end Granary.Base.DepthFirst
