import Granary.Base.Chain
import Granary.Base.ListHead
import Granary.Base.Run

namespace Granary.Base.ListOfListHead

open Function Granary.Base.Chain Granary.Base.ListHead

variable {ι α : Type*} [DecidableEq ι] [DecidableEq α]

/-- The operations on several `ListOfListHead`s, whose elements have one list head each. -/
inductive Op (ι α : Type*) where
  | append (i : ι) (a : α)
  | prepend (i : ι) (a : α)
  | insertBefore (i : ι) (before : Option α) (a : α)
  | insertAfter (i : ι) (after : Option α) (a : α)
  | remove (i : ι) (a : α)
  | extend (i j : ι)

structure State (ι α : Type*) where
  links : Memory α
  ends : ι → Ends α

namespace State

def empty : State ι α := ⟨fun _ ↦ {}, fun _ ↦ {}⟩

def set (s : State ι α) (i : ι) (r : Memory α × Ends α) : State ι α :=
  ⟨r.1, update s.ends i r.2⟩

/-- An operation that follows a null pointer has no result. -/
def step (s : State ι α) : Op ι α → Option (State ι α)
  | .append i a => some (s.set i (append s.links (s.ends i) a))
  | .prepend i a => some (s.set i (prepend s.links (s.ends i) a))
  | .insertBefore i before a => (insertBefore s.links (s.ends i) before a).map (s.set i)
  | .insertAfter i after a => (insertAfter s.links (s.ends i) after a).map (s.set i)
  | .remove i a => some (s.set i (remove s.links (s.ends i) a))
  | .extend i j =>
    let r := s.set i (extend s.links (s.ends i) (s.ends j))
    some (r.set j (r.links, {}))

end State

def before (l : List α) (b : Option α) (a : α) : List α :=
  match b with
  | some b => l.takeWhile (· ≠ b) ++ a :: l.dropWhile (· ≠ b)
  | none => a :: l

def after (l : List α) (b : Option α) (a : α) : List α :=
  match b with
  | some b => l.takeWhile (· ≠ b) ++ b :: a :: (l.dropWhile (· ≠ b)).tail
  | none => l ++ [a]

def Op.apply (L : ι → List α) : Op ι α → ι → List α
  | .append i a => update L i (L i ++ [a])
  | .prepend i a => update L i (a :: L i)
  | .insertBefore i b a => update L i (before (L i) b a)
  | .insertAfter i b a => update L i (after (L i) b a)
  | .remove i a => update L i ((L i).erase a)
  | .extend i j => update (update L i (L i ++ L j)) j []

def Op.operand : Op ι α → Option α
  | .append _ a | .prepend _ a | .insertBefore _ _ a | .insertAfter _ _ a | .remove _ a => some a
  | .extend _ _ => none

/-- The place next to which an element is inserted: an element of the list or, if the list is empty,
null. -/
def IsPlace (l : List α) : Option α → Prop
  | some b => b ∈ l
  | none => l = []

/-- An element is put into a list only if it is in none, and taken out of the list that it is in. A
list does not extend itself. -/
def Op.Legal (L : ι → List α) : Op ι α → Prop
  | .append _ a | .prepend _ a => ∀ k, a ∉ L k
  | .insertBefore i b a | .insertAfter i b a => (∀ k, a ∉ L k) ∧ IsPlace (L i) b
  | .remove i a => ∀ k, a ∈ L k → k = i
  | .extend i j => i ≠ j

def specify (L : ι → List α) (ops : List (Op ι α)) : ι → List α :=
  ops.foldl Op.apply L

section Sequences

variable {l r : List α} {a b : α}

theorem before_append_cons (hb : b ∉ l) : before (l ++ b :: r) (some b) a = l ++ a :: b :: r := by
  have hl : ∀ x ∈ l, decide (x ≠ b) = true := fun x hx ↦
    decide_eq_true (ne_of_mem_of_not_mem hx hb)
  simp only [before, List.takeWhile_append_of_pos hl, List.dropWhile_append_of_pos hl]
  simp

theorem after_append_cons (hb : b ∉ l) : after (l ++ b :: r) (some b) a = l ++ b :: a :: r := by
  have hl : ∀ x ∈ l, decide (x ≠ b) = true := fun x hx ↦
    decide_eq_true (ne_of_mem_of_not_mem hx hb)
  simp only [after, List.takeWhile_append_of_pos hl, List.dropWhile_append_of_pos hl]
  simp

theorem sublist_before (l : List α) (b : Option α) (a : α) : l.Sublist (before l b a) := by
  cases b with
  | none => exact List.sublist_cons_self a l
  | some b =>
    have h := (List.sublist_cons_self a (l.dropWhile (· ≠ b))).append_left (l.takeWhile (· ≠ b))
    rwa [List.takeWhile_append_dropWhile] at h

theorem sublist_after {b : Option α} (hb : IsPlace l b) (a : α) : l.Sublist (after l b a) := by
  cases b with
  | none => exact List.sublist_append_left l [a]
  | some b =>
    obtain ⟨l, r, rfl, hbl⟩ := List.eq_append_cons_of_mem hb
    rw [after_append_cons hbl]
    exact ((List.sublist_cons_self a r).cons_cons b).append_left l

theorem Op.Legal.order {L : ι → List α} {op : Op ι α} (h : op.Legal L) {k : ι} {x y : α}
    (hx : op.operand ≠ some x) (hy : op.operand ≠ some y) (hxy : [x, y].Sublist (L k)) :
    ∃ k', [x, y].Sublist (op.apply L k') := by
  have hgrow {i : ι} {l : List α} (hl : (L i).Sublist l) :
      ∃ k', [x, y].Sublist (update L i l k') := by
    refine ⟨k, ?_⟩
    by_cases hk : k = i
    · subst hk
      rw [update_self]
      exact hxy.trans hl
    · rwa [update_of_ne hk]
  cases op with
  | append i a => exact hgrow (List.sublist_append_left _ _)
  | prepend i a => exact hgrow (List.sublist_cons_self _ _)
  | insertBefore i b a => exact hgrow (sublist_before _ b a)
  | insertAfter i b a => exact hgrow (sublist_after h.2 a)
  | remove i a =>
    refine ⟨k, ?_⟩
    by_cases hk : k = i
    · subst hk
      have herase := hxy.erase a
      simp only [Op.operand, ne_eq, Option.some_inj] at hx hy
      rw [List.erase_of_not_mem (by simp [hx, hy])] at herase
      rwa [Op.apply, update_self]
    · rwa [Op.apply, update_of_ne hk]
  | extend i j =>
    rw [Op.apply]
    by_cases hki : k = i
    · refine ⟨i, ?_⟩
      rw [update_of_ne h, update_self]
      exact (hki ▸ hxy).trans (List.sublist_append_left _ _)
    · by_cases hkj : k = j
      · refine ⟨i, ?_⟩
        rw [update_of_ne h, update_self]
        exact (hkj ▸ hxy).trans (List.sublist_append_right _ _)
      · refine ⟨k, ?_⟩
        rwa [update_of_ne hkj, update_of_ne hki]

end Sequences

omit [DecidableEq α] in
theorem path_next {m : Memory α} {p : Option α} {l : List α} (h : Seg m p l none) :
    Path (fun a ↦ (m a).next) l.head? l none := by
  induction l generalizing p with
  | nil => rfl
  | cons a l ih =>
    obtain ⟨-, hnext, hl⟩ := h
    rw [Option.or_none] at hnext
    have hpath := ih hl
    rw [← hnext] at hpath
    exact ⟨rfl, hpath⟩

omit [DecidableEq α] in
theorem path_prev {m : Memory α} {n : Option α} {l : List α} (h : Seg m none l n) :
    Path (fun a ↦ (m a).prev) l.getLast? l.reverse none := by
  induction l using List.reverseRecOn generalizing n with
  | nil => rfl
  | append_singleton l a ih =>
    obtain ⟨hl, hprev, -⟩ := seg_append.mp h
    rw [Option.or_none] at hprev
    rw [List.getLast?_concat, List.reverse_concat]
    have hpath := ih hl
    rw [← hprev] at hpath
    exact ⟨rfl, hpath⟩

/-- Read forwards from its first element and backwards from its last one, the list is `l`. -/
structure State.Reads (s : State ι α) (i : ι) (l : List α) : Prop where
  forwards : Path (fun a ↦ (s.links a).next) (s.ends i).first l none
  backwards : Path (fun a ↦ (s.links a).prev) (s.ends i).last l.reverse none

omit [DecidableEq ι] [DecidableEq α] in
theorem reads_of_rep {s : State ι α} {i : ι} {l : List α} (h : Rep s.links (s.ends i) l) :
    s.Reads i l := by
  refine ⟨?_, ?_⟩
  · rw [h.first]
    exact path_next h.seg
  · rw [h.last]
    exact path_prev h.seg

theorem step_refines {s : State ι α} {L : ι → List α} {op : Op ι α}
    (h : Family s.links s.ends L) (hop : op.Legal L) :
    ∃ s', s.step op = some s' ∧ Family s'.links s'.ends (op.apply L) := by
  cases op with
  | append i a =>
    obtain ⟨hr, hframe⟩ := (h.rep i).append (hop i) (h.free a hop)
    exact ⟨_, rfl, h.insert hop hr (by simp) hframe⟩
  | prepend i a =>
    obtain ⟨hr, hframe⟩ := (h.rep i).prepend (hop i) (h.free a hop)
    exact ⟨_, rfl, h.insert hop hr (by simp [or_comm]) hframe⟩
  | insertBefore i b a =>
    obtain ⟨hnone, hb⟩ := hop
    cases b with
    | none =>
      have hfirst : (s.ends i).first = none := by rw [(h.rep i).first, show L i = [] from hb]; rfl
      obtain ⟨hr, hframe⟩ := (h.rep i).prepend (hnone i) (h.free a hnone)
      refine ⟨s.set i (prepend s.links (s.ends i) a), ?_,
        h.insert hnone hr (by simp [before, or_comm]) hframe⟩
      rw [State.step, insertBefore, if_pos hfirst.symm, Option.map_some]
    | some b =>
      obtain ⟨l, r, hi, hbl⟩ := List.eq_append_cons_of_mem hb
      have hr := h.rep i
      rw [hi] at hr
      obtain ⟨x, hx, hrx, hframe⟩ := hr.insertBefore (hi ▸ hnone i) (h.free a hnone)
      rw [← hi] at hframe
      refine ⟨s.set i x, by rw [State.step, hx, Option.map_some], ?_⟩
      rw [Op.apply, hi, before_append_cons hbl]
      exact h.insert hnone hrx (fun c ↦ by rw [hi]; simp; tauto) hframe
  | insertAfter i b a =>
    obtain ⟨hnone, hb⟩ := hop
    cases b with
    | none =>
      have hlast : (s.ends i).last = none := by rw [(h.rep i).last, show L i = [] from hb]; rfl
      obtain ⟨hr, hframe⟩ := (h.rep i).append (hnone i) (h.free a hnone)
      refine ⟨s.set i (append s.links (s.ends i) a), ?_, h.insert hnone hr (by simp [after]) hframe⟩
      rw [State.step, insertAfter, if_pos hlast.symm, Option.map_some]
    | some b =>
      obtain ⟨l, r, hi, hbl⟩ := List.eq_append_cons_of_mem hb
      have hr := h.rep i
      rw [hi] at hr
      obtain ⟨x, hx, hrx, hframe⟩ := hr.insertAfter (hi ▸ hnone i) (h.free a hnone)
      rw [← hi] at hframe
      refine ⟨s.set i x, by rw [State.step, hx, Option.map_some], ?_⟩
      rw [Op.apply, hi, after_append_cons hbl]
      exact h.insert hnone hrx (fun c ↦ by rw [hi]; simp; tauto) hframe
  | remove i a =>
    by_cases ha : a ∈ L i
    · obtain ⟨l, r, hi, hal⟩ := List.eq_append_cons_of_mem ha
      have hdrop := h.drop hi
      refine ⟨_, rfl, ?_⟩
      rw [Op.apply, hi, List.erase_append_right _ hal, List.erase_cons_head]
      exact hdrop
    · have hnone (k : ι) : a ∉ L k := fun hk ↦ ha (hop k hk ▸ hk)
      refine ⟨_, rfl, ?_⟩
      rw [Op.apply, List.erase_of_not_mem ha, update_eq_self, State.set,
        (h.rep i).remove_of_not_mem ha (h.free a hnone), update_eq_self]
      exact h
  | extend i j => exact ⟨_, rfl, h.extend hop⟩

def LegalRun (ops : List (Op ι α)) : Prop :=
  ∀ past op, past ++ [op] <+: ops → op.Legal (specify (fun _ ↦ []) past)

theorem specify_concat (L : ι → List α) (ops : List (Op ι α)) (op : Op ι α) :
    specify L (ops ++ [op]) = op.apply (specify L ops) := by
  rw [specify, List.foldl_concat, specify]

theorem run_refines {ops : List (Op ι α)} (hlegal : LegalRun ops) :
    ∃ s, Run.run State.step State.empty ops = some s ∧
      Family s.links s.ends (specify (fun _ ↦ []) ops) := by
  refine Run.exists_run
    (I := fun past (s : State ι α) ↦ Family s.links s.ends (specify (fun _ ↦ []) past)) ?_ ?_
  · intro past op s hprefix _ hs
    rw [specify_concat]
    exact step_refines hs (hlegal past op hprefix)
  · exact ⟨fun _ ↦ rep_nil _, fun _ _ _ _ hmem ↦ absurd hmem List.not_mem_nil, fun _ _ ↦ rfl⟩

/-- In every run the links and the ends describe the sequences, forwards and backwards. What is in no
list is linked to nothing, and no operation changes the order of other elements. -/
theorem listOfListHead_refines {ops : List (Op ι α)} (hlegal : LegalRun ops) :
    ∃ s, Run.run State.step State.empty ops = some s ∧
      (∀ i, s.Reads i (specify (fun _ ↦ []) ops i)) ∧
      (∀ a, (∀ i, a ∉ specify (fun _ ↦ []) ops i) → s.links a = {}) ∧
      ∀ past op, past ++ [op] <+: ops → ∀ k x y, op.operand ≠ some x → op.operand ≠ some y →
        [x, y].Sublist (specify (fun _ ↦ []) past k) →
        ∃ k', [x, y].Sublist (specify (fun _ ↦ []) (past ++ [op]) k') := by
  obtain ⟨s, hs, hfam⟩ := run_refines hlegal
  refine ⟨s, hs, fun i ↦ reads_of_rep (hfam.rep i), hfam.free, ?_⟩
  intro past op hprefix k x y hx hy hxy
  rw [specify_concat]
  exact (hlegal past op hprefix).order hx hy hxy

theorem legalRun_nil : LegalRun ([] : List (Op ι α)) := by
  intro past op hprefix
  simp at hprefix

theorem legalRun_concat {ops : List (Op ι α)} {op : Op ι α} (h : LegalRun ops)
    (hop : op.Legal (specify (fun _ ↦ []) ops)) : LegalRun (ops ++ [op]) := by
  intro past op' hprefix
  obtain heq | hprefix := List.prefix_concat_iff.mp hprefix
  · obtain ⟨rfl, hlast⟩ := List.append_inj' heq rfl
    rwa [List.singleton_inj.mp hlast]
  · exact h past op' hprefix

theorem listOfListHead_refines_extend :
    ∃ s, Run.run State.step State.empty
        [.append false 1, .prepend true 2, .insertBefore true (some 2) 3, .extend false true,
          .remove false 3] = some s ∧
      s.Reads false [1, 2] ∧ s.links 3 = {} := by
  have happend : LegalRun [.append false 1] :=
    legalRun_concat legalRun_nil fun k ↦ List.not_mem_nil
  have hprepend : LegalRun ([.append false 1] ++ [.prepend true 2]) :=
    legalRun_concat happend fun k ↦ by cases k <;> decide
  have hinsert : LegalRun ([.append false 1, .prepend true 2] ++ [.insertBefore true (some 2) 3]) :=
    legalRun_concat hprepend ⟨fun k ↦ by cases k <;> decide, List.mem_singleton_self 2⟩
  have hextend : LegalRun ([.append false 1, .prepend true 2, .insertBefore true (some 2) 3] ++
      [.extend false true]) :=
    legalRun_concat hinsert Bool.false_ne_true
  have hremove : LegalRun ([.append false 1, .prepend true 2, .insertBefore true (some 2) 3,
      .extend false true] ++ [.remove false 3]) :=
    legalRun_concat hextend fun k ↦ by cases k <;> decide
  obtain ⟨s, hs, hreads, hfree, -⟩ := listOfListHead_refines hremove
  exact ⟨s, hs, hreads false, hfree 3 (by decide)⟩

end Granary.Base.ListOfListHead
