import Mathlib.Data.List.TakeWhile
import Granary.Assemble.BuildFragmentList

namespace Granary.Assemble.BuildFragmentList

open Function Granary.Base.Iterate
open Granary.Code (FragmentId FragmentKind CodeCacheKind Slot)

section After

variable {l c : List InstrId} {i j : InstrId}

theorem after_eq {xs ys : List InstrId} (hi : i ∉ xs) : after (xs ++ i :: ys) i = ys := by
  unfold after
  induction xs with
  | nil => simp
  | cons x xs ih =>
    have hx : x ≠ i := fun h ↦ hi (h ▸ List.mem_cons_self)
    rw [List.cons_append, List.dropWhile_cons_of_pos (by simpa using hx)]
    exact ih fun h ↦ hi (List.mem_cons_of_mem x h)

theorem dropWhile_eq {xs ys : List InstrId} (hi : i ∉ xs) :
    (xs ++ i :: ys).dropWhile (· ≠ i) = i :: ys := by
  induction xs with
  | nil => simp
  | cons x xs ih =>
    have hx : x ≠ i := fun h ↦ hi (h ▸ List.mem_cons_self)
    rw [List.cons_append, List.dropWhile_cons_of_pos (by simpa using hx)]
    exact ih fun h ↦ hi (List.mem_cons_of_mem x h)

theorem after_of_sublist (h : l.Sublist c) (hc : c.Nodup) (hi : i ∈ l) :
    ∃ xs ys l₁ l₂, c = xs ++ i :: ys ∧ l = l₁ ++ i :: l₂ ∧ l₁.Sublist xs ∧ l₂.Sublist ys ∧
      after c i = ys ∧ after l i = l₂ := by
  obtain ⟨xs, ys, rfl⟩ := List.append_of_mem (h.subset hi)
  obtain ⟨-, hys, hdisj⟩ := List.nodup_append.mp hc
  obtain ⟨hiy, -⟩ := List.nodup_cons.mp hys
  have hix : i ∉ xs := fun hx ↦ hdisj i hx i List.mem_cons_self rfl
  obtain ⟨l₁, l₂, rfl, h₁, h₂⟩ := List.sublist_append_iff.mp h
  have hi₁ : i ∉ l₁ := fun hx ↦ hix (h₁.subset hx)
  have hi₂ : i ∈ l₂ := (List.mem_append.mp hi).resolve_left hi₁
  rcases List.sublist_cons_iff.mp h₂ with h₂ | ⟨l₃, rfl, h₃⟩
  · exact absurd (h₂.subset hi₂) hiy
  · exact ⟨xs, ys, l₁, l₃, rfl, rfl, h₁, h₃, after_eq hix, after_eq hi₁⟩

theorem mem_after_of_sublist (h : l.Sublist c) (hc : c.Nodup) (hi : i ∈ l) (hj : j ∈ after c i)
    (hjl : j ∈ l) : j ∈ after l i := by
  obtain ⟨xs, ys, l₁, l₂, rfl, rfl, h₁, -, hafter, hafter'⟩ := after_of_sublist h hc hi
  rw [hafter] at hj
  rw [hafter']
  obtain ⟨-, hys, hdisj⟩ := List.nodup_append.mp hc
  rcases List.mem_append.mp hjl with hjl | hjl
  · exact absurd rfl (hdisj j (h₁.subset hjl) j (List.mem_cons_of_mem i hj))
  · refine (List.mem_cons.mp hjl).resolve_left ?_
    rintro rfl
    exact (List.nodup_cons.mp hys).1 hj

theorem head_after_of_sublist (h : l.Sublist c) (hc : c.Nodup) (hi : i ∈ l)
    (hj : ∀ j, (after c i).head? = some j → j ∈ l) :
    (after l i).head? = (after c i).head? := by
  have hmem {j : InstrId} (hj' : (after c i).head? = some j) : j ∈ after l i :=
    mem_after_of_sublist h hc hi (List.mem_of_mem_head? hj') (hj j hj')
  obtain ⟨xs, ys, l₁, l₂, rfl, rfl, -, h₂, hafter, hafter'⟩ := after_of_sublist h hc hi
  rw [hafter, hafter'] at hmem
  rw [hafter, hafter']
  cases ys with
  | nil => rw [List.sublist_nil.mp h₂]
  | cons j ys =>
    have hys := (List.nodup_cons.mp (List.nodup_append.mp hc).2.1).2
    rcases List.sublist_cons_iff.mp h₂ with h₂ | ⟨l₃, rfl, -⟩
    · exact absurd (h₂.subset (hmem rfl)) (List.nodup_cons.mp hys).1
    · rfl

theorem idxOf_of_head_after (hl : l.Nodup) (h : (after l i).head? = some j) :
    i ∈ l ∧ l.idxOf j = l.idxOf i + 1 := by
  have hi : i ∈ l := by
    by_contra hi
    have hnil : l.dropWhile (· ≠ i) = [] := by
      rw [List.dropWhile_eq_nil_iff]
      exact fun x hx ↦ decide_eq_true fun he ↦ hi (he ▸ hx)
    rw [after, hnil] at h
    exact absurd h (by simp)
  obtain ⟨xs, ys, rfl⟩ := List.append_of_mem hi
  have hdisj := (List.nodup_append.mp hl).2.2
  have hix : i ∉ xs := fun hx ↦ hdisj i hx i List.mem_cons_self rfl
  rw [after_eq hix] at h
  cases ys with
  | nil => exact absurd h (by simp)
  | cons k ys =>
    obtain rfl : k = j := by simpa using h
    have hkx : k ∉ xs := fun hx ↦
      hdisj k hx k (List.mem_cons_of_mem i List.mem_cons_self) rfl
    have hki : i ≠ k := by
      have hnd := (List.nodup_append.mp hl).2.1
      exact fun he ↦ (List.nodup_cons.mp hnd).1 (he ▸ List.mem_cons_self)
    refine ⟨hi, ?_⟩
    rw [List.idxOf_append_of_notMem hix, List.idxOf_append_of_notMem hkx, List.idxOf_cons_self,
      List.idxOf_cons_ne _ hki, List.idxOf_cons_self]

theorem head_after_of_suffix (hl : l.Nodup) (h : i :: c <:+ l) : (after l i).head? = c.head? := by
  obtain ⟨xs, rfl⟩ := h
  have hix : i ∉ xs := fun hx ↦
    (List.nodup_append.mp hl).2.2 i hx i List.mem_cons_self rfl
  rw [after_eq hix]

end After

namespace Trace

variable (tr : Trace)

def next (i : InstrId) : Option InstrId := (after (tr.code (tr.owner i)) i).head?

def HasFragment (t : BlockId) : Prop :=
  t ∈ tr.blocks ∧ match tr.block t with
    | .decoded .. | .direct _ | .cached _ => True
    | .native hasStartPC => hasStartPC = true
    | .indirect _ | .ret _ => False

/-- What the decoder and the instrumentation promise of a trace: every instruction is in
one place, branches go to labels that count them, and direct control-flow instructions go
to blocks of the trace. -/
structure WellFormed : Prop where
  blocks : tr.blocks.Nodup
  listed : ∀ b, tr.code b ≠ [] → b ∈ tr.blocks
  nodup : ∀ b, (tr.code b).Nodup
  owner : ∀ b, ∀ i ∈ tr.code b, tr.owner i = b
  target : ∀ b, ∀ i ∈ tr.code b, ∀ k info l, tr.instr i = .branch k info l →
    tr.instr l = .label ∧ l ∈ tr.code (tr.owner l) ∧ tr.data l ≠ 0
  direct : ∀ b, ∀ i ∈ tr.code b, ∀ k ind t, tr.instr i = .cfi k ind t →
    k = .conditionalJump ∨ ((k = .jump ∨ k = .functionCall) ∧ ind = false) → tr.HasFragment t
  exceptional : ∀ b, ∀ i ∈ tr.code b, ∀ info t, tr.instr i = .exceptional info t →
    tr.HasFragment t

variable {tr}

theorem WellFormed.next_mem (ht : tr.WellFormed) {i j : InstrId} (h : tr.next i = some j) :
    j ∈ tr.code (tr.owner j) ∧ tr.owner j = tr.owner i := by
  have hmem : j ∈ tr.code (tr.owner i) := by
    have hj : j ∈ after (tr.code (tr.owner i)) i := List.mem_of_mem_head? h
    exact (List.dropWhile_sublist _).subset (List.mem_of_mem_tail hj)
  have howner := ht.owner _ j hmem
  rw [howner]
  exact ⟨hmem, rfl⟩

theorem WellFormed.next_inj (ht : tr.WellFormed) {i j k : InstrId} (hi : tr.next i = some k)
    (hj : tr.next j = some k) : i = j := by
  have hoi := (ht.next_mem hi).2
  have hoj := (ht.next_mem hj).2
  unfold next at hi hj
  rw [← hoi] at hi
  rw [← hoj] at hj
  obtain ⟨hmi, hki⟩ := idxOf_of_head_after (ht.nodup _) hi
  obtain ⟨hmj, hkj⟩ := idxOf_of_head_after (ht.nodup _) hj
  exact (List.idxOf_inj hmi).mp (by omega)

end Trace

/-- The part of the builder that decides where it goes next. -/
structure Core where
  lists : BlockId → List InstrId
  data : InstrId → ℕ
  labelled : InstrId → Prop
  starts : List InstrId

def Builder.core (b : Builder) : Core where
  lists := b.lists
  data := b.data
  labelled l := b.labelFragment l ≠ none
  starts := b.work.filterMap (·.2)

namespace Core

def erase (c : Core) (tr : Trace) (i : InstrId) : Core :=
  { c with lists := update c.lists (tr.owner i) ((c.lists (tr.owner i)).erase i) }

def push (c : Core) (i : Option InstrId) : Core := { c with starts := i.toList ++ c.starts }

def label (c : Core) (l : InstrId) : Core :=
  { c with labelled := fun l' ↦ l' = l ∨ c.labelled l' }

def bump (c : Core) (l : InstrId) : Core := { c with data := update c.data l (c.data l + 1) }

end Core

/-- The instruction after which the builder has gone on, where `P` are the instructions
that it has come to. -/
def Passed (tr : Trace) (c : Core) (P : Set InstrId) (i : InstrId) : Prop :=
  if tr.instr i = .label then c.labelled i ∨ i ∈ P ∧ c.data i = 0 else i ∈ P

/-- The builder comes to every instruction at most once. It has come to those of `P`, is
about to come to that of `cur`, and will come to those that work starts with. -/
structure Linear (tr : Trace) (c : Core) (P : Set InstrId) (cur : List InstrId) : Prop where
  sub : ∀ b, (c.lists b).Sublist (tr.code b)
  moved : ∀ i ∈ tr.code (tr.owner i), i ∉ c.lists (tr.owner i) → i ∈ P
  nodup : (cur ++ c.starts).Nodup
  disjoint : ∀ i ∈ cur ++ c.starts, i ∉ P
  mem : ∀ i ∈ cur ++ c.starts, i ∈ tr.code (tr.owner i)
  passed : ∀ i j, tr.next i = some j → j ∈ P ∨ j ∈ cur ++ c.starts → Passed tr c P i
  labelled : ∀ l, c.labelled l → c.data l ≠ 0 ∧ tr.instr l = .label ∧ l ∈ tr.code (tr.owner l)
  data : ∀ l, tr.data l ≠ 0 → c.data l ≠ 0
  labels : ∀ l ∈ tr.code (tr.owner l), tr.instr l = .label → l ∈ c.lists (tr.owner l)

namespace Linear

variable {tr : Trace} {c : Core} {P : Set InstrId} {cur : List InstrId} {i l : InstrId}

theorem passed_mono {Q : Set InstrId} (h : P ⊆ Q) (hi : Passed tr c P i) : Passed tr c Q i := by
  unfold Passed at hi ⊢
  split_ifs at hi ⊢
  · exact hi.imp_right fun hp ↦ ⟨h hp.1, hp.2⟩
  · exact h hi

theorem stop (h : Linear tr c P (i :: cur)) : Linear tr c (insert i P) cur where
  sub := h.sub
  moved j hj hl := Set.mem_insert_of_mem i (h.moved j hj hl)
  nodup := (List.nodup_cons.mp h.nodup).2
  disjoint j hj hP := by
    rcases hP with rfl | hP
    · exact (List.nodup_cons.mp h.nodup).1 hj
    · exact h.disjoint j (List.mem_cons_of_mem i hj) hP
  mem j hj := h.mem j (List.mem_cons_of_mem i hj)
  passed j k hjk hk := by
    refine passed_mono (Set.subset_insert i P) (h.passed j k hjk ?_)
    rcases hk with (rfl | hk) | hk
    · exact .inr List.mem_cons_self
    · exact .inl hk
    · exact .inr (List.mem_cons_of_mem i hk)
  labelled := h.labelled
  data := h.data
  labels := h.labels

theorem next_new (h : Linear tr c P cur) (hi : ¬ Passed tr c P i) {j : InstrId}
    (hj : tr.next i = some j) : j ∉ P ∧ j ∉ cur ++ c.starts :=
  ⟨fun hP ↦ hi (h.passed i j hj (.inl hP)), fun hm ↦ hi (h.passed i j hj (.inr hm))⟩

theorem next_eq (h : Linear tr c P cur) (ht : tr.WellFormed) (hi : ¬ Passed tr c P i)
    (hmem : i ∈ c.lists (tr.owner i)) : (after (c.lists (tr.owner i)) i).head? = tr.next i := by
  refine head_after_of_sublist (h.sub _) (ht.nodup _) hmem fun j hj ↦ ?_
  obtain ⟨hcode, howner⟩ := ht.next_mem hj
  by_contra hl
  rw [← howner] at hl
  exact (h.next_new hi hj).1 (h.moved j hcode hl)

theorem enter (h : Linear tr c P cur) (ht : tr.WellFormed)
    (hnew : ∀ j, tr.next i = some j → j ∉ P ∧ j ∉ cur ++ c.starts) (hi : Passed tr c P i) :
    Linear tr c P ((tr.next i).toList ++ cur) := by
  cases hn : tr.next i with
  | none => exact h
  | some j =>
    obtain ⟨hjP, hjc⟩ := hnew j hn
    refine ⟨h.sub, h.moved, List.nodup_cons.mpr ⟨hjc, h.nodup⟩, ?_, ?_, ?_, h.labelled, h.data,
      h.labels⟩
    · intro k hk
      rcases List.mem_cons.mp hk with rfl | hk
      · exact hjP
      · exact h.disjoint k hk
    · intro k hk
      rcases List.mem_cons.mp hk with rfl | hk
      · exact (ht.next_mem hn).1
      · exact h.mem k hk
    · intro k m hkm hm
      by_cases hmj : m = j
      · subst hmj
        rw [ht.next_inj hkm hn]
        exact hi
      · refine h.passed k m hkm (hm.imp_right fun hm ↦ ?_)
        exact (List.mem_cons.mp hm).resolve_left hmj

theorem not_passed (h : Linear tr c P (i :: cur)) (hi : tr.instr i ≠ .label ∨ c.data i = 0) :
    ¬ Passed tr c P i := by
  have hP : i ∉ P := h.disjoint i List.mem_cons_self
  unfold Passed
  split_ifs with hl
  · rintro (hlab | hpass)
    · exact (h.labelled i hlab).1 (hi.resolve_left fun hne ↦ hne hl)
    · exact hP hpass.1
  · exact hP

theorem advance (h : Linear tr c P (i :: cur)) (ht : tr.WellFormed)
    (hi : tr.instr i ≠ .label ∨ c.data i = 0) :
    Linear tr c (insert i P) ((tr.next i).toList ++ cur) := by
  refine h.stop.enter ht (fun j hj ↦ ?_) ?_
  · obtain ⟨hP, hc⟩ := h.next_new (h.not_passed hi) hj
    have hji : j ≠ i := fun he ↦ hc (he ▸ List.mem_cons_self)
    exact ⟨fun hmem ↦ hP (hmem.resolve_left hji), fun hmem ↦ hc (List.mem_cons_of_mem i hmem)⟩
  · unfold Passed
    split_ifs with hl
    · exact .inr ⟨Set.mem_insert i P, hi.resolve_left fun hne ↦ hne hl⟩
    · exact Set.mem_insert i P

theorem not_passed_label (hl : tr.instr l = .label) (hd : c.data l ≠ 0) (hn : ¬ c.labelled l) :
    ¬ Passed tr c P l := by
  unfold Passed
  rw [if_pos hl]
  rintro (hlab | hpass)
  · exact hn hlab
  · exact hd hpass.2

theorem label (h : Linear tr c P cur) (ht : tr.WellFormed) (hl : tr.instr l = .label)
    (hmem : l ∈ tr.code (tr.owner l)) (hd : c.data l ≠ 0) (hn : ¬ c.labelled l) :
    Linear tr (c.label l) P ((tr.next l).toList ++ cur) := by
  have hmono (i : InstrId) (hi : Passed tr c P i) : Passed tr (c.label l) P i := by
    unfold Passed at hi ⊢
    split_ifs at hi ⊢
    · exact hi.imp_left .inr
    · exact hi
  have hnot : ¬ Passed tr c P l := not_passed_label hl hd hn
  have h' : Linear tr (c.label l) P cur := by
    refine ⟨h.sub, h.moved, h.nodup, h.disjoint, h.mem,
      fun i j hij hj ↦ hmono i (h.passed i j hij hj), fun l' hl' ↦ ?_, h.data, h.labels⟩
    rcases hl' with rfl | hl'
    · exact ⟨hd, hl, hmem⟩
    · exact h.labelled l' hl'
  refine h'.enter ht (fun j hj ↦ h.next_new hnot hj) ?_
  unfold Passed
  rw [if_pos hl]
  exact .inl (.inl rfl)

theorem perm (h : Linear tr c P cur) (cur' starts : List InstrId)
    (hp : (cur' ++ starts).Perm (cur ++ c.starts)) :
    Linear tr { c with starts := starts } P cur' where
  sub := h.sub
  moved := h.moved
  nodup := hp.nodup_iff.mpr h.nodup
  disjoint i hi := h.disjoint i (hp.mem_iff.mp hi)
  mem i hi := h.mem i (hp.mem_iff.mp hi)
  passed i j hij hj := h.passed i j hij (hj.imp_right hp.mem_iff.mp)
  labelled := h.labelled
  data := h.data
  labels := h.labels

theorem push {o : Option InstrId} (h : Linear tr c P (o.toList ++ cur)) :
    Linear tr (c.push o) P cur := by
  refine h.perm _ _ ?_
  rw [← List.append_assoc]
  exact List.Perm.append_right _ List.perm_append_comm

theorem bump (h : Linear tr c P cur) (hl : l ∉ P) : Linear tr (c.bump l) P cur := by
  have hdata (l' : InstrId) (hd : c.data l' ≠ 0) : (c.bump l).data l' ≠ 0 := by
    simp only [Core.bump, update_apply]
    split_ifs with he
    · exact Nat.succ_ne_zero _
    · exact hd
  refine ⟨h.sub, h.moved, h.nodup, h.disjoint, h.mem, fun i j hij hj ↦ ?_, fun l' hl' ↦ ?_,
    fun l' hl' ↦ hdata l' (h.data l' hl'), h.labels⟩
  · have hp := h.passed i j hij hj
    unfold Passed at hp ⊢
    split_ifs at hp ⊢ with hlab
    · refine hp.imp_right fun hp ↦ ⟨hp.1, ?_⟩
      have hne : i ≠ l := fun he ↦ hl (he ▸ hp.1)
      simpa [Core.bump, hne] using hp.2
    · exact hp
  · obtain ⟨hd, hrest⟩ := h.labelled l' hl'
    exact ⟨hdata l' hd, hrest⟩

theorem erase (h : Linear tr c P cur) (hi : i ∈ P) (hl : tr.instr i ≠ .label) :
    Linear tr (c.erase tr i) P cur where
  sub b := by
    simp only [Core.erase, update_apply]
    split_ifs with hb
    · rw [hb]
      exact List.erase_sublist.trans (h.sub _)
    · exact h.sub b
  moved j hj hnot := by
    by_cases hji : j = i
    · rw [hji]
      exact hi
    · refine h.moved j hj fun hmem ↦ hnot ?_
      simp only [Core.erase, update_apply]
      split_ifs with hb
      · rw [← hb]
        exact (List.mem_erase_of_ne hji).mpr hmem
      · exact hmem
  nodup := h.nodup
  disjoint := h.disjoint
  mem := h.mem
  passed := h.passed
  labelled := h.labelled
  data := h.data
  labels j hj hlab := by
    have hji : j ≠ i := fun he ↦ hl (he ▸ hlab)
    simp only [Core.erase, update_apply]
    split_ifs with hb
    · rw [← hb]
      exact (List.mem_erase_of_ne hji).mpr (h.labels j hj hlab)
    · exact h.labels j hj hlab

theorem next_label (h : Linear tr c P cur) (ht : tr.WellFormed) (hl : tr.instr l = .label)
    (hmem : l ∈ tr.code (tr.owner l)) (hd : c.data l ≠ 0) (hn : ¬ c.labelled l) :
    (after (c.lists (tr.owner l)) l).head? = tr.next l :=
  h.next_eq ht (not_passed_label hl hd hn) (h.labels l hmem hl)

end Linear

section Core

variable {tr : Trace} {b : Builder}

@[simp] theorem core_modify (f : FragmentId) (g : Fragment → Fragment) :
    (b.modify f g).core = b.core := rfl

@[simp] theorem core_alloc (x : Fragment) : (b.alloc x).core = b.core := rfl

@[simp] theorem core_setSuccessor (f : FragmentId) (sel : Slot) (s : FragmentId) :
    (b.setSuccessor f sel s).core = b.core := rfl

@[simp] theorem core_insertAfter (f g : FragmentId) : (b.insertAfter f g).core = b.core := rfl

@[simp] theorem core_append (f : FragmentId) : (b.append f).core = b.core := rfl

@[simp] theorem core_union (f g : FragmentId) : (b.union f g).core = b.core := rfl

@[simp] theorem core_moveInstr (f : FragmentId) (i : InstrId) :
    (moveInstr tr b f i).core = b.core.erase tr i := rfl

theorem core_push (f : FragmentId) (i : Option InstrId) : (b.push f i).core = b.core.push i := by
  cases i <;> rfl

@[simp] theorem core_addBlockTail_none (pred : FragmentId) (first : Option InstrId) (sel : Slot) :
    (addBlockTailToWorkList b pred none first sel).core = b.core.push first := by
  cases first <;> rfl

theorem core_label (f : FragmentId) (l : InstrId) :
    ({ b with labelFragment := update b.labelFragment l (some f) } : Builder).core =
      b.core.label l := by
  unfold Builder.core Core.label
  simp only [Core.mk.injEq, true_and, and_true]
  funext l'
  by_cases hl : l' = l
  · simp [hl]
  · simp [hl]

theorem core_addBlockTail_some {pred : FragmentId} {l : InstrId} {first : Option InstrId}
    {sel : Slot} : (addBlockTailToWorkList b pred (some l) first sel).core =
      match b.labelFragment l with
      | some _ => b.core
      | none => (b.core.label l).push first := by
  unfold addBlockTailToWorkList
  simp only [Option.bind_some]
  cases b.labelFragment l with
  | some f => rfl
  | none =>
    simp only [core_setSuccessor]
    rw [core_label, core_insertAfter, core_push, core_alloc]
    rfl

@[simp] theorem core_createContextCallFragment (pred : FragmentId) :
    (createContextCallFragment b pred).2.core = b.core := by
  simp only [createContextCallFragment, core_insertAfter, core_setSuccessor, core_alloc]

@[simp] theorem core_archProcessExceptionalCFI (f : FragmentId) (i : InstrId) (t : BlockId) :
    (archProcessExceptionalCFI b f i t).core = b.core := by
  simp only [archProcessExceptionalCFI, core_insertAfter, core_setSuccessor, core_union,
    core_alloc, core_modify]

@[simp] theorem core_addIndirectEdge (f : FragmentId) (i : InstrId) (t : BlockId) :
    (addIndirectEdge tr b f i t).2.core = b.core := by
  simp only [addIndirectEdge, generateIndirectEdgeCode, core_union, core_append, core_alloc]

@[simp] theorem core_processJump (f : FragmentId) (i : InstrId) (ind : Bool) (t : BlockId) :
    (processJump tr b f i ind t).core = b.core := by
  unfold processJump
  cases ind with
  | true => simp only [if_true, core_setSuccessor, core_addIndirectEdge]
  | false => simp only [Bool.false_eq_true, if_false, core_modify]

@[simp] theorem core_makeCFIFrag (f : FragmentId) (i : InstrId) (call : Bool) :
    (makeCFIFrag tr b f i call).2.core = b.core.erase tr i := by
  simp only [makeCFIFrag, core_moveInstr, core_insertAfter, core_setSuccessor, core_modify,
    core_alloc]

end Core

/-- From an instruction the builder goes on to the next one, or leaves the rest to the
work list. -/
def Walks (tr : Trace) (c : Core) (P : Set InstrId) (i : InstrId) (go : Bool) : Prop :=
  Linear tr c P (if go then (tr.next i).toList else [])

/-- An instruction that does not fit into a fragment is left to the next one. -/
def Leaves (tr : Trace) (b : Builder) (frag : FragmentId) (i : InstrId) : Prop :=
  ∃ info, tr.instr i = .native info ∧ (b.heap frag).splits info = true

def visited (tr : Trace) (b : Builder) (frag : FragmentId) (i : InstrId) (P : Set InstrId) :
    Set InstrId :=
  {j | j ∈ P ∨ j = i ∧ ¬ Leaves tr b frag i}

section Walks

variable {tr : Trace} {b : Builder} {c : Core} {P : Set InstrId} {i l : InstrId}
  {frag : FragmentId} {nextI : Option InstrId}

theorem visited_of_leaves (h : Leaves tr b frag i) : visited tr b frag i P = P :=
  Set.ext fun _ ↦ ⟨fun hj ↦ hj.resolve_right fun hi ↦ hi.2 h, .inl⟩

theorem visited_of_not_leaves (h : ¬ Leaves tr b frag i) : visited tr b frag i P = insert i P :=
  Set.ext fun _ ↦ ⟨fun hj ↦ hj.symm.imp_left And.left, fun hj ↦ hj.symm.imp_right fun hi ↦ ⟨hi, h⟩⟩

theorem visited_of_ne (h : ∀ info, tr.instr i ≠ .native info) :
    visited tr b frag i P = insert i P :=
  visited_of_not_leaves fun ⟨info, hi, _⟩ ↦ h info hi

theorem Linear.tail (h : Linear tr c P [i]) (ht : tr.WellFormed)
    (hi : tr.instr i ≠ .label ∨ c.data i = 0) :
    Linear tr (c.push (tr.next i)) (insert i P) [] := by
  refine Linear.push ?_
  exact h.advance ht hi

variable (frag) in
theorem linear_addBlockTail {cur : List InstrId} (h : Linear tr b.core P cur) (ht : tr.WellFormed)
    (hl : tr.instr l = .label) (hmem : l ∈ tr.code (tr.owner l)) (hd : b.data l ≠ 0)
    (hfirst : b.labelFragment l = none → nextI = tr.next l) (sel : Slot) :
    Linear tr (addBlockTailToWorkList b frag (some l) nextI sel).core P cur := by
  rw [core_addBlockTail_some]
  cases hlab : b.labelFragment l with
  | some f => exact h
  | none =>
    rw [hfirst hlab]
    refine Linear.push ?_
    exact h.label ht hl hmem hd fun hn ↦ hn hlab

theorem walks_label (h : Linear tr b.core P [i]) (ht : tr.WellFormed) (hi : tr.instr i = .label)
    (hn : ¬ Passed tr b.core P i → nextI = tr.next i) :
    Walks tr (processLabel b frag i nextI).1.core (insert i P) i
      (processLabel b frag i nextI).2 := by
  unfold processLabel
  split_ifs with hd
  · have hgo : Linear tr b.core (insert i P) (tr.next i).toList := by
      simpa using h.advance ht (.inr hd)
    exact hgo
  · have hmem := h.mem i List.mem_cons_self
    have h' : Linear tr (b.modify frag Fragment.endAtLabel).core (insert i P) [] := h.stop
    refine linear_addBlockTail frag h' ht hi hmem hd (fun hlab ↦ hn ?_) .fallThrough
    exact Linear.not_passed_label hi hd fun hl ↦ hl hlab

theorem walks_annotation {a : Annotation} (h : Linear tr b.core P [i]) (ht : tr.WellFormed)
    (hi : tr.instr i = Instruction.annotation a) (hn : nextI = tr.next i) :
    Walks tr ( processAnnotation tr b frag i a nextI).1.core (insert i P) i
      ( processAnnotation tr b frag i a nextI).2 := by
  have hlab : tr.instr i ≠ .label ∨ b.core.data i = 0 := .inl (by simp [hi])
  have hgo : Linear tr b.core (insert i P) (tr.next i).toList := by
    simpa using h.advance ht hlab
  have hmove : Linear tr (b.core.erase tr i) (insert i P) (tr.next i).toList :=
    hgo.erase (Set.mem_insert i P) (by simp [hi])
  subst hn
  unfold Walks
  cases a with
  | endBlock => exact h.stop
  | codeCacheKind k => exact hgo
  | invalidStack => exact hgo
  | updateAddressWhenEncoded => exact hmove
  | interruptDeliveryStateChange =>
    simp only [ processAnnotation, core_addBlockTail_none, core_modify]
    exact h.tail ht hlab
  | contextFunctionCall =>
    simp only [ processAnnotation, core_addBlockTail_none, core_createContextCallFragment]
    exact h.tail ht hlab
  | inlineFunctionCall => exact hgo
  | condLeaveNativeStack => exact hmove
  | condEnterNativeStack => exact hmove
  | other => exact hgo

theorem walks_native {info : NativeInfo} (h : Linear tr b.core P [i]) (ht : tr.WellFormed)
    (hi : tr.instr i = .native info) :
    Walks tr (processNativeInstr tr b frag i info).1.core (visited tr b frag i P) i
      (processNativeInstr tr b frag i info).2 := by
  have hlab : tr.instr i ≠ .label := by simp [hi]
  unfold processNativeInstr
  split_ifs with hsplit
  · rw [visited_of_leaves ⟨info, hi, hsplit⟩]
    exact Linear.push (o := some i) h
  · have hleaves : ¬ Leaves tr b frag i := by
      rintro ⟨info', hi', hsplit'⟩
      obtain rfl := Instruction.native.inj (hi.symm.trans hi')
      exact hsplit hsplit'
    rw [visited_of_not_leaves hleaves]
    have hgo : Linear tr b.core (insert i P) (tr.next i).toList := by
      simpa using h.advance ht (.inl hlab)
    exact hgo.erase (Set.mem_insert i P) hlab

theorem linear_processTwoWayCFITail (h : Linear tr c P [i]) (ht : tr.WellFormed)
    (hi : tr.instr i ≠ .label) (hb : b.core = c.erase tr i) (hn : nextI = tr.next i) :
    Linear tr (processTwoWayCFITail tr b frag nextI).core (insert i P) [] := by
  subst hn
  unfold processTwoWayCFITail
  split
  · rw [core_processJump, hb]
    exact h.stop.erase (Set.mem_insert i P) hi
  · rw [core_addBlockTail_none, hb]
    exact (h.tail ht (.inl hi)).erase (Set.mem_insert i P) hi

theorem linear_processCFI {kind : CFIKind} {ind : Bool} {t : BlockId}
    (h : Linear tr b.core P [i]) (ht : tr.WellFormed) (hi : tr.instr i ≠ .label)
    (hn : nextI = tr.next i) :
    Linear tr (processCFI tr b frag i kind ind t nextI).core (insert i P) [] := by
  have hret : Linear tr (b.core.erase tr i) (insert i P) [] :=
    h.stop.erase (Set.mem_insert i P) hi
  cases kind with
  | jump =>
    simp only [processCFI, core_processJump]
    exact h.stop
  | functionCall =>
    simp only [processCFI]
    refine linear_processTwoWayCFITail h ht hi ?_ hn
    cases ind with
    | true => simp only [if_true, core_modify, core_addIndirectEdge, core_union, core_makeCFIFrag]
    | false => simp only [Bool.false_eq_true, if_false, core_modify, core_makeCFIFrag]
  | conditionalJump =>
    simp only [processCFI]
    refine linear_processTwoWayCFITail h ht hi ?_ hn
    simp only [core_modify, core_makeCFIFrag]
  | systemCall =>
    simp only [processCFI]
    refine linear_processTwoWayCFITail h ht hi ?_ hn
    simp only [core_insertAfter, core_setSuccessor, core_moveInstr, core_alloc]
  | interruptCall =>
    simp only [processCFI]
    refine linear_processTwoWayCFITail h ht hi ?_ hn
    simp only [core_insertAfter, core_setSuccessor, core_moveInstr, core_alloc]
  | systemReturn =>
    simpa only [processCFI, core_setSuccessor, core_moveInstr, core_alloc] using hret
  | interruptReturn =>
    simpa only [processCFI, core_setSuccessor, core_moveInstr, core_alloc] using hret
  | functionReturn =>
    simpa only [processCFI, core_setSuccessor, core_moveInstr, core_alloc] using hret

/-- The fragment that an exceptional instruction starts, with the builder. -/
def startExceptional (b : Builder) (frag : FragmentId) : Builder :=
  ((b.alloc { blockMeta := (b.heap frag).blockMeta }).insertAfter frag b.next).setSuccessor frag
    .fallThrough b.next

theorem addExceptionalInstr_eq {info : NativeInfo} (hf : frag < b.next) :
    addExceptionalInstr tr b frag i info =
      if (b.heap frag).splits info then
        (b.next, moveInstr tr ((startExceptional b frag).modify b.next (·.addNative info)) b.next i)
      else (frag, moveInstr tr (b.modify frag (·.addNative info)) frag i) := by
  have hne : b.next ≠ frag := hf.ne'
  unfold addExceptionalInstr processNativeInstr
  cases hs : (b.heap frag).splits info with
  | false => simp only [Bool.false_eq_true, if_false, if_true]
  | true =>
    have hsplit : ((startExceptional b frag).heap b.next).splits info = false := by
      simp [startExceptional, Builder.setSuccessor, Builder.modify, Builder.insertAfter,
        Builder.alloc, hne, Fragment.splits]
    have hpop : ({ addBlockTailToWorkList b frag none (some i) .fallThrough with
        work := b.work } : Builder) = startExceptional b frag := rfl
    have hwork : (addBlockTailToWorkList b frag none (some i) .fallThrough).work =
        (b.next, some i) :: b.work := rfl
    have hheap : (addBlockTailToWorkList b frag none (some i) .fallThrough).heap =
        (startExceptional b frag).heap := rfl
    simp only [if_true, Bool.false_eq_true, if_false, hwork]
    rw [hpop, hheap, hsplit]
    simp only [Bool.false_eq_true, if_false]

theorem core_addExceptionalInstr {info : NativeInfo} (hf : frag < b.next) :
    (addExceptionalInstr tr b frag i info).2.core = b.core.erase tr i := by
  rw [addExceptionalInstr_eq hf]
  split_ifs
  · simp only [core_moveInstr, core_modify, startExceptional, core_setSuccessor, core_insertAfter,
      core_alloc]
  · simp only [core_moveInstr, core_modify]

theorem linear_processExceptionalCFI {info : NativeInfo} {t : BlockId} (hf : frag < b.next)
    (h : Linear tr b.core P [i]) (ht : tr.WellFormed) (hi : tr.instr i ≠ .label)
    (hn : nextI = tr.next i) :
    Linear tr (processExceptionalCFI tr b frag i info t nextI).core (insert i P) [] := by
  simp only [processExceptionalCFI, core_addBlockTail_none, core_archProcessExceptionalCFI,
    core_addExceptionalInstr hf]
  rw [hn]
  exact (h.tail ht (.inl hi)).erase (Set.mem_insert i P) hi

@[simp] theorem core_fragmentWithBranch (isApp : Bool) :
    (fragmentWithBranch b frag isApp).2.core = b.core := by
  unfold fragmentWithBranch
  split_ifs
  · simp only [core_insertAfter, core_setSuccessor, core_alloc]
  · rfl

theorem linear_addFallThrough (h : Linear tr b.core P [i]) (ht : tr.WellFormed)
    (hi : tr.instr i ≠ .label) (hn : nextI = tr.next i) :
    Linear tr (addFallThrough tr b frag nextI).core (insert i P) [] := by
  subst hn
  unfold addFallThrough asLabel
  cases hnext : tr.next i with
  | none =>
    simp only [Option.filter_none, core_addBlockTail_none]
    rw [← hnext]
    exact h.tail ht (.inl hi)
  | some l =>
    by_cases hl : tr.instr l = .label
    · have hfilter : (some l).filter (fun i ↦ tr.instr i == .label) = some l := by simp [hl]
      have hlP : l ∉ P := (h.next_new (h.not_passed (.inl hi)) hnext).1
      have hmem := (ht.next_mem hnext).1
      have hbump : Linear tr
          ({ b with data := update b.data l (b.data l + 1) } : Builder).core P [i] := h.bump hlP
      have hd : update b.data l (b.data l + 1) l ≠ 0 := by simp
      simp only [hfilter]
      refine Linear.stop (linear_addBlockTail frag hbump ht hl hmem hd (fun hlab ↦ ?_) _)
      exact hbump.next_label ht hl hmem hd fun hn ↦ hn hlab
    · have hfilter : (some l).filter (fun i ↦ tr.instr i == .label) = none := by simp [hl]
      simp only [hfilter, core_addBlockTail_none]
      rw [← hnext]
      exact h.tail ht (.inl hi)

theorem linear_processBranch {kind : BranchKind} {info : NativeInfo} (h : Linear tr b.core P [i])
    (ht : tr.WellFormed) (hi : tr.instr i = .branch kind info l) (hn : nextI = tr.next i) :
    Linear tr (processBranch tr b frag i kind info l nextI).core (insert i P) [] := by
  have hlab : tr.instr i ≠ .label := by simp [hi]
  obtain ⟨hl, hmem, hd⟩ := ht.target _ i (h.mem i List.mem_cons_self) _ _ _ hi
  have hd' := h.data l hd
  simp only [processBranch]
  generalize hb : (fragmentWithBranch b frag (info.isApp && (kind == .conditionalJump ||
    info.writesStackPointer))).2.modify _ _ = b'
  have hcore : b'.core = b.core := by
    rw [← hb, core_modify, core_fragmentWithBranch]
  rw [← hcore] at h hd'
  rw [core_moveInstr]
  refine Linear.erase ?_ (Set.mem_insert i P) hlab
  have htarget := linear_addBlockTail (fragmentWithBranch b frag (info.isApp &&
    (kind == .conditionalJump || info.writesStackPointer))).1 h ht hl hmem hd'
    (fun hn ↦ h.next_label ht hl hmem hd' fun hn' ↦ hn' hn) .branch
  split_ifs
  · exact htarget.stop
  · exact linear_addFallThrough htarget ht hlab hn

theorem walks_processInstr (h : Linear tr b.core P [i]) (ht : tr.WellFormed) (hf : frag < b.next)
    (hn : ¬ Passed tr b.core P i → nextI = tr.next i) :
    Walks tr (processInstr tr b frag i nextI).1.core (visited tr b frag i P) i
      (processInstr tr b frag i nextI).2 := by
  have hnext (hi : tr.instr i ≠ .label) : nextI = tr.next i := hn (h.not_passed (.inl hi))
  unfold processInstr
  split
  · rename_i hi
    rw [visited_of_ne (by simp [hi])]
    exact walks_label h ht hi hn
  · rename_i a hi
    rw [visited_of_ne (by simp [hi])]
    exact walks_annotation h ht hi (hnext (by simp [hi]))
  · rename_i kind info target hi
    rw [visited_of_ne (by simp [hi])]
    exact linear_processBranch h ht hi (hnext (by simp [hi]))
  · rename_i info target hi
    rw [visited_of_ne (by simp [hi])]
    exact linear_processExceptionalCFI hf h ht (by simp [hi]) (hnext (by simp [hi]))
  · rename_i kind ind target hi
    rw [visited_of_ne (by simp [hi])]
    exact linear_processCFI h ht (by simp [hi]) (hnext (by simp [hi]))
  · rename_i info hi
    exact walks_native h ht hi

theorem processInstr_go (hgo : (processInstr tr b frag i nextI).2 = true) :
    (tr.instr i ≠ .label ∨ b.data i = 0) ∧ (processInstr tr b frag i nextI).1.next = b.next ∧
      ((processInstr tr b frag i nextI).1.lists = b.lists ∨
        (processInstr tr b frag i nextI).1.lists =
          update b.lists (tr.owner i) ((b.lists (tr.owner i)).erase i)) := by
  unfold processInstr at hgo ⊢
  split at hgo
  · unfold processLabel at hgo ⊢
    split_ifs at hgo ⊢ with hd
    exact ⟨.inr hd, rfl, .inl rfl⟩
  · rename_i a hi
    refine ⟨.inl (by simp [hi]), ?_⟩
    cases a with
    | endBlock => exact absurd hgo (by simp [ processAnnotation])
    | codeCacheKind k => exact ⟨rfl, .inl rfl⟩
    | invalidStack => exact ⟨rfl, .inl rfl⟩
    | updateAddressWhenEncoded => exact ⟨rfl, .inr rfl⟩
    | interruptDeliveryStateChange => exact absurd hgo (by simp [ processAnnotation])
    | contextFunctionCall => exact absurd hgo (by simp [ processAnnotation])
    | inlineFunctionCall => exact ⟨rfl, .inl rfl⟩
    | condLeaveNativeStack => exact ⟨rfl, .inr rfl⟩
    | condEnterNativeStack => exact ⟨rfl, .inr rfl⟩
    | other => exact ⟨rfl, .inl rfl⟩
  · exact absurd hgo Bool.false_ne_true
  · exact absurd hgo Bool.false_ne_true
  · exact absurd hgo Bool.false_ne_true
  · rename_i info hi
    unfold processNativeInstr at hgo ⊢
    split_ifs at hgo ⊢
    exact ⟨.inl (by simp [hi]), rfl, .inr rfl⟩

def Rest (tr : Trace) (b : Builder) (l : List InstrId) : Prop :=
  ∀ i is, l = i :: is → i :: is <:+ b.lists (tr.owner i)

theorem rest_processInstr {is : List InstrId} (ht : tr.WellFormed) (h : Linear tr b.core P [i])
    (hl : Rest tr b (i :: is)) (hgo : (processInstr tr b frag i nextI).2 = true) :
    Rest tr (processInstr tr b frag i nextI).1 is := by
  obtain ⟨xs, hxs⟩ := hl i is rfl
  have hsub : (b.lists (tr.owner i)).Sublist (tr.code (tr.owner i)) := h.sub (tr.owner i)
  have hnodup : (xs ++ i :: is).Nodup := hxs ▸ hsub.nodup (ht.nodup _)
  have hix : i ∉ xs := fun hx ↦ (List.nodup_append.mp hnodup).2.2 i hx i List.mem_cons_self rfl
  intro j js hj
  have hmem : j ∈ b.lists (tr.owner i) := by
    rw [← hxs, hj]
    simp
  have hown : tr.owner j = tr.owner i := ht.owner _ j (hsub.subset hmem)
  rw [hown, ← hj]
  rcases (processInstr_go hgo).2.2 with he | he
  · rw [he, ← hxs]
    exact ⟨xs ++ [i], by simp⟩
  · rw [he, update_self, ← hxs, List.erase_append_right _ hix, List.erase_cons_head]
    exact List.suffix_append xs is

/-- The rule for the loop over the instructions of a fragment: `I` holds before each
instruction, and `J` at the end. -/
theorem processFragment_rule {I : Builder → Set InstrId → Option InstrId → Prop}
    {J : Builder → Set InstrId → Prop} (ht : tr.WellFormed)
    (hstep : ∀ b P i nextI, Linear tr b.core P [i] → frag < b.next →
      i ∈ b.lists (tr.owner i) → (¬ Passed tr b.core P i → nextI = tr.next i) → I b P (some i) →
      if (processInstr tr b frag i nextI).2
      then I (processInstr tr b frag i nextI).1 (visited tr b frag i P) (tr.next i)
      else J (processInstr tr b frag i nextI).1 (visited tr b frag i P))
    (hend : ∀ b P, I b P none → J b P) {l : List InstrId} (h : Linear tr b.core P l.head?.toList)
    (hf : frag < b.next) (hl : Rest tr b l) (hI : I b P l.head?) :
    ∃ Q, J (processFragment tr b frag l) Q ∧ Linear tr (processFragment tr b frag l).core Q [] := by
  induction l generalizing b P with
  | nil => exact ⟨P, hend b P hI, h⟩
  | cons i is ih =>
    have hsuffix := hl i is rfl
    have hmem : i ∈ b.lists (tr.owner i) := hsuffix.subset List.mem_cons_self
    have hn : ¬ Passed tr b.core P i → is.head? = tr.next i := by
      intro hp
      rw [← h.next_eq ht hp hmem]
      exact (head_after_of_suffix ((h.sub _).nodup (ht.nodup _)) hsuffix).symm
    have hI' := hstep b P i is.head? h hf hmem hn hI
    have hwalk := walks_processInstr h ht hf hn
    simp only [processFragment]
    split_ifs at hI' ⊢ with hgo
    · obtain ⟨hi, hnext, -⟩ := processInstr_go hgo
      have hhead : is.head? = tr.next i := hn (h.not_passed hi)
      rw [Walks, if_pos hgo, ← hhead] at hwalk
      rw [← hhead] at hI'
      exact ih hwalk (hnext ▸ hf) (rest_processInstr ht h hl hgo) hI'
    · rw [Walks, if_neg hgo] at hwalk
      exact ⟨_, hI', hwalk⟩

end Walks

section Loop

variable {tr : Trace} {b : Builder} {P : Set InstrId} {l : InstrId} {block : BlockId}
  {md : BlockMetaData}

theorem core_addBlockStraggler :
    (addBlockStragglerToWorkList tr b md l).core =
      (b.core.label l).push (nextInstr tr b l) := by
  simp only [addBlockStragglerToWorkList, core_append, core_push, core_alloc]
  rw [core_label, core_alloc]
  rfl

/-- A label that nothing has reached, with the instructions that follow it. -/
structure Straggler (tr : Trace) (b : Builder) (block : BlockId) (l : InstrId) : Prop where
  listed : l ∈ b.lists block
  label : tr.instr l = .label
  data : b.data l ≠ 0
  fresh : b.labelFragment l = none
  useful : hasUsefulInstruction tr (after (b.lists block) l) = true

theorem straggler_of_find (h : (b.lists block).find? (isStraggler tr b block) = some l) :
    Straggler tr b block l := by
  have hp := List.find?_some h
  simp only [isStraggler, Bool.and_eq_true, beq_iff_eq, bne_iff_ne, Option.isNone_iff_eq_none] at hp
  exact ⟨List.mem_of_find?_eq_some h, hp.1.1.1, hp.1.1.2, hp.1.2, hp.2⟩

theorem linear_straggler (h : Linear tr b.core P []) (ht : tr.WellFormed)
    (hs : Straggler tr b block l) :
    Linear tr (addBlockStragglerToWorkList tr b md l).core P [] := by
  have hmem : l ∈ tr.code (tr.owner l) := by
    have hcode := (h.sub block).subset hs.listed
    rwa [ht.owner _ l hcode]
  have hn : ¬ b.core.labelled l := fun hn ↦ hn hs.fresh
  have hnext : nextInstr tr b l = tr.next l := h.next_label ht hs.label hmem hs.data hn
  rw [core_addBlockStraggler, hnext]
  refine Linear.push ?_
  exact h.label ht hs.label hmem hs.data hn

variable (tr) in
theorem addStraggler_cases (b : Builder) (block : BlockId) :
    (addStraggler tr b block = b ∧
      ∀ l ∈ b.lists block, tr.code block ≠ [] → isStraggler tr b block l = false) ∨
    ∃ md l, addStraggler tr b block = addBlockStragglerToWorkList tr b md l ∧
      (∃ cold is, tr.block block = .decoded md cold is) ∧ Straggler tr b block l := by
  unfold addStraggler
  cases hb : tr.block block with
  | decoded md cold is =>
    cases hf : (b.lists block).find? (isStraggler tr b block) with
    | some l => exact .inr ⟨md, l, rfl, ⟨cold, is, rfl⟩, straggler_of_find hf⟩
    | none =>
      refine .inl ⟨rfl, fun l hl _ ↦ ?_⟩
      simpa using List.find?_eq_none.mp hf l hl
  | _ => exact .inl ⟨rfl, fun l _ hc ↦ absurd (by simp [Trace.code, hb]) hc⟩

theorem addStraggler_rule {K : Builder → Prop} (ht : tr.WellFormed)
    (hK : ∀ b block md cold is l, K b → Linear tr b.core P [] →
      tr.block block = .decoded md cold is → Straggler tr b block l →
      K (addBlockStragglerToWorkList tr b md l))
    (hb : K b) (h : Linear tr b.core P []) (blocks : List BlockId) :
    K (blocks.foldl (addStraggler tr) b) ∧
      Linear tr (blocks.foldl (addStraggler tr) b).core P [] := by
  induction blocks generalizing b with
  | nil => exact ⟨hb, h⟩
  | cons block blocks ih =>
    rw [List.foldl_cons]
    rcases addStraggler_cases tr b block with ⟨he, -⟩ | ⟨md, l, he, ⟨cold, is, hd⟩, hs⟩
    · rw [he]
      exact ih hb h
    · rw [he]
      exact ih (hK b block md cold is l hb h hd hs) (linear_straggler h ht hs)

variable (tr) in
theorem addStraggler_work (b : Builder) (block : BlockId) :
    ∃ w, (addStraggler tr b block).work = w ++ b.work := by
  rcases addStraggler_cases tr b block with ⟨he, -⟩ | ⟨md, l, he, -, -⟩
  · exact ⟨[], by rw [he, List.nil_append]⟩
  · exact ⟨[(b.next + 1, nextInstr tr b l)], by rw [he]; rfl⟩

variable (tr) in
theorem foldl_addStraggler_work (b : Builder) (blocks : List BlockId) :
    ∃ w, (blocks.foldl (addStraggler tr) b).work = w ++ b.work := by
  induction blocks generalizing b with
  | nil => exact ⟨[], rfl⟩
  | cons block blocks ih =>
    obtain ⟨w, hw⟩ := ih (addStraggler tr b block)
    obtain ⟨w', hw'⟩ := addStraggler_work tr b block
    exact ⟨w ++ w', by rw [List.foldl_cons, hw, hw', List.append_assoc]⟩

/-- No block has a label left that nothing has reached. -/
def NoStragglers (tr : Trace) (b : Builder) : Prop :=
  ∀ block ∈ tr.blocks, ∀ l ∈ b.lists block, tr.code block ≠ [] → isStraggler tr b block l = false

theorem noStragglers_of_work (blocks : List BlockId)
    (h : (blocks.foldl (addStraggler tr) b).work = []) :
    blocks.foldl (addStraggler tr) b = b ∧ ∀ block ∈ blocks, ∀ l ∈ b.lists block,
      tr.code block ≠ [] → isStraggler tr b block l = false := by
  induction blocks with
  | nil => exact ⟨rfl, by simp⟩
  | cons block blocks ih =>
    rw [List.foldl_cons] at h ⊢
    rcases addStraggler_cases tr b block with ⟨he, hnone⟩ | ⟨md, l, he, -, -⟩
    · rw [he] at h ⊢
      obtain ⟨hfold, hrest⟩ := ih h
      refine ⟨hfold, fun block' hb ↦ ?_⟩
      rcases List.mem_cons.mp hb with rfl | hb
      · exact hnone
      · exact hrest block' hb
    · obtain ⟨w, hw⟩ := foldl_addStraggler_work tr (addStraggler tr b block) blocks
      rw [hw, he] at h
      exact absurd h (by simp [addBlockStragglerToWorkList, Builder.append, Builder.push])

theorem core_initBlockFragment (b : Builder) (block : BlockId) :
    (initBlockFragment tr b block).core =
      match tr.block block with
      | .decoded .. => b.core.push (b.lists block).head?
      | _ => b.core := by
  unfold initBlockFragment
  split
  · simp_all only
    rfl
  · simp_all only
    rfl
  · simp_all only
    rfl
  · simp_all only
  · simp_all only
  · simp_all only
  · rename_i md cold is hb
    simp only [hb]
    exact core_push (b := b.alloc _) b.next (b.lists block).head?

theorem head_not_next (ht : tr.WellFormed) {i j : InstrId}
    (hj : (tr.code (tr.owner j)).head? = some j) : tr.next i ≠ some j := by
  intro hi
  have ho := (ht.next_mem hi).2
  unfold Trace.next at hi
  rw [← ho] at hi
  have hidx := (idxOf_of_head_after (ht.nodup _) hi).2
  obtain ⟨l, hl⟩ : ∃ l, tr.code (tr.owner j) = j :: l := by
    cases hc : tr.code (tr.owner j) with
    | nil => simp [hc] at hj
    | cons k l =>
      obtain rfl : k = j := by simpa [hc] using hj
      exact ⟨l, rfl⟩
  rw [hl, List.idxOf_cons_self] at hidx
  omega

/-- Before any instruction is reached, work starts with the first instructions of
blocks. -/
structure Initial (tr : Trace) (c : Core) (done : List BlockId) : Prop where
  lists : c.lists = tr.code
  data : c.data = tr.data
  labelled : ∀ l, ¬ c.labelled l
  nodup : c.starts.Nodup
  starts : ∀ i ∈ c.starts, tr.owner i ∈ done ∧ (tr.code (tr.owner i)).head? = some i

theorem initial_init (ht : tr.WellFormed) {blocks done : List BlockId} (hb : blocks.Nodup)
    (hdisj : ∀ x ∈ blocks, x ∉ done) (h : Initial tr b.core done) :
    Initial tr (blocks.foldl (initBlockFragment tr) b).core (blocks.reverse ++ done) := by
  induction blocks generalizing b done with
  | nil => exact h
  | cons block blocks ih =>
    obtain ⟨hnot, hb⟩ := List.nodup_cons.mp hb
    rw [List.foldl_cons, List.reverse_cons, List.append_assoc]
    refine ih hb (fun x hx hd ↦ ?_) ?_
    · rcases List.mem_cons.mp hd with rfl | hd
      · exact hnot hx
      · exact hdisj x (List.mem_cons_of_mem _ hx) hd
    · have hlists : b.lists = tr.code := h.lists
      have hkeep : Initial tr b.core (block :: done) :=
        ⟨h.lists, h.data, h.labelled, h.nodup, fun i hi ↦
          ⟨List.mem_cons_of_mem _ (h.starts i hi).1, (h.starts i hi).2⟩⟩
      rw [core_initBlockFragment]
      split
      · cases hhead : (b.lists block).head? with
        | none => exact hkeep
        | some i =>
          rw [hlists] at hhead
          have hown : tr.owner i = block := ht.owner _ i (List.mem_of_mem_head? hhead)
          refine ⟨h.lists, h.data, h.labelled, List.nodup_cons.mpr ⟨fun hi ↦ ?_, h.nodup⟩,
            fun j hj ↦ ?_⟩
          · exact hdisj block List.mem_cons_self (hown ▸ (h.starts i hi).1)
          · rcases List.mem_cons.mp hj with rfl | hj
            · exact ⟨hown ▸ List.mem_cons_self, hown.symm ▸ hhead⟩
            · exact hkeep.starts j hj
      · exact hkeep

theorem linear_initialize (ht : tr.WellFormed) :
    Linear tr (initializeFragAndWorklist tr).core ∅ [] := by
  have hstart : Initial tr ({ lists := tr.code, data := tr.data } : Builder).core [] :=
    ⟨rfl, rfl, fun _ h ↦ h rfl, List.nodup_nil, fun i hi ↦ absurd hi List.not_mem_nil⟩
  have h := initial_init ht (List.nodup_reverse.mpr ht.blocks) (by simp) hstart
  change Initial tr (initializeFragAndWorklist tr).core _ at h
  refine ⟨fun x ↦ ?_, fun i hi hn ↦ ?_, h.nodup, fun _ _ ↦ Set.notMem_empty _, fun i hi ↦ ?_,
    fun i j hij hj ↦ ?_, fun l hl ↦ absurd hl (h.labelled l), fun l hl ↦ ?_, fun l hl _ ↦ ?_⟩
  · rw [h.lists]
  · rw [h.lists] at hn
    exact absurd hi hn
  · exact List.mem_of_mem_head? (h.starts i hi).2
  · rcases hj with hj | hj
    · exact absurd hj (Set.notMem_empty j)
    · exact absurd hij (head_not_next ht (h.starts j hj).2)
  · rw [h.data]
    exact hl
  · rw [h.lists]
    exact hl

theorem rest_instrsFrom (ht : tr.WellFormed) {i : Option InstrId}
    (h : Linear tr b.core P i.toList) :
    Rest tr b (instrsFrom tr b i) ∧ (instrsFrom tr b i).head? = i := by
  cases i with
  | none => exact ⟨fun i is hi ↦ absurd hi (by simp [instrsFrom]), rfl⟩
  | some i =>
    have hmem : i ∈ b.lists (tr.owner i) := by
      by_contra hn
      exact h.disjoint i List.mem_cons_self (h.moved i (h.mem i List.mem_cons_self) hn)
    obtain ⟨xs, ys, hxs⟩ := List.append_of_mem hmem
    have hnodup : (xs ++ i :: ys).Nodup := hxs ▸ (h.sub _).nodup (ht.nodup _)
    have hix : i ∉ xs := fun hx ↦ (List.nodup_append.mp hnodup).2.2 i hx i List.mem_cons_self rfl
    have hfrom : instrsFrom tr b (some i) = i :: ys := by
      rw [instrsFrom, hxs, dropWhile_eq hix]
    rw [hfrom]
    refine ⟨fun j js hj ↦ ?_, rfl⟩
    obtain ⟨rfl, rfl⟩ := List.cons.inj hj
    exact ⟨xs, hxs.symm⟩

theorem linear_pop {f : FragmentId} {i : Option InstrId} {w : List (FragmentId × Option InstrId)}
    (h : Linear tr b.core P []) (hw : b.work = (f, i) :: w) :
    Linear tr ({ b with work := w } : Builder).core P i.toList := by
  refine h.perm i.toList (w.filterMap (·.2)) ?_
  have hstarts : b.core.starts = i.toList ++ w.filterMap (·.2) := by
    simp only [Builder.core, hw]
    cases i <;> rfl
  rw [List.nil_append, hstarts]

/-- What has to be shown of an invariant `K` of the builder, which tells how many turns are left at
most, and of an invariant `I` of the loop over the instructions of a fragment. -/
structure Rule (tr : Trace) (K : ℕ → Builder → Set InstrId → Prop)
    (I : ℕ → Builder → Set InstrId → FragmentId → Option InstrId → Prop) : Prop where
  init : ∃ n, K n (initializeFragAndWorklist tr) ∅
  lt_next : ∀ n b P f i, K n b P → (f, i) ∈ b.work → f < b.next
  pop : ∀ n b P f i w, K n b P → b.work = (f, i) :: w → ∃ m < n, I m { b with work := w } P f i
  step : ∀ n b P f i nextI, Linear tr b.core P [i] → f < b.next → i ∈ b.lists (tr.owner i) →
    (¬ Passed tr b.core P i → nextI = tr.next i) → I n b P f (some i) →
    if (processInstr tr b f i nextI).2
    then I n (processInstr tr b f i nextI).1 (visited tr b f i P) f (tr.next i)
    else K n (processInstr tr b f i nextI).1 (visited tr b f i P)
  finish : ∀ n b P f, I n b P f none → K n b P
  straggler : ∀ n b P block md cold is l, K n b P → Linear tr b.core P [] →
    tr.block block = .decoded md cold is → Straggler tr b block l →
    K n (addBlockStragglerToWorkList tr b md l) P

/-- What holds whenever the builder looks at its work list. -/
structure Between (tr : Trace) (K : ℕ → Builder → Set InstrId → Prop) (n : ℕ) (b : Builder) :
    Prop where
  inv : ∃ P, K n b P ∧ Linear tr b.core P []
  none : b.work = [] → NoStragglers tr b

variable {K : ℕ → Builder → Set InstrId → Prop}
  {I : ℕ → Builder → Set InstrId → FragmentId → Option InstrId → Prop} {n : ℕ}

theorem Rule.fragment (hr : Rule tr K I) (ht : tr.WellFormed) {f : FragmentId}
    {i : Option InstrId} {w : List (FragmentId × Option InstrId)} (hK : K n b P)
    (hP : Linear tr b.core P []) (hw : b.work = (f, i) :: w) :
    ∃ m < n, ∃ Q, K m (processFragment tr { b with work := w } f (instrsFrom tr b i)) Q ∧
      Linear tr (processFragment tr { b with work := w } f (instrsFrom tr b i)).core Q [] := by
  have hpop := linear_pop hP hw
  obtain ⟨hrest, hhead⟩ := rest_instrsFrom ht hpop
  have hlt : f < b.next := hr.lt_next n b P f i hK (hw ▸ List.mem_cons_self)
  obtain ⟨m, hm, hI⟩ := hr.pop n b P f i w hK hw
  refine ⟨m, hm, ?_⟩
  refine processFragment_rule (I := fun b P i ↦ I m b P f i) (J := K m) ht
    (fun b P i nextI hl hf hm hn hI ↦ hr.step m b P f i nextI hl hf hm hn hI)
    (fun b P hI ↦ hr.finish m b P f hI) (P := P) ?_ hlt hrest ?_
  · exact hhead.symm ▸ hpop
  · exact hhead.symm ▸ hI

theorem Rule.stragglers (hr : Rule tr K I) (ht : tr.WellFormed) (hK : K n b P)
    (hP : Linear tr b.core P []) :
    Between tr K n (if b.work.isEmpty then addStragglerFragments tr b else b) := by
  split_ifs with he
  · obtain ⟨hK', hP'⟩ := addStraggler_rule (K := fun b ↦ K n b P) ht
      (fun b block md cold is l ↦ hr.straggler n b P block md cold is l) hK hP tr.blocks.reverse
    refine ⟨⟨P, hK', hP'⟩, fun hnil ↦ ?_⟩
    obtain ⟨heq, hnone⟩ := noStragglers_of_work _ hnil
    intro block hblock l hl hc
    have hfold : addStragglerFragments tr b = b := heq
    rw [hfold] at hl ⊢
    exact hnone block (List.mem_reverse.mpr hblock) l hl hc
  · refine ⟨⟨P, hK, hP⟩, fun hnil ↦ absurd ?_ he⟩
    rw [hnil]
    rfl

theorem Rule.turn (hr : Rule tr K I) (ht : tr.WellFormed) (hb : Between tr K n b)
    (hw : b.work ≠ []) : (buildStep tr b).2 = true ∧ ∃ m < n, Between tr K m (buildStep tr b).1 := by
  obtain ⟨P, hK, hP⟩ := hb.inv
  unfold buildStep
  split
  · exact absurd ‹_› hw
  · rename_i f i w hw
    obtain ⟨m, hm, Q, hK', hQ⟩ := hr.fragment ht hK hP hw
    exact ⟨rfl, m, hm, hr.stragglers ht hK' hQ⟩

theorem work_initialize_ne_nil {block : BlockId} (hmem : block ∈ tr.blocks)
    (hc : tr.code block ≠ []) : (initializeFragAndWorklist tr).work ≠ [] := by
  have hmono (b : Builder) (x : BlockId) : ∃ w, (initBlockFragment tr b x).work = w ++ b.work := by
    unfold initBlockFragment
    split
    all_goals first | exact ⟨[], rfl⟩ | exact ⟨[_], rfl⟩
  have hfold (b : Builder) (blocks : List BlockId) :
      ∃ w, (blocks.foldl (initBlockFragment tr) b).work = w ++ b.work := by
    induction blocks generalizing b with
    | nil => exact ⟨[], rfl⟩
    | cons x blocks ih =>
      obtain ⟨w, hw⟩ := ih (initBlockFragment tr b x)
      obtain ⟨w', hw'⟩ := hmono b x
      exact ⟨w ++ w', by rw [List.foldl_cons, hw, hw', List.append_assoc]⟩
  obtain ⟨xs, ys, hxs⟩ := List.append_of_mem (List.mem_reverse.mpr hmem)
  unfold initializeFragAndWorklist
  rw [hxs, List.foldl_append, List.foldl_cons]
  generalize xs.foldl (initBlockFragment tr) { lists := tr.code, data := tr.data } = b
  obtain ⟨w, hw⟩ := hfold (initBlockFragment tr b block) ys
  rw [hw]
  have hpush : (initBlockFragment tr b block).work ≠ [] := by
    unfold initBlockFragment
    unfold Trace.code at hc
    split at hc
    · simp_all only
      simp [Builder.prepend, Builder.push]
    · exact absurd rfl hc
  exact fun hnil ↦ hpush (List.append_eq_nil_iff.mp hnil).2

theorem Rule.initially (hr : Rule tr K I) (ht : tr.WellFormed) :
    ∃ n, Between tr K n (initializeFragAndWorklist tr) := by
  obtain ⟨n, hK⟩ := hr.init
  exact ⟨n, ⟨∅, hK, linear_initialize ht⟩, fun hnil _ hblock _ _ hc ↦
    absurd hnil (work_initialize_ne_nil hblock hc)⟩

theorem Rule.stops (hr : Rule tr K I) (ht : tr.WellFormed) (hb : Between tr K n b) :
    ∃ b' m, Stops (buildStep tr) b b' ∧ Between tr K m b' ∧ b'.work = [] := by
  induction n using Nat.strong_induction_on generalizing b with
  | _ n ih =>
    by_cases hw : b.work = []
    · have hstep : buildStep tr b = (b, false) := by
        unfold buildStep
        rw [hw]
      have hquiet : Stops (buildStep tr) b (buildStep tr b).1 := stops_of_quiet (by rw [hstep])
      rw [hstep] at hquiet
      exact ⟨b, n, hquiet, hb, hw⟩
    · obtain ⟨hgo, m, hm, hb'⟩ := hr.turn ht hb hw
      obtain ⟨b', k, hstops, hbetween, hwork⟩ := ih m hm hb'
      exact ⟨b', k, stops_of_pass hstops hgo, hbetween, hwork⟩

theorem Rule.final (hr : Rule tr K I) (ht : tr.WellFormed) :
    ∃ b m, (∃ N, ∀ fuel, N ≤ fuel → buildFragmentList tr fuel = some b) ∧ Between tr K m b ∧
      b.work = [] := by
  obtain ⟨n, hb⟩ := hr.initially ht
  exact hr.stops ht hb

end Loop

end Granary.Assemble.BuildFragmentList
