import Granary.Assemble.AddEntryAndExitFragments

namespace Granary.Assemble.AddEntryAndExitFragments

open Function Granary.Base Granary.Code Granary.Base.Chain
open Granary.Assemble.TrackVirtualRegs (body)

theorem body_setSuccessor (f : Fragment) (k : Slot) (o : Option FragmentId) :
    body (f.setSuccessor k o) = body f := by
  cases k <;> rfl

namespace State

variable {s : State} {i j a : FragmentId} {k b : Slot}

theorem heap_setSuccessor_of_ne (ha : a ≠ i) : (s.setSuccessor i k j).heap a = s.heap a :=
  update_of_ne ha _ _

theorem body_heap_setSuccessor (s : State) (i j a : FragmentId) (k : Slot) :
    body ((s.setSuccessor i k j).heap a) = body (s.heap a) := by
  rcases eq_or_ne a i with rfl | ha
  · exact (congrArg body (update_self _ _ _)).trans (body_setSuccessor _ _ _)
  · rw [heap_setSuccessor_of_ne ha]

theorem successor_setSuccessor (s : State) (i j a : FragmentId) (k b : Slot) :
    ((s.setSuccessor i k j).heap a).successor b =
      if a = i ∧ b = k then some j else (s.heap a).successor b := by
  rcases eq_or_ne a i with rfl | ha
  · have h : (s.setSuccessor a k j).heap a = (s.heap a).setSuccessor k (some j) := update_self _ _ _
    simp only [h, Fragment.successor_setSuccessor, true_and]
  · rw [heap_setSuccessor_of_ne ha, if_neg fun h ↦ ha h.1]

theorem fields_of_body {s s' : State} (h : body (s'.heap i) = body (s.heap i)) :
    s'.cls i = s.cls i ∧ s'.partition i = s.partition i ∧ s'.flagZone i = s.flagZone i ∧
      (s'.heap i).kind = (s.heap i).kind ∧ (s'.heap i).branchInstr = (s.heap i).branchInstr :=
  ⟨(congrArg Fragment.cls h :), (congrArg Fragment.partition h :), (congrArg Fragment.flagZone h :),
    (congrArg Fragment.kind h :), (congrArg Fragment.branchInstr h :)⟩

end State

/-- A list whose fragments lead to fragments of the list. -/
structure Closed (s : State) : Prop where
  nodup : s.frags.Nodup
  lt_next : ∀ i ∈ s.frags, i < s.next
  succ : ∀ i ∈ s.frags, ∀ k j, (s.heap i).successor k = some j → j ∈ s.frags

structure Guards (cls : FragmentClass) (j : FragmentId) (f : Fragment) : Prop where
  cls : f.cls = cls
  kind : f.kind = .inst
  instrs : f.instrs = []
  branchInstr : f.branchInstr = none
  fallThrough : f.fallThrough = some j
  branch : f.branch = none

namespace Guards

variable {c : FragmentClass} {i j : FragmentId} {f : Fragment}

theorem successor (h : Guards c j f) {k : Slot} (hk : f.successor k = some i) : i = j := by
  cases k with
  | fallThrough => exact Option.some.inj (hk.symm.trans h.fallThrough)
  | branch => exact absurd (hk.symm.trans h.branch) (Option.some_ne_none i)

theorem successors (h : Guards c j f) : f.successors = [j] := by
  simp [Fragment.successors, h.fallThrough, h.branch]

end Guards

/-- What a pass looks for, and the fragments that it makes. -/
structure Pass where
  isEnd : State → FragmentId → FragmentId → Bool
  cls : FragmentClass
  inherit : FragmentId → FragmentId → FragmentId

namespace Pass

variable (p : Pass)

def add : State → FragmentId → Slot → State := addFragment p.isEnd p.cls p.inherit

/-- The end of a pass depends on the two fragments, but for where they lead, and on tables that no
pass changes; none of its own fragments is at an end; and a fragment takes after one of the two. -/
structure Ok : Prop where
  congr : ∀ {s s' : State} {i j : FragmentId}, body (s'.heap i) = body (s.heap i) →
    body (s'.heap j) = body (s.heap j) → s'.zone = s.zone → s'.branchIsCfi = s.branchIsCfi →
    p.isEnd s' i j = p.isEnd s i j
  own : ∀ {s : State} {i j : FragmentId}, s.cls i = p.cls → p.isEnd s i j = false
  into : ∀ {s : State} {i j : FragmentId}, s.cls j = p.cls → p.isEnd s i j = false
  inherit : ∀ i j, p.inherit i j = i ∨ p.inherit i j = j

def made (s : State) (c i j : FragmentId) : Fragment :=
  { newFragment p.cls c (s.heap (p.inherit i j)) (s.heap j) with fallThrough := some j }

variable {p}

theorem guards_made (s : State) (c i j : FragmentId) : Guards p.cls j (p.made s c i j) :=
  ⟨rfl, rfl, rfl, rfl, rfl, rfl⟩

def LinksOk (p : Pass) (s : State) : Prop :=
  ∀ j c, s.entryExitFrag j = some c → j ∈ s.frags ∧ c ∈ s.frags ∧ Guards p.cls j (s.heap c)

/-- The state once the edges `edges` of `s₀` have had their turn. -/
structure Added (p : Pass) (s₀ : State) (edges : FragmentId → Slot → Prop) (s : State) : Prop where
  next_le : s₀.next ≤ s.next
  zone : s.zone = s₀.zone
  branchIsCfi : s.branchIsCfi = s₀.branchIsCfi
  same : ∀ i < s₀.next, body (s.heap i) = body (s₀.heap i)
  nodup : s.frags.Nodup
  head : s.frags.head? = s₀.frags.head?
  frags : ∀ i, i ∈ s.frags ↔ i ∈ s₀.frags ∨ s₀.next ≤ i ∧ i < s.next
  todo : ∀ i < s₀.next, ∀ k, ¬ edges i k → (s.heap i).successor k = (s₀.heap i).successor k
  none : ∀ i < s₀.next, ∀ k, (s₀.heap i).successor k = none → (s.heap i).successor k = none
  skipped : ∀ i ∈ s₀.frags, ∀ k j, edges i k → (s₀.heap i).successor k = some j →
    p.isEnd s₀ i j = false → (s.heap i).successor k = some j
  done : ∀ i ∈ s₀.frags, ∀ k j, edges i k → (s₀.heap i).successor k = some j →
    p.isEnd s₀ i j = true → ∃ c ∈ s.frags, (s.heap i).successor k = some c ∧
      Guards p.cls j (s.heap c) ∧ s.partition c = s₀.partition (p.inherit i j)
  made : ∀ c, s₀.next ≤ c → c < s.next → ∃ i ∈ s₀.frags, ∃ k j, (s₀.heap i).successor k = some j ∧
    p.isEnd s₀ i j = true ∧ s.heap c = p.made s₀ c i j
  links : p.LinksOk s

namespace Added

variable {s₀ s : State} {edges edges' : FragmentId → Slot → Prop} {i j c : FragmentId} {k : Slot}

theorem congr (hs : Added p s₀ edges s) (he : ∀ i k, edges i k ↔ edges' i k) :
    Added p s₀ edges' s :=
  (funext fun i ↦ funext fun k ↦ propext (he i k) : edges = edges') ▸ hs

theorem fresh (hs : Added p s₀ edges s) (hi : i < s₀.next) : i < s.next := hi.trans_le hs.next_le

end Added

theorem added_refl {s : State} (hs : Closed s)
    (hlinks : p.LinksOk s) :
    Added p s (fun _ _ ↦ False) s := by
  refine ⟨le_rfl, rfl, rfl, fun _ _ ↦ rfl, hs.nodup, rfl, fun i ↦ ?_, fun _ _ _ _ ↦ rfl, fun _ _ _ h ↦ h,
    fun _ _ _ _ h ↦ h.elim, fun _ _ _ _ h ↦ h.elim, fun c h h' ↦ ?_, hlinks⟩
  · exact ⟨Or.inl, fun h ↦ h.elim id fun h ↦ absurd h.2 (Nat.not_lt.mpr h.1)⟩
  · exact absurd h' (Nat.not_lt.mpr h)

variable {s₀ s : State} {edges : FragmentId → Slot → Prop} {i j c : FragmentId} {k : Slot}

theorem added_skip (hs₀ : Closed s₀) (hs : Added p s₀ edges s) (hi : i ∈ s₀.frags)
    (hk : ¬ edges i k) (hskip : ∀ j, (s₀.heap i).successor k = some j → p.isEnd s₀ i j = false) :
    Added p s₀ (fun a b ↦ edges a b ∨ a = i ∧ b = k) s := by
  refine { hs with
    todo := fun a ha b hab ↦ hs.todo a ha b fun h ↦ hab (Or.inl h)
    skipped := fun a ha b j hab hj hend ↦ ?_
    done := fun a ha b j hab hj hend ↦ ?_ }
  · rcases hab with hab | ⟨rfl, rfl⟩
    · exact hs.skipped a ha b j hab hj hend
    · rw [hs.todo a (hs₀.lt_next a ha) b hk, hj]
  · rcases hab with hab | ⟨rfl, rfl⟩
    · exact hs.done a ha b j hab hj hend
    · exact absurd ((hskip j hj).symm.trans hend) Bool.false_ne_true

theorem Added.cls_ne (hp : p.Ok) (hs₀ : Closed s₀) (hs : Added p s₀ edges s) (hi : i ∈ s₀.frags)
    (hend : p.isEnd s₀ i j = true) {a : FragmentId} (hc : Guards p.cls a (s.heap c)) : c ≠ i := by
  rintro rfl
  have hcls := (State.fields_of_body (hs.same c (hs₀.lt_next c hi))).1
  rw [hp.own (hcls.symm.trans hc.cls)] at hend
  exact Bool.false_ne_true hend

theorem added_redirect (hp : p.Ok) (hs₀ : Closed s₀) (hs : Added p s₀ edges s) (hi : i ∈ s₀.frags)
    (hk : ¬ edges i k) (hj : (s₀.heap i).successor k = some j) (hend : p.isEnd s₀ i j = true)
    (hc : c ∈ s.frags) (hguards : Guards p.cls j (s.heap c))
    (hpart : s.partition c = s₀.partition (p.inherit i j)) :
    Added p s₀ (fun a b ↦ edges a b ∨ a = i ∧ b = k) (s.setSuccessor i k c) := by
  have hkeep {a x : FragmentId} (h : Guards p.cls a (s.heap x)) :
      (s.setSuccessor i k c).heap x = s.heap x :=
    State.heap_setSuccessor_of_ne (hs.cls_ne hp hs₀ hi hend h)
  refine ⟨hs.next_le, hs.zone, hs.branchIsCfi, fun a ha ↦ ?_, hs.nodup, hs.head, hs.frags, fun a ha b hab ↦ ?_,
    fun a ha b hab ↦ ?_, fun a ha b j' hab hj' hend' ↦ ?_, fun a ha b j' hab hj' hend' ↦ ?_,
    fun a ha ha' ↦ ?_, fun j' a ha ↦ ?_⟩
  · rw [State.body_heap_setSuccessor, hs.same a ha]
  · rw [not_or] at hab
    rw [State.successor_setSuccessor, if_neg hab.2, hs.todo a ha b hab.1]
  · rw [State.successor_setSuccessor, if_neg, hs.none a ha b hab]
    rintro ⟨rfl, rfl⟩
    exact Option.some_ne_none j (hj.symm.trans hab)
  · have hne : ¬ (a = i ∧ b = k) := by
      rintro ⟨rfl, rfl⟩
      obtain rfl := Option.some.inj (hj.symm.trans hj')
      exact Bool.false_ne_true (hend'.symm.trans hend)
    rw [State.successor_setSuccessor, if_neg hne]
    exact hs.skipped a ha b j' (hab.resolve_right hne) hj' hend'
  · rw [State.successor_setSuccessor]
    by_cases hnew : a = i ∧ b = k
    · obtain ⟨rfl, rfl⟩ := hnew
      obtain rfl := Option.some.inj (hj.symm.trans hj')
      refine ⟨c, hc, if_pos ⟨rfl, rfl⟩, ?_, ?_⟩
      · rw [hkeep hguards]
        exact hguards
      · rw [State.partition, hkeep hguards]
        exact hpart
    · obtain ⟨x, hx, hsucc, hg, hpx⟩ := hs.done a ha b j' (hab.resolve_right hnew) hj' hend'
      refine ⟨x, hx, (if_neg hnew).trans hsucc, ?_, ?_⟩
      · rw [hkeep hg]
        exact hg
      · rw [State.partition, hkeep hg]
        exact hpx
  · obtain ⟨x, hx, b, y, hy, hxy, hm⟩ := hs.made a ha ha'
    refine ⟨x, hx, b, y, hy, hxy, ?_⟩
    rw [hkeep (a := y), hm]
    rw [hm]
    exact guards_made s₀ a x y
  · obtain ⟨hj', hmem, hg⟩ := hs.links j' a ha
    refine ⟨hj', hmem, ?_⟩
    rw [hkeep hg]
    exact hg

theorem newFragment_congr {f f' g g' : Fragment} (hf : body f' = body f) (hg : body g' = body g) :
    newFragment p.cls c f' g' = newFragment p.cls c f g := by
  have hcache : f'.cache = f.cache := (congrArg Fragment.cache hf :)
  have hpart : f'.partition = f.partition := (congrArg Fragment.partition hf :)
  have hzone : f'.flagZone = f.flagZone := (congrArg Fragment.flagZone hf :)
  have hflags : g'.appFlags = g.appFlags := (congrArg Fragment.appFlags hg :)
  simp only [newFragment, hcache, hpart, hzone, hflags]

def alloc (p : Pass) (s : State) (i j : FragmentId) : State :=
  insertAfter (makeFragment p.cls s (p.inherit i j) j) i s.next

theorem head_insertAfter (l : List FragmentId) (i j : FragmentId) :
    (FragmentList.insertAfter l i j).head? = l.head? := by
  cases l with
  | nil => rfl
  | cons a l =>
    unfold FragmentList.insertAfter
    split_ifs <;> rfl

theorem heap_alloc (s : State) (i j : FragmentId) : (p.alloc s i j).heap =
    update s.heap s.next (p.made s s.next i j) := rfl

theorem frags_alloc (s : State) (i j : FragmentId) :
    (p.alloc s i j).frags = FragmentList.insertAfter s.frags i s.next := rfl

theorem next_alloc (s : State) (i j : FragmentId) : (p.alloc s i j).next = s.next + 1 := rfl

theorem Added.lt_next (hs₀ : Closed s₀) (hs : Added p s₀ edges s) (hc : c ∈ s.frags) : c < s.next := by
  rcases (hs.frags c).mp hc with hc | hc
  · exact hs.fresh (hs₀.lt_next c hc)
  · exact hc.2

theorem Added.made_eq (hp : p.Ok) (hs₀ : Closed s₀) (hs : Added p s₀ edges s) (hi : i ∈ s₀.frags)
    (hj : (s₀.heap i).successor k = some j) (c : FragmentId) : p.made s c i j = p.made s₀ c i j := by
  have hib := hs.same i (hs₀.lt_next i hi)
  have hjb := hs.same j (hs₀.lt_next j (hs₀.succ i hi k j hj))
  have hinherit : body (s.heap (p.inherit i j)) = body (s₀.heap (p.inherit i j)) := by
    rcases hp.inherit i j with h | h
    · rw [h, hib]
    · rw [h, hjb]
  simp only [Pass.made, newFragment_congr hinherit hjb]

theorem added_alloc (hp : p.Ok) (hs₀ : Closed s₀) (hs : Added p s₀ edges s) (hi : i ∈ s₀.frags)
    (hj : (s₀.heap i).successor k = some j) (hend : p.isEnd s₀ i j = true) :
    Added p s₀ edges (p.alloc s i j) := by
  have hother {a : FragmentId} (ha : a < s.next) : (p.alloc s i j).heap a = s.heap a :=
    update_of_ne ha.ne _ _
  have hlisted {a : FragmentId} (ha : a ∈ s.frags) : (p.alloc s i j).heap a = s.heap a :=
    hother (hs.lt_next hs₀ ha)
  have hmem (a : FragmentId) : a ∈ (p.alloc s i j).frags ↔ a ∈ s.frags ∨ a = s.next := by
    rw [frags_alloc]
    exact FragmentList.mem_insertAfter ((hs.frags i).mpr (Or.inl hi))
  refine ⟨hs.next_le.trans (Nat.le_succ _), hs.zone, hs.branchIsCfi, fun a ha ↦ ?_, ?_, ?_, fun a ↦ ?_,
    fun a ha b hab ↦ ?_, fun a ha b hab ↦ ?_, fun a ha b j' hab hj' hend' ↦ ?_,
    fun a ha b j' hab hj' hend' ↦ ?_, fun a ha ha' ↦ ?_, fun j' a ha ↦ ?_⟩
  · rw [hother (hs.fresh ha), hs.same a ha]
  · rw [frags_alloc]
    refine FragmentList.nodup_insertAfter hs.nodup fun h ↦ ?_
    exact absurd (hs.lt_next hs₀ h) (lt_irrefl _)
  · rw [frags_alloc, head_insertAfter, hs.head]
  · have hle := hs.next_le
    rw [hmem, hs.frags, next_alloc]
    constructor
    · rintro ((h | h) | rfl)
      · exact Or.inl h
      · exact Or.inr ⟨h.1, Nat.lt_succ_of_lt h.2⟩
      · exact Or.inr ⟨hle, Nat.lt_succ_self _⟩
    · rintro (h | h)
      · exact Or.inl (Or.inl h)
      · rcases Nat.lt_succ_iff_lt_or_eq.mp h.2 with h' | h'
        · exact Or.inl (Or.inr ⟨h.1, h'⟩)
        · exact Or.inr h'
  · rw [hother (hs.fresh ha)]
    exact hs.todo a ha b hab
  · rw [hother (hs.fresh ha)]
    exact hs.none a ha b hab
  · rw [hother (hs.fresh (hs₀.lt_next a ha))]
    exact hs.skipped a ha b j' hab hj' hend'
  · obtain ⟨x, hx, hsucc, hg, hpart⟩ := hs.done a ha b j' hab hj' hend'
    refine ⟨x, (hmem x).mpr (Or.inl hx), ?_, ?_, ?_⟩
    · rw [hother (hs.fresh (hs₀.lt_next a ha))]
      exact hsucc
    · rw [hlisted hx]
      exact hg
    · rw [State.partition, hlisted hx]
      exact hpart
  · rw [next_alloc] at ha'
    rcases Nat.lt_succ_iff_lt_or_eq.mp ha' with hlt | rfl
    · obtain ⟨x, hx, b, y, hy, hxy, hm⟩ := hs.made a ha hlt
      exact ⟨x, hx, b, y, hy, hxy, (hother hlt).trans hm⟩
    · refine ⟨i, hi, k, j, hj, hend, ?_⟩
      rw [heap_alloc, update_self, hs.made_eq hp hs₀ hi hj]
  · obtain ⟨hj', hx, hg⟩ := hs.links j' a ha
    refine ⟨(hmem j').mpr (Or.inl hj'), (hmem a).mpr (Or.inl hx), ?_⟩
    rw [hlisted hx]
    exact hg

theorem Added.setLink (hs : Added p s₀ edges s) (hj : j ∈ s.frags) (hc : c ∈ s.frags)
    (hg : Guards p.cls j (s.heap c)) :
    Added p s₀ edges { s with entryExitFrag := update s.entryExitFrag j (some c) } := by
  refine { hs with links := fun a x hx ↦ ?_ }
  rcases eq_or_ne a j with rfl | ha
  · have hx' : some c = some x := (update_self a (some c) s.entryExitFrag).symm.trans hx
    obtain rfl := Option.some.inj hx'
    exact ⟨hj, hc, hg⟩
  · exact hs.links a x ((update_of_ne ha (some c) s.entryExitFrag).symm.trans hx)

theorem added_add (hp : p.Ok) (hs₀ : Closed s₀) (hs : Added p s₀ edges s) (hi : i ∈ s₀.frags)
    (hk : ¬ edges i k) : Added p s₀ (fun a b ↦ edges a b ∨ a = i ∧ b = k) (p.add s i k) := by
  have hlt := hs₀.lt_next i hi
  unfold Pass.add addFragment
  rw [hs.todo i hlt k hk]
  cases hj : (s₀.heap i).successor k with
  | none => exact added_skip hs₀ hs hi hk fun j h ↦ absurd (hj.symm.trans h) (Option.some_ne_none j).symm
  | some j =>
    have hjmem := hs₀.succ i hi k j hj
    have hend : p.isEnd s i j = p.isEnd s₀ i j :=
      hp.congr (hs.same i hlt) (hs.same j (hs₀.lt_next j hjmem)) hs.zone hs.branchIsCfi
    have hpart : s.partition (p.inherit i j) = s₀.partition (p.inherit i j) := by
      rcases hp.inherit i j with h | h
      · rw [h]
        exact (State.fields_of_body (hs.same i hlt)).2.1
      · rw [h]
        exact (State.fields_of_body (hs.same j (hs₀.lt_next j hjmem))).2.1
    simp only [hend]
    split_ifs with he
    · cases hlink : (s.entryExitFrag j).filter fun link ↦
          s.partition (p.inherit i j) == s.partition link with
      | some link =>
        obtain ⟨hl, hsame⟩ := Option.filter_eq_some_iff.mp hlink
        obtain ⟨-, hmem, hg⟩ := hs.links j link hl
        exact added_redirect hp hs₀ hs hi hk hj he hmem hg ((beq_iff_eq.mp hsame).symm.trans hpart)
      | none =>
        have ha := added_alloc hp hs₀ hs hi hj he
        have hmade : (p.alloc s i j).heap s.next = p.made s₀ s.next i j := by
          rw [heap_alloc, update_self, hs.made_eq hp hs₀ hi hj]
        have hmem : s.next ∈ (p.alloc s i j).frags := by
          rw [frags_alloc]
          exact (FragmentList.mem_insertAfter ((hs.frags i).mpr (Or.inl hi))).mpr (Or.inr rfl)
        have hg : Guards p.cls j ((p.alloc s i j).heap s.next) := by
          rw [hmade]
          exact guards_made s₀ _ i j
        have hr := added_redirect hp hs₀ ha hi hk hj he hmem hg (by rw [State.partition, hmade]; rfl)
        refine hr.setLink ((hr.frags j).mpr (Or.inl hjmem)) hmem ?_
        rw [State.heap_setSuccessor_of_ne (ha.cls_ne hp hs₀ hi he hg)]
        exact hg
    · exact added_skip hs₀ hs hi hk fun j' hj' ↦ by
        obtain rfl := Option.some.inj (hj.symm.trans hj')
        exact Bool.eq_false_iff.mpr he

def visit (p : Pass) (s : State) (i : FragmentId) : State := p.add (p.add s i .fallThrough) i .branch

theorem added_visit (hp : p.Ok) (hs₀ : Closed s₀) (hs : Added p s₀ edges s) (hi : i ∈ s₀.frags)
    (hk : ∀ k, ¬ edges i k) : Added p s₀ (fun a b ↦ edges a b ∨ a = i) (p.visit s i) := by
  have hfall := added_add hp hs₀ hs hi (hk .fallThrough)
  have hbranch := added_add hp hs₀ hfall (k := .branch) hi (by simp [hk])
  refine hbranch.congr fun a b ↦ ?_
  cases b <;> simp

theorem add_eq_self (hp : p.Ok) (hi : s.cls i = p.cls) : p.add s i k = s := by
  unfold Pass.add addFragment
  cases hj : (s.heap i).successor k with
  | none => rfl
  | some j => exact if_neg (Bool.eq_false_iff.mp (hp.own hi))

theorem visit_eq_self (hp : p.Ok) (hi : s.cls i = p.cls) : p.visit s i = s := by
  rw [visit, add_eq_self hp hi, add_eq_self hp hi]

theorem frags_add (p : Pass) (s : State) (i : FragmentId) (k : Slot) :
    (p.add s i k).frags = s.frags ∨
      (p.add s i k).frags = FragmentList.insertAfter s.frags i s.next := by
  unfold Pass.add addFragment
  split
  · exact Or.inl rfl
  · split_ifs
    · split
      · exact Or.inl rfl
      · exact Or.inr rfl
    · exact Or.inl rfl

theorem Added.successor (hs₀ : Closed s₀) (hs : Added p s₀ edges s) (hi : i ∈ s₀.frags)
    (hc : (s.heap i).successor k = some c) : ∃ j, (s₀.heap i).successor k = some j ∧
      (c = j ∧ (edges i k → p.isEnd s₀ i j = false) ∨
        edges i k ∧ p.isEnd s₀ i j = true ∧ c ∈ s.frags ∧ Guards p.cls j (s.heap c) ∧
          s.partition c = s₀.partition (p.inherit i j)) := by
  cases hj : (s₀.heap i).successor k with
  | none => exact absurd ((hs.none i (hs₀.lt_next i hi) k hj).symm.trans hc) (Option.some_ne_none c).symm
  | some j =>
    refine ⟨j, rfl, ?_⟩
    by_cases hk : edges i k
    · cases hend : p.isEnd s₀ i j with
      | false => exact Or.inl ⟨(Option.some.inj ((hs.skipped i hi k j hk hj hend).symm.trans hc)).symm, fun _ ↦ rfl⟩
      | true =>
        obtain ⟨x, hx, hsucc, hg, hpart⟩ := hs.done i hi k j hk hj hend
        obtain rfl := Option.some.inj (hsucc.symm.trans hc)
        exact Or.inr ⟨hk, rfl, hx, hg, hpart⟩
    · have hsame := (hs.todo i (hs₀.lt_next i hi) k hk).symm.trans hc
      exact Or.inl ⟨(Option.some.inj (hj.symm.trans hsame)).symm, fun h ↦ absurd h hk⟩

theorem Added.closed (hs₀ : Closed s₀) (hs : Added p s₀ edges s) : Closed s := by
  refine ⟨hs.nodup, fun i hi ↦ hs.lt_next hs₀ hi, fun i hi k c hc ↦ ?_⟩
  rcases (hs.frags i).mp hi with hi | hi
  · obtain ⟨j, hj, ⟨rfl, -⟩ | ⟨-, -, hmem, -⟩⟩ := hs.successor hs₀ hi hc
    · exact (hs.frags c).mpr (Or.inl (hs₀.succ i hi k c hj))
    · exact hmem
  · obtain ⟨x, hx, b, j, hj, -, hm⟩ := hs.made i hi.1 hi.2
    rw [hm] at hc
    rw [(guards_made s₀ i x j).successor hc]
    exact (hs.frags j).mpr (Or.inl (hs₀.succ x hx b j hj))

theorem insertAfter_append {done rest : List FragmentId} {x : FragmentId} (hi : i ∉ done) :
    FragmentList.insertAfter (done ++ i :: rest) i x = done ++ i :: x :: rest := by
  induction done with
  | nil => rw [List.nil_append, FragmentList.insertAfter, if_pos rfl, List.nil_append]
  | cons a done ih =>
    rw [List.mem_cons, not_or] at hi
    rw [List.cons_append, FragmentList.insertAfter, if_neg fun h ↦ hi.1 h.symm, ih hi.2,
      List.cons_append]

theorem path_nextFrag {s : State} (hs : s.frags.Nodup) :
    Path (nextFrag s) s.frags.head? s.frags none := by
  suffices h : ∀ rest done, s.frags = done ++ rest → Path (nextFrag s) rest.head? rest none from
    h s.frags [] rfl
  intro rest
  induction rest with
  | nil => exact fun _ _ ↦ rfl
  | cons a rest ih =>
    intro done hl
    have ha : a ∉ done := fun h ↦
      (List.nodup_append.mp (hl ▸ hs)).2.2 a h a List.mem_cons_self rfl
    have hnext : nextFrag s a = rest.head? := by
      have hdrop : (done ++ a :: rest).dropWhile (· ≠ a) = a :: rest := by
        rw [List.dropWhile_append_of_pos]
        · simp
        · exact fun b hb ↦ decide_eq_true (ne_of_mem_of_not_mem hb ha)
      rw [nextFrag, hl, hdrop, List.tail_cons]
    refine ⟨rfl, ?_⟩
    rw [hnext]
    exact ih (done ++ [a]) (by simp [hl])

theorem grows_visit (hp : p.Ok) (hs : Closed s) (hlinks : p.LinksOk s) {done rest : List FragmentId}
    (hl : s.frags = done ++ i :: rest) :
    (Closed (p.visit s i) ∧ p.LinksOk (p.visit s i)) ∧ ∃ new,
      (p.visit s i).frags = done ++ i :: (new ++ rest) ∧
        ∀ b ∈ new, p.visit (p.visit s i) b = p.visit s i := by
  have hi : i ∈ s.frags := by simp [hl]
  have hni : i ∉ done := fun h ↦
    (List.nodup_append.mp (hl ▸ hs.nodup)).2.2 i h i List.mem_cons_self rfl
  have hv := added_visit hp hs (added_refl hs hlinks) hi fun _ ↦ id
  refine ⟨⟨hv.closed hs, hv.links⟩, ?_⟩
  have hquiet (b : FragmentId) (hb : s.next ≤ b) (hmem : b ∈ (p.visit s i).frags) :
      p.visit (p.visit s i) b = p.visit s i := by
    obtain ⟨x, -, _, j, -, -, hm⟩ := hv.made b hb (hv.lt_next hs hmem)
    refine visit_eq_self hp ?_
    rw [State.cls, hm]
    rfl
  have hnext : s.next ≤ (p.add s i .fallThrough).next :=
    (added_add hp hs (added_refl hs hlinks) hi id).next_le
  obtain ⟨new, hnew, hge⟩ : ∃ new, (p.visit s i).frags = done ++ i :: (new ++ rest) ∧
      ∀ b ∈ new, s.next ≤ b := by
    rcases frags_add p s i .fallThrough with hf | hf <;>
      rcases frags_add p (p.add s i .fallThrough) i .branch with hb | hb <;>
      rw [hl] at hf <;> rw [hf] at hb
    · exact ⟨[], hb, by simp⟩
    · rw [insertAfter_append hni] at hb
      exact ⟨[_], hb, by simpa using hnext⟩
    · rw [insertAfter_append hni] at hb
      exact ⟨[_], hb, by simp⟩
    · rw [insertAfter_append hni, insertAfter_append hni] at hb
      exact ⟨[_, _], hb, by simpa using hnext⟩
  refine ⟨new, hnew, fun b hb ↦ hquiet b (hge b hb) ?_⟩
  rw [hnew]
  simp [hb]

theorem added_forSuccessors (hp : p.Ok) (hs₀ : Closed s₀) (hlinks : p.LinksOk s₀) :
    ∃ s, (∃ N, ∀ n, N ≤ n → forSuccessors p.add n s₀ = some s) ∧
      Added p s₀ (fun i _ ↦ i ∈ s₀.frags) s := by
  have hwalk : ∃ N, ∀ n, N ≤ n → walk nextFrag p.visit n s₀.frags.head? s₀ =
      some (s₀.frags.foldl p.visit s₀) :=
    walk_eq_foldl_of_grows (P := fun s ↦ Closed s ∧ p.LinksOk s)
      (fun s hs ↦ path_nextFrag hs.1.nodup) (fun _ _ _ _ hs hl ↦ grows_visit hp hs.1 hs.2 hl)
      (d := []) ⟨hs₀, hlinks⟩ rfl
  refine ⟨_, hwalk, ?_⟩
  suffices h : ∀ (l : List FragmentId) (edges : FragmentId → Slot → Prop) (s : State), l.Nodup →
      (∀ i ∈ l, i ∈ s₀.frags ∧ ∀ k, ¬ edges i k) → Added p s₀ edges s →
      Added p s₀ (fun a b ↦ edges a b ∨ a ∈ l) (l.foldl p.visit s) by
    have hall := h s₀.frags _ s₀ hs₀.nodup (fun i hi ↦ ⟨hi, fun _ ↦ id⟩) (added_refl hs₀ hlinks)
    exact hall.congr fun a b ↦ by simp
  intro l
  induction l with
  | nil =>
    intro edges s _ _ hs
    exact hs.congr fun a b ↦ by simp
  | cons i l ih =>
    intro edges s hn hl hs
    rw [List.nodup_cons] at hn
    obtain ⟨hi, hk⟩ := hl i List.mem_cons_self
    have hrest := ih _ _ hn.2 (fun a ha ↦ ?_) (added_visit hp hs₀ hs hi hk)
    · exact hrest.congr fun a b ↦ by rw [List.mem_cons]; tauto
    · obtain ⟨ha', hk'⟩ := hl a (List.mem_cons_of_mem i ha)
      refine ⟨ha', fun k h ↦ h.elim (hk' k) fun he ↦ ?_⟩
      rw [he] at ha
      exact hn.1 ha

end Pass

end Granary.Assemble.AddEntryAndExitFragments
