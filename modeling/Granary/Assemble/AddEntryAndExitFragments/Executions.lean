import Granary.Assemble.AddEntryAndExitFragments.Adding
import Granary.Base.Language
import Granary.Base.Run

namespace Granary.Assemble.AddEntryAndExitFragments

open Function Granary.Base Granary.Base.Iterate Granary.Base.Run Granary.Base.Language Granary.Code
open Granary.Assemble.AnalyzeFlagsUse
open Granary.Assemble.TrackVirtualRegs (body)

def partitionEntries : Pass := ⟨isPartitionEntry, .partitionEntry, fun _ succ ↦ succ⟩

def partitionExits : Pass := ⟨isPartitionExit, .partitionExit, fun curr _ ↦ curr⟩

def flagEntries : Pass := ⟨isFlagEntry, .flagEntry, fun _ succ ↦ succ⟩

def flagExits : Pass := ⟨isFlagExit, .flagExit, fun curr _ ↦ curr⟩

section Ok

variable {s s' : State} {i j : FragmentId}

theorem isCfi_congr (h : body (s'.heap i) = body (s.heap i)) (hc : s'.branchIsCfi = s.branchIsCfi) :
    s'.isCfi i = s.isCfi i := by
  obtain ⟨-, -, -, -, hbranch⟩ := State.fields_of_body h
  rw [State.isCfi, State.isCfi, hbranch, hc]

theorem isFlagInstCode_congr (h : body (s'.heap i) = body (s.heap i)) (hz : s'.zone = s.zone) :
    isFlagInstCode s' i = isFlagInstCode s i := by
  obtain ⟨-, -, hzone, hkind, -⟩ := State.fields_of_body h
  rw [isFlagInstCode, isFlagInstCode, hkind, hzone, hz]

theorem partitionEntries_ok : partitionEntries.Ok where
  congr hi hj _ hc := by
    obtain ⟨hcls, hpart, -, -, -⟩ := State.fields_of_body hi
    obtain ⟨hcls', hpart', -, -, -⟩ := State.fields_of_body hj
    simp only [partitionEntries, isPartitionEntry, hcls, hpart, hcls', hpart', isCfi_congr hj hc]
  own h := if_pos h
  into {s i j} h := (ite_congr rfl (fun _ ↦ rfl) fun _ ↦ if_pos h).trans (ite_self _)
  inherit _ _ := Or.inr rfl

theorem partitionExits_ok : partitionExits.Ok where
  congr hi hj _ hc := by
    obtain ⟨hcls, hpart, -, -, -⟩ := State.fields_of_body hi
    obtain ⟨hcls', hpart', -, -, -⟩ := State.fields_of_body hj
    simp only [partitionExits, isPartitionExit, hcls, hpart, hcls', hpart', isCfi_congr hi hc]
  own h := if_pos h
  into {s i j} h := (ite_congr rfl (fun _ ↦ rfl) fun _ ↦ if_pos h).trans (ite_self _)
  inherit _ _ := Or.inl rfl

theorem flagEntries_ok : flagEntries.Ok where
  congr hi hj hz _ := by
    obtain ⟨hcls, hpart, hzone, -, -⟩ := State.fields_of_body hi
    obtain ⟨hcls', hpart', hzone', -, -⟩ := State.fields_of_body hj
    simp only [flagEntries, isFlagEntry, hcls, hpart, hzone, hcls', hpart', hzone',
      isFlagInstCode_congr hj hz]
  own h := if_pos h
  into {s i j} h := (ite_congr rfl (fun _ ↦ rfl) fun _ ↦ if_pos h).trans (ite_self _)
  inherit _ _ := Or.inr rfl

theorem flagExits_ok : flagExits.Ok where
  congr hi hj hz _ := by
    obtain ⟨hcls, hpart, hzone, -, -⟩ := State.fields_of_body hi
    obtain ⟨hcls', hpart', hzone', -, -⟩ := State.fields_of_body hj
    simp only [flagExits, isFlagExit, hcls, hpart, hzone, hcls', hpart', hzone',
      isFlagInstCode_congr hi hz]
  own h := if_pos h
  into {s i j} h := (ite_congr rfl (fun _ ↦ rfl) fun _ ↦ if_pos h).trans (ite_self _)
  inherit _ _ := Or.inl rfl

end Ok

/-- A fragment executes its instructions and goes on to one of its successors. -/
def flow (h : Heap) : System FragmentId Code.Instruction := fun i ↦ ((h i).instrs, (h i).successors)

namespace Pass

variable {p : Pass} {s₀ s : State} {i j c : FragmentId} {k : Slot}

/-- The fragment that a fragment stands for: one of the pass, for the fragment that it leads to. -/
def target (p : Pass) (s : State) (i : FragmentId) : FragmentId :=
  if s.cls i = p.cls then (s.heap i).fallThrough.getD i else i

def depth (p : Pass) (s : State) (i : FragmentId) : ℕ := if s.cls i = p.cls then 1 else 0

theorem target_of_guards (hg : Guards p.cls j (s.heap i)) : target p s i = j := by
  rw [target, if_pos (show s.cls i = p.cls from hg.cls), hg.fallThrough, Option.getD_some]

theorem target_of_ne (hi : s.cls i ≠ p.cls) : target p s i = i := if_neg hi

/-- Fragments of the pass that are there before it lead to other fragments. -/
def Prepared (p : Pass) (s : State) : Prop :=
  ∀ i ∈ s.frags, s.cls i = p.cls → ∃ j ∈ s.frags, Guards p.cls j (s.heap i) ∧ s.cls j ≠ p.cls

/-- An edge of a pass: one that was kept, one to a fragment of the pass, or one from it. -/
theorem Added.edge (hs₀ : Closed s₀) (hs : Added p s₀ (fun i _ ↦ i ∈ s₀.frags) s) (hi : i ∈ s.frags)
    (hc : (s.heap i).successor k = some c) :
    (i ∈ s₀.frags ∧ (s₀.heap i).successor k = some c ∧ p.isEnd s₀ i c = false) ∨
      (i ∈ s₀.frags ∧ c ∈ s.frags ∧ ∃ j, (s₀.heap i).successor k = some j ∧ p.isEnd s₀ i j = true ∧
        Guards p.cls j (s.heap c) ∧ s.partition c = s₀.partition (p.inherit i j)) ∨
      (s₀.next ≤ i ∧ ∃ x ∈ s₀.frags, ∃ l, (s₀.heap x).successor l = some c ∧
        p.isEnd s₀ x c = true ∧ s.heap i = p.made s₀ i x c) := by
  rcases (hs.frags i).mp hi with hi | hi
  · obtain ⟨j, hj, ⟨rfl, hend⟩ | ⟨-, hend, hc, hg, hpart⟩⟩ := hs.successor hs₀ hi hc
    · exact Or.inl ⟨hi, hj, hend hi⟩
    · exact Or.inr (Or.inl ⟨hi, hc, j, hj, hend, hg, hpart⟩)
  · obtain ⟨x, hx, l, j, hj, hend, hm⟩ := hs.made i hi.1 hi.2
    rw [hm] at hc
    obtain rfl := (guards_made s₀ i x j).successor hc
    exact Or.inr (Or.inr ⟨hi.1, x, hx, l, hj, hend, hm⟩)

section Run

variable (hp : p.Ok) (hs₀ : Closed s₀) (hs : Added p s₀ (fun i _ ↦ i ∈ s₀.frags) s)
include hs₀ hs

theorem cls_of_old (hi : i ∈ s₀.frags) : s.cls i = s₀.cls i :=
  (State.fields_of_body (hs.same i (hs₀.lt_next i hi))).1

theorem instrs_of_old (hi : i ∈ s₀.frags) : (s.heap i).instrs = (s₀.heap i).instrs :=
  (congrArg Fragment.instrs (hs.same i (hs₀.lt_next i hi)) :)

include hp

theorem successor_of_cls (hi : i ∈ s₀.frags) (hcls : s₀.cls i = p.cls) (k : Slot) :
    (s.heap i).successor k = (s₀.heap i).successor k := by
  cases hj : (s₀.heap i).successor k with
  | none => exact hs.none i (hs₀.lt_next i hi) k hj
  | some j => exact hs.skipped i hi k j hi hj (hp.own hcls)

variable (hpre : Prepared p s₀)
include hpre

theorem guards_of_cls (hi : i ∈ s.frags) (hcls : s.cls i = p.cls) :
    ∃ j ∈ s₀.frags, Guards p.cls j (s.heap i) ∧ s.cls j ≠ p.cls := by
  rcases (hs.frags i).mp hi with hi | hi
  · have hcls₀ := (cls_of_old hs₀ hs hi).symm.trans hcls
    obtain ⟨j, hj, hg, hne⟩ := hpre i hi hcls₀
    have hsame := hs.same i (hs₀.lt_next i hi)
    refine ⟨j, hj, ⟨hcls, ?_, ?_, ?_, ?_, ?_⟩, by rwa [cls_of_old hs₀ hs hj]⟩
    · exact (State.fields_of_body hsame).2.2.2.1.trans hg.kind
    · exact (instrs_of_old hs₀ hs hi).trans hg.instrs
    · exact (State.fields_of_body hsame).2.2.2.2.trans hg.branchInstr
    · exact (successor_of_cls hp hs₀ hs hi hcls₀ .fallThrough).trans hg.fallThrough
    · exact (successor_of_cls hp hs₀ hs hi hcls₀ .branch).trans hg.branch
  · obtain ⟨x, hx, k, j, hj, hend, hm⟩ := hs.made i hi.1 hi.2
    have hjmem := hs₀.succ x hx k j hj
    refine ⟨j, hjmem, hm ▸ guards_made s₀ i x j, fun h ↦ ?_⟩
    rw [cls_of_old hs₀ hs hjmem] at h
    exact Bool.false_ne_true ((hp.into h).symm.trans hend)

/-- An edge of the old list leads, past a fragment of the pass, to where the new one does. -/
theorem leads_target (hi : i ∈ s₀.frags) {q : FragmentId} (hq : (s₀.heap i).successor k = some q) :
    ∃ c, (s.heap i).successor k = some c ∧ Leads (flow s₀.heap) q [] (target p s c) := by
  have hqmem := hs₀.succ i hi k q hq
  cases hend : p.isEnd s₀ i q with
  | true =>
    obtain ⟨c, -, hc, hg, -⟩ := hs.done i hi k q hi hq hend
    refine ⟨c, hc, ?_⟩
    rw [target_of_guards hg]
    exact .refl q
  | false =>
    refine ⟨q, hs.skipped i hi k q hi hq hend, ?_⟩
    by_cases hcls : s.cls q = p.cls
    · have hcls₀ := (cls_of_old hs₀ hs hqmem).symm.trans hcls
      obtain ⟨j, -, hg, -⟩ := guards_of_cls hp hs₀ hs hpre ((hs.frags q).mpr (Or.inl hqmem)) hcls
      obtain ⟨j', -, hg', -⟩ := hpre q hqmem hcls₀
      have hjj : j' = j := by
        have h := successor_of_cls hp hs₀ hs hqmem hcls₀ .fallThrough
        exact Option.some.inj (hg'.fallThrough.symm.trans (h.symm.trans hg.fallThrough))
      have hsaid : flow s₀.heap q = ([], [j]) := by
        rw [flow, hg'.instrs, hg'.successors, hjj]
      have h := Leads.single (S := flow s₀.heap) (p := q) (q := j) (by rw [hsaid])
      rw [hsaid] at h
      rw [target_of_guards hg]
      exact h
    · rw [target_of_ne hcls]
      exact .refl q

theorem folds (hi : i ∈ s.frags) : Folds (flow s₀.heap) (flow s.heap) (target p s) (depth p s) i := by
  by_cases hcls : s.cls i = p.cls
  · obtain ⟨j, -, hg, hne⟩ := guards_of_cls hp hs₀ hs hpre hi hcls
    have hflow : flow s.heap i = ([], [j]) := by rw [flow, hg.instrs, hg.successors]
    refine Folds.of_tail (g := j) ?_ hflow ?_
    · rw [target_of_guards hg, target_of_ne hne]
      exact .refl j
    · rw [depth, depth, if_pos hcls, if_neg hne]
      exact Nat.zero_lt_one
  · have hold : i ∈ s₀.frags := by
      refine ((hs.frags i).mp hi).resolve_right fun h ↦ hcls ?_
      obtain ⟨x, -, -, j, -, -, hm⟩ := hs.made i h.1 h.2
      rw [State.cls, hm]
      rfl
    have hlead : Leads (flow s₀.heap) (target p s i) [] i := by
      rw [target_of_ne hcls]
      exact .refl i
    refine Folds.of_leads hlead ?_ (fun q hq ↦ ?_) fun c hc ↦ ?_
    · rw [List.nil_append]
      exact instrs_of_old hs₀ hs hold
    · obtain ⟨k, hk⟩ := Fragment.mem_successors.mp hq
      obtain ⟨c, hc, hlead⟩ := leads_target hp hs₀ hs hpre hold hk
      exact ⟨c, Fragment.mem_successors.mpr ⟨k, hc⟩, hlead⟩
    · obtain ⟨k, hk⟩ := Fragment.mem_successors.mp hc
      obtain ⟨q, hq, -⟩ := hs.successor hs₀ hold hk
      obtain ⟨c', hc', hlead⟩ := leads_target hp hs₀ hs hpre hold hq
      obtain rfl := Option.some.inj (hk.symm.trans hc')
      exact ⟨q, Fragment.mem_successors.mpr ⟨k, hq⟩, hlead⟩

theorem run_target_iff (hi : i ∈ s.frags) (es : List Code.Instruction) :
    Run (flow s.heap) i es ↔ Run (flow s₀.heap) (target p s i) es := by
  have hclosed := hs.closed hs₀
  refine run_iff_of_folds (P := (· ∈ s.frags)) (fun a ha c hc ↦ ?_)
    (fun a ha ↦ folds hp hs₀ hs hpre ha) hi
  obtain ⟨k, hk⟩ := Fragment.mem_successors.mp hc
  exact hclosed.succ a ha k c hk

theorem run_iff (hi : i ∈ s₀.frags) (hcls : s₀.cls i ≠ p.cls) (es : List Code.Instruction) :
    Run (flow s.heap) i es ↔ Run (flow s₀.heap) i es := by
  rw [run_target_iff hp hs₀ hs hpre ((hs.frags i).mpr (Or.inl hi)),
    target_of_ne (by rwa [cls_of_old hs₀ hs hi])]

end Run

end Pass

/-- What the search for flag zones does not change of a fragment. -/
def outline (f : Fragment) : Fragment :=
  { f with kind := .invalid, flagZone := 0, appFlags := {}, instFlags := {} }

/-- Two heaps whose fragments differ in their kinds, zones and flags only. -/
def SameOutline (h h' : Heap) : Prop := ∀ i, outline (h' i) = outline (h i)

theorem SameOutline.trans {h h' h'' : Heap} (ha : SameOutline h h') (hb : SameOutline h' h'') :
    SameOutline h h'' := fun i ↦ (hb i).trans (ha i)

theorem sameOutline_update (h : Heap) (i : FragmentId) {f : Fragment}
    (hf : outline f = outline (h i)) : SameOutline h (update h i f) := by
  intro a
  rcases eq_or_ne a i with rfl | ha
  · rwa [update_self]
  · rw [update_of_ne ha]

theorem sameOutline_foldl {α : Type*} {step : Heap → α → Heap} (hstep : ∀ h a, SameOutline h (step h a))
    (l : List α) (h : Heap) : SameOutline h (l.foldl step h) :=
  foldl_rel (R := SameOutline) (I := fun _ ↦ True) (fun _ _ ↦ rfl) (fun _ _ _ ↦ SameOutline.trans)
    (fun _ _ _ _ ↦ trivial) (fun h a _ _ ↦ hstep h a) trivial

theorem sameOutline_propagateFragKinds (frags : List FragmentId) (h : Heap) :
    SameOutline h (propagateFragKinds frags h) := by
  refine sameOutline_foldl (fun h i ↦ ?_) _ h
  unfold propagateFragKind
  have hsuccs (l : List FragmentId) :
      SameOutline h (l.foldl (fun h j ↦ update h i { h i with kind := (h j).kind }) h) :=
    sameOutline_foldl (fun h j ↦ sameOutline_update h i (f := { h i with kind := (h j).kind }) rfl)
      l h
  dsimp only
  split_ifs
  · exact fun _ ↦ rfl
  · exact hsuccs _
  · exact (hsuccs _).trans (sameOutline_update _ i rfl)
  · exact (hsuccs _).trans (sameOutline_update _ i rfl)
  · exact sameOutline_update h i rfl
  · exact fun _ ↦ rfl

theorem fresh_propagateFragKinds (frags : List FragmentId) {h : Heap} (hf : Fresh h) :
    Fresh (propagateFragKinds frags h) := by
  have hupdate {h : Heap} (hf : Fresh h) (i : FragmentId) (kind : FragmentKind) :
      Fresh (update h i { h i with kind := kind }) := by
    intro a
    rcases eq_or_ne a i with rfl | ha
    · rw [update_self]
      exact hf a
    · rw [update_of_ne ha]
      exact hf a
  have hsuccs (i : FragmentId) (l : List FragmentId) {h : Heap} (hf : Fresh h) :
      Fresh (l.foldl (fun h j ↦ update h i { h i with kind := (h j).kind }) h) :=
    l.foldlRecOn _ hf fun _ hf j _ ↦ hupdate hf i _
  refine frags.reverse.foldlRecOn _ hf fun h hf i _ ↦ ?_
  unfold propagateFragKind
  dsimp only
  split_ifs
  · exact hf
  · exact hsuccs i _ hf
  · exact hupdate (hsuccs i _ hf) i _
  · exact hupdate (hsuccs i _ hf) i _
  · exact hupdate hf i _
  · exact hf

theorem sameOutline_unionFlagZones (h : Heap) (i j : FragmentId) :
    SameOutline h (unionFlagZones h i j) := by
  intro a
  unfold unionFlagZones
  split_ifs <;> rfl

theorem sameOutline_combineFlagZone (i : FragmentId) (h : Heap) (j : FragmentId) :
    SameOutline h (combineFlagZone i h j) := by
  unfold combineFlagZone
  split_ifs
  · exact sameOutline_unionFlagZones h i j
  · exact (sameOutline_update h j (f := { h j with kind := .inst }) rfl).trans
      (sameOutline_unionFlagZones _ i j)
  · exact fun _ ↦ rfl
  · exact fun _ ↦ rfl

theorem sameOutline_combineFlagZones (frags : List FragmentId) (h : Heap) :
    SameOutline h (combineFlagZones frags h) := by
  refine sameOutline_foldl (fun h i ↦ ?_) frags h
  split_ifs
  · exact sameOutline_foldl (sameOutline_combineFlagZone i) _ h
  · exact fun _ ↦ rfl

theorem sameOutline_of_shape {h h' : Heap} (hs : ∀ i, shape (h' i) = shape (h i)) :
    SameOutline h h' := fun i ↦ (congrArg outline (hs i) :)

/-- The analysis stops with flags that solve its equations, and changes nothing else. -/
theorem analyzeFlagsUse_stops {frags : List FragmentId} (hn : frags.Nodup) {h : Heap}
    (hf : Fresh h) : ∃ h', (∃ N, ∀ n, N ≤ n → analyzeFlagsUse frags n h = some h') ∧
      (∀ i, shape (h' i) = shape (h i)) ∧ ∀ i ∈ frags, Solved frags h' i := by
  obtain ⟨t, hshape, hthrough, hquiet, hstops⟩ := analysis_stops frags hf
  have hlast (i : FragmentId) : shape ((flagsPass frags t).1 i) = shape (t i) :=
    sweep_preserves (P := fun (g : Heap) ↦ shape (g i) = shape (t i))
      (fun j _ g hg ↦ (tryUpdate_shape g j i).trans hg) rfl
  have hkept := sweep_preserves (l := frags.reverse) (P := fun (g : Heap) ↦ ∀ i, (g i).kind ≠ .app →
    (g i).appFlags.entryLiveFlags = (g i).appFlags.exitLiveFlags)
    (fun j _ g hg ↦ through_tryUpdate hg j) hthrough
  exact ⟨_, hstops, fun i ↦ (hlast i).trans (hshape i), fun i hi ↦ solved_of_quiet hn hquiet hkept hi⟩

/-- The list as the passes before leave it: the fragments hold code or leave the trace, their flags,
zones and links are as the constructors leave them. -/
structure Ready (s : State) : Prop where
  closed : Closed s
  nonempty : s.frags ≠ []
  cls : ∀ i ∈ s.frags, s.cls i = .code ∨ s.cls i = .nonLocalEntry ∨ s.cls i = .exit
  flags : Fresh s.heap
  flagZone : ∀ i, s.flagZone i = i
  zone : ∀ i, s.zone i = {}
  unlinked : ∀ i, s.entryExitFrag i = none

structure Stages (s z f a b c d : State) : Prop where
  zones : ∃ h, (∃ N, ∀ n, N ≤ n →
      analyzeFlagsUse s.frags n (propagateFragKinds s.frags s.heap) = some h) ∧
    (∀ i, shape (h i) = shape (propagateFragKinds s.frags s.heap i)) ∧
    (∀ i ∈ s.frags, Solved s.frags h i) ∧
    z = updateFlagZones (s.setHeap (combineFlagZones s.frags h))
  first : ∃ i, s.frags.head? = some i ∧ f = addFirstEntry i (resetEntryExitFrag z)
  entered : partitionEntries.Added f (fun i _ ↦ i ∈ f.frags) a
  exited : partitionExits.Added (resetEntryExitFrag a) (fun i _ ↦ i ∈ a.frags) b
  flagEntered : flagEntries.Added (resetEntryExitFrag b) (fun i _ ↦ i ∈ b.frags) c
  flagExited : flagExits.Added (resetEntryExitFrag (resetEntryExitFrag c)) (fun i _ ↦ i ∈ c.frags) d

theorem entryExitFrag_reset {s : State} (h : ∀ i ∉ s.frags, s.entryExitFrag i = none) (i : FragmentId) :
    (resetEntryExitFrag s).entryExitFrag i = none := by
  suffices hl : ∀ (l : List FragmentId) (e : FragmentId → Option FragmentId),
      (∀ i ∉ l, e i = none) → l.foldl (fun e i ↦ update e i none) e i = none from hl _ _ h
  intro l
  induction l with
  | nil => exact fun e he ↦ he i List.not_mem_nil
  | cons a l ih =>
    intro e he
    refine ih _ fun b hb ↦ ?_
    rcases eq_or_ne b a with rfl | hne
    · exact update_self _ _ _
    · exact (update_of_ne hne _ _).trans (he b fun h ↦ (List.mem_cons.mp h).elim hne hb)

theorem Pass.LinksOk.reset {p q : Pass} {s : State} (h : p.LinksOk s) :
    q.LinksOk (resetEntryExitFrag s) := by
  intro j c hc
  have hnone := entryExitFrag_reset (fun i hi ↦ by
    cases he : s.entryExitFrag i with
    | none => rfl
    | some x => exact absurd (h i x he).1 hi) j
  exact absurd (hnone.symm.trans hc) (Option.some_ne_none c).symm

theorem Closed.of_same {s s' : State} (hs : Closed s) (hf : s'.frags = s.frags) (hn : s'.next = s.next)
    (hh : ∀ i k, (s'.heap i).successor k = (s.heap i).successor k) : Closed s' := by
  refine ⟨hf ▸ hs.nodup, fun i hi ↦ ?_, fun i hi k j hj ↦ ?_⟩
  · rw [hn]
    exact hs.lt_next i (hf ▸ hi)
  · rw [hf]
    exact hs.succ i (hf ▸ hi) k j ((hh i k).symm.trans hj)

theorem Closed.reset {s : State} (hs : Closed s) : Closed (resetEntryExitFrag s) :=
  hs.of_same rfl rfl fun _ _ ↦ rfl

theorem Closed.outline {s s' : State} (hs : Closed s) (hf : s'.frags = s.frags)
    (hn : s'.next = s.next) (hh : SameOutline s.heap s'.heap) : Closed s' := by
  refine hs.of_same hf hn fun i k ↦ ?_
  cases k with
  | fallThrough => exact (congrArg Fragment.fallThrough (hh i) :)
  | branch => exact (congrArg Fragment.branch (hh i) :)

section FirstEntry

variable {s : State} {i : FragmentId}

theorem heap_addFirstEntry_of_ne {a : FragmentId} (ha : a ≠ s.next) :
    (addFirstEntry i s).heap a = s.heap a := by
  unfold addFirstEntry
  split_ifs
  · rfl
  · exact update_of_ne ha _ _

theorem addFirstEntry_cases (i : FragmentId) (s : State) :
    s.isCfi i = true ∧ addFirstEntry i s = s ∨
      s.isCfi i = false ∧ (addFirstEntry i s).frags = s.next :: s.frags ∧
        (addFirstEntry i s).next = s.next + 1 ∧
        (addFirstEntry i s).heap s.next = partitionEntries.made s s.next i i ∧
        (addFirstEntry i s).entryExitFrag = update s.entryExitFrag i (some s.next) := by
  unfold addFirstEntry
  split_ifs with h
  · exact Or.inl ⟨h, rfl⟩
  · exact Or.inr ⟨Bool.eq_false_iff.mpr h, rfl, rfl, update_self _ _ _, rfl⟩

theorem closed_addFirstEntry (hs : Closed s) (hi : i ∈ s.frags) : Closed (addFirstEntry i s) := by
  rcases addFirstEntry_cases i s with ⟨-, h⟩ | ⟨-, hf, hn, hh, -⟩
  · rwa [h]
  · have hne {a : FragmentId} (ha : a ∈ s.frags) : a ≠ s.next := (hs.lt_next a ha).ne
    refine ⟨?_, fun a ha ↦ ?_, fun a ha k j hj ↦ ?_⟩
    · rw [hf]
      exact List.nodup_cons.mpr ⟨fun h ↦ hne h rfl, hs.nodup⟩
    · rw [hf, List.mem_cons] at ha
      rw [hn]
      rcases ha with rfl | ha
      · exact Nat.lt_succ_self _
      · exact Nat.lt_succ_of_lt (hs.lt_next a ha)
    · rw [hf, List.mem_cons] at ha ⊢
      rcases ha with rfl | ha
      · rw [hh] at hj
        rw [(Pass.guards_made s s.next i i).successor hj]
        exact Or.inr hi
      · rw [heap_addFirstEntry_of_ne (hne ha)] at hj
        exact Or.inr (hs.succ a ha k j hj)

theorem linksOk_addFirstEntry (hi : i ∈ s.frags)
    (hlinks : ∀ a, s.entryExitFrag a = none) : partitionEntries.LinksOk (addFirstEntry i s) := by
  intro j c hc
  rcases addFirstEntry_cases i s with ⟨-, h⟩ | ⟨-, hf, -, hh, he⟩
  · rw [h, hlinks] at hc
    exact absurd hc (Option.some_ne_none c).symm
  · rw [he] at hc
    rcases eq_or_ne j i with rfl | hj
    · rw [update_self] at hc
      obtain rfl := Option.some.inj hc
      rw [hf, hh]
      exact ⟨List.mem_cons_of_mem _ hi, List.mem_cons_self, Pass.guards_made s s.next j j⟩
    · rw [update_of_ne hj, hlinks] at hc
      exact absurd hc (Option.some_ne_none c).symm

end FirstEntry

theorem exists_stages {s : State} (hs : Ready s) : ∃ z f a b c d, Stages s z f a b c d ∧
    ∃ N, ∀ n, N ≤ n → addEntryAndExitFragments n s =
      some (propagateCodeCacheKinds (labelPartitions d)) := by
  obtain ⟨h, ⟨Nz, hz⟩, hshape, hsolved⟩ :=
    analyzeFlagsUse_stops hs.closed.nodup (fresh_propagateFragKinds s.frags hs.flags)
  generalize hzeq : updateFlagZones (s.setHeap (combineFlagZones s.frags h)) = z
  have hfrags : z.frags = s.frags := hzeq ▸ rfl
  have hnext : z.next = s.next := hzeq ▸ rfl
  have hheap : z.heap = combineFlagZones s.frags h := hzeq ▸ rfl
  have hlinks : z.entryExitFrag = s.entryExitFrag := hzeq ▸ rfl
  obtain ⟨i, l, hl⟩ := List.exists_cons_of_ne_nil hs.nonempty
  have hclosed : Closed z := hs.closed.outline hfrags hnext (by
    rw [hheap]
    exact ((sameOutline_propagateFragKinds _ _).trans (sameOutline_of_shape hshape)).trans
      (sameOutline_combineFlagZones _ _))
  have hi : i ∈ (resetEntryExitFrag z).frags := by
    rw [show (resetEntryExitFrag z).frags = z.frags from rfl, hfrags, hl]
    exact List.mem_cons_self
  have hunlinked (a : FragmentId) : (resetEntryExitFrag z).entryExitFrag a = none :=
    entryExitFrag_reset (fun b _ ↦ by rw [hlinks, hs.unlinked]) a
  have hf := closed_addFirstEntry hclosed.reset hi
  obtain ⟨a, ⟨Na, ha⟩, hadded⟩ := Pass.added_forSuccessors partitionEntries_ok hf
    (linksOk_addFirstEntry hi hunlinked)
  obtain ⟨b, ⟨Nb, hb⟩, hbadded⟩ := Pass.added_forSuccessors partitionExits_ok
    (hadded.closed hf).reset hadded.links.reset
  have hbc := (hbadded.closed (hadded.closed hf).reset).reset
  obtain ⟨c, ⟨Nc, hc⟩, hcadded⟩ := Pass.added_forSuccessors flagEntries_ok hbc hbadded.links.reset
  have hcc := (hcadded.closed hbc).reset
  have hclinks : flagExits.LinksOk (resetEntryExitFrag c) := hcadded.links.reset
  obtain ⟨d, ⟨Nd, hd⟩, hdadded⟩ := Pass.added_forSuccessors flagExits_ok hcc.reset hclinks.reset
  refine ⟨z, _, a, b, c, d, ⟨⟨h, ⟨Nz, hz⟩, hshape, hsolved, hzeq.symm⟩,
    ⟨i, by rw [hl]; rfl, rfl⟩, hadded, hbadded, hcadded, hdadded⟩,
    Nz + Na + Nb + Nc + Nd, fun n hn ↦ ?_⟩
  have hhead : (resetEntryExitFrag z).frags.head? = some i := by
    rw [show (resetEntryExitFrag z).frags = z.frags from rfl, hfrags, hl]
    rfl
  have ha' : addEntryFragments isPartitionEntry .partitionEntry n
      (addFirstEntry i (resetEntryExitFrag z)) = some a := ha n (by omega)
  have hb' : addExitFragments isPartitionExit .partitionExit n a = some b := hb n (by omega)
  have hc' : addEntryFragments isFlagEntry .flagEntry n (resetEntryExitFrag b) = some c :=
    hc n (by omega)
  have hd' : addExitFragments isFlagExit .flagExit n (resetEntryExitFrag c) = some d := hd n (by omega)
  simp only [addEntryAndExitFragments, findFlagZones, hz n (by omega), Option.map_some, hzeq,
    Option.bind_eq_bind, Option.bind_some, hhead, ha', hb', hc', hd']

/-- Two states whose fragments differ in their attributes only. -/
structure Relabeled (s s' : State) : Prop where
  frags : s'.frags = s.frags
  next : s'.next = s.next
  zone : s'.zone = s.zone
  branchIsCfi : s'.branchIsCfi = s.branchIsCfi
  heap : ∀ i, { s'.heap i with attr := {} } = ({ s.heap i with attr := {} } : Fragment)

theorem Relabeled.refl (s : State) : Relabeled s s := ⟨rfl, rfl, rfl, rfl, fun _ ↦ rfl⟩

theorem Relabeled.trans {s s' s'' : State} (h : Relabeled s s') (h' : Relabeled s' s'') :
    Relabeled s s'' :=
  ⟨h'.frags.trans h.frags, h'.next.trans h.next, h'.zone.trans h.zone,
    h'.branchIsCfi.trans h.branchIsCfi, fun i ↦ (h'.heap i).trans (h.heap i)⟩

theorem relabeled_namePartition (r : State × ℕ) (i : FragmentId) :
    Relabeled r.1 (namePartition r i).1 := by
  unfold namePartition
  split
  · exact .refl _
  · exact ⟨rfl, rfl, rfl, rfl, fun _ ↦ rfl⟩

theorem relabeled_countPredecessors (l : List FragmentId) (s : State) :
    Relabeled s (l.foldl countPredecessor s) :=
  have hstep : ∀ t, ∀ i ∈ l, True → Relabeled t (countPredecessor t i) :=
    fun _ _ _ _ ↦ ⟨rfl, rfl, rfl, rfl, fun _ ↦ rfl⟩
  foldl_rel Relabeled.refl (fun _ _ _ ↦ Relabeled.trans) (fun _ _ _ _ ↦ trivial) hstep trivial

theorem relabeled_markFollower (s : State) (i : FragmentId) : Relabeled s (markFollower s i) := by
  unfold markFollower
  split
  · split_ifs
    · refine ⟨rfl, rfl, rfl, rfl, fun a ↦ ?_⟩
      rename_i j _ _
      rcases eq_or_ne a j with rfl | ha
      · rw [show (s.setHeap (update s.heap a _)).heap a = _ from update_self _ _ _]
      · rw [show (s.setHeap (update s.heap j _)).heap a = _ from update_of_ne ha _ _]
    · exact .refl s
  · exact .refl s

theorem relabeled_labelPartitions (s : State) : Relabeled s (labelPartitions s) := by
  refine foldl_rel (R := fun r r' : State × ℕ ↦ Relabeled r.1 r'.1) (I := fun _ ↦ True)
    (s := (s, 0)) (fun r ↦ .refl r.1) (fun _ _ _ ↦ Relabeled.trans)
    (fun _ _ _ _ ↦ trivial) (fun r i _ _ ↦ ?_) trivial
  exact ((relabeled_namePartition r i).trans (relabeled_countPredecessors _ _)).trans
    (relabeled_markFollower _ i)

theorem propagateCodeCacheKinds_eq (s : State) : propagateCodeCacheKinds s = s := by
  have hsucc (i : FragmentId) (s : State) (j : FragmentId) : propagateCodeCacheKind i s j = s := by
    unfold propagateCodeCacheKind
    split_ifs with h
    · rw [h.2]
      exact congrArg (fun h ↦ s.setHeap h) (update_eq_self j s.heap)
    · rfl
  have hfold (i : FragmentId) (s : State) (l : List FragmentId) :
      l.foldl (propagateCodeCacheKind i) s = s := by
    induction l with
    | nil => rfl
    | cons j l ih => rw [List.foldl_cons, hsucc, ih]
  have hall (l : List FragmentId) : l.foldl
      (fun s i ↦ (s.heap i).successors.foldl (propagateCodeCacheKind i) s) s = s := by
    induction l with
    | nil => rfl
    | cons i l ih => rw [List.foldl_cons, hfold, ih]
  exact hall s.frags

/-- No fragment of the list is of class `c`. -/
def Lacks (c : FragmentClass) (s : State) : Prop := ∀ i ∈ s.frags, s.cls i ≠ c

theorem Lacks.prepared {p : Pass} {s : State} (h : Lacks p.cls s) : Pass.Prepared p s :=
  fun i hi hcls ↦ absurd hcls (h i hi)

theorem Pass.Added.cls {p : Pass} {s₀ s : State} {edges : FragmentId → Slot → Prop}
    (hs₀ : Closed s₀) (hs : Added p s₀ edges s) {i : FragmentId} (hi : i ∈ s.frags) :
    i ∈ s₀.frags ∧ s.cls i = s₀.cls i ∨ s₀.next ≤ i ∧ s.cls i = p.cls := by
  rcases (hs.frags i).mp hi with hi | hi
  · exact Or.inl ⟨hi, (State.fields_of_body (hs.same i (hs₀.lt_next i hi))).1⟩
  · obtain ⟨x, -, _, j, -, -, hm⟩ := hs.made i hi.1 hi.2
    exact Or.inr ⟨hi.1, by rw [State.cls, hm]; rfl⟩

theorem Lacks.added {p : Pass} {s₀ s : State} {edges : FragmentId → Slot → Prop} {c : FragmentClass}
    (h : Lacks c s₀) (hs₀ : Closed s₀) (hs : p.Added s₀ edges s) (hc : p.cls ≠ c) : Lacks c s := by
  intro i hi
  rcases hs.cls hs₀ hi with ⟨hi, hcls⟩ | ⟨-, hcls⟩
  · rw [hcls]
    exact h i hi
  · rwa [hcls]

theorem flow_of_outline {h h' : Heap} (ho : SameOutline h h') : flow h' = flow h := by
  funext i
  have hinstrs : (h' i).instrs = (h i).instrs := (congrArg Fragment.instrs (ho i) :)
  have hsuccs : (h' i).successors = (h i).successors := (congrArg Fragment.successors (ho i) :)
  rw [flow, flow, hinstrs, hsuccs]

theorem flow_of_relabeled {s s' : State} (h : Relabeled s s') : flow s'.heap = flow s.heap := by
  funext i
  have hinstrs : (s'.heap i).instrs = (s.heap i).instrs := (congrArg Fragment.instrs (h.heap i) :)
  have hsuccs : (s'.heap i).successors = (s.heap i).successors :=
    (congrArg Fragment.successors (h.heap i) :)
  rw [flow, flow, hinstrs, hsuccs]

namespace Stages

variable {s z f a b c d : State} (hs : Ready s) (hst : Stages s z f a b c d)
include hst

theorem zoned : z.frags = s.frags ∧ z.next = s.next ∧ z.branchIsCfi = s.branchIsCfi ∧
    SameOutline s.heap z.heap := by
  obtain ⟨h, -, hshape, -, rfl⟩ := hst.zones
  exact ⟨rfl, rfl, rfl, ((sameOutline_propagateFragKinds _ _).trans
    (sameOutline_of_shape hshape)).trans (sameOutline_combineFlagZones _ _)⟩

theorem mem_first {i : FragmentId} (hi : i ∈ s.frags) : i ∈ f.frags := by
  obtain ⟨hfrags, -, -, -⟩ := hst.zoned
  obtain ⟨x, -, rfl⟩ := hst.first
  rcases addFirstEntry_cases x (resetEntryExitFrag z) with ⟨-, h⟩ | ⟨-, hf, -, -, -⟩
  · rw [h, show (resetEntryExitFrag z).frags = z.frags from rfl, hfrags]
    exact hi
  · rw [hf, show (resetEntryExitFrag z).frags = z.frags from rfl, hfrags]
    exact List.mem_cons_of_mem _ hi

theorem branchIsCfi_first : f.branchIsCfi = z.branchIsCfi := by
  obtain ⟨x, -, rfl⟩ := hst.first
  unfold addFirstEntry
  split_ifs <;> rfl

theorem head_final : d.frags.head? = f.frags.head? :=
  ((hst.flagExited.head.trans hst.flagEntered.head).trans hst.exited.head).trans hst.entered.head

include hs

theorem closed : Closed z ∧ Closed f ∧ Closed a ∧ Closed b ∧ Closed c ∧ Closed d := by
  obtain ⟨hfrags, hnext, -, ho⟩ := hst.zoned
  have hz : Closed z := hs.closed.outline hfrags hnext ho
  obtain ⟨i, hi, rfl⟩ := hst.first
  have hf : Closed (addFirstEntry i (resetEntryExitFrag z)) := by
    refine closed_addFirstEntry hz.reset ?_
    rw [show (resetEntryExitFrag z).frags = z.frags from rfl, hfrags]
    exact List.mem_of_mem_head? hi
  have ha := hst.entered.closed hf
  have hb := hst.exited.closed ha.reset
  have hc := hst.flagEntered.closed hb.reset
  exact ⟨hz, hf, ha, hb, hc, hst.flagExited.closed hc.reset.reset⟩

theorem cls_first {i : FragmentId} (hi : i ∈ f.frags) :
    i ∈ s.frags ∧ f.heap i = z.heap i ∧ f.cls i = s.cls i ∨
      i = s.next ∧ ∃ j ∈ s.frags, s.frags.head? = some j ∧ f.frags.head? = some i ∧
        Guards .partitionEntry j (f.heap i) ∧ f.partition i = f.partition j ∧ f.cls j = s.cls j := by
  obtain ⟨hfrags, hnext, -, ho⟩ := hst.zoned
  obtain ⟨x, hx, rfl⟩ := hst.first
  have hcls (a : FragmentId) : z.cls a = s.cls a := (congrArg Fragment.cls (ho a) :)
  have hold {a : FragmentId} (ha : a ∈ s.frags) :
      (addFirstEntry x (resetEntryExitFrag z)).heap a = z.heap a := by
    refine heap_addFirstEntry_of_ne (ne_of_lt ?_)
    rw [show (resetEntryExitFrag z).next = z.next from rfl, hnext]
    exact hs.closed.lt_next a ha
  have hkeep {a : FragmentId} (ha : a ∈ s.frags) :
      (addFirstEntry x (resetEntryExitFrag z)).cls a = s.cls a :=
    (congrArg Fragment.cls (hold ha)).trans (hcls a)
  rcases addFirstEntry_cases x (resetEntryExitFrag z) with ⟨-, h⟩ | ⟨-, hf, -, hh, -⟩
  · rw [h] at hi
    have hi' : i ∈ s.frags := hfrags ▸ hi
    exact Or.inl ⟨hi', hold hi', hkeep hi'⟩
  · rw [hf] at hi
    rcases List.mem_cons.mp hi with rfl | hi
    · have hxmem := List.mem_of_mem_head? hx
      refine Or.inr ⟨hnext, x, hxmem, hx, by rw [hf]; rfl, ?_, ?_, hkeep hxmem⟩
      · rw [hh]
        exact Pass.guards_made (p := partitionEntries) _ _ x x
      · rw [State.partition, State.partition, hh, hold hxmem]
        rfl
    · have hi' : i ∈ s.frags := hfrags ▸ hi
      exact Or.inl ⟨hi', hold hi', hkeep hi'⟩

theorem lacks_first {k : FragmentClass} (hk : k = .partitionExit ∨ k = .flagEntry ∨ k = .flagExit) :
    Lacks k f := by
  intro i hi
  rcases cls_first hs hst hi with ⟨hi, -, hcls⟩ | ⟨-, j, -, -, -, hg, -, -⟩
  · rw [hcls]
    rcases hs.cls i hi with h | h | h <;> rcases hk with rfl | rfl | rfl <;> simp [h]
  · rw [State.cls, hg.cls]
    rcases hk with rfl | rfl | rfl <;> simp

theorem prepared_partitionEntries : Pass.Prepared partitionEntries f := by
  intro i hi hcls
  rcases cls_first hs hst hi with ⟨hi, -, h⟩ | ⟨-, j, hj, -, -, hg, -, hclsj⟩
  · rw [h] at hcls
    rcases hs.cls i hi with h' | h' | h' <;> rw [h'] at hcls <;> exact absurd hcls (by decide)
  · refine ⟨j, mem_first hst hj, hg, ?_⟩
    rw [hclsj]
    rcases hs.cls j hj with h' | h' | h' <;> rw [h'] <;> decide

theorem lacks_partitionExits : Lacks .partitionExit a :=
  (lacks_first hs hst (.inl rfl)).added (closed hs hst).2.1 hst.entered (by decide)

theorem lacks_flagEntries : Lacks .flagEntry b := by
  obtain ⟨-, hf, ha, -⟩ := closed hs hst
  have h := (lacks_first hs hst (.inr (.inl rfl))).added hf hst.entered (by decide)
  have h' : Lacks .flagEntry (resetEntryExitFrag a) := h
  exact h'.added ha.reset hst.exited (by decide)

theorem lacks_flagExits : Lacks .flagExit c := by
  obtain ⟨-, hf, ha, hb, -⟩ := closed hs hst
  have h := (lacks_first hs hst (.inr (.inr rfl))).added hf hst.entered (by decide)
  have h' : Lacks .flagExit (resetEntryExitFrag a) := h
  have hb' : Lacks .flagExit b := h'.added ha.reset hst.exited (by decide)
  have hb'' : Lacks .flagExit (resetEntryExitFrag b) := hb'
  exact hb''.added hb.reset hst.flagEntered (by decide)

theorem run_after_entries {i : FragmentId} (hi : i ∈ a.frags) (es : List Code.Instruction) :
    i ∈ d.frags ∧ (Run (flow d.heap) i es ↔ Run (flow a.heap) i es) := by
  obtain ⟨-, hf, ha, hb, hc, -⟩ := closed hs hst
  have hib : i ∈ b.frags := (hst.exited.frags i).mpr (.inl hi)
  have hic : i ∈ c.frags := (hst.flagEntered.frags i).mpr (.inl hib)
  refine ⟨(hst.flagExited.frags i).mpr (.inl hic), ?_⟩
  have hl₃ : Lacks flagExits.cls c := lacks_flagExits hs hst
  have hl₂ : Lacks flagEntries.cls b := lacks_flagEntries hs hst
  have hl₁ : Lacks partitionExits.cls a := lacks_partitionExits hs hst
  have h₃ := Pass.run_iff flagExits_ok hc.reset.reset hst.flagExited
    (Lacks.prepared (s := resetEntryExitFrag (resetEntryExitFrag c)) hl₃) hic (hl₃ i hic) es
  have h₂ := Pass.run_iff flagEntries_ok hb.reset hst.flagEntered
    (Lacks.prepared (s := resetEntryExitFrag b) hl₂) hib (hl₂ i hib) es
  have h₁ := Pass.run_iff partitionExits_ok ha.reset hst.exited
    (Lacks.prepared (s := resetEntryExitFrag a) hl₁) hi (hl₁ i hi) es
  exact (h₃.trans h₂).trans h₁

theorem run_first {i : FragmentId} (hi : i ∈ s.frags) (es : List Code.Instruction) :
    Run (flow f.heap) i es ↔ Run (flow s.heap) i es := by
  obtain ⟨hfrags, -, -, ho⟩ := hst.zoned
  have hz := (closed hs hst).1
  rw [← flow_of_outline ho]
  refine run_congr (P := (· ∈ s.frags)) (fun x hx y hy ↦ ?_) (fun x hx ↦ ?_) hi
  · obtain ⟨k, hk⟩ := Fragment.mem_successors.mp hy
    have h := hz.succ x (by rwa [hfrags]) k y hk
    rwa [hfrags] at h
  · rcases cls_first hs hst (mem_first hst hx) with ⟨-, h, -⟩ | ⟨h, -⟩
    · rw [flow, flow, h]
    · exact absurd (hs.closed.lt_next x hx) (by rw [h]; exact lt_irrefl _)

theorem run_final {i : FragmentId} (hi : i ∈ s.frags) (es : List Code.Instruction) :
    i ∈ d.frags ∧ (Run (flow d.heap) i es ↔ Run (flow s.heap) i es) := by
  have hif := mem_first hst hi
  have hne : f.cls i ≠ .partitionEntry := by
    rcases cls_first hs hst hif with ⟨-, -, h⟩ | ⟨h, -⟩
    · rw [h]
      rcases hs.cls i hi with h' | h' | h' <;> rw [h'] <;> decide
    · exact absurd (hs.closed.lt_next i hi) (by rw [h]; exact lt_irrefl _)
  have hia : i ∈ a.frags := (hst.entered.frags i).mpr (.inl hif)
  obtain ⟨hid, hrun⟩ := run_after_entries hs hst hia es
  have h := Pass.run_iff partitionEntries_ok (closed hs hst).2.1 hst.entered
    (prepared_partitionEntries hs hst) hif hne es
  exact ⟨hid, (hrun.trans h).trans (run_first hs hst hi es)⟩

theorem run_head : ∃ i i', s.frags.head? = some i ∧ d.frags.head? = some i' ∧
    ∀ es, Run (flow d.heap) i' es ↔ Run (flow s.heap) i es := by
  obtain ⟨hfrags, -, -, -⟩ := hst.zoned
  obtain ⟨i, hi, hfi⟩ := hst.first
  have himem := List.mem_of_mem_head? hi
  rcases addFirstEntry_cases i (resetEntryExitFrag z) with ⟨-, h⟩ | ⟨-, h, -, hh, -⟩
  · refine ⟨i, i, hi, ?_, fun es ↦ (run_final hs hst himem es).2⟩
    rw [head_final hst, hfi, h, show (resetEntryExitFrag z).frags = z.frags from rfl, hfrags, hi]
  · rw [← hfi] at h hh
    refine ⟨i, z.next, hi, by rw [head_final hst, h]; rfl, fun es ↦ ?_⟩
    have hmem : z.next ∈ f.frags := by
      rw [h]
      exact List.mem_cons_self
    have hia : z.next ∈ a.frags := (hst.entered.frags _).mpr (.inl hmem)
    have hsame := hst.entered.same _ ((closed hs hst).2.1.lt_next _ hmem)
    have hg : Guards .partitionEntry i (a.heap z.next) := by
      obtain ⟨y, -, hgy, -⟩ := Pass.guards_of_cls partitionEntries_ok (closed hs hst).2.1 hst.entered
        (prepared_partitionEntries hs hst) hia ((State.fields_of_body hsame).1.trans (by
          rw [State.cls, show f.heap z.next = _ from hh]
          rfl))
      have hsucc := Pass.successor_of_cls partitionEntries_ok (closed hs hst).2.1 hst.entered hmem
        (by rw [State.cls, show f.heap z.next = _ from hh]; rfl) .fallThrough
      have hyi : i = y := by
        refine Option.some.inj (Eq.trans ?_ (hsucc.symm.trans hgy.fallThrough))
        rw [show f.heap z.next = _ from hh]
        rfl
      exact hyi ▸ hgy
    have hsilent : flow a.heap z.next = ([], [i]) := by rw [flow, hg.instrs, hg.successors]
    have hiad : i ∈ a.frags := (hst.entered.frags _).mpr (.inl (mem_first hst himem))
    rw [(run_after_entries hs hst hia es).2, run_iff_of_silent hsilent,
      ← (run_after_entries hs hst hiad es).2]
    exact (run_final hs hst himem es).2

end Stages

/-- `AddEntryAndExitFragments` ends, keeps the fragments of the list, and changes nothing of what is
executed from any of them or from the first fragment of the list. -/
theorem addEntryAndExitFragments_preserves {s : State} (hs : Ready s) :
    ∃ s', (∃ N, ∀ n, N ≤ n → addEntryAndExitFragments n s = some s') ∧ Closed s' ∧
      (∀ i ∈ s.frags, i ∈ s'.frags ∧ ∀ es, Run (flow s'.heap) i es ↔ Run (flow s.heap) i es) ∧
      ∃ i i', s.frags.head? = some i ∧ s'.frags.head? = some i' ∧
        ∀ es, Run (flow s'.heap) i' es ↔ Run (flow s.heap) i es := by
  obtain ⟨z, f, a, b, c, d, hst, N, hN⟩ := exists_stages hs
  have hlabels := relabeled_labelPartitions d
  have hfrags := hlabels.frags
  have hflow := flow_of_relabeled hlabels
  refine ⟨labelPartitions d, ⟨N, fun n hn ↦ ?_⟩, ?_, fun i hi ↦ ?_, ?_⟩
  · rw [hN n hn, propagateCodeCacheKinds_eq]
  · refine (hst.closed hs).2.2.2.2.2.of_same hfrags hlabels.next fun i k ↦ ?_
    exact (congrArg (fun f : Fragment ↦ f.successor k) (hlabels.heap i) :)
  · rw [hfrags, hflow]
    exact ⟨(Stages.run_final hs hst hi []).1, fun es ↦ (Stages.run_final hs hst hi es).2⟩
  · rw [hfrags, hflow]
    exact Stages.run_head hs hst

/-- Instrumentation that writes the arithmetic flags, before an instruction that reads `ZF` in
another partition. -/
def flagsBlock : State where
  list :=
    { frags := [0, 1, 2, 3]
      heap := fun i ↦
        if i = 0 then { kind := .app, fallThrough := some 1 }
        else if i = 1 then
          { kind := .inst, flagZone := 1, fallThrough := some 2
            instrs := [.native { instruction := { writtenFlags := allArithmeticFlags } }] }
        else if i = 2 then
          { kind := .app, partition := 2, flagZone := 2, fallThrough := some 3
            instrs := [.native { instruction := { readFlags := zf } }] }
        else { cls := .exit, kind := .app, partition := i, flagZone := i }
      next := 4 }

theorem flagsBlock_cases {i : FragmentId} (h : i ∈ flagsBlock.frags) :
    i = 0 ∨ i = 1 ∨ i = 2 ∨ i = 3 := by
  simpa [flagsBlock, State.frags] using h

theorem ready_flagsBlock : Ready flagsBlock where
  closed := by
    refine ⟨by decide, by decide, fun i hi k j hj ↦ ?_⟩
    rcases flagsBlock_cases hi with rfl | rfl | rfl | rfl <;> cases k
    · obtain rfl : 1 = j := Option.some.inj hj
      decide
    · exact absurd hj (Option.some_ne_none j).symm
    · obtain rfl : 2 = j := Option.some.inj hj
      decide
    · exact absurd hj (Option.some_ne_none j).symm
    · obtain rfl : 3 = j := Option.some.inj hj
      decide
    all_goals exact absurd hj (Option.some_ne_none j).symm
  nonempty := by decide
  cls i hi := by rcases flagsBlock_cases hi with rfl | rfl | rfl | rfl <;> decide
  flags i := by rcases i with _ | _ | _ | i <;> exact ⟨rfl, rfl⟩
  flagZone i := by rcases i with _ | _ | _ | i <;> rfl
  zone _ := rfl
  unlinked _ := rfl

theorem addEntryAndExitFragments_preserves_flagsBlock :
    ∃ s', (∃ N, ∀ n, N ≤ n → addEntryAndExitFragments n flagsBlock = some s') ∧ Closed s' ∧
      (∀ i ∈ flagsBlock.frags, i ∈ s'.frags ∧
        ∀ es, Run (flow s'.heap) i es ↔ Run (flow flagsBlock.heap) i es) ∧
      ∃ i i', flagsBlock.frags.head? = some i ∧ s'.frags.head? = some i' ∧
        ∀ es, Run (flow s'.heap) i' es ↔ Run (flow flagsBlock.heap) i es :=
  addEntryAndExitFragments_preserves ready_flagsBlock

end Granary.Assemble.AddEntryAndExitFragments
