import Granary.Assemble.AddEntryAndExitFragments.Boundaries
import Granary.Assemble.SaveAndRestoreFlags

namespace Granary.Assemble.AddEntryAndExitFragments

open Function Granary.Base Granary.Base.Bits Granary.Base.Iterate Granary.Base.Run Granary.Code
open Granary.Assemble.AnalyzeFlagsUse Granary.Assemble.SaveAndRestoreFlags

/-- The flags that the instructions of a fragment write are noted with its own kind of flags. -/
theorem written_of_quiet {frags : List FragmentId} (hn : frags.Nodup) {t : Heap}
    (hq : (flagsPass frags t).2 = false) {i : FragmentId} (hi : i ∈ frags) :
    Sub (writtenBy ((flagsPass frags t).1 i).instrs)
      (current ((flagsPass frags t).1 i)).allWrittenFlags := by
  obtain ⟨u, m, hs, hcur, -, -⟩ := quiet_turn hn hq hi
  generalize (flagsPass frags t).1 = v at *
  have hinstrs : (v i).instrs = (u i).instrs := (congrArg Fragment.instrs (hs.shape i) :)
  have hsame : current (v i) = current (u i) := by
    unfold current
    rw [hs.kind i]
    split_ifs with hk
    · exact hs.app i hk
    · exact hs.inst i
  rw [hsame, hcur, hinstrs, pending, newFlags, visitInstructions_eq]
  exact sub_or_right _ _

/-- What the search for zones needs of the flags of a fragment. -/
structure Analyzed (f : Fragment) : Prop where
  exit : f.isExit = true → Sub allArithmeticFlags f.appFlags.exitLiveFlags
  written : Sub (writtenBy f.instrs) (current f).allWrittenFlags
  app : f.kind = .app →
    f.appFlags.entryLiveFlags = backwardTransfer f.instrs f.appFlags.exitLiveFlags
  inst : f.kind ≠ .app → f.appFlags.entryLiveFlags = f.appFlags.exitLiveFlags

theorem analyzeFlagsUse_analyzed {frags : List FragmentId} (hn : frags.Nodup) {h : Heap}
    (hf : Fresh h) : ∃ h', (∃ N, ∀ n, N ≤ n → analyzeFlagsUse frags n h = some h') ∧
      (∀ i, shape (h' i) = shape (h i)) ∧ ∀ i ∈ frags, Analyzed (h' i) := by
  obtain ⟨t, hshape, hthrough, hquiet, hstops⟩ := analysis_stops frags hf
  have hkept := sweep_preserves (l := frags.reverse) (P := fun (g : Heap) ↦ ∀ i, (g i).kind ≠ .app →
    (g i).appFlags.entryLiveFlags = (g i).appFlags.exitLiveFlags)
    (fun j _ g hg ↦ through_tryUpdate hg j) hthrough
  have hsolved {i : FragmentId} (hi : i ∈ frags) := solved_of_quiet hn hquiet hkept hi
  refine ⟨_, hstops, fun i ↦ ?_,
    fun i hi ↦ ⟨fun hx ↦ ?_, written_of_quiet hn hquiet hi, (hsolved hi).appEntry, hkept i⟩⟩
  · exact sweep_preserves (P := fun (g : Heap) ↦ shape (g i) = shape (t i))
      (fun j _ g hg ↦ (tryUpdate_shape g j i).trans hg) rfl |>.trans (hshape i)
  · have hexit := (hsolved hi).appExit fun j hj ↦ by
      rw [liveSuccessors, if_pos hx] at hj
      exact absurd hj List.not_mem_nil
    rwa [liveFlagsOnExit, if_pos hx] at hexit

/-- Two heaps that differ in the flag zones, and in the kinds of fragments without flags, which have
turned from application into instrumentation fragments. -/
structure Combined (h h' : Heap) : Prop where
  same : ∀ i, { h' i with kind := .invalid, flagZone := 0 } =
    ({ h i with kind := .invalid, flagZone := 0 } : Fragment)
  kind : ∀ i, (h' i).kind = (h i).kind ∨ (h i).kind = .app ∧ (h' i).kind = .inst ∧
    (h i).isCode = true ∧ (h i).branchInstr = none ∧ (h i).appFlags.allWrittenFlags = 0

namespace Combined

variable {h h' h'' : Heap}

theorem refl (h : Heap) : Combined h h := ⟨fun _ ↦ rfl, fun _ ↦ .inl rfl⟩

theorem isCode (hc : Combined h h') (i : FragmentId) : (h' i).isCode = (h i).isCode :=
  (congrArg Fragment.isCode (hc.same i) :)

theorem successors (hc : Combined h h') (i : FragmentId) : (h' i).successors = (h i).successors :=
  (congrArg Fragment.successors (hc.same i) :)

theorem trans (hc : Combined h h') (hc' : Combined h' h'') : Combined h h'' := by
  refine ⟨fun i ↦ (hc'.same i).trans (hc.same i), fun i ↦ ?_⟩
  have hbranch : (h' i).branchInstr = (h i).branchInstr :=
    (congrArg Fragment.branchInstr (hc.same i) :)
  have happ : (h' i).appFlags = (h i).appFlags := (congrArg Fragment.appFlags (hc.same i) :)
  rcases hc'.kind i with hk | ⟨hk, hk', hcode, hb, hw⟩
  · rcases hc.kind i with hk' | ⟨ha, hi, hrest⟩
    · exact .inl (hk.trans hk')
    · exact .inr ⟨ha, hk.trans hi, hrest⟩
  · rcases hc.kind i with hk'' | ⟨-, hi, -⟩
    · exact .inr ⟨hk'' ▸ hk, hk', hc.isCode i ▸ hcode, hbranch ▸ hb, happ ▸ hw⟩
    · rw [hi] at hk
      exact absurd hk (by decide)

end Combined

theorem combined_unionFlagZones (h : Heap) (i j : FragmentId) : Combined h (unionFlagZones h i j) := by
  refine ⟨fun a ↦ ?_, fun a ↦ .inl ?_⟩ <;> unfold unionFlagZones <;> split_ifs <;> rfl

theorem combined_combineFlagZone (i : FragmentId) (h : Heap) (j : FragmentId) :
    Combined h (combineFlagZone i h j) := by
  unfold combineFlagZone
  split_ifs with hcode hkind happ
  · exact combined_unionFlagZones h i j
  · refine Combined.trans ⟨fun a ↦ ?_, fun a ↦ ?_⟩ (combined_unionFlagZones _ i j)
    · rcases eq_or_ne a j with rfl | ha
      · rw [update_self]
      · rw [update_of_ne ha]
    · rcases eq_or_ne a j with rfl | ha
      · rw [update_self]
        exact .inr ⟨happ.1, rfl, (Bool.and_eq_true _ _ ▸ hcode).1, happ.2.1, happ.2.2.2⟩
      · rw [update_of_ne ha]
        exact .inl rfl
  · exact .refl h
  · exact .refl h

theorem combined_combineFlagZones (frags : List FragmentId) (h : Heap) :
    Combined h (combineFlagZones frags h) := by
  refine foldl_rel (R := Combined) (I := fun _ ↦ True) .refl (fun _ _ _ ↦ .trans)
    (fun _ _ _ _ ↦ trivial) (fun h i _ _ ↦ ?_) trivial
  split_ifs
  · exact foldl_rel (R := Combined) (I := fun _ ↦ True) .refl (fun _ _ _ ↦ .trans)
      (fun _ _ _ _ ↦ trivial) (fun h j _ _ ↦ combined_combineFlagZone i h j) trivial
  · exact .refl h

theorem flagZone_combineFlagZones {frags : List FragmentId} {h : Heap}
    (hclosed : ∀ i ∈ frags, ∀ j ∈ (h i).successors, j ∈ frags)
    (hzone : ∀ i ∈ frags, (h i).flagZone ∈ frags) {i : FragmentId} (hi : i ∈ frags) :
    (combineFlagZones frags h i).flagZone ∈ frags := by
  have hunion {h : Heap} {i j : FragmentId} (hj : j ∈ frags)
      (hzone : ∀ i ∈ frags, (h i).flagZone ∈ frags) :
      ∀ a ∈ frags, (unionFlagZones h i j a).flagZone ∈ frags := by
    intro a ha
    unfold unionFlagZones
    split_ifs
    · exact hzone j hj
    · exact hzone a ha
  have hstep (i : FragmentId) (h : Heap) {j : FragmentId} (hj : j ∈ frags)
      (hzone : ∀ i ∈ frags, (h i).flagZone ∈ frags) :
      ∀ a ∈ frags, (combineFlagZone i h j a).flagZone ∈ frags := by
    unfold combineFlagZone
    split_ifs
    · exact hunion hj hzone
    · refine hunion hj fun a ha ↦ ?_
      rcases eq_or_ne a j with rfl | hne
      · rw [update_self]
        exact hzone a ha
      · rw [update_of_ne hne]
        exact hzone a ha
    · exact hzone
    · exact hzone
  suffices hall : ∀ l, (∀ i ∈ l, i ∈ frags) → ∀ h' : Heap, Combined h h' →
      (∀ i ∈ frags, (h' i).flagZone ∈ frags) →
      ∀ a ∈ frags, (combineFlagZones l h' a).flagZone ∈ frags from
    hall frags (fun _ ↦ id) h (.refl h) hzone i hi
  intro l
  induction l with
  | nil => exact fun _ h' _ hz ↦ hz
  | cons x l ih =>
    intro hl h' hc hz
    refine ih (fun a ha ↦ hl a (List.mem_cons_of_mem x ha)) _ ?_ ?_
    · exact hc.trans (combined_combineFlagZones [x] h')
    · dsimp only
      split_ifs
      · have hsuccs : ∀ j ∈ (h' x).successors, j ∈ frags := by
          rw [hc.successors x]
          exact hclosed x (hl x List.mem_cons_self)
        exact List.foldlRecOn (motive := fun h ↦ ∀ a ∈ frags, (h a).flagZone ∈ frags) _ _ hz
          fun h hz j hj ↦ hstep x h (hsuccs j hj) hz
      · exact hz

def ZonesLe (zone zone' : ℕ → FlagZone) : Prop := ∀ c,
  Sub (zone c).killedFlags (zone' c).killedFlags ∧ Sub (zone c).liveFlags (zone' c).liveFlags

theorem zonesLe_updateFlagZone (h : Heap) (zone : ℕ → FlagZone) (i : FragmentId) :
    ZonesLe zone (updateFlagZone h zone i) := by
  intro c
  unfold updateFlagZone
  split_ifs
  · rcases eq_or_ne c (h i).flagZone with rfl | hc
    · dsimp only
      rw [update_self]
      exact ⟨sub_or_left _ _, sub_or_left _ _⟩
    · dsimp only
      rw [update_of_ne hc]
      exact ⟨.refl _, .refl _⟩
  · exact ⟨.refl _, .refl _⟩

/-- The value of a zone takes in the flags of each of its instrumentation fragments. -/
theorem sub_updateFlagZones (s : State) {i : FragmentId} (hi : i ∈ s.frags)
    (hk : (s.heap i).kind = .inst) :
    Sub (s.heap i).instFlags.allWrittenFlags ((updateFlagZones s).zone (s.flagZone i)).killedFlags ∧
      Sub (s.heap i).appFlags.exitLiveFlags ((updateFlagZones s).zone (s.flagZone i)).liveFlags := by
  refine foldl_reaches (R := ZonesLe) (I := fun _ ↦ True) (l := s.frags)
    (Q := fun zone ↦
      Sub (s.heap i).instFlags.allWrittenFlags (zone (s.flagZone i)).killedFlags ∧
        Sub (s.heap i).appFlags.exitLiveFlags (zone (s.flagZone i)).liveFlags)
    (fun _ _ ↦ ⟨.refl _, .refl _⟩) (fun _ _ _ h h' c ↦ ⟨(h c).1.trans (h' c).1, (h c).2.trans (h' c).2⟩)
    (fun _ _ _ _ ↦ trivial) (fun zone a _ _ ↦ zonesLe_updateFlagZone s.heap zone a)
    (fun _ _ h hs ↦ ⟨hs.1.trans (h _).1, hs.2.trans (h _).2⟩) hi trivial fun zone _ _ ↦ ?_
  have hz : updateFlagZone s.heap zone i (s.flagZone i) =
      { killedFlags := (zone (s.flagZone i)).killedFlags ||| (s.heap i).instFlags.allWrittenFlags
        liveFlags := (zone (s.flagZone i)).liveFlags ||| (s.heap i).appFlags.exitLiveFlags } := by
    rw [updateFlagZone, if_pos hk]
    exact update_self _ _ _
  rw [hz]
  exact ⟨sub_or_right _ _, sub_or_right _ _⟩

theorem zone_updateFlagZones_of_ne (s : State) {c : ℕ} (hc : ∀ i ∈ s.frags, s.flagZone i ≠ c) :
    (updateFlagZones s).zone c = s.zone c := by
  refine List.foldlRecOn (motive := fun zone ↦ zone c = s.zone c) s.frags
    (updateFlagZone s.heap) rfl fun zone hz i hi ↦ ?_
  unfold updateFlagZone
  split_ifs
  · exact (update_of_ne (hc i hi).symm _ _).trans hz
  · exact hz

/-- The kinds that are known stay, and only code becomes instrumentation. -/
structure KindsKept (h h' : Heap) : Prop where
  outline : SameOutline h h'
  flagZone : ∀ i, (h' i).flagZone = (h i).flagZone
  kind : ∀ i, (h i).kind ≠ .invalid → (h' i).kind = (h i).kind
  inst : ∀ i, (h i).isCode = false → (h i).kind ≠ .inst → (h' i).kind ≠ .inst

namespace KindsKept

variable {h h' h'' : Heap} {i : FragmentId} {f : Fragment}

theorem refl (h : Heap) : KindsKept h h :=
  ⟨fun _ ↦ rfl, fun _ ↦ rfl, fun _ _ ↦ rfl, fun _ _ ↦ id⟩

theorem trans (hk : KindsKept h h') (hk' : KindsKept h' h'') : KindsKept h h'' := by
  have hcode (i : FragmentId) : (h' i).isCode = (h i).isCode :=
    (congrArg Fragment.isCode (hk.outline i) :)
  refine ⟨hk.outline.trans hk'.outline, fun i ↦ (hk'.flagZone i).trans (hk.flagZone i),
    fun i hi ↦ ?_, fun i hi hne ↦ ?_⟩
  · have hsame := hk.kind i hi
    rw [hk'.kind i (hsame ▸ hi), hsame]
  · exact hk'.inst i ((hcode i).trans hi) (hk.inst i hi hne)

theorem update {kind : FragmentKind} (hi : (h i).kind = .invalid)
    (hkind : (h i).isCode = true ∨ kind ≠ .inst) :
    KindsKept h (update h i { h i with kind := kind }) := by
  refine ⟨sameOutline_update h i rfl, fun a ↦ ?_, fun a ha ↦ ?_, fun a ha hne ↦ ?_⟩
  · rcases eq_or_ne a i with rfl | hai
    · rw [update_self]
    · rw [update_of_ne hai]
  · rcases eq_or_ne a i with rfl | hai
    · exact absurd hi ha
    · rw [update_of_ne hai]
  · rcases eq_or_ne a i with rfl | hai
    · rw [update_self]
      exact hkind.resolve_left fun h ↦ Bool.false_ne_true (ha.symm.trans h)
    · rwa [update_of_ne hai]

end KindsKept

theorem propagateFragKind_spec (h : Heap) (i : FragmentId) :
    KindsKept h (propagateFragKind h i) ∧ (propagateFragKind h i i).kind ≠ .invalid := by
  have hcopy (l : List FragmentId) (hcode : (h i).isCode = true) (hi : (h i).kind = .invalid) :
      ∃ kind, l.foldl (fun h j ↦ update h i { h i with kind := (h j).kind }) h =
        update h i { h i with kind := kind } := by
    suffices hall : ∀ kind, ∃ kind', l.foldl
        (fun h j ↦ update h i { h i with kind := (h j).kind }) (update h i { h i with kind := kind }) =
          update h i { h i with kind := kind' } by
      have hself : update h i { h i with kind := (h i).kind } = h := update_eq_self i h
      have hfirst := hall (h i).kind
      rwa [hself] at hfirst
    induction l with
    | nil => exact fun kind ↦ ⟨kind, rfl⟩
    | cons j l ih =>
      intro kind
      rw [List.foldl_cons, update_self, update_idem]
      exact ih _
  unfold propagateFragKind
  dsimp only
  split_ifs with hcode hkind hlast hsuccs hinvalid
  · exact ⟨.refl h, hkind⟩
  · obtain ⟨kind, hk⟩ := hcopy ((h i).successors.filter fun j ↦ (h j).isCode) hcode
      (not_not.mp hkind)
    refine ⟨?_, hlast⟩
    rw [hk]
    exact .update (not_not.mp hkind) (.inl hcode)
  · obtain ⟨kind, hk⟩ := hcopy ((h i).successors.filter fun j ↦ (h j).isCode) hcode
      (not_not.mp hkind)
    rw [hk, update_self, update_idem]
    have hkept : KindsKept h (update h i { h i with kind := .inst }) :=
      .update (not_not.mp hkind) (.inl hcode)
    refine ⟨hkept, ?_⟩
    rw [update_self]
    nofun
  · obtain ⟨kind, hk⟩ := hcopy ((h i).successors.filter fun j ↦ (h j).isCode) hcode
      (not_not.mp hkind)
    rw [hk, update_self, update_idem]
    have hkept : KindsKept h (update h i { h i with kind := .app }) :=
      .update (not_not.mp hkind) (.inl hcode)
    refine ⟨hkept, ?_⟩
    rw [update_self]
    nofun
  · refine ⟨.update hinvalid (.inr (by decide)), ?_⟩
    rw [update_self]
    nofun
  · exact ⟨.refl h, hinvalid⟩

theorem kindsKept_propagateFragKinds (frags : List FragmentId) (h : Heap) :
    KindsKept h (propagateFragKinds frags h) :=
  foldl_rel (R := KindsKept) (I := fun _ ↦ True) .refl (fun _ _ _ ↦ .trans) (fun _ _ _ _ ↦ trivial)
    (fun h i _ _ ↦ (propagateFragKind_spec h i).1) trivial

theorem kind_propagateFragKinds {frags : List FragmentId} (h : Heap) {i : FragmentId}
    (hi : i ∈ frags) : (propagateFragKinds frags h i).kind ≠ .invalid :=
  foldl_reaches (R := KindsKept) (I := fun _ ↦ True) (Q := fun h ↦ (h i).kind ≠ .invalid) .refl
    (fun _ _ _ ↦ .trans) (fun _ _ _ _ ↦ trivial) (fun h i _ _ ↦ (propagateFragKind_spec h i).1)
    (fun _ _ hk hi ↦ by rwa [hk.kind i hi]) (List.mem_reverse.mpr hi) trivial
    fun h _ _ ↦ (propagateFragKind_spec h i).2

/-- Only code is of the instrumentation from the start, and what ends in a control-flow instruction is
application code. -/
structure KindsOk (s : State) : Prop where
  inst : ∀ i ∈ s.frags, (s.heap i).kind = .inst → s.cls i = .code
  cfi : ∀ i ∈ s.frags, s.isCfi i = true → (s.heap i).kind = .app

/-- The zones between the passes: the fragments of one that kills flags are code and put together
with other such fragments only, and none ends in a control-flow instruction. -/
structure Zoning (t : State) : Prop where
  fresh : ∀ i, t.next ≤ i → t.zone i = {}
  uniform : ∀ i ∈ t.frags, ∀ j ∈ t.frags, t.flagZone i = t.flagZone j → isFlagInstCode t j = true →
    isFlagInstCode t i = true
  isCode : ∀ i ∈ t.frags, isFlagInstCode t i = true → (t.heap i).isCode = true
  cfi : ∀ i ∈ t.frags, t.isCfi i = true → isFlagInstCode t i = false

/-- A fragment that ends in a call: its other successor follows when the callee has returned. -/
def endsInCall (f : Fragment) : Bool :=
  f.branchInstr.any fun instr ↦ instr.instruction.category == .call

/-- Where control goes from a fragment. An unconditional branch that stands for what an instruction
does when it faults is not taken otherwise. -/
def nextFragments (f : Fragment) : List FragmentId :=
  if f.isExit then []
  else if endsInCall f then f.branch.toList
  else f.successors

def Slot.isNext (f : Fragment) (k : Slot) : Bool := !f.isExit && (k == .branch || !endsInCall f)

theorem mem_nextFragments {f : Fragment} {j : FragmentId} :
    j ∈ nextFragments f ↔ ∃ k, Slot.isNext f k = true ∧ f.successor k = some j := by
  unfold nextFragments Slot.isNext
  constructor
  · intro hj
    split_ifs at hj with hx hb
    · exact absurd hj List.not_mem_nil
    · exact ⟨.branch, by simp [hx], Option.mem_toList.mp hj⟩
    · obtain ⟨k, hk⟩ := Fragment.mem_successors.mp hj
      exact ⟨k, by simp [hx, hb], hk⟩
  · rintro ⟨k, hnext, hk⟩
    rw [Bool.and_eq_true, Bool.not_eq_true'] at hnext
    rw [if_neg (by rw [hnext.1]; exact Bool.false_ne_true)]
    split_ifs with hb
    · have hbranch : k = .branch := by simpa [hb] using hnext.2
      subst hbranch
      exact Option.mem_toList.mpr hk
    · exact Fragment.mem_successors.mpr ⟨k, hk⟩

def Guard (t : State) (i : FragmentId) : Prop :=
  t.cls i ≠ .code ∧ t.cls i ≠ .nonLocalEntry ∧ t.cls i ≠ .exit

/-- The live flags of the application between the passes. -/
structure Flows (t : State) : Prop where
  live : ∀ i ∈ t.frags, ∀ j ∈ nextFragments (t.heap i),
    Sub (t.heap j).appFlags.entryLiveFlags (t.heap i).appFlags.exitLiveFlags
  app : ∀ i ∈ t.frags, (t.heap i).kind = .app →
    (t.heap i).appFlags.entryLiveFlags =
      backwardTransfer (t.heap i).instrs (t.heap i).appFlags.exitLiveFlags
  inst : ∀ i ∈ t.frags, (t.heap i).kind ≠ .app → (t.heap i).kind = .inst ∧
    Sub ((t.heap i).appFlags.exitLiveFlags &&& allAflagsWithDf) (t.heap i).appFlags.entryLiveFlags
  killed : ∀ i ∈ t.frags, (t.heap i).kind ≠ .app →
    Sub (writtenBy (t.heap i).instrs) (t.zone (t.flagZone i)).killedFlags
  used : ∀ i ∈ t.frags, t.cls i = .code → (t.heap i).kind ≠ .app →
    Sub (t.heap i).appFlags.exitLiveFlags (t.zone (t.flagZone i)).liveFlags
  exit : ∀ i ∈ t.frags, (t.heap i).isExit = true →
    (t.heap i).kind = .app ∧ Sub allArithmeticFlags (t.heap i).appFlags.exitLiveFlags
  guard : ∀ i ∈ t.frags, Guard t i → (t.heap i).kind ≠ .app ∧ (t.heap i).instrs = [] ∧
    ∀ j, (t.heap i).fallThrough = some j →
      (t.heap i).appFlags.entryLiveFlags = (t.heap j).appFlags.entryLiveFlags

def flagsRead (instr : Arch.Instruction) : BitVec 32 :=
  if instr.hasPrefixRep || instr.hasPrefixRepne then instr.readFlags ||| zf else instr.readFlags

def flagsWritten (instr : Arch.Instruction) : BitVec 32 :=
  if instr.hasPrefixRep || instr.hasPrefixRepne then instr.writtenFlags ||| zf
  else instr.writtenFlags

theorem writtenBy_cons (ninstr : NativeInstruction) (instrs : List Code.Instruction) :
    writtenBy (.native ninstr :: instrs) =
      writtenBy instrs ||| (flagsWritten ninstr.instruction &&& allAflagsWithDf) := rfl

theorem backwardTransfer_cons (ninstr : NativeInstruction) (instrs : List Code.Instruction)
    (live : BitVec 32) : backwardTransfer (.native ninstr :: instrs) live =
      (if ninstr.instruction.isConditionalFlagWrite then
        backwardTransfer instrs live ||| (flagsWritten ninstr.instruction &&& allAflagsWithDf)
      else
        backwardTransfer instrs live &&& (~~~flagsWritten ninstr.instruction &&& allAflagsWithDf)) |||
        (flagsRead ninstr.instruction &&& allAflagsWithDf) := rfl

theorem backwardTransfer_of_unwritten {instrs : List Code.Instruction} (h : writtenBy instrs = 0)
    (live : BitVec 32) : Sub (live &&& allAflagsWithDf) (backwardTransfer instrs live) := by
  induction instrs with
  | nil =>
    intro b hb
    rw [BitVec.getLsbD_and, Bool.and_eq_true] at hb
    exact hb.1
  | cons instr instrs ih =>
    cases instr with
    | label => exact ih h
    | annot => exact ih h
    | native ninstr =>
      obtain ⟨hrest, hfirst⟩ := BitVec.or_eq_zero_iff.mp (writtenBy_cons ninstr instrs ▸ h)
      intro b hb
      have hmask : allAflagsWithDf.getLsbD b = true := by
        rw [BitVec.getLsbD_and, Bool.and_eq_true] at hb
        exact hb.2
      have hw : (flagsWritten ninstr.instruction).getLsbD b = false := by
        have hzero := congrArg (BitVec.getLsbD · b) hfirst
        rwa [BitVec.getLsbD_and, hmask, Bool.and_true, BitVec.getLsbD_zero] at hzero
      have hbt := ih hrest b hb
      rw [backwardTransfer_cons, BitVec.getLsbD_or, Bool.or_eq_true]
      left
      split_ifs
      · rw [BitVec.getLsbD_or, hbt, Bool.true_or]
      · have hlt := BitVec.lt_of_getLsbD hmask
        rw [BitVec.getLsbD_and, BitVec.getLsbD_and, BitVec.getLsbD_not, hbt, hw, hmask,
          decide_eq_true hlt]
        rfl

/-- The fragments after the flag analysis, and the zones that are found from them. -/
structure Found (s : State) (h : Heap) (z : State) : Prop where
  kinds : KindsKept s.heap h
  known : ∀ i ∈ s.frags, (h i).kind ≠ .invalid
  analyzed : ∀ i ∈ s.frags, Analyzed (h i)
  combined : Combined h z.heap
  eq : z = updateFlagZones (s.setHeap z.heap)
  flagZone : ∀ i ∈ s.frags, z.flagZone i ∈ s.frags

theorem exists_found {s z : State} (hs : Ready s)
    (hz : ∃ N, ∀ n, N ≤ n → findFlagZones n s = some z) : ∃ h, Found s h z := by
  obtain ⟨N, hz⟩ := hz
  obtain ⟨h, ⟨N', hN⟩, hshape, hanalyzed⟩ :=
    analyzeFlagsUse_analyzed hs.closed.nodup (fresh_propagateFragKinds s.frags hs.flags)
  have hrun := hz (N + N') (Nat.le_add_right N N')
  rw [findFlagZones, hN (N + N') (Nat.le_add_left N' N), Option.map_some] at hrun
  obtain rfl := Option.some.inj hrun
  have hkind (i : FragmentId) : (h i).kind = (propagateFragKinds s.frags s.heap i).kind :=
    (congrArg Fragment.kind (hshape i) :)
  have hpropagate := kindsKept_propagateFragKinds s.frags s.heap
  have houtline : SameOutline s.heap h := hpropagate.outline.trans (sameOutline_of_shape hshape)
  have hzone (i : FragmentId) : (h i).flagZone = (s.heap i).flagZone :=
    (congrArg Fragment.flagZone (hshape i) :).trans (hpropagate.flagZone i)
  refine ⟨h, ⟨⟨houtline, hzone, fun i hi ↦ ?_, fun i hi hne ↦ ?_⟩, fun i hi ↦ ?_, hanalyzed,
    combined_combineFlagZones s.frags h, rfl, fun i hi ↦ ?_⟩⟩
  · rw [hkind, hpropagate.kind i hi]
  · rw [hkind]
    exact hpropagate.inst i hi hne
  · rw [hkind]
    exact kind_propagateFragKinds s.heap hi
  · refine flagZone_combineFlagZones (fun i hi j hj ↦ ?_) (fun i hi ↦ ?_) hi
    · have hsuccs : (h i).successors = (s.heap i).successors :=
        (congrArg Fragment.successors (houtline i) :)
      obtain ⟨k, hk⟩ := Fragment.mem_successors.mp (hsuccs ▸ hj)
      exact hs.closed.succ i hi k j hk
    · rw [hzone i, show (s.heap i).flagZone = i from hs.flagZone i]
      exact hi

namespace Found

variable {s z : State} {h : Heap} (hf : Found s h z)
include hf

theorem frags : z.frags = s.frags := by rw [hf.eq]; rfl

theorem next : z.next = s.next := by rw [hf.eq]; rfl

theorem branchIsCfi : z.branchIsCfi = s.branchIsCfi := by rw [hf.eq]; rfl

theorem outline (i : FragmentId) : outline (z.heap i) = outline (s.heap i) :=
  ((congrArg AddEntryAndExitFragments.outline (hf.combined.same i) :)).trans (hf.kinds.outline i)

theorem zone_of_inst {i : FragmentId} (hi : i ∈ s.frags) (hk : (z.heap i).kind = .inst) :
    Sub (z.heap i).instFlags.allWrittenFlags (z.zone (z.flagZone i)).killedFlags ∧
      Sub (z.heap i).appFlags.exitLiveFlags (z.zone (z.flagZone i)).liveFlags := by
  have hsub := sub_updateFlagZones (s.setHeap z.heap) (i := i) hi hk
  rwa [← hf.eq] at hsub

theorem kind_inst (hk : KindsOk s) (hs : Ready s) {i : FragmentId} (hi : i ∈ s.frags)
    (hinst : (z.heap i).kind = .inst) : s.cls i = .code := by
  by_contra hne
  have hcode : (s.heap i).isCode = false := by
    have hcls : (s.heap i).isCode = (s.cls i).isCode := rfl
    rw [hcls]
    rcases hs.cls i hi with h' | h' | h'
    · exact absurd h' hne
    · rw [h']; rfl
    · rw [h']; rfl
  have hkind : (h i).kind ≠ .inst := hf.kinds.inst i hcode fun h' ↦ hne (hk.inst i hi h')
  rcases hf.combined.kind i with h' | ⟨-, -, h', -⟩
  · exact hkind (h' ▸ hinst)
  · have hsame : (h i).isCode = (s.heap i).isCode := (congrArg Fragment.isCode (hf.kinds.outline i) :)
    exact Bool.false_ne_true (hcode.symm.trans (hsame.symm.trans h'))

theorem kind_cfi (hk : KindsOk s) {i : FragmentId} (hi : i ∈ s.frags) (hci : z.isCfi i = true) :
    (z.heap i).kind = .app := by
  have hbranch : (z.heap i).branchInstr = (s.heap i).branchInstr :=
    (congrArg Fragment.branchInstr (hf.outline i) :)
  have hci' : s.isCfi i = true := by
    rw [State.isCfi, hbranch, hf.branchIsCfi] at hci
    exact hci
  have happ := hk.cfi i hi hci'
  have hkind : (h i).kind = .app := by
    rw [hf.kinds.kind i (by rw [happ]; decide), happ]
  rcases hf.combined.kind i with h' | ⟨-, -, -, h', -⟩
  · rw [h', hkind]
  · have hsame : (h i).branchInstr = (s.heap i).branchInstr :=
      (congrArg Fragment.branchInstr (hf.kinds.outline i) :)
    rw [State.isCfi, ← hsame, h'] at hci'
    exact absurd hci' Bool.false_ne_true

theorem zone_fresh (hs : Ready s) {c : ℕ} (hc : s.next ≤ c) : z.zone c = {} := by
  rw [hf.eq, zone_updateFlagZones_of_ne, show (s.setHeap z.heap).zone = s.zone from rfl, hs.zone]
  intro i hi hzone
  have hmem := hf.flagZone i hi
  rw [show z.flagZone i = c from hzone] at hmem
  exact absurd (hs.closed.lt_next c hmem) (not_lt.mpr hc)

theorem zoning (hs : Ready s) (hk : KindsOk s) (huniform : ∀ i ∈ z.frags, ∀ j ∈ z.frags,
    z.flagZone i = z.flagZone j → isFlagInstCode z j = true → (z.heap i).kind = .inst) :
    Zoning z := by
  refine ⟨fun c hc ↦ hf.zone_fresh hs (hf.next ▸ hc), fun i hi j hj hij hinst ↦ ?_,
    fun i hi hinst ↦ ?_, fun i hi hci ↦ ?_⟩
  · have hkind := huniform i hi j hj hij hinst
    rw [isFlagInstCode, Bool.and_eq_true] at hinst
    rw [isFlagInstCode, hkind, hij, hinst.2]
    rfl
  · rw [isFlagInstCode, Bool.and_eq_true, beq_iff_eq] at hinst
    have hcls := hf.kind_inst hk hs (hf.frags ▸ hi) hinst.1
    have hsame : (z.heap i).cls = (s.heap i).cls := (congrArg Fragment.cls (hf.outline i) :)
    rw [Fragment.isCode, hsame, show (s.heap i).cls = .code from hcls]
    rfl
  · rw [isFlagInstCode, hf.kind_cfi hk (hf.frags ▸ hi) hci]
    rfl

theorem kind_of_ne_app {i : FragmentId} (hi : i ∈ s.frags) (hk : (z.heap i).kind ≠ .app) :
    (z.heap i).kind = .inst ∧ ((h i).kind ≠ .app ∨ writtenBy (h i).instrs = 0 ∧ (h i).kind = .app) := by
  rcases hf.combined.kind i with h' | ⟨happ, hinst, -, -, hw⟩
  · have hknown := hf.known i hi
    rw [h'] at hk ⊢
    refine ⟨?_, .inl hk⟩
    generalize (h i).kind = kind at hk hknown
    cases kind with
    | invalid => exact absurd rfl hknown
    | app => exact absurd rfl hk
    | inst => rfl
  · refine ⟨hinst, .inr ⟨?_, happ⟩⟩
    have hsub := (hf.analyzed i hi).written
    rw [current, if_pos happ, hw] at hsub
    exact hsub.antisymm (zero_sub _)

theorem flows (hs : Ready s) (hk : KindsOk s)
    (hlive : ∀ i ∈ z.frags, ∀ j ∈ nextFragments (z.heap i),
      Sub (z.heap j).appFlags.entryLiveFlags (z.heap i).appFlags.exitLiveFlags) : Flows z := by
  have hinstrs (i : FragmentId) : (z.heap i).instrs = (h i).instrs :=
    (congrArg Fragment.instrs (hf.combined.same i) :)
  have happ (i : FragmentId) : (z.heap i).appFlags = (h i).appFlags :=
    (congrArg Fragment.appFlags (hf.combined.same i) :)
  have hinst (i : FragmentId) : (z.heap i).instFlags = (h i).instFlags :=
    (congrArg Fragment.instFlags (hf.combined.same i) :)
  have hcls (i : FragmentId) : z.cls i = s.cls i := (congrArg Fragment.cls (hf.outline i) :)
  rw [hf.frags] at hlive
  constructor <;> rw [hf.frags]
  · exact hlive
  · intro i hi hkind
    have hkind' : (h i).kind = .app := by
      rcases hf.combined.kind i with h' | ⟨h', -⟩
      · exact h' ▸ hkind
      · exact h'
    rw [happ, hinstrs]
    exact (hf.analyzed i hi).app hkind'
  · intro i hi hkind
    refine ⟨(hf.kind_of_ne_app hi hkind).1, ?_⟩
    rw [happ]
    rcases (hf.kind_of_ne_app hi hkind).2 with h' | ⟨hw, h'⟩
    · rw [(hf.analyzed i hi).inst h']
      intro b hb
      rw [BitVec.getLsbD_and, Bool.and_eq_true] at hb
      exact hb.1
    · rw [(hf.analyzed i hi).app h']
      exact backwardTransfer_of_unwritten hw _
  · intro i hi hkind
    obtain ⟨hkind', h' | ⟨hw, -⟩⟩ := hf.kind_of_ne_app hi hkind
    · have hsub := (hf.analyzed i hi).written
      rw [current, if_neg h', ← hinst] at hsub
      rw [hinstrs]
      exact hsub.trans (hf.zone_of_inst hi hkind').1
    · rw [hinstrs, hw]
      exact zero_sub _
  · exact fun i hi _ hkind ↦ (hf.zone_of_inst hi (hf.kind_of_ne_app hi hkind).1).2
  · intro i hi hx
    have hsame : (z.heap i).isExit = (h i).isExit := (congrArg Fragment.isExit (hf.combined.same i) :)
    refine ⟨?_, ?_⟩
    · by_contra hne
      have hcode := hf.kind_inst hk hs hi (hf.kind_of_ne_app hi hne).1
      rw [Fragment.isExit, show (z.heap i).cls = .code from (hcls i).trans hcode] at hx
      exact absurd hx (by decide)
    · rw [happ]
      exact (hf.analyzed i hi).exit (hsame ▸ hx)
  · intro i hi hguard
    obtain ⟨h₁, h₂, h₃⟩ := hguard
    rw [hcls] at h₁ h₂ h₃
    rcases hs.cls i hi with h' | h' | h'
    · exact absurd h' h₁
    · exact absurd h' h₂
    · exact absurd h' h₃

end Found

/-- The fragments of a pass are zones of their own, or are put into a zone that kills flags. -/
def Pass.Zoned (p : Pass) (s : State) : Prop := ∀ i j, p.isEnd s i j = true →
  (∀ c, (p.made s c i j).flagZone = c) ∨ p.cls.isCode = true ∧
    (∀ c, (p.made s c i j).flagZone = s.flagZone (p.inherit i j)) ∧
    isFlagInstCode s (p.inherit i j) = true

section Added

variable {p : Pass} {s₀ s : State} {i j c : FragmentId} (hs₀ : Closed s₀)
  (hs : p.Added s₀ (fun i _ ↦ i ∈ s₀.frags) s)
include hs

theorem isFlagInstCode_made (h : s.heap c = p.made s₀ c i j) :
    isFlagInstCode s c = ((s₀.zone (p.made s₀ c i j).flagZone).killedFlags != 0) := by
  rw [isFlagInstCode, State.flagZone, h, hs.zone]
  rfl

include hs₀

/-- A fragment of a zone that kills flags is in the zone of such a fragment from before. -/
theorem Zoning.source (hz : Zoning s₀) (hp : p.Ok) (hzoned : p.Zoned s₀) (hi : i ∈ s.frags)
    (hinst : isFlagInstCode s i = true) :
    ∃ j ∈ s₀.frags, s₀.flagZone j = s.flagZone i ∧ isFlagInstCode s₀ j = true := by
  rcases (hs.frags i).mp hi with hi | hi
  · have hk := hs.kept hs₀ hi
    exact ⟨i, hi, hk.flagZone.symm, hk.isFlagInstCode ▸ hinst⟩
  · obtain ⟨x, hx, k, y, hy, hend, hm⟩ := hs.made i hi.1 hi.2
    rcases hzoned x y hend with hown | ⟨-, hzone, hflag⟩
    · rw [isFlagInstCode_made hs hm, hown i, hz.fresh i hi.1] at hinst
      exact absurd hinst (by decide)
    · refine ⟨p.inherit x y, ?_, ?_, hflag⟩
      · rcases hp.inherit x y with h | h <;> rw [h]
        · exact hx
        · exact hs₀.succ x hx k y hy
      · rw [State.flagZone, State.flagZone, hm]
        exact (hzone i).symm

theorem Zoning.added (hz : Zoning s₀) (hp : p.Ok) (hzoned : p.Zoned s₀) : Zoning s := by
  refine ⟨fun c hc ↦ ?_, fun i hi j hj hij hinst ↦ ?_, fun i hi hinst ↦ ?_, fun i hi hci ↦ ?_⟩
  · rw [hs.zone]
    exact hz.fresh c (hs.next_le.trans hc)
  · obtain ⟨j', hj', hzone, hflag⟩ := hz.source hs₀ hs hp hzoned hj hinst
    rcases (hs.frags i).mp hi with hi | hi
    · have hk := hs.kept hs₀ hi
      rw [hk.isFlagInstCode]
      exact hz.uniform i hi j' hj' (by rw [hzone, ← hij, hk.flagZone]) hflag
    · obtain ⟨x, -, _, y, -, -, hm⟩ := hs.made i hi.1 hi.2
      have hkind : (s.heap i).kind = .inst := by
        rw [hm]
        rfl
      rw [isFlagInstCode, Bool.and_eq_true] at hinst ⊢
      rw [hkind, hij]
      exact ⟨rfl, hinst.2⟩
  · rcases (hs.frags i).mp hi with hi | hi
    · have hk := hs.kept hs₀ hi
      have hcode : (s.heap i).isCode = (s₀.heap i).isCode := congrArg FragmentClass.isCode hk.cls
      rw [hcode]
      exact hz.isCode i hi (hk.isFlagInstCode ▸ hinst)
    · obtain ⟨x, -, _, y, -, hend, hm⟩ := hs.made i hi.1 hi.2
      rcases hzoned x y hend with hown | ⟨hcode, -⟩
      · rw [isFlagInstCode_made hs hm, hown i, hz.fresh i hi.1] at hinst
        exact absurd hinst (by decide)
      · rw [hm]
        exact hcode
  · have hold := hs.old hi hci
    have hk := hs.kept hs₀ hold
    rw [hk.isFlagInstCode]
    exact hz.cfi i hold (hk.isCfi ▸ hci)

theorem Flows.entry_of_guards (hl : Flows s₀) (hp : p.Ok)
    (hcls : p.cls ≠ .code ∧ p.cls ≠ .nonLocalEntry ∧ p.cls ≠ .exit) (hc : c ∈ s.frags)
    (hg : Guards p.cls j (s.heap c)) :
    (s.heap c).appFlags.entryLiveFlags = (s₀.heap j).appFlags.entryLiveFlags := by
  rcases (hs.frags c).mp hc with hc | hc
  · have hclsc : s₀.cls c = p.cls := (hs.kept hs₀ hc).cls.symm.trans hg.cls
    have hsucc : (s₀.heap c).fallThrough = some j :=
      (Pass.successor_of_cls hp hs₀ hs hc hclsc .fallThrough).symm.trans hg.fallThrough
    have happ : (s.heap c).appFlags = (s₀.heap c).appFlags :=
      (congrArg Fragment.appFlags (hs.same c (hs₀.lt_next c hc)) :)
    rw [happ]
    exact (hl.guard c hc (by rw [Guard, hclsc]; exact hcls)).2.2 j hsucc
  · obtain ⟨x, -, _, y, -, -, hm⟩ := hs.made c hc.1 hc.2
    rw [hm] at hg ⊢
    obtain rfl := Option.some.inj ((Pass.guards_made s₀ c x y).fallThrough.symm.trans hg.fallThrough)
    rfl

theorem Flows.added (hl : Flows s₀) (hp : p.Ok)
    (hcls : p.cls ≠ .code ∧ p.cls ≠ .nonLocalEntry ∧ p.cls ≠ .exit) : Flows s := by
  have hbody {i : FragmentId} (hi : i ∈ s₀.frags) :=
    hs.same i (hs₀.lt_next i hi)
  have happ {i : FragmentId} (hi : i ∈ s₀.frags) : (s.heap i).appFlags = (s₀.heap i).appFlags :=
    (congrArg Fragment.appFlags (hbody hi) :)
  have hinstrs {i : FragmentId} (hi : i ∈ s₀.frags) : (s.heap i).instrs = (s₀.heap i).instrs :=
    (congrArg Fragment.instrs (hbody hi) :)
  -- where an edge leads, the flags that are live are those from before
  have hedge {i c : FragmentId} {k : Slot} (hi : i ∈ s₀.frags) (hk : (s.heap i).successor k = some c) :
      ∃ j, (s₀.heap i).successor k = some j ∧
        (s.heap c).appFlags.entryLiveFlags = (s₀.heap j).appFlags.entryLiveFlags := by
    rcases Pass.Added.edge hs₀ hs ((hs.frags i).mpr (.inl hi)) hk with ⟨-, hc, -⟩ |
        ⟨-, hc, j, hj, -, hg, -⟩ | ⟨hlt, -⟩
    · exact ⟨c, hc, by rw [happ (hs₀.succ i hi k c hc)]⟩
    · exact ⟨j, hj, hl.entry_of_guards hs₀ hs hp hcls hc hg⟩
    · exact absurd (hs₀.lt_next i hi) (not_lt.mpr hlt)
  have hnew {i : FragmentId} (hi : s₀.next ≤ i ∧ i < s.next) : ∃ x c, c ∈ s₀.frags ∧
      s.heap i = p.made s₀ i x c := by
    obtain ⟨x, hx, k, c, hk, -, hm⟩ := hs.made i hi.1 hi.2
    exact ⟨x, c, hs₀.succ x hx k c hk, hm⟩
  refine ⟨fun i hi c hc ↦ ?_, fun i hi hkind ↦ ?_, fun i hi hkind ↦ ?_, fun i hi hkind ↦ ?_,
    fun i hi hcode hkind ↦ ?_, fun i hi hx ↦ ?_, fun i hi hguard ↦ ?_⟩ <;>
    rcases (hs.frags i).mp hi with hi | hi
  · obtain ⟨k, hnext, hk⟩ := mem_nextFragments.mp hc
    obtain ⟨j, hj, hentry⟩ := hedge hi hk
    have hnext' : Slot.isNext (s₀.heap i) k = true := by
      have hsame : Slot.isNext (s.heap i) k = Slot.isNext (s₀.heap i) k :=
        (congrArg (Slot.isNext · k) (hbody hi) :)
      exact hsame ▸ hnext
    rw [hentry, happ hi]
    exact hl.live i hi j (mem_nextFragments.mpr ⟨k, hnext', hj⟩)
  · obtain ⟨x, j, hj, hm⟩ := hnew hi
    obtain ⟨k, -, hk⟩ := mem_nextFragments.mp hc
    rw [hm] at hk ⊢
    obtain rfl := (Pass.guards_made s₀ i x j).successor hk
    rw [happ hj]
    exact .refl _
  · have hk := hs.kept hs₀ hi
    rw [happ hi, hinstrs hi]
    exact hl.app i hi (hk.kind ▸ hkind)
  · obtain ⟨x, j, -, hm⟩ := hnew hi
    rw [hm] at hkind
    exact absurd hkind (by simp [Pass.made, newFragment])
  · have hk := hs.kept hs₀ hi
    rw [happ hi, hk.kind]
    exact hl.inst i hi (hk.kind ▸ hkind)
  · obtain ⟨x, j, -, hm⟩ := hnew hi
    rw [hm]
    refine ⟨rfl, fun b hb ↦ ?_⟩
    rw [BitVec.getLsbD_and, Bool.and_eq_true] at hb
    exact hb.1
  · have hk := hs.kept hs₀ hi
    rw [hinstrs hi, hs.zone, hk.flagZone]
    exact hl.killed i hi (hk.kind ▸ hkind)
  · obtain ⟨x, j, -, hm⟩ := hnew hi
    rw [hm]
    exact zero_sub _
  · have hk := hs.kept hs₀ hi
    rw [happ hi, hs.zone, hk.flagZone]
    exact hl.used i hi (hk.cls ▸ hcode) (hk.kind ▸ hkind)
  · obtain ⟨x, j, -, hm⟩ := hnew hi
    rw [State.cls, hm] at hcode
    exact absurd hcode hcls.1
  · have hk := hs.kept hs₀ hi
    have hx' : (s₀.heap i).isExit = true := by
      have hsame : (s.heap i).isExit = (s₀.heap i).isExit := congrArg (· == FragmentClass.exit) hk.cls
      exact hsame ▸ hx
    rw [hk.kind, happ hi]
    exact hl.exit i hi hx'
  · obtain ⟨x, j, -, hm⟩ := hnew hi
    rw [hm] at hx
    exact absurd (beq_iff_eq.mp hx) hcls.2.2
  · have hguard' : Guard s₀ i := by
      rw [Guard, ← (hs.kept hs₀ hi).cls]
      exact hguard
    obtain ⟨hkind, hempty, hentry⟩ := hl.guard i hi hguard'
    refine ⟨(hs.kept hs₀ hi).kind ▸ hkind, (hinstrs hi).trans hempty, fun c hc ↦ ?_⟩
    obtain ⟨j, hj, hentry'⟩ := hedge (k := .fallThrough) hi hc
    rw [happ hi, hentry', hentry j hj]
  · obtain ⟨x, j, hj, hm⟩ := hnew hi
    rw [hm]
    refine ⟨FragmentKind.noConfusion, rfl, fun c hc ↦ ?_⟩
    obtain rfl := Option.some.inj ((Pass.guards_made s₀ i x j).fallThrough.symm.trans hc)
    rw [happ hj]
    rfl

end Added

section FirstEntry

variable {t : State} {i : FragmentId} (hc : Closed t) (hi : i ∈ t.frags)

theorem zone_addFirstEntry (t : State) (i : FragmentId) : (addFirstEntry i t).zone = t.zone := by
  unfold addFirstEntry
  split_ifs <;> rfl

theorem branchIsCfi_addFirstEntry (t : State) (i : FragmentId) :
    (addFirstEntry i t).branchIsCfi = t.branchIsCfi := by
  unfold addFirstEntry
  split_ifs <;> rfl

include hc

theorem Zoning.addFirstEntry (hz : Zoning t) : Zoning (addFirstEntry i t) := by
  rcases addFirstEntry_cases i t with ⟨-, h⟩ | ⟨-, hfrags, hnext, hheap, -⟩
  · rwa [h]
  have hzone := zone_addFirstEntry t i
  have hfresh : isFlagInstCode (AddEntryAndExitFragments.addFirstEntry i t) t.next = false := by
    rw [isFlagInstCode, State.flagZone, hheap, hzone,
      show (partitionEntries.made t t.next i i).flagZone = t.next from rfl, hz.fresh _ le_rfl]
    rfl
  have hold {a : FragmentId} (ha : a ∈ t.frags) :
      (AddEntryAndExitFragments.addFirstEntry i t).heap a = t.heap a :=
    heap_addFirstEntry_of_ne (hc.lt_next a ha).ne
  have hflag {a : FragmentId} (ha : a ∈ t.frags) :
      isFlagInstCode (AddEntryAndExitFragments.addFirstEntry i t) a = isFlagInstCode t a :=
    isFlagInstCode_congr (congrArg _ (hold ha)) hzone
  have hmem {a : FragmentId} (ha : a ∈ (AddEntryAndExitFragments.addFirstEntry i t).frags)
      (hinst : isFlagInstCode (AddEntryAndExitFragments.addFirstEntry i t) a = true) :
      a ∈ t.frags := by
    rw [hfrags, List.mem_cons] at ha
    refine ha.resolve_left ?_
    rintro rfl
    exact Bool.false_ne_true (hfresh.symm.trans hinst)
  refine ⟨fun a ha ↦ ?_, fun a ha b hb hab hinst ↦ ?_, fun a ha hinst ↦ ?_, fun a ha hci ↦ ?_⟩
  · rw [hzone]
    exact hz.fresh a (Nat.le_of_succ_le (hnext.symm.trans_le ha))
  · have hbmem := hmem hb hinst
    rw [hfrags, List.mem_cons] at ha
    rcases ha with rfl | ha
    · have hown : (AddEntryAndExitFragments.addFirstEntry i t).flagZone t.next = t.next := by
        rw [State.flagZone, hheap]
        rfl
      rw [isFlagInstCode, ← hab, hown, hzone, hz.fresh _ le_rfl, Bool.and_eq_true] at hinst
      exact absurd hinst.2 (by decide)
    · rw [hflag ha]
      rw [State.flagZone, State.flagZone, hold ha, hold hbmem] at hab
      exact hz.uniform a ha b hbmem hab (hflag hbmem ▸ hinst)
  · have hamem := hmem ha hinst
    rw [hold hamem]
    exact hz.isCode a hamem (hflag hamem ▸ hinst)
  · rw [hfrags, List.mem_cons] at ha
    rcases ha with rfl | ha
    · exact hfresh
    · rw [hflag ha]
      refine hz.cfi a ha ?_
      rw [← hci]
      exact (isCfi_congr (congrArg _ (hold ha)) (branchIsCfi_addFirstEntry t i)).symm

include hi

theorem Flows.addFirstEntry (hl : Flows t) : Flows (addFirstEntry i t) := by
  rcases addFirstEntry_cases i t with ⟨-, h⟩ | ⟨-, hfrags, hnext, hheap, -⟩
  · rwa [h]
  have hzone := zone_addFirstEntry t i
  have hold {a : FragmentId} (ha : a ∈ t.frags) :
      (AddEntryAndExitFragments.addFirstEntry i t).heap a = t.heap a :=
    heap_addFirstEntry_of_ne (hc.lt_next a ha).ne
  have hg := Pass.guards_made (p := partitionEntries) t t.next i i
  have hsucc {a b : FragmentId} {k : Slot} (ha : a ∈ t.frags) (hk : (t.heap a).successor k = some b) :
      (AddEntryAndExitFragments.addFirstEntry i t).heap b = t.heap b := hold (hc.succ a ha k b hk)
  constructor <;> intro a ha <;> rw [hfrags, List.mem_cons] at ha <;> rcases ha with rfl | ha
  · intro b hb
    obtain ⟨k, -, hk⟩ := mem_nextFragments.mp hb
    rw [hheap] at hk ⊢
    obtain rfl := hg.successor hk
    rw [hold hi]
    exact .refl _
  · intro b hb
    rw [hold ha] at hb ⊢
    obtain ⟨k, -, hk⟩ := mem_nextFragments.mp hb
    rw [hsucc ha hk]
    exact hl.live a ha b hb
  · intro hkind
    rw [hheap] at hkind
    exact absurd hkind (by simp [Pass.made, newFragment])
  · rw [hold ha]
    exact hl.app a ha
  · intro _
    rw [hheap]
    refine ⟨rfl, fun b hb ↦ ?_⟩
    rw [BitVec.getLsbD_and, Bool.and_eq_true] at hb
    exact hb.1
  · rw [hold ha]
    exact hl.inst a ha
  · intro _
    rw [hheap]
    exact zero_sub _
  · rw [State.flagZone, hold ha, hzone]
    exact hl.killed a ha
  · intro hcode
    rw [State.cls, hheap] at hcode
    exact absurd (hg.cls.symm.trans hcode) (by decide)
  · rw [State.cls, State.flagZone, hold ha, hzone]
    exact hl.used a ha
  · intro hx
    rw [hheap] at hx
    exact absurd hx Bool.false_ne_true
  · rw [hold ha]
    exact hl.exit a ha
  · intro _
    rw [hheap]
    refine ⟨FragmentKind.noConfusion, rfl, fun b hb ↦ ?_⟩
    obtain rfl := Option.some.inj (hg.fallThrough.symm.trans hb)
    rw [hold hi]
    rfl
  · intro hguard
    rw [Guard, State.cls, hold ha] at hguard
    rw [hold ha]
    obtain ⟨hkind, hempty, hentry⟩ := hl.guard a ha hguard
    refine ⟨hkind, hempty, fun b hb ↦ ?_⟩
    rw [hsucc (k := .fallThrough) ha hb]
    exact hentry b hb

end FirstEntry

theorem Zoning.reset {t : State} (h : Zoning t) : Zoning (resetEntryExitFrag t) :=
  ⟨h.fresh, h.uniform, h.isCode, h.cfi⟩

theorem Flows.reset {t : State} (h : Flows t) : Flows (resetEntryExitFrag t) :=
  ⟨h.live, h.app, h.inst, h.killed, h.used, h.exit, h.guard⟩

theorem partitionEntries_zoned (t : State) : partitionEntries.Zoned t :=
  fun _ _ _ ↦ .inl fun _ ↦ rfl

theorem partitionExits_zoned (t : State) : partitionExits.Zoned t :=
  fun _ _ _ ↦ .inl fun _ ↦ rfl

theorem isFlagEntry_spec {t : State} {i j : FragmentId} (h : isFlagEntry t i j = true) :
    t.partition i = t.partition j ∧ t.flagZone i ≠ t.flagZone j ∧ isFlagInstCode t j = true := by
  unfold isFlagEntry at h
  split_ifs at h with _ _ hpart hzone
  exact ⟨not_not.mp hpart, hzone, h⟩

theorem isFlagExit_spec {t : State} {i j : FragmentId} (h : isFlagExit t i j = true) :
    t.partition i = t.partition j ∧ t.flagZone i ≠ t.flagZone j ∧ isFlagInstCode t i = true := by
  unfold isFlagExit at h
  split_ifs at h with _ _ hpart hzone
  exact ⟨not_not.mp hpart, hzone, h⟩

theorem flagEntries_zoned (t : State) : flagEntries.Zoned t :=
  fun _ _ h ↦ .inr ⟨rfl, fun _ ↦ rfl, (isFlagEntry_spec h).2.2⟩

theorem flagExits_zoned (t : State) : flagExits.Zoned t :=
  fun _ _ h ↦ .inr ⟨rfl, fun _ ↦ rfl, (isFlagExit_spec h).2.2⟩

theorem Pass.Added.common {p : Pass} {s₀ s : State} (hs₀ : Closed s₀)
    (hs : p.Added s₀ (fun i _ ↦ i ∈ s₀.frags) s) {i x c : FragmentId} (hi : i ∈ s₀.frags)
    (hx : x ∈ s₀.frags) (hinto : ∀ i j, Edge s₀ i j → s₀.cls j ≠ p.cls) (hic : Edge s i c)
    (hxc : Edge s x c) : ∃ y, Edge s₀ i y ∧ Edge s₀ x y := by
  have hcases {i : FragmentId} (hi : i ∈ s₀.frags) (hic : Edge s i c) :
      c ∈ s₀.frags ∧ Edge s₀ i c ∨ ∃ j, Edge s₀ i j ∧ Guards p.cls j (s.heap c) := by
    obtain ⟨hmem, k, hk⟩ := hic
    rcases Pass.Added.edge hs₀ hs hmem hk with ⟨-, hc, -⟩ | ⟨-, -, j, hj, -, hg, -⟩ | ⟨hlt, -⟩
    · exact .inl ⟨hs₀.succ i hi k c hc, hi, k, hc⟩
    · exact .inr ⟨j, ⟨hi, k, hj⟩, hg⟩
    · exact absurd (hs₀.lt_next i hi) (not_lt.mpr hlt)
  have hold {i j : FragmentId} (hc : c ∈ s₀.frags) (he : Edge s₀ i c) :
      ¬ Guards p.cls j (s.heap c) := fun hg ↦
    hinto i c he ((hs.kept hs₀ hc).cls.symm.trans hg.cls)
  rcases hcases hi hic with ⟨hc, he⟩ | ⟨j, he, hg⟩ <;>
    rcases hcases hx hxc with ⟨hc', he'⟩ | ⟨j', he', hg'⟩
  · exact ⟨c, he, he'⟩
  · exact absurd hg' (hold hc he)
  · exact absurd hg (hold hc' he')
  · obtain rfl := Option.some.inj (hg.fallThrough.symm.trans hg'.fallThrough)
    exact ⟨j, he, he'⟩

def Inside (t : State) (i : FragmentId) : Prop := t.cls i = .code ∧ isFlagInstCode t i = true

structure FlagsEntered (t : State) : Prop where
  inside : ∀ i j, Edge t i j → Inside t j → t.flagZone i = t.flagZone j
  entry : ∀ i j, Edge t i j → t.cls i = .flagEntry → Inside t j ∧ t.flagZone i = t.flagZone j
  into : ∀ i j, Edge t i j → t.cls j = .flagEntry → t.flagZone i ≠ t.flagZone j

/-- Zones that kill flags are entered from flag entries only, and left to flag exits that restore
what was saved. -/
structure FlagGuarded (sp : Bool) (t : State) : Prop where
  entry : ∀ i j, Edge t i j → t.cls i = .flagEntry → Inside t j ∧ t.flagZone j = t.flagZone i
  inside : ∀ i j, Edge t i j → Inside t i →
    Inside t j ∧ t.flagZone j = t.flagZone i ∨ t.cls j = .flagExit ∧
      injectRestoreFlags sp (t.zone (t.flagZone j)) [] =
        injectRestoreFlags sp (t.zone (t.flagZone i)) []
  outside : ∀ i j, Edge t i j → ¬ (Inside t i ∨ t.cls i = .flagEntry) →
    ¬ Inside t j ∧ t.cls j ≠ .flagExit

theorem cls_of_isCode {f : Fragment} (h : f.isCode = true) :
    f.cls = .code ∨ f.cls = .flagEntry ∨ f.cls = .flagExit := by
  unfold Fragment.isCode at h
  generalize f.cls = c at h
  cases c <;> first | exact .inl rfl | exact .inr (.inl rfl) | exact .inr (.inr rfl) |
    exact absurd h Bool.false_ne_true

theorem Inside.kind {t : State} {i : FragmentId} (h : Inside t i) : (t.heap i).kind = .inst := by
  have hinst := h.2
  rw [isFlagInstCode, Bool.and_eq_true] at hinst
  exact beq_iff_eq.mp hinst.1

theorem Inside.isCfi {t : State} {i : FragmentId} (h : Inside t i) (hz : Zoning t)
    (hi : i ∈ t.frags) : t.isCfi i = false := by
  by_contra hci
  rw [Bool.not_eq_false] at hci
  exact Bool.false_ne_true ((hz.cfi i hi hci).symm.trans h.2)

section

variable {s₀ s : State} {i j : FragmentId} (hs₀ : Closed s₀)

/-- Code of a zone that kills flags has its successors, and what leads to it, in its partition. -/
theorem Inside.partition_left (h : Inside s₀ i) (hz : Zoning s₀) (hg : Guarded s₀)
    (he : Edge s₀ i j) : s₀.partition i = s₀.partition j := by
  by_contra hne
  rcases hg.leaves i j he hne with hcls | hci
  · exact absurd (h.1.symm.trans hcls) (by decide)
  · exact Bool.false_ne_true ((h.isCfi hz he.1).symm.trans hci)

theorem Kept.inside (hk : Kept s₀ s i) : Inside s i ↔ Inside s₀ i := by
  rw [Inside, Inside, hk.cls, hk.isFlagInstCode]

include hs₀

theorem Inside.partition_right (h : Inside s₀ j) (hz : Zoning s₀) (hg : Guarded s₀)
    (he : Edge s₀ i j) : s₀.partition i = s₀.partition j := by
  by_contra hne
  obtain ⟨hi, k, hk⟩ := he
  rcases hg.enters i j ⟨hi, k, hk⟩ hne with hcls | hci | hcls
  · exact absurd (h.1.symm.trans hcls) (by decide)
  · exact Bool.false_ne_true ((h.isCfi hz (hs₀.succ i hi k j hk)).symm.trans hci)
  · exact absurd (h.1.symm.trans hcls) (by decide)

theorem flagsEntered (hs : flagEntries.Added s₀ (fun i _ ↦ i ∈ s₀.frags) s) (hz : Zoning s₀)
    (hg : Guarded s₀) (hentries : Lacks .flagEntry s₀) (hexits : Lacks .flagExit s₀) :
    FlagsEntered s := by
  have hmade {c i j : FragmentId} (hm : s.heap c = flagEntries.made s₀ c i j) :
      s.cls c = .flagEntry ∧ s.flagZone c = s₀.flagZone j := by
    rw [State.cls, State.flagZone, hm]
    exact ⟨rfl, rfl⟩
  refine ⟨fun i j he hj ↦ ?_, fun i j he hi ↦ ?_, fun i j he hj ↦ ?_⟩
  · rcases hs.edge_cases hs₀ he with ⟨hi, hj', he', hend⟩ | ⟨-, x, -, -, -, hg', -⟩ |
        ⟨hj', x, -, -, -, hm⟩
    · rw [hi.flagZone, hj'.flagZone]
      have hin := hj'.inside.mp hj
      have hpart := hin.partition_right hs₀ hz hg he'
      have hcls : s₀.cls j ≠ .flagEntry := fun h ↦ absurd (hin.1.symm.trans h) (by decide)
      by_contra hne
      simp [flagEntries, isFlagEntry, hentries i hi.mem, hcls, hpart, hne, hin.2] at hend
    · exact absurd (hj.1.symm.trans hg'.cls) (by decide)
    · rw [(hmade hm).2, hj'.flagZone]
  · rcases hs.edge_cases hs₀ he with ⟨hi', -, -, -⟩ | ⟨hi', -⟩ | ⟨hj', x, -, -, hend, hm⟩
    · exact absurd (hi'.cls.symm.trans hi) (hentries i hi'.mem)
    · exact absurd (hi'.cls.symm.trans hi) (hentries i hi'.mem)
    · obtain ⟨-, -, hinst⟩ := isFlagEntry_spec hend
      rw [(hmade hm).2, hj'.flagZone]
      refine ⟨hj'.inside.mpr ⟨?_, hinst⟩, rfl⟩
      rcases cls_of_isCode (hz.isCode j hj'.mem hinst) with h | h | h
      · exact h
      · exact absurd h (hentries j hj'.mem)
      · exact absurd h (hexits j hj'.mem)
  · rcases hs.edge_cases hs₀ he with ⟨-, hj', -, -⟩ | ⟨hi, x, hx, -, hend, hg', hmem, -⟩ | ⟨hj', -⟩
    · exact absurd (hj'.cls.symm.trans hj) (hentries j hj'.mem)
    · obtain ⟨-, hne, -⟩ := isFlagEntry_spec hend
      have hnew : ¬ j ∈ s₀.frags := fun h ↦
        hentries j h ((hs.kept hs₀ h).cls.symm.trans hj)
      obtain ⟨hle, hlt⟩ := ((hs.frags j).mp hmem).resolve_left hnew
      obtain ⟨y, -, _, y', -, -, hm⟩ := hs.made j hle hlt
      rw [hm] at hg'
      obtain rfl := Option.some.inj
        ((Pass.guards_made s₀ j y y').fallThrough.symm.trans hg'.fallThrough)
      rw [(hmade hm).2, hi.flagZone]
      exact hne
    · exact absurd (hj'.cls.symm.trans hj) (hentries j hj'.mem)

theorem flagGuarded {sp : Bool} (hs : flagExits.Added s₀ (fun i _ ↦ i ∈ s₀.frags) s) (hz : Zoning s₀)
    (hg : Guarded s₀) (hexits : Lacks .flagExit s₀) (hentered : FlagsEntered s₀)
    (hshared : ∀ i x j, Edge s₀ i j → Edge s₀ x j → Inside s₀ i → Inside s₀ x →
      s₀.partition i = s₀.partition x → injectRestoreFlags sp (s₀.zone (s₀.flagZone i)) [] =
        injectRestoreFlags sp (s₀.zone (s₀.flagZone x)) []) : FlagGuarded sp s := by
  have hcls {i : FragmentId} (hi : i ∈ s₀.frags) (hinst : isFlagInstCode s₀ i = true) :
      Inside s₀ i ∨ s₀.cls i = .flagEntry := by
    rcases cls_of_isCode (hz.isCode i hi hinst) with h | h | h
    · exact .inl ⟨h, hinst⟩
    · exact .inr h
    · exact absurd h (hexits i hi)
  -- what has an end of this pass is code
  have hleaves {i j : FragmentId} (he : Edge s₀ i j) (hend : isFlagExit s₀ i j = true) :
      Inside s₀ i := by
    obtain ⟨-, hne, hinst⟩ := isFlagExit_spec hend
    exact (hcls he.1 hinst).resolve_right fun h ↦ hne (hentered.entry i j he h).2
  have hkept {i : FragmentId} (hi : Kept s₀ s i) :
      Inside s i ∨ s.cls i = .flagEntry ↔ Inside s₀ i ∨ s₀.cls i = .flagEntry := by
    rw [hi.inside, hi.cls]
  constructor <;> intro i j he hi <;>
    rcases hs.edge_cases hs₀ he with ⟨hi', hj', he', hend⟩ | ⟨hi', x, hx, he', hend, hg', hmem, hpart⟩ |
      ⟨hj', x, hx, he', hend, hm⟩
  · obtain ⟨hin, hzone⟩ := hentered.entry i j he' (hi'.cls.symm.trans hi)
    rw [hj'.inside, hi'.flagZone, hj'.flagZone]
    exact ⟨hin, hzone.symm⟩
  · have hzone := (hentered.entry i x he' (hi'.cls.symm.trans hi)).2
    exact absurd hzone (isFlagExit_spec hend).2.1
  · exact absurd (hi.symm.trans (cls_made hm)) (by decide)
  · left
    rw [hj'.inside, hi'.flagZone, hj'.flagZone]
    have hin := hi'.inside.mp hi
    have hclsi : s₀.cls i ≠ .flagExit := fun h ↦ absurd (hin.1.symm.trans h) (by decide)
    have hzone : s₀.flagZone i = s₀.flagZone j := by
      by_contra hne
      simp [flagExits, isFlagExit, hclsi, hexits j hj'.mem, hin.partition_left hz hg he', hne,
        hin.2] at hend
    refine ⟨(hcls hj'.mem ?_).resolve_right fun h ↦ hentered.into i j he' h hzone, hzone.symm⟩
    exact hz.uniform j hj'.mem i hi'.mem hzone.symm hin.2
  · right
    refine ⟨hg'.cls, ?_⟩
    have hnew : ¬ j ∈ s₀.frags := fun h ↦ hexits j h ((hs.kept hs₀ h).cls.symm.trans hg'.cls)
    obtain ⟨hle, hlt⟩ := ((hs.frags j).mp hmem).resolve_left hnew
    obtain ⟨y, hy, k, y', hk, hend', hm⟩ := hs.made j hle hlt
    have hto := hm ▸ hg'
    obtain rfl := Option.some.inj
      ((Pass.guards_made s₀ j y y').fallThrough.symm.trans hto.fallThrough)
    have hzone : s.flagZone j = s₀.flagZone y := by
      rw [State.flagZone, hm]
      rfl
    have hpart' : s.partition j = s₀.partition y := by
      rw [State.partition, hm]
      rfl
    rw [hzone, hs.zone, hi'.flagZone]
    exact hshared y i y' ⟨hy, k, hk⟩ he' (hleaves ⟨hy, k, hk⟩ hend') (hleaves he' hend)
      (hpart'.symm.trans hpart)
  · exact absurd (hi.1.symm.trans (cls_made hm)) (by decide)
  · rw [hj'.inside, hj'.cls]
    refine ⟨fun hj ↦ ?_, hexits j hj'.mem⟩
    have hzone := hentered.inside i j he' hj
    exact hi ((hkept hi').mpr (hcls hi'.mem (hz.uniform i hi'.mem j hj'.mem hzone hj.2)))
  · exact absurd ((hkept hi').mpr (.inl (hleaves he' hend))) hi
  · rw [hj'.inside, hj'.cls]
    refine ⟨fun hj ↦ ?_, hexits j hj'.mem⟩
    exact (isFlagExit_spec hend).2.1 (hentered.inside x j he' hj)

end

/-- Where two zones that kill flags are left to the same fragment, the same is restored. -/
def SharesExits (sp : Bool) (z : State) : Prop := ∀ i x y, Edge z i y → Edge z x y →
  isFlagInstCode z i = true → isFlagInstCode z x = true → z.partition i = z.partition x →
  injectRestoreFlags sp (z.zone (z.flagZone i)) [] = injectRestoreFlags sp (z.zone (z.flagZone x)) []

/-- A fragment that is the same in two states, but for where it leads, and the zones. -/
structure Carried (s₀ s : State) (i : FragmentId) : Prop where
  mem : i ∈ s₀.frags
  partition : s.partition i = s₀.partition i
  flagZone : s.flagZone i = s₀.flagZone i
  inst : isFlagInstCode s i = isFlagInstCode s₀ i

theorem Pass.Added.carried {p : Pass} {s₀ s : State} (hs₀ : Closed s₀)
    (hs : p.Added s₀ (fun i _ ↦ i ∈ s₀.frags) s) (hp : p.cls ≠ .code) {i : FragmentId}
    (hi : i ∈ s.frags) (hcode : s.cls i = .code) : s₀.cls i = .code ∧ Carried s₀ s i := by
  rcases hs.cls hs₀ hi with ⟨hi, hcls⟩ | ⟨-, hcls⟩
  · have hk := hs.kept hs₀ hi
    exact ⟨hcls.symm.trans hcode, hi, hk.partition, hk.flagZone, hk.isFlagInstCode⟩
  · exact absurd (hcls.symm.trans hcode) hp

namespace Stages

variable {s z f a b c d : State} (hs : Ready s) (hst : Stages s z f a b c d)
include hst

theorem zone_final : f.zone = z.zone ∧ a.zone = z.zone ∧ b.zone = z.zone ∧ c.zone = z.zone ∧
    d.zone = z.zone := by
  obtain ⟨x, -, hx⟩ := hst.first
  have hf : f.zone = z.zone := by
    rw [hx]
    exact zone_addFirstEntry _ x
  have ha := hst.entered.zone.trans hf
  have hb : b.zone = z.zone := hst.exited.zone.trans ha
  have hc : c.zone = z.zone := hst.flagEntered.zone.trans hb
  exact ⟨hf, ha, hb, hc, hst.flagExited.zone.trans hc⟩

include hs

theorem zoning_final (hz : Zoning z) : Zoning b ∧ Zoning c ∧ Zoning d := by
  obtain ⟨hcz, hcf, hca, hcb, hcc, -⟩ := closed hs hst
  obtain ⟨x, hx, hfx⟩ := hst.first
  have hf : Zoning f := hfx ▸ Zoning.addFirstEntry hcz.reset hz.reset
  have ha := hf.added hcf hst.entered partitionEntries_ok (partitionEntries_zoned f)
  have hb := ha.reset.added hca.reset hst.exited partitionExits_ok (partitionExits_zoned _)
  have hc := hb.reset.added hcb.reset hst.flagEntered flagEntries_ok (flagEntries_zoned _)
  exact ⟨hb, hc, hc.reset.reset.added hcc.reset.reset hst.flagExited flagExits_ok
    (flagExits_zoned _)⟩

theorem flows_final (hl : Flows z) : Flows d := by
  obtain ⟨hcz, hcf, hca, hcb, hcc, -⟩ := closed hs hst
  obtain ⟨x, hx, hfx⟩ := hst.first
  have hmem : x ∈ (resetEntryExitFrag z).frags := by
    rw [show (resetEntryExitFrag z).frags = z.frags from rfl, (zoned hst).1]
    exact List.mem_of_mem_head? hx
  have hf : Flows f := hfx ▸ Flows.addFirstEntry hcz.reset hmem hl.reset
  have ha := hf.added hcf hst.entered partitionEntries_ok (by decide)
  have hb := ha.reset.added hca.reset hst.exited partitionExits_ok (by decide)
  have hc := hb.reset.added hcb.reset hst.flagEntered flagEntries_ok (by decide)
  exact hc.reset.reset.added hcc.reset.reset hst.flagExited flagExits_ok (by decide)

theorem into_first {i j : FragmentId} (he : Edge f i j) : f.cls j ≠ .partitionEntry := by
  obtain ⟨hfrags, -, -, -⟩ := zoned hst
  have hnot {x : FragmentId} (hx : x ∈ s.frags) : f.cls x ≠ .partitionEntry := by
    rcases cls_first hs hst (mem_first hst hx) with ⟨-, -, h⟩ | ⟨h, -⟩
    · rw [h]
      rcases hs.cls x hx with h' | h' | h' <;> rw [h'] <;> decide
    · exact absurd (hs.closed.lt_next x hx) (by rw [h]; exact lt_irrefl _)
  obtain ⟨hi, k, hk⟩ := he
  rcases cls_first hs hst hi with ⟨hi', hh, -⟩ | ⟨-, x, hx, -, -, hg, -, -⟩
  · rw [hh] at hk
    exact hnot (hfrags ▸ (closed hs hst).1.succ i (hfrags ▸ hi') k j hk)
  · rw [hg.successor hk]
    exact hnot hx

theorem carried_entered {i : FragmentId} (hi : i ∈ c.frags) (hcode : c.cls i = .code) :
    i ∈ b.frags ∧ i ∈ a.frags ∧ i ∈ f.frags ∧ Carried z c i ∧ f.heap i = z.heap i := by
  obtain ⟨-, hcf, hca, hcb, -, -⟩ := closed hs hst
  obtain ⟨hbcode, hb⟩ := hst.flagEntered.carried hcb.reset (by decide) hi hcode
  obtain ⟨hacode, ha⟩ := hst.exited.carried hca.reset (by decide) hb.mem hbcode
  obtain ⟨hfcode, hf⟩ := hst.entered.carried hcf (by decide) ha.mem hacode
  rcases cls_first hs hst hf.mem with ⟨his, hh, -⟩ | ⟨-, j, -, -, -, hg, -, -⟩
  · refine ⟨hb.mem, ha.mem, hf.mem, ⟨(zoned hst).1 ▸ his, ?_, ?_, ?_⟩, hh⟩
    · exact (hb.partition.trans (ha.partition.trans hf.partition)).trans (congrArg Fragment.partition hh)
    · exact (hb.flagZone.trans (ha.flagZone.trans hf.flagZone)).trans (congrArg Fragment.flagZone hh)
    · exact (hb.inst.trans (ha.inst.trans hf.inst)).trans
        (isFlagInstCode_congr (congrArg _ hh) (zone_final hst).1)
  · exact absurd (hfcode.symm.trans hg.cls) (by decide)

theorem flagGuarded_final {sp : Bool} (hz : Zoning z) (hshared : SharesExits sp z) :
    FlagGuarded sp d := by
  obtain ⟨-, hcf, hca, hcb, hcc, -⟩ := closed hs hst
  obtain ⟨hzb, hzc, -⟩ := zoning_final hs hst hz
  have hgb := guarded_exited hs hst
  have hflag {t : State} {i j : FragmentId} (h : isFlagEntry t i j = true) :
      t.partition i = t.partition j := (isFlagEntry_spec h).1
  have hgc := hgb.reset.added hcb.reset hst.flagEntered flagEntries_ok fun _ _ ↦ hflag
  have hentriesb : Lacks .flagEntry b := lacks_flagEntries hs hst
  have hexitsc : Lacks .flagExit c := lacks_flagExits hs hst
  have hexitsb : Lacks .flagExit b := by
    have h : Lacks .flagExit a :=
      Lacks.added (lacks_first hs hst (.inr (.inr rfl))) hcf hst.entered (by decide)
    have h' : Lacks .flagExit (resetEntryExitFrag a) := h
    exact h'.added hca.reset hst.exited (by decide)
  have hentered := flagsEntered hcb.reset hst.flagEntered hzb.reset hgb.reset
    hentriesb hexitsb
  have hlacks {t : State} {k : FragmentClass} (hc : Closed t) (h : Lacks k t) (i j : FragmentId)
      (he : Edge t i j) : t.cls j ≠ k := by
    obtain ⟨hi, k, hk⟩ := he
    exact h j (hc.succ i hi k j hk)
  have henteredc : FlagsEntered (resetEntryExitFrag (resetEntryExitFrag c)) :=
    ⟨hentered.inside, hentered.entry, hentered.into⟩
  refine flagGuarded hcc.reset.reset hst.flagExited hzc.reset.reset hgc.reset.reset hexitsc
    henteredc fun i x j hi hx hini hinx hpart ↦ ?_
  -- the edges of the list before all passes
  obtain ⟨hib, hia, hif, hci, hhi⟩ := carried_entered hs hst hi.1 hini.1
  obtain ⟨hxb, hxa, hxf, hcx, hhx⟩ := carried_entered hs hst hx.1 hinx.1
  obtain ⟨jb, hib', hxb'⟩ := hst.flagEntered.common hcb.reset hib hxb
    (hlacks (t := b) hcb hentriesb) hi hx
  obtain ⟨ja, hia', hxa'⟩ := hst.exited.common hca.reset hia hxa
    (hlacks (t := a) hca (lacks_partitionExits hs hst)) hib' hxb'
  obtain ⟨jf, hif', hxf'⟩ := hst.entered.common hcf hif hxf (fun _ _ ↦ into_first hs hst) hia' hxa'
  have hedge {i : FragmentId} (hc : Carried z c i) (hh : f.heap i = z.heap i) (he : Edge f i jf) :
      Edge z i jf := by
    obtain ⟨-, k, hk⟩ := he
    exact ⟨hc.mem, k, by rwa [← hh]⟩
  have hsame := hshared i x jf (hedge hci hhi hif') (hedge hcx hhx hxf') (hci.inst ▸ hini.2)
    (hcx.inst ▸ hinx.2) (hci.partition.symm.trans (Eq.trans hpart hcx.partition))
  rw [← hci.flagZone, ← hcx.flagZone, ← (zone_final hst).2.2.2.1] at hsame
  exact hsame

theorem kept_after_first {i : FragmentId} (hi : i ∈ f.frags) :
    d.cls i = f.cls i ∧ isFlagInstCode d i = isFlagInstCode f i := by
  obtain ⟨-, hf, ha, hb, hc, -⟩ := closed hs hst
  have hia := hst.entered.kept hf hi
  have hib := hst.exited.kept ha.reset ((hst.entered.frags i).mpr (.inl hi))
  have hic := hst.flagEntered.kept hb.reset ((hst.exited.frags i).mpr (.inl hib.mem))
  have hid := hst.flagExited.kept hc.reset.reset ((hst.flagEntered.frags i).mpr (.inl hic.mem))
  exact ⟨hid.cls.trans (hic.cls.trans (hib.cls.trans hia.cls)),
    hid.isFlagInstCode.trans (hic.isFlagInstCode.trans (hib.isFlagInstCode.trans hia.isFlagInstCode))⟩

theorem head_outside (hz : Zoning z) :
    ∃ i, d.frags.head? = some i ∧ ¬ Inside d i ∧ d.cls i ≠ .flagExit := by
  obtain ⟨hfrags, -, -, ho⟩ := zoned hst
  obtain ⟨x, hx, hfx⟩ := hst.first
  have hxmem := List.mem_of_mem_head? hx
  rw [head_final hst]
  rcases addFirstEntry_cases x (resetEntryExitFrag z) with ⟨hci, h⟩ | ⟨-, h, -, hh, -⟩ <;>
    rw [← hfx] at h
  · obtain ⟨hcls, hinst⟩ := kept_after_first hs hst (mem_first hst hxmem)
    refine ⟨x, by rw [h]; exact hfrags ▸ hx, fun hin ↦ ?_, ?_⟩
    · have hnot : isFlagInstCode z x = false := hz.cfi x (hfrags ▸ hxmem) hci
      have hsame : isFlagInstCode f x = isFlagInstCode z x := by rw [h]; rfl
      exact Bool.false_ne_true ((hinst.trans (hsame.trans hnot)).symm.trans hin.2)
    · have hsame : f.cls x = s.cls x := by
        rw [h]
        exact (congrArg Fragment.cls (ho x) :)
      rw [hcls, hsame]
      rcases hs.cls x hxmem with h' | h' | h' <;> rw [h'] <;> decide
  · rw [← hfx] at hh
    have hmem : z.next ∈ f.frags := by
      rw [h]
      exact List.mem_cons_self
    have hcls : d.cls z.next = .partitionEntry := by
      rw [(kept_after_first hs hst hmem).1, State.cls, show f.heap z.next = _ from hh]
      rfl
    refine ⟨z.next, by rw [h]; rfl, fun hin ↦ ?_, by rw [hcls]; decide⟩
    exact absurd (hcls.symm.trans hin.1) (by decide)

end Stages

namespace Relabeled

variable {s s' : State} (hl : Relabeled s s') (i : FragmentId)
include hl

theorem cls : s'.cls i = s.cls i := (congrArg Fragment.cls (hl.heap i) :)

theorem flagZone : s'.flagZone i = s.flagZone i := (congrArg Fragment.flagZone (hl.heap i) :)

theorem kind : (s'.heap i).kind = (s.heap i).kind := (congrArg Fragment.kind (hl.heap i) :)

theorem isFlagInstCode : isFlagInstCode s' i = isFlagInstCode s i := by
  rw [AddEntryAndExitFragments.isFlagInstCode, AddEntryAndExitFragments.isFlagInstCode, hl.kind,
    hl.flagZone, hl.zone]

theorem inside : Inside s' i ↔ Inside s i := by rw [Inside, Inside, hl.cls, hl.isFlagInstCode]

theorem flagGuarded {sp : Bool} (hg : FlagGuarded sp s) : FlagGuarded sp s' := by
  refine ⟨fun i j he ↦ ?_, fun i j he ↦ ?_, fun i j he ↦ ?_⟩
  · rw [hl.cls, hl.inside, hl.flagZone, hl.flagZone]
    exact hg.entry i j (hl.edge_iff.mp he)
  · rw [hl.inside, hl.inside, hl.cls, hl.flagZone, hl.flagZone, hl.zone]
    exact hg.inside i j (hl.edge_iff.mp he)
  · rw [hl.inside, hl.inside, hl.cls, hl.cls]
    exact hg.outside i j (hl.edge_iff.mp he)

theorem zoning (hz : Zoning s) : Zoning s' := by
  refine ⟨fun c hc ↦ ?_, fun i hi j hj ↦ ?_, fun i hi ↦ ?_, fun i hi ↦ ?_⟩
  · rw [hl.zone]
    exact hz.fresh c (hl.next ▸ hc)
  · rw [hl.flagZone, hl.flagZone, hl.isFlagInstCode, hl.isFlagInstCode]
    exact hz.uniform i (hl.frags ▸ hi) j (hl.frags ▸ hj)
  · have hcode : (s'.heap i).isCode = (s.heap i).isCode := (congrArg Fragment.isCode (hl.heap i) :)
    rw [hl.isFlagInstCode, hcode]
    exact hz.isCode i (hl.frags ▸ hi)
  · rw [hl.isCfi, hl.isFlagInstCode]
    exact hz.cfi i (hl.frags ▸ hi)

theorem flows (hf : Flows s) : Flows s' := by
  have happ (i : FragmentId) : (s'.heap i).appFlags = (s.heap i).appFlags :=
    (congrArg Fragment.appFlags (hl.heap i) :)
  have hinstrs (i : FragmentId) : (s'.heap i).instrs = (s.heap i).instrs :=
    (congrArg Fragment.instrs (hl.heap i) :)
  have hsuccs (i : FragmentId) : nextFragments (s'.heap i) = nextFragments (s.heap i) :=
    (congrArg nextFragments (hl.heap i) :)
  have hfall (i : FragmentId) : (s'.heap i).fallThrough = (s.heap i).fallThrough :=
    (congrArg Fragment.fallThrough (hl.heap i) :)
  have hexit (i : FragmentId) : (s'.heap i).isExit = (s.heap i).isExit :=
    (congrArg Fragment.isExit (hl.heap i) :)
  constructor <;> intro i hi <;> rw [hl.frags] at hi
  · intro j
    rw [hsuccs, happ, happ]
    exact hf.live i hi j
  · rw [hl.kind, happ, hinstrs]
    exact hf.app i hi
  · rw [hl.kind, happ]
    exact hf.inst i hi
  · rw [hl.kind, hinstrs, hl.zone, hl.flagZone]
    exact hf.killed i hi
  · rw [hl.cls, hl.kind, happ, hl.zone, hl.flagZone]
    exact hf.used i hi
  · rw [hexit, hl.kind, happ]
    exact hf.exit i hi
  · simp only [Guard, hl.cls, hl.kind, hinstrs, hfall, happ]
    exact hf.guard i hi

end Relabeled

end Granary.Assemble.AddEntryAndExitFragments
