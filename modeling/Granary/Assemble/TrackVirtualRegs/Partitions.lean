import Granary.Assemble.TrackVirtualRegs.Liveness
import Granary.Base.Run

namespace Granary.Assemble.TrackVirtualRegs

open Granary.Base Granary.Base.Iterate Granary.Base.Run Granary.Code Function

def foundIn : Code.Instruction → Code.Instruction
  | .native instr => .native (addInstructionVRs instr []).instr
  | instr => instr

def NamedBy (v : VRId) (instrs : List Code.Instruction) : Prop :=
  ∃ instr, .native instr ∈ instrs ∧ (instr.definedVr = v ∨ v ∈ instr.usedVrs)

theorem instrs_findFragmentVRs (f : Fragment) :
    (findFragmentVRs f).instrs = f.instrs.map foundIn := by
  suffices h : ∀ (l : List Code.Instruction) (f : Fragment), f.instrs = [] →
      (l.foldr findInstructionVRs f).instrs = l.map foundIn from h f.instrs _ rfl
  intro l f hf
  induction l with
  | nil => exact hf
  | cons instr l ih =>
    rw [List.foldr_cons, List.map_cons, ← ih]
    cases instr with
    | native instr => exact congrArg (fun i ↦ Code.Instruction.native i :: _) (addInstructionVRs_instr instr _)
    | label => rfl
    | annot => rfl

theorem namedBy_of_mentioned {v : VRId} {instrs : List Code.Instruction} (hv : v ∈ mentioned instrs) :
    NamedBy v (instrs.map foundIn) := by
  induction instrs with
  | nil => exact absurd hv List.not_mem_nil
  | cons instr instrs ih =>
    have hrest (h : NamedBy v (instrs.map foundIn)) : NamedBy v ((instr :: instrs).map foundIn) := by
      obtain ⟨i, hi, hn⟩ := h
      exact ⟨i, List.mem_cons_of_mem _ hi, hn⟩
    cases instr with
    | label => exact hrest (ih hv)
    | annot => exact hrest (ih hv)
    | native instr =>
      rcases List.mem_append.mp hv with hv | hv
      · refine ⟨_, List.mem_cons_self, ?_⟩
        rcases List.mem_cons.mp (List.mem_filter.mp hv).1 with hv | hv
        · exact .inl hv.symm
        · exact .inr (List.mem_filter.mp hv).1
      · exact hrest (ih hv)

def SameInstrs (h h' : Heap) : Prop := ∀ i, (h' i).instrs = (h i).instrs

theorem SameInstrs.trans {h h' h'' : Heap} (ha : SameInstrs h h') (hb : SameInstrs h' h'') :
    SameInstrs h h'' := fun i ↦ (hb i).trans (ha i)

theorem sameInstrs_update (h : Heap) (i : FragmentId) {f : Fragment} (hf : f.instrs = (h i).instrs) :
    SameInstrs h (update h i f) := by
  intro j
  by_cases hj : j = i
  · subst hj
    simpa using hf
  · rw [update_of_ne hj]

theorem sameInstrs_inheritVr (pred : FragmentId) (h : Heap) (v : VRId) :
    SameInstrs h (inheritVr pred h v).1 := by
  unfold inheritVr
  split_ifs
  · exact fun _ ↦ rfl
  · exact sameInstrs_update h pred rfl
  · exact sameInstrs_update h pred rfl

theorem sameInstrs_sweep {α : Type*} {step : Heap → α → Heap × Bool}
    (hstep : ∀ h a, SameInstrs h (step h a).1) (l : List α) (h : Heap) :
    SameInstrs h (sweep step l h).1 :=
  sweep_preserves (fun a _ h' hs ↦ hs.trans (hstep h' a)) fun _ ↦ rfl

theorem sameInstrs_pass (frags : List FragmentId) (h : Heap) :
    SameInstrs h (backPropagatePass frags h).1 := by
  refine sameInstrs_sweep (fun h i ↦ ?_) _ h
  unfold backPropagateFragment
  split_ifs
  · refine sameInstrs_sweep (fun h j ↦ ?_) _ h
    unfold backPropagateEntryDefs
    split_ifs
    · exact sameInstrs_sweep (sameInstrs_inheritVr i) _ h
    · exact fun _ ↦ rfl
  · exact fun _ ↦ rfl

theorem sameInstrs_foldl {step : Heap → FragmentId → Heap}
    (hstep : ∀ h i, SameInstrs h (step h i)) (l : List FragmentId) (h : Heap) :
    SameInstrs h (l.foldl step h) :=
  foldl_rel (R := SameInstrs) (I := fun _ ↦ True) (fun _ _ ↦ rfl) (fun _ _ _ ↦ SameInstrs.trans)
    (fun _ _ _ _ ↦ trivial) (fun h i _ _ ↦ hstep h i) trivial

theorem sameInstrs_extendLiveRanges (frags : List FragmentId) (h : Heap) :
    SameInstrs h (extendLiveRanges frags h) := by
  refine (sameInstrs_foldl (fun h i ↦ ?_) _ h).trans (sameInstrs_foldl (fun h i ↦ ?_) _ _)
  · unfold extendExit
    split_ifs
    · exact sameInstrs_update h i rfl
    · exact fun _ ↦ rfl
  · unfold extendEntries
    split_ifs
    · refine sameInstrs_foldl (fun h j ↦ ?_) _ h
      split_ifs
      · exact sameInstrs_update h j rfl
      · exact fun _ ↦ rfl
    · exact fun _ ↦ rfl

/-- Code only leads to code of its own partition: `AddEntryAndExitFragments` puts a partition entry
or a partition exit on every edge between two partitions. -/
def PartitionsCut (g : FragmentList) : Prop :=
  ∀ i ∈ g.frags, (g.heap i).isCode = true → ∀ j ∈ (g.heap i).successors, (g.heap j).isCode = true →
    (g.heap j).partition = (g.heap i).partition

def Mentions (g : FragmentList) (v : VRId) (i : FragmentId) : Prop :=
  ∃ u ∈ g.frags, (g.heap u).isCode = true ∧ (g.heap u).partition = (g.heap i).partition ∧
    v ∈ mentioned (g.heap u).instrs

section Mentions

variable {g : FragmentList} {v : VRId} {i j : FragmentId}

theorem Mentions.of_partition (hm : Mentions g v j)
    (hp : (g.heap j).partition = (g.heap i).partition) : Mentions g v i := by
  obtain ⟨u, hu, hc, hup, hv⟩ := hm
  exact ⟨u, hu, hc, hup.trans hp, hv⟩

theorem mentions_of_usedLater (hg : g.WellFormed) (hcut : PartitionsCut g)
    (h : UsedLater g.heap v i) (hi : i ∈ g.frags) (hc : (g.heap i).isCode = true) :
    Mentions g v i := by
  induction h with
  | here hv => exact ⟨_, hi, hc, rfl, exposed_sub_mentioned hv⟩
  | later _ _ hj hjc _ ih =>
    exact (ih (hg.closed _ hi _ hj hjc) hjc).of_partition (hcut _ hi hc _ hj hjc)

theorem mentions_of_liveOut (hg : g.WellFormed) (hcut : PartitionsCut g) (hi : i ∈ g.frags)
    (hc : (g.heap i).isCode = true) (h : LiveOut g.heap v i) : Mentions g v i := by
  rcases h with hv | ⟨j, hj, hjc, hv⟩
  · exact ⟨i, hi, hc, rfl, hv⟩
  · have hm := mentions_of_usedLater hg hcut hv (hg.closed i hi j hj hjc) hjc
    exact hm.of_partition (hcut i hi hc j hj hjc)

theorem mentions_of_extended (hg : g.WellFormed) (hcut : PartitionsCut g) (h : Extended g v i)
    (hi : i ∈ g.frags) (hc : (g.heap i).isCode = true) : Mentions g v i := by
  induction h with
  | live hv => exact mentions_of_liveOut hg hcut hi hc hv
  | ahead hj he _ _ ih =>
    have hjc := isCode_of_mayExtend he
    exact (ih (hg.closed _ hi _ hj hjc) hjc).of_partition (hcut _ hi hc _ hj hjc)
  | behind hj he _ hv =>
    have hjc := isCode_of_mayExtend he
    have hm := mentions_of_liveOut hg hcut (hg.closed _ hi _ hj hjc) hjc hv
    exact hm.of_partition (hcut _ hi hc _ hj hjc)

end Mentions

theorem of_body {f f' : Fragment} (h : body f = body f') :
    f.cls = f'.cls ∧ f.partition = f'.partition ∧ f.instrs = f'.instrs :=
  ⟨(congrArg Fragment.cls h :), (congrArg Fragment.partition h :), (congrArg Fragment.instrs h :)⟩

structure CompensatesAfter (f comp : Fragment) : Prop where
  isCompensationFrag : comp.attr.isCompensationFrag = true
  partition : comp.partition = f.partition
  instrs : comp.instrs = []
  entry : ∀ v ∈ comp.entryRegs, v ∈ f.exitRegs

/-- The list `g₀` with some compensating fragments added to it. -/
structure AddsComps (g₀ g : FragmentList) : Prop where
  next_le : g₀.next ≤ g.next
  nodup : g.frags.Nodup
  body : ∀ i < g₀.next, body (g.heap i) = body (g₀.heap i)
  frags : ∀ i, i ∈ g.frags ↔ i ∈ g₀.frags ∨ g₀.next ≤ i ∧ i < g.next
  comps : ∀ c, g₀.next ≤ c → c < g.next →
    ∃ i ∈ g₀.frags, (g₀.heap i).isCode = true ∧ CompensatesAfter (g₀.heap i) (g.heap c)

section AddsComps

variable {g₀ g : FragmentList} {i : FragmentId}

theorem addsComps_refl (hg₀ : g₀.WellFormed) : AddsComps g₀ g₀ := by
  refine ⟨le_rfl, hg₀.nodup, fun _ _ ↦ rfl, fun i ↦ ⟨.inl, ?_⟩, fun c hle hlt ↦ ?_⟩
  · exact fun h ↦ h.resolve_right fun h ↦ Nat.not_lt.mpr h.1 h.2
  · exact absurd hlt (Nat.not_lt.mpr hle)

theorem AddsComps.make (hg₀ : g₀.WellFormed) (hg : AddsComps g₀ g) (hi : i ∈ g₀.frags)
    (hc : (g₀.heap i).isCode = true) (k : Slot) (succ : FragmentId) (exitRegs : TinySet VRId) :
    AddsComps g₀ (makeCompensatingFrag g i k succ (g.heap i).exitRegs exitRegs) := by
  have hlt := hg₀.lt_next i hi
  have hne : i ≠ g.next := Nat.ne_of_lt (hlt.trans_le hg.next_le)
  have hbody := hg.body i hlt
  refine ⟨hg.next_le.trans (Nat.le_succ _), ?_, fun j hj ↦ ?_, fun j ↦ ?_, fun c hle hc' ↦ ?_⟩
  · refine FragmentList.nodup_insertAfter hg.nodup fun hnew ↦ ?_
    rcases (hg.frags g.next).mp hnew with hold | ⟨-, hlt⟩
    · exact Nat.not_lt.mpr hg.next_le (hg₀.lt_next _ hold)
    · exact Nat.lt_irrefl _ hlt
  · refine Eq.trans ?_ (hg.body j hj)
    have hjn : j ≠ g.next := Nat.ne_of_lt (hj.trans_le hg.next_le)
    by_cases hji : j = i
    · subst hji
      simp only [makeCompensatingFrag, update_self]
      cases k <;> rfl
    · simp only [makeCompensatingFrag, update_of_ne hji, update_of_ne hjn]
  · have hnext := hg.next_le
    have hfrags := FragmentList.mem_insertAfter (j := g.next) (a := j) ((hg.frags i).mpr (.inl hi))
    have hsucc : j < g.next + 1 ↔ j < g.next ∨ j = g.next := Nat.lt_succ_iff_lt_or_eq
    simp only [makeCompensatingFrag, hfrags, hg.frags, hsucc]
    grind
  · have hci : c ≠ i := Nat.ne_of_gt (hlt.trans_le hle)
    rcases Nat.lt_succ_iff_lt_or_eq.mp hc' with hlt' | rfl
    · obtain ⟨a, ha, hac, hcomp⟩ := hg.comps c hle hlt'
      refine ⟨a, ha, hac, ?_⟩
      simpa only [makeCompensatingFrag, update_of_ne hci, update_of_ne (Nat.ne_of_lt hlt')] using hcomp
    · refine ⟨i, hi, hc, ?_⟩
      simp only [makeCompensatingFrag, update_of_ne hne.symm, update_self]
      refine ⟨rfl, (of_body hbody).2.1, rfl, fun v hv ↦ ?_⟩
      rw [← (regs_of_body hbody).2.2.1]
      exact mem_empty_union.mp hv

theorem AddsComps.edge (hg₀ : g₀.WellFormed) (hg : AddsComps g₀ g) (hi : i ∈ g₀.frags)
    (hc : (g₀.heap i).isCode = true) (k : Slot) : AddsComps g₀ (addCompensatingFragment g i k) := by
  unfold addCompensatingFragment
  cases (g.heap i).successor k with
  | none => exact hg
  | some succ =>
    simp only
    split_ifs
    · exact hg
    · exact hg
    · exact hg
    · exact hg.make hg₀ hi hc k succ _
    · exact hg.make hg₀ hi hc k succ _

theorem addsComps (hg₀ : g₀.WellFormed) : AddsComps g₀ (addCompensatingFragments g₀) := by
  unfold addCompensatingFragments
  have hl : ∀ i ∈ g₀.frags.reverse, i ∈ g₀.frags := fun i hi ↦ List.mem_reverse.mp hi
  generalize g₀.frags.reverse = l at hl
  suffices h : ∀ g, AddsComps g₀ g → AddsComps g₀ (l.foldl (fun g i ↦
      if (g.heap i).isCode && !(g.heap i).attr.isCompensationFrag then
        addCompensatingFragment (addCompensatingFragment g i .fallThrough) i .branch
      else g) g) from h g₀ (addsComps_refl hg₀)
  induction l with
  | nil => exact fun g hg ↦ hg
  | cons i l ih =>
    intro g hg
    obtain ⟨hi, hl⟩ := List.forall_mem_cons.mp hl
    refine ih hl _ ?_
    simp only
    split_ifs with hc
    · have hcode : (g₀.heap i).isCode = true := by
        rw [← (regs_of_body (hg.body i (hg₀.lt_next i hi))).1]
        exact ((Bool.and_eq_true _ _).mp hc).1
      exact (hg.edge hg₀ hi hcode .fallThrough).edge hg₀ hi hcode .branch
    · exact hg

end AddsComps

/-- A virtual register is named, and live, in a code fragment of the partition of `i` that is not a
compensating one. -/
def NamedInPartition (g : FragmentList) (v : VRId) (i : FragmentId) : Prop :=
  ∃ u ∈ g.frags, (g.heap u).isCode = true ∧ (g.heap u).attr.isCompensationFrag = false ∧
    (g.heap u).partition = (g.heap i).partition ∧ v ∈ (g.heap u).exitRegs ∧
    NamedBy v (g.heap u).instrs

structure Tracked (g g' : FragmentList) : Prop where
  nodup : g'.frags.Nodup
  named : ∀ i ∈ g'.frags, (g'.heap i).isCode = true → ∀ v,
    (if (g'.heap i).attr.isCompensationFrag then v ∈ (g'.heap i).entryRegs
      else v ∈ (g'.heap i).exitRegs) → NamedInPartition g' v i
  instrs : ∀ i ∈ g'.frags, ∀ instr, .native instr ∈ (g'.heap i).instrs →
    ∃ j ∈ g.frags, ∃ instr', .native instr' ∈ (g.heap j).instrs ∧
      instr'.instruction = instr.instruction

section Tracked

variable {g : FragmentList}

theorem instruction_foundIn (instr : NativeInstruction) :
    (addInstructionVRs instr []).instr.instruction = instr.instruction := by
  rw [addInstructionVRs_eq]
  generalize occurrences instr.instruction = os
  induction os generalizing instr with
  | nil => rfl
  | cons o os ih => exact (ih _).trans (addOccurrence_instruction instr o)

/-- The fragments before compensating fragments are added. -/
structure Extends (g : FragmentList) (e : Heap) : Prop where
  skel : ∀ i, skeleton (e i) = skeleton (g.heap i)
  exit : ∀ i ∈ g.frags, (g.heap i).isCode = true → ∀ v, v ∈ (e i).exitRegs ↔ Extended g v i
  instrs : ∀ i ∈ g.frags, (e i).instrs =
    if (g.heap i).isCode then (g.heap i).instrs.map foundIn else (g.heap i).instrs

theorem extends_extendLiveRanges (hg : g.WellFormed) (hu : Untracked g) {fuel : ℕ} {b : Heap}
    (hb : repeatUntil (backPropagatePass g.frags) fuel (findVRs g.frags g.heap) = some b) :
    Extends g (extendLiveRanges g.frags b) := by
  have hprop : Propagated g b := by
    obtain ⟨h, hprop, N, hN⟩ := backPropagation_stops hg hu
    have hmax := repeatUntil_mono hb (Nat.le_max_left fuel N)
    rw [hN _ (Nat.le_max_right fuel N)] at hmax
    exact Option.some_inj.mp hmax ▸ hprop
  obtain ⟨hskel, hregs⟩ := extendLiveRanges_spec hg hprop
  refine ⟨hskel, fun i hi hc v ↦ (hregs i hi hc v).1, fun i hi ↦ ?_⟩
  obtain ⟨t, ht, -, rfl⟩ := repeatUntil_last (P := SameInstrs (findVRs g.frags g.heap))
    (fun h hs ↦ hs.trans (sameInstrs_pass g.frags h)) (fun _ ↦ rfl) hb
  have hsame := (ht.trans (sameInstrs_pass g.frags t)).trans (sameInstrs_extendLiveRanges g.frags _)
  rw [hsame i, findVRs_of_mem hg.nodup hi]
  split_ifs
  · exact instrs_findFragmentVRs _
  · rfl

theorem tracked (hg : g.WellFormed) (hu : Untracked g) (hcut : PartitionsCut g) {fuel : ℕ}
    {g' : FragmentList} (h : trackVirtualRegs fuel g = some g') : Tracked g g' := by
  obtain ⟨b, hb, rfl⟩ := Option.map_eq_some_iff.mp h
  have he := extends_extendLiveRanges hg hu hb
  generalize extendLiveRanges g.frags b = e at he
  have hcode (i : FragmentId) := code_of_skeleton (he.skel i)
  have hsucc (i : FragmentId) := successors_of_skeleton (he.skel i)
  have hpart (i : FragmentId) : (e i).partition = (g.heap i).partition :=
    (congrArg Fragment.partition (he.skel i) :)
  have hattr (i : FragmentId) := attr_of_skeleton (he.skel i)
  have hwf : FragmentList.WellFormed { g with heap := e } := by
    refine ⟨hg.nodup, hg.lt_next, fun i hi j hj ↦ ?_, fun i hi j hj hjc ↦ ?_⟩
    · exact hg.succ_lt i hi j (hsucc i ▸ hj)
    · exact hg.closed i hi j (hsucc i ▸ hj) (hcode j ▸ hjc)
  have ha := addsComps hwf
  generalize addCompensatingFragments { g with heap := e } = g' at ha
  have hold (i : FragmentId) (hi : i ∈ g.frags) : body (g'.heap i) = body (e i) :=
    ha.body i (hg.lt_next i hi)
  have hnamed (i : FragmentId) (hi : i ∈ g.frags) (hc : (g.heap i).isCode = true) (v : VRId)
      (hv : v ∈ (e i).exitRegs) (k : FragmentId) (hk : (g'.heap k).partition = (e i).partition) :
      NamedInPartition g' v k := by
    have hext := (he.exit i hi hc v).mp hv
    obtain ⟨u, hui, huc, hup, hvu⟩ := mentions_of_extended hg hcut hext hi hc
    obtain ⟨-, hbp, hbi⟩ := of_body (hold u hui)
    obtain ⟨hbc, -, hbx, hba⟩ := regs_of_body (hold u hui)
    refine ⟨u, (ha.frags u).mpr (.inl hui), ?_, ?_, ?_, ?_, ?_⟩
    · exact hbc.trans ((hcode u).trans huc)
    · rw [hba, hattr u]
      exact hu.notComp u
    · rw [hbp, hk, hpart u, hpart i, hup]
    · rw [hbx]
      exact (he.exit u hui huc v).mpr (.live (.inl hvu))
    · rw [hbi, he.instrs u hui, if_pos huc]
      exact namedBy_of_mentioned hvu
  refine ⟨ha.nodup, fun i hi hc v hv ↦ ?_, fun i hi instr hinstr ↦ ?_⟩
  · rcases (ha.frags i).mp hi with hi | ⟨hle, hlt⟩
    · obtain ⟨-, hbp, -⟩ := of_body (hold i hi)
      obtain ⟨hbc, -, hbx, hba⟩ := regs_of_body (hold i hi)
      rw [hba, hattr i, hu.notComp i, if_neg Bool.false_ne_true, hbx] at hv
      exact hnamed i hi ((hcode i).symm.trans (hbc.symm.trans hc)) v hv i hbp
    · obtain ⟨a, hai, hac, hcomp⟩ := ha.comps i hle hlt
      rw [hcomp.isCompensationFrag, if_pos rfl] at hv
      exact hnamed a hai ((hcode a).symm.trans hac) v (hcomp.entry v hv) i hcomp.partition
  · rcases (ha.frags i).mp hi with hi | ⟨hle, hlt⟩
    · rw [(of_body (hold i hi)).2.2, he.instrs i hi] at hinstr
      split_ifs at hinstr
      · obtain ⟨found, hfound, heq⟩ := List.mem_map.mp hinstr
        cases found with
        | label => cases heq
        | annot => cases heq
        | native found =>
          obtain rfl := Code.Instruction.native.inj heq
          exact ⟨i, hi, found, hfound, (instruction_foundIn found).symm⟩
      · exact ⟨i, hi, instr, hinstr, rfl⟩
    · obtain ⟨a, -, -, hcomp⟩ := ha.comps i hle hlt
      rw [hcomp.instrs] at hinstr
      cases hinstr

end Tracked

end Granary.Assemble.TrackVirtualRegs
