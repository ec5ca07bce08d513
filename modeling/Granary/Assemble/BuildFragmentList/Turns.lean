import Granary.Assemble.BuildFragmentList.Step
import Mathlib.Data.Set.Card

namespace Granary.Assemble.BuildFragmentList

open Function Granary.Base.Language
open Granary.Code (FragmentId Slot)

variable {tr : Trace} {start start' : FragmentId → Option InstrId} {rank rank' : FragmentId → ℕ}
  {b b' : Builder} {f : FragmentId} {i l : InstrId} {p : Option InstrId} {P : Set InstrId}

theorem Trace.start_eq_none {t : BlockId} (ht : ∀ md cold is, tr.block t ≠ .decoded md cold is) :
    tr.start t = none := by
  unfold Trace.start Trace.code
  cases hb : tr.block t with
  | decoded md cold is => exact absurd hb (ht md cold is)
  | _ => rfl

section Init

variable {done : List BlockId} {t : BlockId}

theorem Graph.initExit (h : Graph tr done start rank b []) (ht : tr.start t = none) (x : Fragment)
    (hx : x.moved = []) (hsucc : x.successors = []) :
    ∃ start' rank', Graph tr (t :: done) start' rank'
      { (b.alloc x).append b.next with
        blockFragment := update b.blockFragment t (some b.next) } [] := by
  obtain ⟨start', rank', ho⟩ := h.opens x hx none 0
  have hclosed := ho.graph.closeOutside ho.outside hx fun g hg ↦
    absurd (hsucc ▸ hg) List.not_mem_nil
  refine ⟨start', rank', (hclosed.append b.next).setBlock ho.lt (ho.start.trans ht.symm) ?_⟩
  rw [ho.rank]
  exact Nat.zero_le 1

theorem Graph.initDecoded (h : Graph tr done start rank b []) (hl : b.lists = tr.code)
    (x : Fragment) (hx : x.Pristine) :
    ∃ start' rank', Graph tr (t :: done) start' rank'
      { ((b.alloc x).push b.next (b.lists t).head?).prepend b.next with
        blockFragment := update b.blockFragment t (some b.next) } [] := by
  have hmoved : x.moved = [] := by simp [Fragment.moved, hx.instrs]
  obtain ⟨start', rank', ho⟩ := h.opens x hmoved (tr.start t) 1
  have hpush := ho.graph.push (ho.new.symm ▸ hx) ho.rank
  rw [ho.start, Trace.start, ← hl] at hpush
  refine ⟨start', rank', (hpush.prepend b.next).setBlock ho.lt ho.start ?_⟩
  rw [ho.rank]

theorem Graph.initBlockFragment (h : Graph tr done start rank b []) (hl : b.lists = tr.code) :
    (∃ start' rank', Graph tr (t :: done) start' rank' (initBlockFragment tr b t) []) ∧
      (initBlockFragment tr b t).lists = tr.code := by
  have hskip (hb : ¬ tr.HasFragment t) : Graph tr (t :: done) start rank b [] :=
    { h with has := fun t' ht' hfrag ↦ h.has t' ((List.mem_cons.mp ht').resolve_left
        fun he ↦ hb (he ▸ hfrag)) hfrag }
  unfold BuildFragmentList.initBlockFragment
  cases hb : tr.block t with
  | decoded md cold is => exact ⟨h.initDecoded hl _ ⟨rfl, rfl, rfl, rfl⟩, hl⟩
  | direct md => exact ⟨h.initExit (Trace.start_eq_none (by simp [hb])) _ rfl rfl, hl⟩
  | cached md => exact ⟨h.initExit (Trace.start_eq_none (by simp [hb])) _ rfl rfl, hl⟩
  | native hasStartPC =>
    cases hasStartPC with
    | true => exact ⟨h.initExit (Trace.start_eq_none (by simp [hb])) _ rfl rfl, hl⟩
    | false => exact ⟨⟨start, rank, hskip (by simp [Trace.HasFragment, hb])⟩, hl⟩
  | indirect md => exact ⟨⟨start, rank, hskip (by simp [Trace.HasFragment, hb])⟩, hl⟩
  | ret md => exact ⟨⟨start, rank, hskip (by simp [Trace.HasFragment, hb])⟩, hl⟩

theorem Graph.initBlocks (h : Graph tr done start rank b []) (hl : b.lists = tr.code)
    (blocks : List BlockId) :
    ∃ start' rank', Graph tr (blocks.reverse ++ done) start' rank'
      (blocks.foldl (BuildFragmentList.initBlockFragment tr) b) [] := by
  induction blocks generalizing b done start rank with
  | nil => exact ⟨start, rank, h⟩
  | cons t blocks ih =>
    obtain ⟨⟨start', rank', h'⟩, hl'⟩ := h.initBlockFragment hl (t := t)
    rw [List.foldl_cons, List.reverse_cons, List.append_assoc]
    exact ih h' hl'

end Init

theorem built_initialize (tr : Trace) : Built tr (initializeFragAndWorklist tr) := by
  have h : Graph tr [] (fun _ ↦ none) (fun _ ↦ 0) { lists := tr.code, data := tr.data } [] :=
    { lt := fun f hf ↦ absurd hf List.not_mem_nil
      nodup := List.nodup_nil
      pending := fun f i hf ↦ absurd hf List.not_mem_nil
      label := fun l f hl ↦ absurd hl (Option.some_ne_none f).symm
      block := fun t f ht ↦ absurd ht (Option.some_ne_none f).symm
      has := fun t ht ↦ absurd ht List.not_mem_nil
      built := fun f hf ↦ absurd hf (Nat.not_lt_zero f)
      erased := fun f i hi ↦ absurd hi List.not_mem_nil
      once := fun f ↦ List.nodup_nil
      unique := fun f g i hi ↦ absurd hi List.not_mem_nil
      gone := fun i hi hl ↦ absurd hi hl }
  have hblocks := h.initBlocks rfl tr.blocks.reverse
  rwa [List.reverse_reverse, List.append_nil] at hblocks

theorem Built.pop {w : List (FragmentId × Option InstrId)} (h : Built tr b)
    (hw : b.work = (f, p) :: w) :
    Builds tr { b with work := w } f p ∧ (b.heap f).kind = .invalid := by
  obtain ⟨start, rank, h⟩ := h
  obtain ⟨hlt, hstart, hrank, hp⟩ := h.pending f p (hw ▸ List.mem_cons_self)
  have hsaid : (Builder.flow tr { b with work := w } f).1 = [] := by
    simp [Builder.flow, Fragment.moved, hp.instrs]
  have hnodup := h.nodup
  rw [hw] at hnodup
  have hgraph : Graph tr tr.blocks start rank { b with work := w } [f] :=
    { h with
      lt := fun k hk ↦ List.mem_singleton.mp hk ▸ hlt
      nodup := hnodup
      pending := fun k i hk ↦ h.pending k i (hw ▸ List.mem_cons_of_mem _ hk)
      built := fun k hk hn ↦ h.built k hk (by rwa [hw]) }
  refine ⟨⟨start, rank, ⟨hgraph, ?_, slot_eq_none _ hp.fallThrough hp.branch⟩, hrank,
    fun hkind ↦ absurd hp.kind hkind⟩, hp.kind⟩
  rw [hsaid, hstart]
  exact .refl p

theorem Builds.finish (h : Builds tr b f none) : Built tr b := by
  obtain ⟨start, rank, hp, -, -⟩ := h
  have hsucc : (b.heap f).successors = [] := by
    have h₁ : (b.heap f).fallThrough = none := hp.slots .fallThrough
    have h₂ : (b.heap f).branch = none := hp.slots .branch
    rw [Fragment.successors, h₁, h₂]
    rfl
  refine ⟨start, rank, hp.graph.close (fun s g hs ↦ ?_) (.of_leads hp.path ?_ (fun q hq ↦ ?_)
    fun g hg ↦ ?_)⟩
  · exact absurd (hs.symm.trans (hp.slots s)) (Option.some_ne_none g)
  · exact (List.append_nil _).symm
  · exact absurd hq List.not_mem_nil
  · have hg : g ∈ (b.heap f).successors := hg
    exact absurd (hsucc ▸ hg) List.not_mem_nil

theorem Built.straggler {md : BlockMetaData} (h : Built tr b)
    (hn : nextInstr tr b l = tr.next l) : Built tr (addBlockStragglerToWorkList tr b md l) := by
  obtain ⟨start, rank, h⟩ := h
  let entry : Fragment := { cls := .nonLocalEntry, cache := .frozen, fallThrough := some (b.next + 1) }
  let rest : Fragment := { blockMeta := some md }
  obtain ⟨s₁, r₁, h₁⟩ := h.opens entry rfl (tr.next l) 2
  have hlabel := h₁.graph.setLabel (l := l) h₁.lt h₁.start
  obtain ⟨s₂, r₂, h₂⟩ := hlabel.opens rest rfl (tr.next l) 1
  have hpush := h₂.graph.push (h₂.new.symm ▸ ⟨rfl, rfl, rfl, rfl⟩) h₂.rank
  rw [h₂.start, ← hn] at hpush
  have hentry := (h₂.old b.next h₁.lt).trans h₁.new
  have hsaid := congrArg Fragment.moved hentry
  have hstart := (h₂.ext.start b.next h₁.lt).trans h₁.start
  have hstart' : s₂ (b.next + 1) = tr.next l := h₂.start
  have hrank := (h₂.ext.rank b.next h₁.lt).trans h₁.rank
  have hrank' : r₂ (b.next + 1) = 1 := h₂.rank
  refine ⟨s₂, r₂, ((hpush.append b.next).append (b.next + 1)).handOver (g := b.next + 1) ?_ ?_ ?_
    ?_ ?_⟩
  · rw [hstart, hstart']
    have hnil : (Builder.flow tr _ b.next).1 = [] :=
      congrArg (List.filter fun i ↦ (tr.instr i).isNative) hsaid
    exact hnil ▸ .refl _
  · rw [hrank, hrank']
    exact Nat.one_lt_two
  · exact h₂.lt
  · exact congrArg (·.slot .fallThrough) hentry
  · exact congrArg (·.slot .branch) hentry

def Trace.instrs (tr : Trace) : Finset InstrId := (tr.blocks.flatMap tr.code).toFinset

/-- What the builder has put on its work list, and for which labels. -/
structure Agenda where
  labelFragment : InstrId → Option FragmentId
  work : List (FragmentId × Option InstrId)

def Builder.agenda (b : Builder) : Agenda := ⟨b.labelFragment, b.work⟩

/-- The turns that are waiting. A label without a fragment stands for two, of which its fragment
takes one. -/
def Agenda.owed (tr : Trace) (a : Agenda) : ℕ :=
  2 * (tr.instrs.filter fun l ↦ a.labelFragment l = none).card + a.work.length

def Trace.unreached (tr : Trace) (P : Set InstrId) : Set InstrId := {i | i ∈ tr.instrs ∧ i ∉ P}

/-- The turns that may be left, of which an instruction that is not reached yet stands for
three. -/
noncomputable def turnsLeft (tr : Trace) (b : Builder) (P : Set InstrId) : ℕ :=
  3 * (tr.unreached P).ncard + b.agenda.owed tr

section Owed

variable {nextI : Option InstrId} {a : Agenda}

theorem Trace.WellFormed.mem_instrs (ht : tr.WellFormed) (hi : i ∈ tr.code (tr.owner i)) :
    i ∈ tr.instrs :=
  List.mem_toFinset.mpr (List.mem_flatMap.mpr
    ⟨_, ht.listed _ (List.ne_nil_of_mem hi), hi⟩)

namespace Agenda

def push (a : Agenda) (f : FragmentId) (i : Option InstrId) : Agenda :=
  { a with work := (f, i) :: a.work }

def label (a : Agenda) (l : InstrId) (f : FragmentId) : Agenda :=
  { a with labelFragment := update a.labelFragment l (some f) }

theorem owed_push (f : FragmentId) (i : Option InstrId) : (a.push f i).owed tr = a.owed tr + 1 :=
  rfl

theorem filter_label_subset (l : InstrId) (f : FragmentId) :
    (tr.instrs.filter fun l' ↦ (a.label l f).labelFragment l' = none) ⊆
      (tr.instrs.filter fun l' ↦ a.labelFragment l' = none).erase l := by
  intro l' hl'
  obtain ⟨hmem, hnone⟩ := Finset.mem_filter.mp hl'
  replace hnone : update a.labelFragment l (some f) l' = none := hnone
  have hne : l' ≠ l := by
    intro he
    rw [he, update_self] at hnone
    exact Option.some_ne_none f hnone
  rw [update_of_ne hne] at hnone
  exact Finset.mem_erase.mpr ⟨hne, Finset.mem_filter.mpr ⟨hmem, hnone⟩⟩

theorem owed_label_le (l : InstrId) (f : FragmentId) : (a.label l f).owed tr ≤ a.owed tr := by
  have hsub : (tr.instrs.filter fun l' ↦ (a.label l f).labelFragment l' = none) ⊆ _ :=
    filter_label_subset l f
  have hcard := (Finset.card_le_card hsub).trans Finset.card_erase_le
  exact Nat.add_le_add_right (Nat.mul_le_mul_left 2 hcard) _

theorem owed_label (hl : l ∈ tr.instrs) (hn : a.labelFragment l = none) (f : FragmentId) :
    (a.label l f).owed tr + 2 ≤ a.owed tr := by
  have hmem : l ∈ tr.instrs.filter fun l' ↦ a.labelFragment l' = none :=
    Finset.mem_filter.mpr ⟨hl, hn⟩
  have hsub : (tr.instrs.filter fun l' ↦ (a.label l f).labelFragment l' = none) ⊆ _ :=
    filter_label_subset l f
  have hcard := (Finset.card_le_card hsub).trans_lt (Finset.card_erase_lt_of_mem hmem)
  unfold owed
  have hwork : (a.label l f).work = a.work := rfl
  rw [hwork]
  omega

end Agenda

@[simp] theorem agenda_modify (f : FragmentId) (g : Fragment → Fragment) :
    (b.modify f g).agenda = b.agenda := rfl

@[simp] theorem agenda_alloc (x : Fragment) : (b.alloc x).agenda = b.agenda := rfl

@[simp] theorem agenda_setSuccessor (f : FragmentId) (sel : Slot) (s : FragmentId) :
    (b.setSuccessor f sel s).agenda = b.agenda := rfl

@[simp] theorem agenda_insertAfter (f g : FragmentId) :
    (b.insertAfter f g).agenda = b.agenda := rfl

@[simp] theorem agenda_append (f : FragmentId) : (b.append f).agenda = b.agenda := rfl

@[simp] theorem agenda_union (f g : FragmentId) : (b.union f g).agenda = b.agenda := rfl

@[simp] theorem agenda_moveInstr (f : FragmentId) (i : InstrId) :
    (moveInstr tr b f i).agenda = b.agenda := rfl

theorem agenda_addBlockTail (f : FragmentId) (label first : Option InstrId) (sel : Slot) :
    (addBlockTailToWorkList b f label first sel).agenda =
      match label.bind b.labelFragment with
      | some _ => b.agenda
      | none => label.elim (b.agenda.push b.next first) fun l ↦
        (b.agenda.push b.next first).label l b.next := by
  unfold addBlockTailToWorkList
  cases label.bind b.labelFragment with
  | some tail => rfl
  | none => cases label <;> rfl

theorem owed_addBlockTail (f : FragmentId) (label first : Option InstrId) (sel : Slot) :
    (addBlockTailToWorkList b f label first sel).agenda.owed tr ≤ b.agenda.owed tr + 1 := by
  rw [agenda_addBlockTail]
  cases label.bind b.labelFragment with
  | some tail => exact Nat.le_succ _
  | none =>
    cases label with
    | none => exact (Agenda.owed_push _ _).le
    | some l => exact (Agenda.owed_label_le l b.next).trans (Agenda.owed_push _ _).le

theorem owed_addFallThrough (f : FragmentId) :
    (addFallThrough tr b f nextI).agenda.owed tr ≤ b.agenda.owed tr + 1 := by
  unfold addFallThrough
  split
  · exact owed_addBlockTail f _ _ _
  · exact owed_addBlockTail f _ _ _

@[simp] theorem agenda_addIndirectEdge (f : FragmentId) (i : InstrId) (t : BlockId) :
    (addIndirectEdge tr b f i t).2.agenda = b.agenda := by
  simp only [addIndirectEdge, generateIndirectEdgeCode, agenda_union, agenda_append, agenda_alloc]

@[simp] theorem agenda_processJump (f : FragmentId) (i : InstrId) (ind : Bool) (t : BlockId) :
    (processJump tr b f i ind t).agenda = b.agenda := by
  unfold processJump
  cases ind with
  | true => simp only [if_true, agenda_setSuccessor, agenda_addIndirectEdge]
  | false => simp only [Bool.false_eq_true, if_false, agenda_modify]

@[simp] theorem agenda_makeCFIFrag (f : FragmentId) (i : InstrId) (call : Bool) :
    (makeCFIFrag tr b f i call).2.agenda = b.agenda := by
  simp only [makeCFIFrag, agenda_moveInstr, agenda_insertAfter, agenda_setSuccessor, agenda_modify,
    agenda_alloc]

theorem owed_processTwoWayCFITail (f : FragmentId) (hb : b'.agenda = b.agenda) :
    (processTwoWayCFITail tr b' f nextI).agenda.owed tr ≤ b.agenda.owed tr + 1 := by
  rw [← hb]
  unfold processTwoWayCFITail
  split
  · rw [agenda_processJump]
    exact Nat.le_succ _
  · exact owed_addBlockTail f _ _ _

theorem owed_processCFI (kind : CFIKind) (ind : Bool) (t : BlockId) :
    (processCFI tr b f i kind ind t nextI).agenda.owed tr ≤ b.agenda.owed tr + 1 := by
  cases kind with
  | jump =>
    simp only [processCFI, agenda_processJump]
    exact Nat.le_succ _
  | functionCall =>
    simp only [processCFI]
    refine owed_processTwoWayCFITail _ ?_
    cases ind with
    | true => simp only [if_true, agenda_modify, agenda_addIndirectEdge, agenda_union,
        agenda_makeCFIFrag]
    | false => simp only [Bool.false_eq_true, if_false, agenda_modify, agenda_makeCFIFrag]
  | conditionalJump =>
    simp only [processCFI]
    refine owed_processTwoWayCFITail _ ?_
    simp only [agenda_modify, agenda_makeCFIFrag]
  | systemCall | interruptCall =>
    simp only [processCFI]
    refine owed_processTwoWayCFITail _ ?_
    simp only [agenda_insertAfter, agenda_setSuccessor, agenda_moveInstr, agenda_alloc]
  | systemReturn | interruptReturn | functionReturn =>
    simp only [processCFI, agenda_setSuccessor, agenda_moveInstr, agenda_alloc]
    exact Nat.le_succ _

@[simp] theorem agenda_fragmentWithBranch (isApp : Bool) :
    (fragmentWithBranch b f isApp).2.agenda = b.agenda := by
  unfold fragmentWithBranch
  split_ifs
  · simp only [agenda_insertAfter, agenda_setSuccessor, agenda_alloc]
  · rfl

theorem owed_processBranch (kind : BranchKind) (info : NativeInfo) (l : InstrId) :
    (processBranch tr b f i kind info l nextI).agenda.owed tr ≤ b.agenda.owed tr + 2 := by
  simp only [processBranch, agenda_moveInstr]
  generalize (info.isApp && (kind == .conditionalJump || info.writesStackPointer)) = isApp
  generalize hb : (fragmentWithBranch b f isApp).2.modify _ _ = b₀
  have hagenda : b₀.agenda = b.agenda := by
    rw [← hb, agenda_modify, agenda_fragmentWithBranch]
  rw [← hagenda]
  have htarget : (addBlockTailToWorkList b₀ (fragmentWithBranch b f isApp).1 (some l)
      (nextInstr tr b₀ l) .branch).agenda.owed tr ≤ b₀.agenda.owed tr + 1 :=
    owed_addBlockTail _ _ _ _
  split_ifs
  · exact htarget.trans (Nat.le_succ _)
  · exact (owed_addFallThrough _).trans (Nat.succ_le_succ htarget)

theorem owed_processExceptionalCFI (hf : f < b.next) (info : NativeInfo) (t : BlockId) :
    (processExceptionalCFI tr b f i info t nextI).agenda.owed tr ≤ b.agenda.owed tr + 1 := by
  refine (owed_addBlockTail _ _ _ _).trans (le_of_eq ?_)
  congr 2
  simp only [archProcessExceptionalCFI, agenda_insertAfter, agenda_setSuccessor, agenda_union,
    agenda_alloc, agenda_modify, addExceptionalInstr_eq hf]
  split_ifs
  · simp only [agenda_moveInstr, agenda_modify, startExceptional, agenda_setSuccessor,
      agenda_insertAfter, agenda_alloc]
  · simp only [agenda_moveInstr, agenda_modify]

theorem owed_processNativeInstr (info : NativeInfo) :
    (processNativeInstr tr b f i info).1.agenda.owed tr ≤ b.agenda.owed tr + 1 := by
  unfold processNativeInstr
  split_ifs
  · exact owed_addBlockTail f _ _ _
  · simp only [agenda_moveInstr, agenda_modify]
    exact Nat.le_succ _

theorem owed_processLabel :
    (processLabel b f i nextI).1.agenda.owed tr ≤ b.agenda.owed tr + 1 := by
  unfold processLabel
  split_ifs
  · exact Nat.le_succ _
  · exact (owed_addBlockTail f _ _ _).trans (by rw [agenda_modify])

theorem owed_processAnnotation (x : Annotation) :
    ( processAnnotation tr b f i x nextI).1.agenda.owed tr ≤ b.agenda.owed tr + 1 := by
  cases x with
  | interruptDeliveryStateChange => exact (owed_addBlockTail f _ _ _).trans (by rw [agenda_modify])
  | contextFunctionCall =>
    refine (owed_addBlockTail _ _ _ _).trans (le_of_eq ?_)
    simp only [createContextCallFragment, agenda_insertAfter, agenda_setSuccessor, agenda_alloc]
  | _ =>
    simp only [ processAnnotation, agenda_modify, agenda_moveInstr]
    exact Nat.le_succ _

theorem owed_processInstr (hf : f < b.next) :
    (processInstr tr b f i nextI).1.agenda.owed tr ≤ b.agenda.owed tr + 2 := by
  unfold processInstr
  split
  · exact owed_processLabel.trans (Nat.le_succ _)
  · exact ( owed_processAnnotation _).trans (Nat.le_succ _)
  · exact owed_processBranch _ _ _
  · exact (owed_processExceptionalCFI hf _ _).trans (Nat.le_succ _)
  · exact (owed_processCFI _ _ _).trans (Nat.le_succ _)
  · exact (owed_processNativeInstr _).trans (Nat.le_succ _)

theorem owed_of_leaves (h : Leaves tr b f i) :
    (processInstr tr b f i nextI).1.agenda.owed tr ≤ b.agenda.owed tr + 1 := by
  obtain ⟨info, hi, -⟩ := h
  unfold processInstr
  rw [hi]
  exact owed_processNativeInstr info

theorem owed_straggler {md : BlockMetaData} (hl : l ∈ tr.instrs) (hn : b.labelFragment l = none) :
    (addBlockStragglerToWorkList tr b md l).agenda.owed tr ≤ b.agenda.owed tr := by
  have hlabel := Agenda.owed_label (a := b.agenda) hl hn b.next
  have hagenda : (addBlockStragglerToWorkList tr b md l).agenda =
      (b.agenda.label l b.next).push (b.next + 1) (nextInstr tr b l) := rfl
  rw [hagenda, Agenda.owed_push]
  exact (Nat.le_succ _).trans hlabel

theorem turnsLeft_insert (hi : i ∈ tr.instrs) (hP : i ∉ P) {m : ℕ}
    (hb : b'.agenda.owed tr ≤ b.agenda.owed tr + m) :
    turnsLeft tr b' (insert i P) + 3 ≤ turnsLeft tr b P + m := by
  have hfinite : (tr.unreached P).Finite := tr.instrs.finite_toSet.subset fun j hj ↦ hj.1
  have hsub : tr.unreached (insert i P) ⊆ tr.unreached P :=
    fun j hj ↦ ⟨hj.1, fun hp ↦ hj.2 (Set.mem_insert_of_mem i hp)⟩
  have hnew : ∃ j ∈ tr.unreached P, j ∉ tr.unreached (insert i P) :=
    ⟨i, ⟨hi, hP⟩, fun hmem ↦ hmem.2 (Set.mem_insert i P)⟩
  have hcard := Set.ncard_lt_ncard ((Set.ssubset_iff_of_subset hsub).mpr hnew) hfinite
  unfold turnsLeft
  omega

end Owed

def Turns (tr : Trace) (n : ℕ) (b : Builder) (P : Set InstrId) : Prop :=
  Built tr b ∧ turnsLeft tr b P ≤ n

/-- A fragment whose kind is known has come past an instruction in this turn. -/
def InTurn (tr : Trace) (n : ℕ) (b : Builder) (P : Set InstrId) (f : FragmentId)
    (p : Option InstrId) : Prop :=
  Builds tr b f p ∧ turnsLeft tr b P ≤ n ∧ ((b.heap f).kind ≠ .invalid → turnsLeft tr b P + 1 ≤ n)

theorem InTurn.step {n : ℕ} {nextI : Option InstrId} (ht : tr.WellFormed)
    (hlin : Linear tr b.core P [i]) (hf : f < b.next) (hmem : i ∈ b.lists (tr.owner i))
    (hn : ¬ Passed tr b.core P i → nextI = tr.next i) (h : InTurn tr n b P f (some i)) :
    if (processInstr tr b f i nextI).2
    then InTurn tr n (processInstr tr b f i nextI).1 (visited tr b f i P) f (tr.next i)
    else Turns tr n (processInstr tr b f i nextI).1 (visited tr b f i P) := by
  obtain ⟨hbuilds, hle, hkind⟩ := h
  have hstep := hbuilds.processInstr ht hlin hmem hn
  have hi := ht.mem_instrs (hlin.mem i List.mem_cons_self)
  have hP := hlin.disjoint i List.mem_cons_self
  by_cases hleaves : Leaves tr b f i
  · have hone : (processInstr tr b f i nextI).1.agenda.owed tr ≤ b.agenda.owed tr + 1 :=
      owed_of_leaves hleaves
    obtain ⟨info, hinstr, hsplit⟩ := hleaves
    have hgo : (processInstr tr b f i nextI).2 = false := by
      unfold processInstr processNativeInstr
      simp only [hinstr, hsplit, if_true]
    have hinvalid : (b.heap f).kind ≠ .invalid := by
      intro hinvalid
      simp [Fragment.splits, hinvalid] at hsplit
    rw [hgo, if_neg Bool.false_ne_true] at hstep ⊢
    rw [visited_of_leaves ⟨info, hinstr, hsplit⟩]
    refine ⟨hstep, le_trans ?_ (hkind hinvalid)⟩
    exact (Nat.add_le_add_left hone _).trans_eq (Nat.add_assoc _ _ _).symm
  · have htwo : (processInstr tr b f i nextI).1.agenda.owed tr ≤ b.agenda.owed tr + 2 :=
      owed_processInstr hf
    have hturns := turnsLeft_insert hi hP htwo
    rw [visited_of_not_leaves hleaves]
    split_ifs at hstep ⊢
    · exact ⟨hstep, by omega, fun _ ↦ by omega⟩
    · exact ⟨hstep, by omega⟩

theorem rule_turns (ht : tr.WellFormed) : Rule tr (Turns tr) (InTurn tr) where
  init := ⟨_, built_initialize tr, le_rfl⟩
  lt_next n b P f i hK hw := by
    obtain ⟨⟨start, rank, h⟩, -⟩ := hK
    exact (h.pending f i hw).1
  pop n b P f i w hK hw := by
    obtain ⟨hbuilds, hkind⟩ := hK.1.pop hw
    have howed : b.agenda.owed tr = (Builder.agenda { b with work := w }).owed tr + 1 := by
      have hagenda : b.agenda = (Builder.agenda { b with work := w }).push f i := by
        simp [Builder.agenda, Agenda.push, hw]
      rw [hagenda, Agenda.owed_push]
    have hle := hK.2
    have hturns : turnsLeft tr { b with work := w } P + 1 = turnsLeft tr b P := by
      unfold turnsLeft
      rw [howed, Nat.add_assoc]
    exact ⟨n - 1, by omega, hbuilds, by omega, fun hne ↦ absurd hkind hne⟩
  step n b P f i nextI hlin hf hmem hn h := h.step ht hlin hf hmem hn
  finish n b P f h := ⟨h.1.finish, h.2.1⟩
  straggler n b P block md cold is l hK hlin hb hs := by
    have hcode := (hlin.sub block).subset hs.listed
    have hown := ht.owner _ l hcode
    have hmem : l ∈ tr.code (tr.owner l) := hown.symm ▸ hcode
    refine ⟨hK.1.straggler ?_, le_trans ?_ hK.2⟩
    · exact hlin.next_label ht hs.label hmem hs.data fun hlab ↦ hlab hs.fresh
    · exact Nat.add_le_add_left (owed_straggler (ht.mem_instrs hmem) hs.fresh) _

end Granary.Assemble.BuildFragmentList
