import Granary.Assemble.AddEntryAndExitFragments.Executions
import Granary.Assemble.TrackVirtualRegs.Partitions

namespace Granary.Assemble.AddEntryAndExitFragments

open Function Granary.Base Granary.Code
open Granary.Assemble.TrackVirtualRegs (body PartitionsCut)

def Edge (s : State) (i j : FragmentId) : Prop := i ∈ s.frags ∧ ∃ k, (s.heap i).successor k = some j

/-- What leads out of a partition is a partition exit or a control-flow instruction, and what is led
to in another one is a partition entry, a control-flow instruction or an exit of the trace; partition
entries lead into their partition, and partition exits are led to from theirs. -/
structure Guarded (s : State) : Prop where
  leaves : ∀ i j, Edge s i j → s.partition i ≠ s.partition j → s.cls i = .partitionExit ∨ s.isCfi i = true
  enters : ∀ i j, Edge s i j → s.partition i ≠ s.partition j →
    s.cls j = .partitionEntry ∨ s.isCfi j = true ∨ s.cls j = .exit
  entry : ∀ i j, Edge s i j → s.cls i = .partitionEntry → s.partition i = s.partition j
  exit : ∀ i j, Edge s i j → s.cls j = .partitionExit → s.partition i = s.partition j

theorem Guarded.reset {s : State} (h : Guarded s) : Guarded (resetEntryExitFrag s) :=
  ⟨h.leaves, h.enters, h.entry, h.exit⟩

section Pass

variable {p : Pass} {s₀ s : State} {i j c : FragmentId}

/-- A fragment that a pass did not change but for where it leads. -/
structure Kept (s₀ s : State) (i : FragmentId) : Prop where
  mem : i ∈ s₀.frags
  cls : s.cls i = s₀.cls i
  partition : s.partition i = s₀.partition i
  flagZone : s.flagZone i = s₀.flagZone i
  kind : (s.heap i).kind = (s₀.heap i).kind
  isCfi : s.isCfi i = s₀.isCfi i
  isFlagInstCode : isFlagInstCode s i = isFlagInstCode s₀ i

theorem Pass.Added.kept (hs₀ : Closed s₀) (hs : p.Added s₀ (fun i _ ↦ i ∈ s₀.frags) s)
    (hi : i ∈ s₀.frags) : Kept s₀ s i := by
  have h := hs.same i (hs₀.lt_next i hi)
  obtain ⟨hcls, hpart, hzone, hkind, -⟩ := State.fields_of_body h
  exact ⟨hi, hcls, hpart, hzone, hkind, isCfi_congr h hs.branchIsCfi, isFlagInstCode_congr h hs.zone⟩

theorem Pass.Added.edge_cases (hs₀ : Closed s₀) (hs : p.Added s₀ (fun i _ ↦ i ∈ s₀.frags) s)
    (he : Edge s i c) :
    (Kept s₀ s i ∧ Kept s₀ s c ∧ Edge s₀ i c ∧ p.isEnd s₀ i c = false) ∨
      (Kept s₀ s i ∧ ∃ j, Kept s₀ s j ∧ Edge s₀ i j ∧ p.isEnd s₀ i j = true ∧
        Guards p.cls j (s.heap c) ∧ c ∈ s.frags ∧ s.partition c = s₀.partition (p.inherit i j)) ∨
      (Kept s₀ s c ∧ ∃ x, Kept s₀ s x ∧ Edge s₀ x c ∧ p.isEnd s₀ x c = true ∧
        s.heap i = p.made s₀ i x c) := by
  obtain ⟨hi, k, hk⟩ := he
  rcases hs.edge hs₀ hi hk with ⟨hi, hc, hend⟩ | ⟨hi, hmem, j, hj, hend, hg, hpart⟩ |
      ⟨-, x, hx, l, hl, hend, hm⟩
  · exact .inl ⟨hs.kept hs₀ hi, hs.kept hs₀ (hs₀.succ i hi k c hc), ⟨hi, k, hc⟩, hend⟩
  · exact .inr (.inl ⟨hs.kept hs₀ hi, j, hs.kept hs₀ (hs₀.succ i hi k j hj), ⟨hi, k, hj⟩, hend, hg,
      hmem, hpart⟩)
  · exact .inr (.inr ⟨hs.kept hs₀ (hs₀.succ x hx l c hl), x, hs.kept hs₀ hx, ⟨hx, l, hl⟩, hend, hm⟩)

theorem cls_made (h : s.heap i = p.made s₀ i j c) : s.cls i = p.cls := by
  rw [State.cls, h]
  rfl

theorem partition_made (h : s.heap i = p.made s₀ i j c) :
    s.partition i = s₀.partition (p.inherit j c) := by
  rw [State.partition, h]
  rfl

theorem Guarded.added (hg : Guarded s₀) (hs₀ : Closed s₀)
    (hs : p.Added s₀ (fun i _ ↦ i ∈ s₀.frags) s) (hp : p.Ok)
    (hsame : ∀ i j, p.isEnd s₀ i j = true → s₀.partition i = s₀.partition j) : Guarded s := by
  have hinherit {i j : FragmentId} (h : p.isEnd s₀ i j = true) :
      s₀.partition (p.inherit i j) = s₀.partition i ∧ s₀.partition (p.inherit i j) = s₀.partition j := by
    rcases hp.inherit i j with h' | h' <;> rw [h']
    · exact ⟨rfl, hsame i j h⟩
    · exact ⟨(hsame i j h).symm, rfl⟩
  -- only the edges that are kept cross into another partition
  have hcross {i c : FragmentId} (he : Edge s i c) :
      (Kept s₀ s i ∧ Kept s₀ s c ∧ Edge s₀ i c) ∨ s.partition i = s.partition c := by
    rcases hs.edge_cases hs₀ he with ⟨hi, hc, he, -⟩ | ⟨hi, j, -, -, hend, -, -, hpart⟩ |
        ⟨hc, x, -, -, hend, hm⟩
    · exact .inl ⟨hi, hc, he⟩
    · exact .inr (by rw [hpart, (hinherit hend).1, hi.partition])
    · exact .inr (by rw [partition_made hm, (hinherit hend).2, hc.partition])
  refine ⟨fun i c he hne ↦ ?_, fun i c he hne ↦ ?_, fun i c he hi ↦ ?_, fun i c he hc ↦ ?_⟩
  · obtain ⟨hi, hc, he⟩ := (hcross he).resolve_right hne
    rw [hi.cls, hi.isCfi]
    exact hg.leaves i c he (by rwa [← hi.partition, ← hc.partition])
  · obtain ⟨hi, hc, he⟩ := (hcross he).resolve_right hne
    rw [hc.cls, hc.isCfi]
    exact hg.enters i c he (by rwa [← hi.partition, ← hc.partition])
  · rcases hcross he with ⟨hi', hc, he⟩ | h
    · rw [hi'.partition, hc.partition]
      exact hg.entry i c he (hi'.cls.symm.trans hi)
    · exact h
  · rcases hcross he with ⟨hi', hc', he⟩ | h
    · rw [hi'.partition, hc'.partition]
      exact hg.exit i c he (hc'.cls.symm.trans hc)
    · exact h

/-- Two fragments from before in different partitions, both of which end in control-flow
instructions. -/
structure Apart (s : State) (i j : FragmentId) : Prop where
  left : i ∈ s.frags
  right : j ∈ s.frags
  leftCfi : s.isCfi i = true
  rightCfi : s.isCfi j = true
  partition : s.partition i ≠ s.partition j
  leftCls : s.cls i = .code ∨ s.cls i = .nonLocalEntry ∨ s.cls i = .exit
  rightCls : s.cls j = .code ∨ s.cls j = .nonLocalEntry ∨ s.cls j = .exit

theorem Apart.reset (h : Apart s i j) : Apart (resetEntryExitFrag s) i j :=
  ⟨h.left, h.right, h.leftCfi, h.rightCfi, h.partition, h.leftCls, h.rightCls⟩

theorem Apart.added (h : Apart s₀ i j) (hs₀ : Closed s₀)
    (hs : p.Added s₀ (fun i _ ↦ i ∈ s₀.frags) s) : Apart s i j := by
  have hi := hs.kept hs₀ h.left
  have hj := hs.kept hs₀ h.right
  refine ⟨(hs.frags i).mpr (.inl h.left), (hs.frags j).mpr (.inl h.right), ?_, ?_, ?_, ?_, ?_⟩
  · rw [hi.isCfi, h.leftCfi]
  · rw [hj.isCfi, h.rightCfi]
  · rw [hi.partition, hj.partition]
    exact h.partition
  · rw [hi.cls]
    exact h.leftCls
  · rw [hj.cls]
    exact h.rightCls

theorem Apart.edge_iff (h : Apart s₀ i j) (hs₀ : Closed s₀)
    (hs : p.Added s₀ (fun i _ ↦ i ∈ s₀.frags) s)
    (hp : p.cls ≠ .code ∧ p.cls ≠ .nonLocalEntry ∧ p.cls ≠ .exit) (hend : p.isEnd s₀ i j = false) :
    Edge s i j ↔ Edge s₀ i j := by
  have hne {a : FragmentId} (ha : s₀.cls a = .code ∨ s₀.cls a = .nonLocalEntry ∨ s₀.cls a = .exit) :
      s₀.cls a ≠ p.cls := by
    rcases ha with ha | ha | ha <;> rw [ha]
    · exact hp.1.symm
    · exact hp.2.1.symm
    · exact hp.2.2.symm
  constructor
  · intro he
    rcases hs.edge_cases hs₀ he with ⟨-, -, he, -⟩ | ⟨-, x, -, -, -, hg, -⟩ | ⟨-, x, -, -, -, hm⟩
    · exact he
    · exact absurd ((hs.kept hs₀ h.right).cls.symm.trans hg.cls) (hne h.rightCls)
    · exact absurd ((hs.kept hs₀ h.left).cls.symm.trans (cls_made hm)) (hne h.leftCls)
  · rintro ⟨hi, k, hk⟩
    exact ⟨(hs.frags i).mpr (.inl hi), k, hs.skipped i hi k j hi hk hend⟩

theorem Apart.isEnd (h : Apart s i j) : isPartitionEntry s i j = false ∧
    isPartitionExit s i j = false ∧ isFlagEntry s i j = false ∧ isFlagExit s i j = false := by
  simp [isPartitionEntry, isPartitionExit, isFlagEntry, isFlagExit, h.leftCfi, h.rightCfi,
    h.partition]

theorem Pass.Added.old (hs : p.Added s₀ (fun i _ ↦ i ∈ s₀.frags) s) (hi : i ∈ s.frags)
    (hci : s.isCfi i = true) : i ∈ s₀.frags := by
  refine ((hs.frags i).mp hi).resolve_right fun h ↦ ?_
  obtain ⟨x, -, _, j, -, -, hm⟩ := hs.made i h.1 h.2
  rw [State.isCfi, hm] at hci
  exact Bool.false_ne_true hci

end Pass

namespace Stages

variable {s z f a b c d : State} (hs : Ready s) (hst : Stages s z f a b c d)
include hs hst

theorem partition_first {i j : FragmentId} (he : Edge f i j) (hi : f.cls i = .partitionEntry) :
    f.partition i = f.partition j := by
  obtain ⟨hmem, k, hk⟩ := he
  rcases cls_first hs hst hmem with ⟨hi', -, h⟩ | ⟨-, x, -, -, -, hg, hpart, -⟩
  · rw [h] at hi
    rcases hs.cls i hi' with h' | h' | h' <;> rw [h'] at hi <;> exact absurd hi (by decide)
  · rw [hpart, hg.successor hk]

theorem entry_entered {i j : FragmentId} (he : Edge a i j) (hi : a.cls i = .partitionEntry) :
    a.partition i = a.partition j := by
  rcases hst.entered.edge_cases (closed hs hst).2.1 he with ⟨hi', hj, he, -⟩ |
      ⟨hi', x, -, -, hend, -⟩ | ⟨hj, x, -, -, -, hm⟩
  · rw [hi'.partition, hj.partition]
    exact partition_first hs hst he (hi'.cls.symm.trans hi)
  · have hown : partitionEntries.isEnd f i x = false := partitionEntries_ok.own (hi'.cls.symm.trans hi)
    exact absurd (hown.symm.trans hend) Bool.false_ne_true
  · rw [partition_made hm, hj.partition]
    rfl

theorem enters_entered {i j : FragmentId} (he : Edge a i j) (hne : a.partition i ≠ a.partition j) :
    a.cls j = .partitionEntry ∨ a.isCfi j = true ∨ a.cls j = .exit := by
  rcases hst.entered.edge_cases (closed hs hst).2.1 he with ⟨hi, hj, he', hend⟩ |
      ⟨-, x, -, -, -, hg, -⟩ | ⟨hj, x, -, -, -, hm⟩
  · rw [hj.cls, hj.isCfi]
    rw [hi.partition, hj.partition] at hne
    by_contra hout
    rw [not_or, not_or] at hout
    have hi' : f.cls i ≠ .partitionEntry := fun h ↦ hne (partition_first hs hst he' h)
    by_cases hlocal : f.cls i = .nonLocalEntry
    · simp [partitionEntries, isPartitionEntry, hout, hlocal] at hend
    · simp [partitionEntries, isPartitionEntry, hi', hout, hlocal, hne] at hend
  · exact .inl hg.cls
  · rw [partition_made hm, hj.partition] at hne
    exact absurd rfl hne

theorem guarded_exited : Guarded b := by
  have ha := (closed hs hst).2.2.1
  have hlacks := lacks_partitionExits hs hst
  have hcases {i j : FragmentId} (he : Edge b i j) := hst.exited.edge_cases ha.reset he
  refine ⟨fun i j he hne ↦ ?_, fun i j he hne ↦ ?_, fun i j he hi ↦ ?_, fun i j he hj ↦ ?_⟩
  · rcases hcases he with ⟨hi, hj, he', hend⟩ | ⟨hi, x, -, -, -, -, -, hpart⟩ | ⟨-, x, -, -, -, hm⟩
    · rw [hi.partition, hj.partition] at hne
      rw [hi.cls, hi.isCfi]
      by_contra hout
      rw [not_or] at hout
      have hj' : (resetEntryExitFrag a).cls j ≠ .partitionExit := hlacks j hj.mem
      have hentry : (resetEntryExitFrag a).cls i ≠ .partitionEntry :=
        fun h ↦ hne (entry_entered hs hst he' h)
      simp [partitionExits, isPartitionExit, hout.1, hout.2, hj', hentry, hne] at hend
    · exact absurd (hpart.trans hi.partition.symm).symm hne
    · exact .inl (cls_made hm)
  · rcases hcases he with ⟨hi, hj, he', -⟩ | ⟨hi, x, -, -, -, -, -, hpart⟩ | ⟨hj, x, hx, he', -, hm⟩
    · rw [hi.partition, hj.partition] at hne
      rw [hj.cls, hj.isCfi]
      exact enters_entered hs hst he' hne
    · exact absurd (hpart.trans hi.partition.symm).symm hne
    · rw [partition_made hm, hj.partition] at hne
      rw [hj.cls, hj.isCfi]
      exact enters_entered hs hst he' hne
  · rcases hcases he with ⟨hi', hj, he', -⟩ | ⟨hi', x, -, -, hend, -⟩ | ⟨-, x, -, -, -, hm⟩
    · rw [hi'.partition, hj.partition]
      exact entry_entered hs hst he' (hi'.cls.symm.trans hi)
    · have h : (resetEntryExitFrag a).cls i = .partitionEntry := hi'.cls.symm.trans hi
      simp [partitionExits, isPartitionExit, h] at hend
    · exact absurd ((cls_made hm).symm.trans hi) (by decide)
  · rcases hcases he with ⟨-, hj', -, -⟩ | ⟨hi, x, -, -, -, -, -, hpart⟩ | ⟨hj', -⟩
    · exact absurd (hj'.cls.symm.trans hj) (hlacks j hj'.mem)
    · exact (hpart.trans hi.partition.symm).symm
    · exact absurd (hj'.cls.symm.trans hj) (hlacks j hj'.mem)

theorem guarded_final : Guarded d := by
  obtain ⟨-, -, -, hb, hc, -⟩ := closed hs hst
  have hentry (s : State) (i j : FragmentId) (h : isFlagEntry s i j = true) :
      s.partition i = s.partition j := by
    by_contra hne
    simp [isFlagEntry, hne] at h
  have hexit (s : State) (i j : FragmentId) (h : isFlagExit s i j = true) :
      s.partition i = s.partition j := by
    by_contra hne
    simp [isFlagExit, hne] at h
  have hcg := (guarded_exited hs hst).reset.added hb.reset hst.flagEntered flagEntries_ok (hentry _)
  exact hcg.reset.reset.added hc.reset.reset hst.flagExited flagExits_ok (hexit _)

theorem outline_first {i : FragmentId} (hi : i ∈ s.frags) :
    outline (f.heap i) = outline (s.heap i) ∧ f.isCfi i = s.isCfi i := by
  obtain ⟨-, -, hcfi, ho⟩ := zoned hst
  have hheap : f.heap i = z.heap i := by
    rcases cls_first hs hst (mem_first hst hi) with ⟨-, h, -⟩ | ⟨h, -⟩
    · exact h
    · exact absurd (hs.closed.lt_next i hi) (by rw [h]; exact lt_irrefl _)
  have hbranch : (z.heap i).branchInstr = (s.heap i).branchInstr :=
    (congrArg Fragment.branchInstr (ho i) :)
  refine ⟨by rw [hheap, ho i], ?_⟩
  rw [State.isCfi, State.isCfi, hheap, hbranch, branchIsCfi_first hst, hcfi]

theorem apart_first {i j : FragmentId} (h : Apart s i j) : Apart f i j := by
  obtain ⟨hi, hci⟩ := outline_first hs hst h.left
  obtain ⟨hj, hcj⟩ := outline_first hs hst h.right
  have hpi : f.partition i = s.partition i := (congrArg Fragment.partition hi :)
  have hpj : f.partition j = s.partition j := (congrArg Fragment.partition hj :)
  have hli : f.cls i = s.cls i := (congrArg Fragment.cls hi :)
  have hlj : f.cls j = s.cls j := (congrArg Fragment.cls hj :)
  exact ⟨mem_first hst h.left, mem_first hst h.right, hci ▸ h.leftCfi, hcj ▸ h.rightCfi,
    by rw [hpi, hpj]; exact h.partition, hli ▸ h.leftCls, hlj ▸ h.rightCls⟩

theorem edge_first_iff {i j : FragmentId} (hi : i ∈ s.frags) : Edge f i j ↔ Edge s i j := by
  obtain ⟨ho, -⟩ := outline_first hs hst hi
  have hfall : (f.heap i).fallThrough = (s.heap i).fallThrough := (congrArg Fragment.fallThrough ho :)
  have hbranch : (f.heap i).branch = (s.heap i).branch := (congrArg Fragment.branch ho :)
  have hsucc (k : Slot) : (f.heap i).successor k = (s.heap i).successor k := by
    cases k
    · exact hfall
    · exact hbranch
  simp only [Edge, mem_first hst hi, hi, hsucc]

/-- Between two fragments from before, both of which end in control-flow instructions, no pass puts a
fragment. -/
theorem edge_final_iff {i j : FragmentId} (h : Apart s i j) : Edge d i j ↔ Edge s i j := by
  obtain ⟨-, hf, ha, hb, hc, -⟩ := closed hs hst
  have h₀ := apart_first hs hst h
  have h₁ := (h₀.added hf hst.entered).reset
  have h₂ := (h₁.added ha.reset hst.exited).reset
  have h₃ := (h₂.added hb.reset hst.flagEntered).reset.reset
  have hcls (p : FragmentClass) (hp : p ∈ [FragmentClass.partitionEntry, .partitionExit, .flagEntry,
      .flagExit]) : p ≠ .code ∧ p ≠ .nonLocalEntry ∧ p ≠ .exit := by
    revert p
    decide
  have e₀ := h₀.edge_iff hf hst.entered (hcls _ (by decide)) h₀.isEnd.1
  have e₁ := h₁.edge_iff ha.reset hst.exited (hcls _ (by decide)) h₁.isEnd.2.1
  have e₂ := h₂.edge_iff hb.reset hst.flagEntered (hcls _ (by decide)) h₂.isEnd.2.2.1
  have e₃ := h₃.edge_iff hc.reset.reset hst.flagExited (hcls _ (by decide)) h₃.isEnd.2.2.2
  exact (e₃.trans e₂).trans ((e₁.trans e₀).trans (edge_first_iff hs hst h.left))

theorem kept_final {i : FragmentId} (hi : i ∈ s.frags) :
    d.cls i = s.cls i ∧ d.partition i = s.partition i ∧ d.isCfi i = s.isCfi i := by
  obtain ⟨-, hf, ha, hb, hc, -⟩ := closed hs hst
  obtain ⟨ho, hcfi⟩ := outline_first hs hst hi
  have hif := mem_first hst hi
  have hia := hst.entered.kept hf hif
  have hib := hst.exited.kept ha.reset ((hst.entered.frags i).mpr (.inl hif))
  have hic := hst.flagEntered.kept hb.reset ((hst.exited.frags i).mpr (.inl hib.mem))
  have hid := hst.flagExited.kept hc.reset.reset ((hst.flagEntered.frags i).mpr (.inl hic.mem))
  refine ⟨?_, ?_, ?_⟩
  · exact (hid.cls.trans (hic.cls.trans (hib.cls.trans hia.cls))).trans (congrArg Fragment.cls ho :)
  · exact (hid.partition.trans (hic.partition.trans (hib.partition.trans hia.partition))).trans
      (congrArg Fragment.partition ho :)
  · exact (hid.isCfi.trans (hic.isCfi.trans (hib.isCfi.trans hia.isCfi))).trans hcfi

theorem old_final {i : FragmentId} (hi : i ∈ d.frags) (hci : d.isCfi i = true) : i ∈ s.frags := by
  obtain ⟨-, hf, ha, hb, hc, -⟩ := closed hs hst
  have hic : i ∈ c.frags := hst.flagExited.old hi hci
  have hcic : c.isCfi i = true := (hst.flagExited.kept hc.reset.reset hic).isCfi.symm.trans hci
  have hib : i ∈ b.frags := hst.flagEntered.old hic hcic
  have hcib : b.isCfi i = true := (hst.flagEntered.kept hb.reset hib).isCfi.symm.trans hcic
  have hia : i ∈ a.frags := hst.exited.old hib hcib
  have hcia : a.isCfi i = true := (hst.exited.kept ha.reset hia).isCfi.symm.trans hcib
  have hif : i ∈ f.frags := hst.entered.old hia hcia
  have hcif : f.isCfi i = true := (hst.entered.kept hf hif).isCfi.symm.trans hcia
  refine (cls_first hs hst hif).elim And.left ?_
  rintro ⟨-, j, -, -, -, hg, -, -⟩
  rw [State.isCfi, hg.branchInstr] at hcif
  exact absurd hcif Bool.false_ne_true

end Stages

theorem Relabeled.isCfi {s s' : State} (hl : Relabeled s s') (i : FragmentId) :
    s'.isCfi i = s.isCfi i := by
  have hbranch : (s'.heap i).branchInstr = (s.heap i).branchInstr :=
    (congrArg Fragment.branchInstr (hl.heap i) :)
  rw [State.isCfi, State.isCfi, hbranch, hl.branchIsCfi]

theorem Relabeled.edge_iff {s s' : State} (hl : Relabeled s s') {i j : FragmentId} :
    Edge s' i j ↔ Edge s i j := by
  have hsucc (k : Slot) : (s'.heap i).successor k = (s.heap i).successor k :=
    (congrArg (fun f : Fragment ↦ f.successor k) (hl.heap i) :)
  simp only [Edge, hl.frags, hsucc]

theorem Guarded.relabeled {s s' : State} (hg : Guarded s) (hl : Relabeled s s') : Guarded s' := by
  have hcls (i : FragmentId) : s'.cls i = s.cls i := (congrArg Fragment.cls (hl.heap i) :)
  have hpart (i : FragmentId) : s'.partition i = s.partition i :=
    (congrArg Fragment.partition (hl.heap i) :)
  have hedge {i j : FragmentId} (he : Edge s' i j) : Edge s i j := hl.edge_iff.mp he
  refine ⟨fun i j he ↦ ?_, fun i j he ↦ ?_, fun i j he ↦ ?_, fun i j he ↦ ?_⟩
  · rw [hpart, hpart, hcls, hl.isCfi]
    exact hg.leaves i j (hedge he)
  · rw [hpart, hpart, hcls, hl.isCfi]
    exact hg.enters i j (hedge he)
  · rw [hpart, hpart, hcls]
    exact hg.entry i j (hedge he)
  · rw [hpart, hpart, hcls]
    exact hg.exit i j (hedge he)

/-- Every edge into another partition is guarded on both of its sides, but for control-flow
instructions; so code leads only to code of its own partition exactly if no two fragments that end
in such instructions follow each other in different partitions. -/
theorem addEntryAndExitFragments_guards {s : State} (hs : Ready s) :
    ∃ s', (∃ N, ∀ n, N ≤ n → addEntryAndExitFragments n s = some s') ∧ Guarded s' ∧
      (PartitionsCut s'.list ↔ ∀ i j, Edge s i j → s.cls i = .code → s.cls j = .code →
        s.isCfi i = true → s.isCfi j = true → s.partition i = s.partition j) := by
  obtain ⟨z, f, a, b, c, d, hst, N, hN⟩ := exists_stages hs
  have hl := relabeled_labelPartitions d
  have hguarded := (Stages.guarded_final hs hst).relabeled hl
  refine ⟨labelPartitions d, ⟨N, fun n hn ↦ ?_⟩, hguarded, fun hcut i j he hi hj hci hcj ↦ ?_, ?_⟩
  · rw [hN n hn, propagateCodeCacheKinds_eq]
  · by_contra hne
    have hjmem := hs.closed.succ i he.1 _ j he.2.choose_spec
    have hapart : Apart s i j :=
      ⟨he.1, hjmem, hci, hcj, hne, .inl hi, .inl hj⟩
    have hcode {x : FragmentId} (hx : x ∈ s.frags) (h : s.cls x = .code) :
        ((labelPartitions d).heap x).isCode = true := by
      have hcls : (labelPartitions d).cls x = .code :=
        ((congrArg Fragment.cls (hl.heap x) :).trans (Stages.kept_final hs hst hx).1).trans h
      exact congrArg FragmentClass.isCode hcls
    have hpart {x : FragmentId} (hx : x ∈ s.frags) :
        (labelPartitions d).partition x = s.partition x :=
      (congrArg Fragment.partition (hl.heap x) :).trans (Stages.kept_final hs hst hx).2.1
    obtain ⟨hmem, k, hk⟩ := hl.edge_iff.mpr ((Stages.edge_final_iff hs hst hapart).mpr he)
    have h := hcut i hmem (hcode he.1 hi) j (Fragment.mem_successors.mpr ⟨k, hk⟩) (hcode hjmem hj)
    exact hne ((hpart he.1).symm.trans (h.symm.trans (hpart hjmem)))
  · intro h i hi hcodei j hj hcodej
    by_contra hne
    have he : Edge (labelPartitions d) i j := ⟨hi, Fragment.mem_successors.mp hj⟩
    have hne' : (labelPartitions d).partition i ≠ (labelPartitions d).partition j := fun h ↦ hne h.symm
    have hci : (labelPartitions d).isCfi i = true := by
      refine (hguarded.leaves i j he hne').resolve_left fun hcls ↦ ?_
      exact Bool.false_ne_true ((congrArg FragmentClass.isCode hcls).symm.trans hcodei)
    have hcj : (labelPartitions d).isCfi j = true := by
      rcases hguarded.enters i j he hne' with hcls | hcj | hcls
      · exact absurd ((congrArg FragmentClass.isCode hcls).symm.trans hcodej) Bool.false_ne_true
      · exact hcj
      · exact absurd ((congrArg FragmentClass.isCode hcls).symm.trans hcodej) Bool.false_ne_true
    -- the instructions that end them are those of fragments from before
    have hold {x : FragmentId} (hx : x ∈ (labelPartitions d).frags)
        (hcx : (labelPartitions d).isCfi x = true)
        (hcode : ((labelPartitions d).heap x).isCode = true) :
        x ∈ s.frags ∧ s.cls x = .code ∧ s.isCfi x = true ∧
          (labelPartitions d).partition x = s.partition x := by
      rw [hl.isCfi] at hcx
      have hxs : x ∈ s.frags := Stages.old_final hs hst (hl.frags ▸ hx) hcx
      obtain ⟨hcls, hpart, hcfi⟩ := Stages.kept_final hs hst hxs
      have hcls' : (labelPartitions d).cls x = s.cls x :=
        (congrArg Fragment.cls (hl.heap x) :).trans hcls
      refine ⟨hxs, (hs.cls x hxs).resolve_right fun h ↦ ?_, hcfi ▸ hcx,
        (congrArg Fragment.partition (hl.heap x) :).trans hpart⟩
      have hisCode : (s.cls x).isCode = true := hcls' ▸ hcode
      rcases h with h | h <;> rw [h] at hisCode <;> exact Bool.false_ne_true hisCode
    have hclosed : j ∈ (labelPartitions d).frags := by
      obtain ⟨hmem, k, hk⟩ := hl.edge_iff.mp he
      exact hl.frags ▸ (hst.closed hs).2.2.2.2.2.succ i hmem k j hk
    obtain ⟨his, hclsi, hcis, hparti⟩ := hold hi hci hcodei
    obtain ⟨hjs, hclsj, hcjs, hpartj⟩ := hold hclosed hcj hcodej
    have hapart : Apart s i j :=
      ⟨his, hjs, hcis, hcjs, by rwa [← hparti, ← hpartj], .inl hclsi, .inl hclsj⟩
    have hes : Edge s i j := (Stages.edge_final_iff hs hst hapart).mp (hl.edge_iff.mp he)
    exact hapart.partition (h i j hes hclsi hclsj hcis hcjs)

theorem addEntryAndExitFragments_guards_flagsBlock :
    ∃ s', (∃ N, ∀ n, N ≤ n → addEntryAndExitFragments n flagsBlock = some s') ∧ Guarded s' ∧
      PartitionsCut s'.list := by
  obtain ⟨s', hrun, hguarded, hcut⟩ := addEntryAndExitFragments_guards ready_flagsBlock
  refine ⟨s', hrun, hguarded, hcut.mpr fun i _ he _ _ hcfi _ ↦ ?_⟩
  rcases flagsBlock_cases he.1 with rfl | rfl | rfl | rfl <;> exact absurd hcfi (by decide)

end Granary.Assemble.AddEntryAndExitFragments
