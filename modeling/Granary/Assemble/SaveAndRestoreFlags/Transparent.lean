import Granary.Assemble.AddEntryAndExitFragments.FlagZones

namespace Granary.Assemble.SaveAndRestoreFlags

open Granary.Base.Bits Granary.Base.Iterate Granary.Code Granary.Assemble.AnalyzeFlagsUse
open Granary.Assemble.AddEntryAndExitFragments

/-- The machine, and the flags that it would have without the instrumentation. -/
structure Config where
  machine : Machine
  native : BitVec 32

def Agree (live a b : BitVec 32) : Prop :=
  ∀ i, (live &&& allAflagsWithDf).getLsbD i = true → a.getLsbD i = b.getLsbD i

theorem Agree.mono {live live' a b : BitVec 32} (h : Agree live a b)
    (hs : Sub (live' &&& allAflagsWithDf) live) : Agree live' a b := by
  intro i hi
  refine h i ?_
  rw [BitVec.getLsbD_and, hs i hi]
  rw [BitVec.getLsbD_and, Bool.and_eq_true] at hi
  rw [hi.2]
  rfl

theorem sub_and (a b : BitVec 32) : Sub (a &&& b) a := by
  intro i hi
  rw [BitVec.getLsbD_and, Bool.and_eq_true] at hi
  exact hi.1

inductive Event
  | read (instr : Arch.Instruction) (flags native : BitVec 32)
  | leave (flags native : BitVec 32)

/-- It is what it would see alone: in an instruction the flags that it reads, and outside of the trace
all arithmetic flags. -/
def Event.Ok : Event → Prop
  | .read instr flags native => Agree (flagsRead instr) flags native
  | .leave flags native => Agree allArithmeticFlags flags native

/-- An instruction of an application fragment writes some of its flags, or all if it writes them
unconditionally, and what it writes comes from the flags that it reads. `RAX` may change. -/
structure AppStep (instr : Arch.Instruction) (p q : Config) : Prop where
  written : ∃ w, Sub w (flagsWritten instr) ∧
    (instr.isConditionalFlagWrite = false → w = flagsWritten instr) ∧
    (∀ i, w.getLsbD i = false → q.machine.flags.getLsbD i = p.machine.flags.getLsbD i ∧
      q.native.getLsbD i = p.native.getLsbD i) ∧
    (Agree (flagsRead instr) p.machine.flags p.native → Agree w q.machine.flags q.native)
  slot : q.machine.slot = p.machine.slot

/-- An instruction of an instrumentation fragment: the application's instructions there do not look at
the flags. -/
structure InstStep (instr : Arch.Instruction) (p q : Config) : Prop where
  kept : ∀ i, (flagsWritten instr).getLsbD i = false →
    q.machine.flags.getLsbD i = p.machine.flags.getLsbD i
  native : q.native = p.native
  slot : q.machine.slot = p.machine.slot

inductive AppRun : List Code.Instruction → Config → List Event → Config → Prop
  | nil (p : Config) : AppRun [] p [] p
  | label {instrs : List Code.Instruction} {p q : Config} {es : List Event} :
      AppRun instrs p es q → AppRun (.label :: instrs) p es q
  | annot {instrs : List Code.Instruction} {p q : Config} {es : List Event} :
      AppRun instrs p es q → AppRun (.annot :: instrs) p es q
  | native {instr : NativeInstruction} {instrs : List Code.Instruction} {p q r : Config}
      {es : List Event} : AppStep instr.instruction p q → AppRun instrs q es r →
      AppRun (.native instr :: instrs) p (.read instr.instruction p.machine.flags p.native :: es) r

inductive InstRun : List Code.Instruction → Config → Config → Prop
  | nil (p : Config) : InstRun [] p p
  | label {instrs : List Code.Instruction} {p q : Config} :
      InstRun instrs p q → InstRun (.label :: instrs) p q
  | annot {instrs : List Code.Instruction} {p q : Config} :
      InstRun instrs p q → InstRun (.annot :: instrs) p q
  | native {instr : NativeInstruction} {instrs : List Code.Instruction} {p q r : Config} :
      InstStep instr.instruction p q → InstRun instrs q r → InstRun (.native instr :: instrs) p r

section Exec

variable (sp : Bool) (t : State)

/-- A fragment, from its first to its last instruction. -/
inductive Visit (i : FragmentId) : Config → List Event → Config → Prop
  | flags {p : Config} (hi : t.cls i = .flagEntry ∨ t.cls i = .flagExit) :
      Visit i p [] ⟨run p.machine (saveAndRestoreFlags sp t i), p.native⟩
  | app {p q : Config} {es : List Event} (hi : t.cls i ≠ .flagEntry ∧ t.cls i ≠ .flagExit)
      (hkind : (t.heap i).kind = .app) : AppRun (t.heap i).instrs p es q → Visit i p es q
  | inst {p q : Config} (hi : t.cls i ≠ .flagEntry ∧ t.cls i ≠ .flagExit)
      (hkind : (t.heap i).kind ≠ .app) : InstRun (t.heap i).instrs p q → Visit i p [] q

/-- What the application sees from a fragment on, in a run that may stop at any instruction. -/
inductive Exec : FragmentId → Config → List Event → Prop
  | stop (i : FragmentId) (p : Config) : Exec i p []
  | part {i : FragmentId} {p q : Config} {es : List Event} {instrs : List Code.Instruction}
      (hi : t.cls i ≠ .flagEntry ∧ t.cls i ≠ .flagExit) (hkind : (t.heap i).kind = .app)
      (hpart : instrs <+: (t.heap i).instrs) : AppRun instrs p es q → Exec i p es
  | leave {i : FragmentId} {p q : Config} {es : List Event} (hx : (t.heap i).isExit = true) :
      Visit sp t i p es q → Exec i p (es ++ [.leave q.machine.flags q.native])
  | step {i j : FragmentId} {p q : Config} {es es' : List Event} : Visit sp t i p es q →
      j ∈ nextFragments (t.heap i) → Exec j q es' → Exec i p (es ++ es')

end Exec

theorem AppStep.agree {instr : Arch.Instruction} {p q : Config} {after : BitVec 32}
    (h : AppStep instr p q)
    (hlive : Agree ((if instr.isConditionalFlagWrite then
        after ||| (flagsWritten instr &&& allAflagsWithDf)
      else after &&& (~~~flagsWritten instr &&& allAflagsWithDf)) |||
      (flagsRead instr &&& allAflagsWithDf)) p.machine.flags p.native) :
    Agree (flagsRead instr) p.machine.flags p.native ∧ Agree after q.machine.flags q.native := by
  have hread : Agree (flagsRead instr) p.machine.flags p.native :=
    hlive.mono (sub_or_right _ _)
  refine ⟨hread, fun i hi ↦ ?_⟩
  obtain ⟨w, hw, hall, hkept, hsame⟩ := h.written
  rw [BitVec.getLsbD_and, Bool.and_eq_true] at hi
  by_cases hwi : w.getLsbD i = true
  · refine hsame hread i ?_
    rw [BitVec.getLsbD_and, hwi, hi.2]
    rfl
  · rw [Bool.not_eq_true] at hwi
    obtain ⟨hf, hn⟩ := hkept i hwi
    rw [hf, hn]
    refine hlive i ?_
    rw [BitVec.getLsbD_and, hi.2, Bool.and_true, BitVec.getLsbD_or, Bool.or_eq_true]
    left
    split_ifs with hc
    · rw [BitVec.getLsbD_or, hi.1, Bool.true_or]
    · rw [Bool.not_eq_true] at hc
      rw [hall hc] at hwi
      rw [BitVec.getLsbD_and, BitVec.getLsbD_and, BitVec.getLsbD_not, hi.1, hi.2, hwi,
        decide_eq_true (BitVec.lt_of_getLsbD hi.1)]
      rfl

theorem AppRun.agree {instrs : List Code.Instruction} {p q : Config} {es : List Event}
    {live : BitVec 32} (h : AppRun instrs p es q)
    (hlive : Agree (backwardTransfer instrs live) p.machine.flags p.native) :
    (∀ e ∈ es, e.Ok) ∧ Agree live q.machine.flags q.native := by
  induction h with
  | nil p => exact ⟨fun e he ↦ absurd he List.not_mem_nil, hlive⟩
  | label _ ih => exact ih hlive
  | annot _ ih => exact ih hlive
  | native hstep _ ih =>
    rw [backwardTransfer_cons] at hlive
    obtain ⟨hread, hafter⟩ := hstep.agree hlive
    obtain ⟨hes, hend⟩ := ih hafter
    exact ⟨List.forall_mem_cons.mpr ⟨hread, hes⟩, hend⟩

theorem InstRun.kept {instrs : List Code.Instruction} {p q : Config} (h : InstRun instrs p q) :
    q.native = p.native ∧ q.machine.slot = p.machine.slot ∧
      ∀ i, allAflagsWithDf.getLsbD i = true → (writtenBy instrs).getLsbD i = false →
        q.machine.flags.getLsbD i = p.machine.flags.getLsbD i := by
  induction h with
  | nil p => exact ⟨rfl, rfl, fun _ _ _ ↦ rfl⟩
  | label _ ih => exact ih
  | annot _ ih => exact ih
  | native hstep _ ih =>
    obtain ⟨hn, hs, hkept⟩ := ih
    refine ⟨hn.trans hstep.native, hs.trans hstep.slot, fun i hi hw ↦ ?_⟩
    rw [writtenBy_cons, BitVec.getLsbD_or, Bool.or_eq_false_iff, BitVec.getLsbD_and, hi,
      Bool.and_true] at hw
    exact (hkept i hi hw.1).trans (hstep.kept i hw.2)

theorem backwardTransfer_append (l r : List Code.Instruction) (live : BitVec 32) :
    backwardTransfer (l ++ r) live = backwardTransfer l (backwardTransfer r live) := by
  have happend : visitInstructions (l ++ r) { entryLiveFlags := live } =
      visitInstructions l (visitInstructions r { entryLiveFlags := live }) := List.foldr_append ..
  rw [backwardTransfer, happend, visitInstructions_eq l]
  rfl

section

variable {sp : Bool} {t : State}

/-- Code of a zone has the flags that are live left alone by the zone, and the others in the slot. -/
structure Held (sp : Bool) (zone : FlagZone) (live : BitVec 32) (p : Config) : Prop where
  kept : ∀ i, (live &&& allAflagsWithDf).getLsbD i = true → zone.killedFlags.getLsbD i = false →
    p.machine.flags.getLsbD i = p.native.getLsbD i
  slot : savedFlags sp zone ≠ 0 → ∃ flags,
    Keeps ((savedFlags sp zone).getLsbD overflow) flags p.machine.slot ∧ Agree live flags p.native

theorem Held.mono {zone : FlagZone} {live live' : BitVec 32} {p : Config} (h : Held sp zone live p)
    (hs : Sub (live' &&& allAflagsWithDf) live) : Held sp zone live' p := by
  have hmask (i : ℕ) (hi : (live' &&& allAflagsWithDf).getLsbD i = true) :
      (live &&& allAflagsWithDf).getLsbD i = true := by
    rw [BitVec.getLsbD_and, hs i hi, Bool.true_and]
    rw [BitVec.getLsbD_and, Bool.and_eq_true] at hi
    exact hi.2
  refine ⟨fun i hi ↦ h.kept i (hmask i hi), fun hne ↦ ?_⟩
  obtain ⟨flags, hk, ha⟩ := h.slot hne
  exact ⟨flags, hk, ha.mono hs⟩

theorem held_injectSaveFlags {zone : FlagZone} {live : BitVec 32} {p : Config}
    (h : Agree live p.machine.flags p.native) :
    Held sp zone live ⟨run p.machine (injectSaveFlags sp zone []), p.native⟩ := by
  by_cases hne : savedFlags sp zone = 0
  · have hlist : injectSaveFlags sp zone [] = [] := by simp only [injectSaveFlags, if_pos hne]
    rw [hlist]
    exact ⟨fun i hi _ ↦ h i hi, fun hsaved ↦ absurd hne hsaved⟩
  · obtain ⟨hflags, -, hkeeps⟩ := run_injectSaveFlags p.machine hne
    refine ⟨fun i hi _ ↦ ?_, fun _ ↦ ⟨p.machine.flags, hkeeps, h⟩⟩
    rw [hflags]
    exact h i hi

theorem agree_injectRestoreFlags {zone : FlagZone} {live : BitVec 32} {p : Config}
    (h : Held sp zone live p) (hlive : Sub live zone.liveFlags)
    (harith : Sub (live &&& zone.killedFlags) allArithmeticFlags) :
    Agree live (run p.machine (injectRestoreFlags sp zone [])).flags p.native := by
  -- a live flag that the zone kills is to be saved
  have hsaved {i : ℕ} (hi : (live &&& allAflagsWithDf).getLsbD i = true)
      (hkill : zone.killedFlags.getLsbD i = true) : (savedFlags sp zone).getLsbD i = true := by
    unfold savedFlags
    split_ifs
    · exact hkill
    · rw [BitVec.getLsbD_and, hkill, hlive i (sub_and _ _ i hi)]
      rfl
  by_cases hne : savedFlags sp zone = 0
  · have hlist : injectRestoreFlags sp zone [] = [] := by simp only [injectRestoreFlags, if_pos hne]
    rw [hlist]
    refine fun i hi ↦ h.kept i hi (Bool.eq_false_iff.mpr fun hkill ↦ ?_)
    have hbit := hsaved hi hkill
    rw [hne, BitVec.ofNat_eq_ofNat, BitVec.getLsbD_zero] at hbit
    exact Bool.false_ne_true hbit
  · obtain ⟨flags, hkeeps, hagree⟩ := h.slot hne
    obtain ⟨-, hbits⟩ := run_injectRestoreFlags p.machine hne hkeeps
    intro i hi
    rw [hbits i]
    split_ifs with hin
    · exact hagree i hi
    · refine h.kept i hi (Bool.eq_false_iff.mpr fun hkill ↦ hin ?_)
      have hboth : (live &&& zone.killedFlags).getLsbD i = true := by
        rw [BitVec.getLsbD_and, sub_and _ _ i hi, hkill]
        rfl
      rcases ahFlags_or_overflow i (harith i hboth) with hah | rfl
      · exact .inl hah
      · exact .inr ⟨hsaved hi hkill, rfl⟩

/-- What holds at the start of a fragment: within a zone that kills flags, and at an exit of one, what
it does not kill is kept; elsewhere the flags that are live are those of the application. -/
def Fits (sp : Bool) (t : State) (i : FragmentId) (p : Config) : Prop :=
  (Inside t i → Held sp (t.zone (t.flagZone i)) (t.heap i).appFlags.entryLiveFlags p) ∧
    (t.cls i = .flagExit → ∃ zone, injectRestoreFlags sp zone [] =
        injectRestoreFlags sp (t.zone (t.flagZone i)) [] ∧
      Held sp zone (t.heap i).appFlags.entryLiveFlags p ∧
      Sub (t.heap i).appFlags.entryLiveFlags zone.liveFlags ∧
      Sub zone.killedFlags allArithmeticFlags) ∧
    (¬ Inside t i → t.cls i ≠ .flagExit →
      Agree (t.heap i).appFlags.entryLiveFlags p.machine.flags p.native)

variable {i j : FragmentId} {p q : Config} {es : List Event}

theorem edge_of_next (hi : i ∈ t.frags) (hj : j ∈ nextFragments (t.heap i)) : Edge t i j := by
  obtain ⟨k, -, hk⟩ := mem_nextFragments.mp hj
  exact ⟨hi, k, hk⟩

theorem mem_of_next (hc : Closed t) (hi : i ∈ t.frags) (hj : j ∈ nextFragments (t.heap i)) :
    j ∈ t.frags := by
  obtain ⟨k, -, hk⟩ := mem_nextFragments.mp hj
  exact hc.succ i hi k j hk

theorem InstRun.held {zone : FlagZone} {live : BitVec 32} {instrs : List Code.Instruction}
    (h : InstRun instrs p q) (hw : Sub (writtenBy instrs) zone.killedFlags)
    (hheld : Held sp zone live p) : Held sp zone live q := by
  obtain ⟨hn, hs, hkept⟩ := h.kept
  refine ⟨fun b hb hkill ↦ ?_, fun hne ↦ ?_⟩
  · have hmask : allAflagsWithDf.getLsbD b = true := by
      rw [BitVec.getLsbD_and, Bool.and_eq_true] at hb
      exact hb.2
    rw [hn, hkept b hmask (Bool.eq_false_iff.mpr fun h ↦ ?_)]
    · exact hheld.kept b hb hkill
    · exact Bool.false_ne_true (hkill.symm.trans (hw b h))
  · rw [hn, hs]
    exact hheld.slot hne

theorem Visit.inside (hf : Flows t) (hi : i ∈ t.frags) (hin : Inside t i)
    (hheld : Held sp (t.zone (t.flagZone i)) (t.heap i).appFlags.entryLiveFlags p)
    (hv : Visit sp t i p es q) :
    es = [] ∧ Held sp (t.zone (t.flagZone i)) (t.heap i).appFlags.exitLiveFlags q := by
  have hne : (t.heap i).kind ≠ .app := by rw [hin.kind]; decide
  cases hv with
  | flags hcls => rcases hcls with h | h <;> exact absurd (hin.1.symm.trans h) (by decide)
  | app _ happ => exact absurd happ hne
  | inst _ _ hrun =>
    exact ⟨rfl, hrun.held (hf.killed i hi hne) (hheld.mono (hf.inst i hi hne).2)⟩

theorem Visit.entry (hi : t.cls i = .flagEntry)
    (hagree : Agree (t.heap i).appFlags.entryLiveFlags p.machine.flags p.native)
    (hv : Visit sp t i p es q) :
    es = [] ∧ Held sp (t.zone (t.flagZone i)) (t.heap i).appFlags.entryLiveFlags q := by
  cases hv with
  | flags _ =>
    have hcode : saveAndRestoreFlags sp t i = injectSaveFlags sp (t.zone (t.flagZone i)) [] := by
      rw [saveAndRestoreFlags, hi]
    rw [hcode]
    exact ⟨rfl, held_injectSaveFlags hagree⟩
  | app hcls _ _ => exact absurd hi hcls.1
  | inst hcls _ _ => exact absurd hi hcls.1

theorem Visit.exit (hf : Flows t) (hi : i ∈ t.frags) (hcls : t.cls i = .flagExit)
    (hfits : Fits sp t i p) (hv : Visit sp t i p es q) :
    es = [] ∧ Agree (t.heap i).appFlags.exitLiveFlags q.machine.flags q.native := by
  have hguard : Guard t i := by rw [Guard, hcls]; decide
  obtain ⟨zone, hsame, hheld, hlive, harith⟩ := hfits.2.1 hcls
  cases hv with
  | flags _ =>
    have hcode : saveAndRestoreFlags sp t i = injectRestoreFlags sp zone [] := by
      rw [saveAndRestoreFlags, hcls, hsame]
    rw [hcode]
    have hboth : Sub ((t.heap i).appFlags.entryLiveFlags &&& zone.killedFlags) allArithmeticFlags := by
      intro b hb
      rw [BitVec.getLsbD_and, Bool.and_eq_true] at hb
      exact harith b hb.2
    exact ⟨rfl, (agree_injectRestoreFlags hheld hlive hboth).mono
      (hf.inst i hi (hf.guard i hi hguard).1).2⟩
  | app h _ _ => exact absurd hcls h.2
  | inst h _ _ => exact absurd hcls h.2

theorem Visit.outside (hz : Zoning t) (hf : Flows t) (hi : i ∈ t.frags) (hout : ¬ Inside t i)
    (hcls : t.cls i ≠ .flagEntry ∧ t.cls i ≠ .flagExit)
    (hagree : Agree (t.heap i).appFlags.entryLiveFlags p.machine.flags p.native)
    (hv : Visit sp t i p es q) :
    (∀ e ∈ es, e.Ok) ∧ Agree (t.heap i).appFlags.exitLiveFlags q.machine.flags q.native := by
  cases hv with
  | flags h => exact absurd h (not_or.mpr hcls)
  | app _ hkind hrun =>
    rw [hf.app i hi hkind] at hagree
    exact hrun.agree hagree
  | inst _ hkind hrun =>
    obtain ⟨hinst, hsub⟩ := hf.inst i hi hkind
    have hnot : isFlagInstCode t i = false := by
      by_contra h
      rw [Bool.not_eq_false] at h
      rcases cls_of_isCode (hz.isCode i hi h) with h' | h' | h'
      · exact hout ⟨h', h⟩
      · exact hcls.1 h'
      · exact hcls.2 h'
    have hkilled : (t.zone (t.flagZone i)).killedFlags = 0 := by
      rw [isFlagInstCode, hinst] at hnot
      simpa using hnot
    have hwritten := hf.killed i hi hkind
    rw [hkilled] at hwritten
    obtain ⟨hn, -, hkept⟩ := hrun.kept
    refine ⟨fun e he ↦ absurd he List.not_mem_nil, fun b hb ↦ ?_⟩
    have hmask : allAflagsWithDf.getLsbD b = true := by
      rw [BitVec.getLsbD_and, Bool.and_eq_true] at hb
      exact hb.2
    rw [hn, hkept b hmask (Bool.eq_false_iff.mpr fun h ↦ ?_)]
    · exact hagree.mono hsub b hb
    · have hbit := hwritten b h
      rw [BitVec.ofNat_eq_ofNat, BitVec.getLsbD_zero] at hbit
      exact Bool.false_ne_true hbit

variable (hg : FlagGuarded sp t) (hz : Zoning t) (hf : Flows t)
  (harith : ∀ c, Sub (t.zone c).killedFlags allArithmeticFlags)
include hg hz hf harith

theorem Fits.visit (hi : i ∈ t.frags) (h : Fits sp t i p) (hv : Visit sp t i p es q) :
    (∀ e ∈ es, e.Ok) ∧
      ((t.heap i).isExit = true → Agree allArithmeticFlags q.machine.flags q.native) ∧
      ∀ j ∈ nextFragments (t.heap i), Fits sp t j q := by
  have hlive {j : FragmentId} (hj : j ∈ nextFragments (t.heap i)) :
      Sub ((t.heap j).appFlags.entryLiveFlags &&& allAflagsWithDf)
        (t.heap i).appFlags.exitLiveFlags :=
    (sub_and _ _).trans (hf.live i hi j hj)
  have hnil : (∀ e ∈ ([] : List Event), e.Ok) := fun e he ↦ absurd he List.not_mem_nil
  have hnotexit {c : FragmentClass} (hc : t.cls i = c) (hne : c ≠ .exit) :
      (t.heap i).isExit = true → Agree allArithmeticFlags q.machine.flags q.native := by
    intro hx
    rw [Fragment.isExit, show (t.heap i).cls = c from hc] at hx
    exact absurd (beq_iff_eq.mp hx) hne
  by_cases hin : Inside t i
  · obtain ⟨rfl, hheld⟩ := hv.inside hf hi hin (h.1 hin)
    refine ⟨hnil, hnotexit hin.1 (by decide), fun j hj ↦ ?_⟩
    have hinst : (t.heap i).kind ≠ .app := by rw [hin.kind]; decide
    rcases hg.inside i j (edge_of_next hi hj) hin with ⟨hinj, hzone⟩ | ⟨hcls, hsame⟩
    · refine ⟨fun _ ↦ ?_, fun hx ↦ absurd (hinj.1.symm.trans hx) (by decide), fun hout ↦ absurd hinj hout⟩
      rw [hzone]
      exact hheld.mono (hlive hj)
    · refine ⟨fun hinj ↦ absurd (hinj.1.symm.trans hcls) (by decide), fun _ ↦ ?_,
        fun _ hne ↦ absurd hcls hne⟩
      exact ⟨_, hsame.symm, hheld.mono (hlive hj),
        (hf.live i hi j hj).trans (hf.used i hi hin.1 hinst), harith _⟩
  by_cases hentry : t.cls i = .flagEntry
  · have hguard : Guard t i := by rw [Guard, hentry]; decide
    obtain ⟨rfl, hheld⟩ := hv.entry hentry (h.2.2 hin (by rw [hentry]; decide))
    refine ⟨hnil, hnotexit hentry (by decide), fun j hj ↦ ?_⟩
    obtain ⟨hinj, hzone⟩ := hg.entry i j (edge_of_next hi hj) hentry
    refine ⟨fun _ ↦ ?_, fun hx ↦ absurd (hinj.1.symm.trans hx) (by decide), fun hout ↦ absurd hinj hout⟩
    rw [hzone]
    exact (hheld.mono (hf.inst i hi (hf.guard i hi hguard).1).2).mono (hlive hj)
  -- what is left leads out of the zones
  have hsucc (hagree : Agree (t.heap i).appFlags.exitLiveFlags q.machine.flags q.native)
      {j : FragmentId} (hj : j ∈ nextFragments (t.heap i)) : Fits sp t j q := by
    obtain ⟨hout, hne⟩ := hg.outside i j (edge_of_next hi hj) (not_or.mpr ⟨hin, hentry⟩)
    exact ⟨fun h ↦ absurd h hout, fun h ↦ absurd h hne, fun _ _ ↦ hagree.mono (hlive hj)⟩
  by_cases hexit : t.cls i = .flagExit
  · obtain ⟨rfl, hagree⟩ := hv.exit hf hi hexit h
    exact ⟨hnil, hnotexit hexit (by decide), fun j ↦ hsucc hagree⟩
  · obtain ⟨hes, hagree⟩ := hv.outside hz hf hi hin ⟨hentry, hexit⟩ (h.2.2 hin hexit)
    exact ⟨hes, fun hx ↦ hagree.mono ((sub_and _ _).trans (hf.exit i hi hx).2), fun j ↦ hsucc hagree⟩

theorem Exec.ok (hc : Closed t) (h : Exec sp t i p es) (hi : i ∈ t.frags) (hfits : Fits sp t i p) :
    ∀ e ∈ es, e.Ok := by
  induction h with
  | stop i p => exact fun e he ↦ absurd he List.not_mem_nil
  | part hcls hkind hpart hrun =>
    rename_i i p q es instrs
    obtain ⟨rest, hrest⟩ := hpart
    have hin : ¬ Inside t i := fun hin ↦ by
      have h := hin.2
      rw [isFlagInstCode, hkind] at h
      exact Bool.false_ne_true h
    have hagree := hfits.2.2 hin hcls.2
    rw [hf.app i hi hkind, ← hrest, backwardTransfer_append] at hagree
    exact (hrun.agree hagree).1
  | leave hx hv =>
    obtain ⟨hes, hleave, -⟩ := hfits.visit hg hz hf harith hi hv
    exact List.forall_mem_append.mpr ⟨hes, fun e he ↦ List.mem_singleton.mp he ▸ hleave hx⟩
  | step hv hj _ ih =>
    obtain ⟨hes, -, hsucc⟩ := hfits.visit hg hz hf harith hi hv
    exact List.forall_mem_append.mpr ⟨hes, ih (mem_of_next hc hi hj) (hsucc _ hj)⟩

end

/-- The zones that are found are of one kind each; the flags that are live at the end of a fragment
take in those that its successors need; zones that are left to the same fragment restore the same; and
no zone kills `DF`, which is not saved. -/
structure ZonesOk (sp : Bool) (z : State) : Prop where
  uniform : ∀ i ∈ z.frags, ∀ j ∈ z.frags, z.flagZone i = z.flagZone j →
    (z.heap i).kind = (z.heap j).kind
  live : ∀ i ∈ z.frags, ∀ j ∈ nextFragments (z.heap i),
    Sub (z.heap j).appFlags.entryLiveFlags (z.heap i).appFlags.exitLiveFlags
  shared : SharesExits sp z
  arith : ∀ c, Sub (z.zone c).killedFlags allArithmeticFlags

/-- A fragment that is not between a flag entry and a flag exit. -/
def Outside (t : State) (i : FragmentId) : Prop := ¬ Inside t i ∧ t.cls i ≠ .flagExit

theorem findFlagZones_mono {s z : State} {n : ℕ} (h : findFlagZones n s = some z) :
    ∃ N, ∀ m, N ≤ m → findFlagZones m s = some z := by
  obtain ⟨g, hg, hz⟩ := Option.map_eq_some_iff.mp h
  refine ⟨n, fun m hm ↦ ?_⟩
  have hmore : analyzeFlagsUse s.frags m (propagateFragKinds s.frags s.heap) = some g :=
    repeatUntil_mono hg hm
  rw [findFlagZones, hmore, Option.map_some, hz]

/-- What is known of the list when all fragments are put in, for the zones that were found. -/
theorem exists_guarded {sp : Bool} {s z : State} (hs : Ready s) (hk : KindsOk s) {n : ℕ}
    (hn : findFlagZones n s = some z) (huniform : ∀ i ∈ z.frags, ∀ j ∈ z.frags,
      z.flagZone i = z.flagZone j → isFlagInstCode z j = true → (z.heap i).kind = .inst)
    (hlive : ∀ i ∈ z.frags, ∀ j ∈ nextFragments (z.heap i),
      Sub (z.heap j).appFlags.entryLiveFlags (z.heap i).appFlags.exitLiveFlags)
    (hshared : SharesExits sp z) :
    ∃ s', (∃ N, ∀ n, N ≤ n → addEntryAndExitFragments n s = some s') ∧
      (∃ i, s'.frags.head? = some i ∧ Outside s' i) ∧ FlagGuarded sp s' ∧ Zoning s' ∧ Flows s' ∧
      Closed s' ∧ s'.zone = z.zone := by
  have hfound := findFlagZones_mono hn
  obtain ⟨z', f, a, b, c, d, hst, N, hN⟩ := exists_stages hs
  obtain rfl : z' = z := by
    obtain ⟨N₁, h₁⟩ := hfound
    obtain ⟨h, ⟨N₂, h₂⟩, -, -, hz'⟩ := hst.zones
    have hrun := h₁ (N₁ + N₂) (Nat.le_add_right N₁ N₂)
    rw [findFlagZones, h₂ (N₁ + N₂) (Nat.le_add_left N₂ N₁), Option.map_some, ← hz'] at hrun
    exact Option.some.inj hrun
  obtain ⟨h, hfnd⟩ := exists_found hs hfound
  have hzoning := hfnd.zoning hs hk huniform
  have hl := relabeled_labelPartitions d
  refine ⟨labelPartitions d, ⟨N, fun n hn ↦ ?_⟩, ?_,
    hl.flagGuarded (Stages.flagGuarded_final hs hst hzoning hshared),
    hl.zoning (Stages.zoning_final hs hst hzoning).2.2,
    hl.flows (Stages.flows_final hs hst (hfnd.flows hs hk hlive)), ?_, ?_⟩
  · rw [hN n hn, propagateCodeCacheKinds_eq]
  · obtain ⟨i, hi, hin, hcls⟩ := Stages.head_outside hs hst hzoning
    refine ⟨i, by rw [hl.frags, hi], ?_, ?_⟩
    · rwa [hl.inside]
    · rwa [hl.cls]
  · exact (hst.closed hs).2.2.2.2.2.of_same hl.frags hl.next fun i k ↦
      (congrArg (fun f : Fragment ↦ f.successor k) (hl.heap i) :)
  · rw [hl.zone, (Stages.zone_final hst).2.2.2.2]

/-- After the flag entries and exits are put in and filled, no run from outside of the zones that kill
flags lets the application see other flags than it would see alone: not in what an instruction reads,
and not in the arithmetic flags when the trace is left. The list starts outside of these zones. -/
theorem saveAndRestoreFlags_transparent {sp : Bool} {s z : State} (hs : Ready s) (hk : KindsOk s)
    {n : ℕ} (hn : findFlagZones n s = some z) (hz : ZonesOk sp z) :
    ∃ s', (∃ N, ∀ n, N ≤ n → addEntryAndExitFragments n s = some s') ∧
      (∃ i, s'.frags.head? = some i ∧ Outside s' i) ∧
      ∀ i ∈ s'.frags, Outside s' i → ∀ p es, p.machine.flags = p.native → Exec sp s' i p es →
        ∀ e ∈ es, e.Ok := by
  have huniform (i : FragmentId) (hi : i ∈ z.frags) (j : FragmentId) (hj : j ∈ z.frags)
      (hij : z.flagZone i = z.flagZone j) (hinst : isFlagInstCode z j = true) :
      (z.heap i).kind = .inst := by
    rw [isFlagInstCode, Bool.and_eq_true] at hinst
    rw [hz.uniform i hi j hj hij]
    exact beq_iff_eq.mp hinst.1
  obtain ⟨s', hruns, hhead, hg, hzd, hfd, hclosed, hzone⟩ :=
    exists_guarded hs hk hn huniform hz.live hz.shared
  refine ⟨s', hruns, hhead, fun i hi hout p es hp hrun ↦ ?_⟩
  have harith (c : ℕ) : Sub (s'.zone c).killedFlags allArithmeticFlags := by
    rw [hzone]
    exact hz.arith c
  refine hrun.ok hg hzd hfd harith hclosed hi ⟨fun h ↦ absurd h hout.1, fun h ↦ absurd h hout.2,
    fun _ _ ↦ ?_⟩
  rw [hp]
  exact fun _ _ ↦ rfl

theorem kindsOk_flagsBlock : KindsOk flagsBlock where
  inst := by decide
  cfi := by decide

def flagsBlockZones : State := (findFlagZones 5 flagsBlock).getD flagsBlock

theorem findFlagZones_flagsBlock : findFlagZones 5 flagsBlock = some flagsBlockZones := by
  have h : (findFlagZones 5 flagsBlock).isSome = true := by decide +kernel
  obtain ⟨z, hz⟩ := Option.isSome_iff_exists.mp h
  rw [flagsBlockZones, hz, Option.getD_some]

theorem zonesOk_flagsBlock : ZonesOk false flagsBlockZones where
  uniform := by decide +kernel
  live := by
    have h : ∀ i ∈ flagsBlockZones.frags, ∀ j ∈ nextFragments (flagsBlockZones.heap i),
        (flagsBlockZones.heap j).appFlags.entryLiveFlags =
          (flagsBlockZones.heap i).appFlags.exitLiveFlags := by decide +kernel
    intro i hi j hj
    rw [h i hi j hj]
    exact .refl _
  shared := by
    have h : ∀ i ∈ flagsBlockZones.frags, isFlagInstCode flagsBlockZones i = true → i = 1 := by
      decide +kernel
    intro i x y hi hx hini hinx _
    rw [h i hi.1 hini, h x hx.1 hinx]
  arith c := by
    obtain ⟨g, hg⟩ := exists_found ready_flagsBlock (findFlagZones_mono findFlagZones_flagsBlock)
    by_cases hc : c < 4
    · have h : ∀ c < 4, (flagsBlockZones.zone c).killedFlags &&& allArithmeticFlags =
          (flagsBlockZones.zone c).killedFlags := by decide +kernel
      rw [← h c hc]
      intro i hi
      rw [BitVec.getLsbD_and, Bool.and_eq_true] at hi
      exact hi.2
    · rw [hg.zone_fresh ready_flagsBlock (show flagsBlock.next ≤ c from not_lt.mp hc)]
      exact zero_sub _

theorem saveAndRestoreFlags_transparent_flagsBlock :
    ∃ s', (∃ N, ∀ n, N ≤ n → addEntryAndExitFragments n flagsBlock = some s') ∧
      (∃ i, s'.frags.head? = some i ∧ Outside s' i) ∧
      ∀ i ∈ s'.frags, Outside s' i → ∀ p es, p.machine.flags = p.native → Exec false s' i p es →
        ∀ e ∈ es, e.Ok :=
  saveAndRestoreFlags_transparent ready_flagsBlock kindsOk_flagsBlock findFlagZones_flagsBlock
    zonesOk_flagsBlock

end Granary.Assemble.SaveAndRestoreFlags
