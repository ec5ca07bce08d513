import Granary.Assemble.SaveAndRestoreFlags.Transparent

namespace Granary.Assemble.SaveAndRestoreFlags

open Granary.Base.Bits Granary.Code Granary.Assemble.AnalyzeFlagsUse
open Granary.Assemble.AddEntryAndExitFragments

/-- The machine, with the flags at the time when control last went from application code into
instrumentation code, and what was left in `RAX` by other code than that which saves the flags. -/
structure Noted where
  machine : Machine
  flags : BitVec 32
  rax : BitVec 64

def Noted.cross (t : State) (i j : FragmentId) (p : Noted) : Noted :=
  if (t.heap i).kind = .app ∧ (t.heap j).kind ≠ .app then { p with flags := p.machine.flags } else p

/-- Control also comes back from the calls of the application. -/
def followers (f : Fragment) : List FragmentId :=
  if f.kind = .app then f.successors else nextFragments f

section Paths

variable (sp : Bool) (t : State)

/-- A fragment, from its first to its last instruction. The application may change everything;
instrumentation code leaves alone the flags that its zone does not kill, and the slot. -/
inductive Through (i : FragmentId) : Noted → Noted → Prop
  | flags {p : Noted} (hi : t.cls i = .flagEntry ∨ t.cls i = .flagExit) :
      Through i p { p with machine := run p.machine (saveAndRestoreFlags sp t i) }
  | app {p : Noted} (m : Machine) (hi : t.cls i ≠ .flagEntry ∧ t.cls i ≠ .flagExit)
      (hkind : (t.heap i).kind = .app) : Through i p ⟨m, p.flags, m.rax⟩
  | inst {p : Noted} {m : Machine} (hi : t.cls i ≠ .flagEntry ∧ t.cls i ≠ .flagExit)
      (hkind : (t.heap i).kind ≠ .app) (hslot : m.slot = p.machine.slot)
      (hkept : ∀ b, allArithmeticFlags.getLsbD b = true →
        (t.zone (t.flagZone i)).killedFlags.getLsbD b = false →
        m.flags.getLsbD b = p.machine.flags.getLsbD b) : Through i p ⟨m, p.flags, m.rax⟩

inductive Reaches : FragmentId → Noted → FragmentId → Noted → Prop
  | refl (i : FragmentId) (p : Noted) : Reaches i p i p
  | step {i j k : FragmentId} {p q r : Noted} : Reaches i p j q → Through sp t j q r →
      k ∈ followers (t.heap j) → Reaches i p k (r.cross t j k)

end Paths

/-- The flag is overwritten, whatever it was. -/
def overwrites (b : ℕ) (instr : Arch.Instruction) : Bool :=
  !instr.isConditionalFlagWrite && (flagsWritten instr).getLsbD b

section

variable {t : State} {b : ℕ}

end

theorem sub_arithmetic {live live' : BitVec 32} (h : Sub (live' &&& allAflagsWithDf) live) :
    Sub (live' &&& allArithmeticFlags &&& allAflagsWithDf) (live &&& allArithmeticFlags) := by
  intro b hb
  rw [BitVec.getLsbD_and, BitVec.getLsbD_and, Bool.and_eq_true, Bool.and_eq_true] at hb
  obtain ⟨⟨hlive, harith⟩, hmask⟩ := hb
  rw [BitVec.getLsbD_and, harith, Bool.and_true]
  refine h b ?_
  rw [BitVec.getLsbD_and, hlive, hmask]
  rfl

theorem sub_and_right (a b : BitVec 32) : Sub (a &&& b) b := by
  intro i hi
  rw [BitVec.getLsbD_and, Bool.and_eq_true] at hi
  exact hi.2

def Noted.config (p : Noted) : Config := ⟨p.machine, p.flags⟩

/-- The arithmetic flags that are live at the start of a fragment. -/
def liveOnEntry (t : State) (i : FragmentId) : BitVec 32 :=
  (t.heap i).appFlags.entryLiveFlags &&& allArithmeticFlags

def liveOnExit (t : State) (i : FragmentId) : BitVec 32 :=
  (t.heap i).appFlags.exitLiveFlags &&& allArithmeticFlags

/-- What holds at the start of a fragment. Nothing has to be restored where application code
begins that does not come after instrumentation code. -/
structure Due (sp : Bool) (t : State) (i : FragmentId) (p : Noted) : Prop where
  rax : p.machine.rax = p.rax
  inside : Inside t i → Held sp (t.zone (t.flagZone i)) (liveOnEntry t i) p.config
  exit : t.cls i = .flagExit → ∃ zone, injectRestoreFlags sp zone [] =
      injectRestoreFlags sp (t.zone (t.flagZone i)) [] ∧ Held sp zone (liveOnEntry t i) p.config ∧
    Sub (liveOnEntry t i) zone.liveFlags
  outside : (t.heap i).kind ≠ .app → ¬ Inside t i → t.cls i ≠ .flagExit →
    Agree (liveOnEntry t i) p.machine.flags p.flags

section

variable {sp : Bool} {t : State} {i j : FragmentId} {p q : Noted}

theorem Through.held (hkind : (t.heap i).kind ≠ .app)
    (hcls : t.cls i ≠ .flagEntry ∧ t.cls i ≠ .flagExit) {live : BitVec 32} (hlive : Sub live allArithmeticFlags)
    (hheld : Held sp (t.zone (t.flagZone i)) live p.config) (hv : Through sp t i p q) :
    Held sp (t.zone (t.flagZone i)) live q.config := by
  cases hv with
  | flags h => exact absurd h (not_or.mpr hcls)
  | app _ _ happ => exact absurd happ hkind
  | inst _ _ hslot hkept =>
    refine ⟨fun b hb hkill ↦ ?_, fun hne ↦ ?_⟩
    · exact (hkept b (hlive b (sub_and _ _ b hb)) hkill).trans (hheld.kept b hb hkill)
    · obtain ⟨flags, hkeeps, hagree⟩ := hheld.slot hne
      exact ⟨flags, hslot ▸ hkeeps, hagree⟩

theorem Through.rax (h : p.machine.rax = p.rax) (hv : Through sp t i p q) :
    q.machine.rax = q.rax := by
  cases hv with
  | flags hcls =>
    refine Eq.trans ?_ h
    rcases hcls with hcls | hcls <;> rw [saveAndRestoreFlags, hcls]
    · exact rax_injectSaveFlags p.machine
    · exact rax_injectRestoreFlags p.machine
  | app _ _ _ => rfl
  | inst _ _ _ _ => rfl

/-- What holds at the end of a fragment of instrumentation code. -/
theorem Due.through (hz : Zoning t) (hf : Flows t) (hi : i ∈ t.frags)
    (hkind : (t.heap i).kind ≠ .app) (h : Due sp t i p) (hv : Through sp t i p q) :
    ((Inside t i ∨ t.cls i = .flagEntry) →
        Held sp (t.zone (t.flagZone i)) (liveOnExit t i) q.config) ∧
      (¬ (Inside t i ∨ t.cls i = .flagEntry) → Agree (liveOnExit t i) q.machine.flags q.flags) := by
  have hlive : Sub (liveOnExit t i &&& allAflagsWithDf) (liveOnEntry t i) :=
    sub_arithmetic (hf.inst i hi hkind).2
  by_cases hentry : t.cls i = .flagEntry
  · have hin : ¬ Inside t i := fun hin ↦ absurd (hin.1.symm.trans hentry) (by decide)
    have hagree := h.outside hkind hin (by rw [hentry]; decide)
    refine ⟨fun _ ↦ ?_, fun hne ↦ absurd (.inr hentry) hne⟩
    cases hv with
    | flags _ =>
      rw [saveAndRestoreFlags, hentry]
      exact (held_injectSaveFlags (p := p.config) hagree).mono hlive
    | app _ hcls _ => exact absurd hentry hcls.1
    | inst hcls _ _ _ => exact absurd hentry hcls.1
  by_cases hexit : t.cls i = .flagExit
  · have hin : ¬ Inside t i := fun hin ↦ absurd (hin.1.symm.trans hexit) (by decide)
    obtain ⟨zone, hzone, hheld, hused⟩ := h.exit hexit
    refine ⟨fun hor ↦ absurd hor (not_or.mpr ⟨hin, hentry⟩), fun _ ↦ ?_⟩
    cases hv with
    | flags _ =>
      rw [saveAndRestoreFlags, hexit]
      have hagree := agree_injectRestoreFlags hheld hused
        ((sub_and _ _).trans (sub_and_right _ _))
      rw [hzone] at hagree
      exact hagree.mono hlive
    | app _ hcls _ => exact absurd hexit hcls.2
    | inst hcls _ _ _ => exact absurd hexit hcls.2
  by_cases hin : Inside t i
  · refine ⟨fun _ ↦ ?_, fun hne ↦ absurd (.inl hin) hne⟩
    exact (hv.held hkind ⟨hentry, hexit⟩ (sub_and_right _ _) (h.inside hin)).mono hlive
  · -- the zone of such a fragment kills nothing
    have hnot : isFlagInstCode t i = false := by
      by_contra hcode
      rw [Bool.not_eq_false] at hcode
      rcases cls_of_isCode (hz.isCode i hi hcode) with h' | h' | h'
      · exact hin ⟨h', hcode⟩
      · exact hentry h'
      · exact hexit h'
    have hkilled : (t.zone (t.flagZone i)).killedFlags = 0 := by
      rw [isFlagInstCode, (hf.inst i hi hkind).1] at hnot
      simpa using hnot
    have hagree := (h.outside hkind hin hexit).mono hlive
    refine ⟨fun hor ↦ absurd hor (not_or.mpr ⟨hin, hentry⟩), fun _ b hb ↦ ?_⟩
    cases hv with
    | flags hcls => exact absurd hcls (not_or.mpr ⟨hentry, hexit⟩)
    | app _ _ happ => exact absurd happ hkind
    | inst _ _ _ hkept =>
      refine (hkept b (sub_and_right _ _ b (sub_and _ _ b hb)) ?_).trans (hagree b hb)
      rw [hkilled, BitVec.ofNat_eq_ofNat, BitVec.getLsbD_zero]

variable (hg : FlagGuarded sp t) (hz : Zoning t) (hf : Flows t) (hc : Closed t)
include hg hz hf hc

end

section

variable (killed : BitVec 32)

end

end Granary.Assemble.SaveAndRestoreFlags
