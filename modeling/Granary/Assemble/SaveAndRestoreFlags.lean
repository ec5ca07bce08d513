import Granary.Assemble.AddEntryAndExitFragments

namespace Granary.Assemble.SaveAndRestoreFlags

open Granary.Base.Bits Granary.Code Granary.Assemble.AnalyzeFlagsUse
open Granary.Assemble.AddEntryAndExitFragments (FlagZone State)

/-- The flags, `RAX`, and the slot that the annotations save `RAX` to. -/
@[ext]
structure Machine where
  flags : BitVec 32
  rax : BitVec 64
  slot : BitVec 64
deriving DecidableEq, Repr

/-- The instructions and annotations that save and restore the flags. The annotations are those of
`RAX`, and the registers of `SETO` and `ADD` are `AL`. -/
inductive FlagInstruction
  | saveRegister
  | restoreRegister
  | swapRestoreRegister
  | lahf
  | sahf
  | seto
  | add (imm : BitVec 8)
deriving DecidableEq, Repr

/-- The flags that `LAHF` and `SAHF` move: `SF`, `ZF`, `AF`, `PF` and `CF`. -/
def ahFlags : BitVec 8 := 0xD5

def overflow : ℕ := 11

namespace Machine

def al (m : Machine) : BitVec 8 := m.rax.setWidth 8

def ah (m : Machine) : BitVec 8 := (m.rax >>> 8).setWidth 8

def setAl (m : Machine) (b : BitVec 8) : Machine :=
  { m with rax := m.rax >>> 8 <<< 8 ||| b.setWidth 64 }

def setAh (m : Machine) (b : BitVec 8) : Machine :=
  { m with rax := m.rax >>> 16 <<< 16 ||| b.setWidth 64 <<< 8 ||| m.al.setWidth 64 }

theorem getLsbD_ah (m : Machine) {b : ℕ} (hb : b < 8) : m.ah.getLsbD b = m.rax.getLsbD (8 + b) := by
  simp [ah, hb]

@[simp] theorem al_setAl (m : Machine) (b : BitVec 8) : (m.setAl b).al = b := by
  refine BitVec.eq_of_getLsbD_eq fun i hi ↦ ?_
  simp [al, setAl, hi]

@[simp] theorem ah_setAl (m : Machine) (b : BitVec 8) : (m.setAl b).ah = m.ah := by
  refine BitVec.eq_of_getLsbD_eq fun i hi ↦ ?_
  have h : 8 + i < 64 := by omega
  simp [ah, setAl, hi, h, BitVec.getLsbD_of_ge]

@[simp] theorem ah_setAh (m : Machine) (b : BitVec 8) : (m.setAh b).ah = b := by
  refine BitVec.eq_of_getLsbD_eq fun i hi ↦ ?_
  have h : 8 + i < 64 := by omega
  have h' : 8 + i < 16 := by omega
  simp [ah, setAh, al, hi, h, h']

@[simp] theorem flags_setAl (m : Machine) (b : BitVec 8) : (m.setAl b).flags = m.flags := rfl

@[simp] theorem flags_setAh (m : Machine) (b : BitVec 8) : (m.setAh b).flags = m.flags := rfl

@[simp] theorem slot_setAl (m : Machine) (b : BitVec 8) : (m.setAl b).slot = m.slot := rfl

@[simp] theorem slot_setAh (m : Machine) (b : BitVec 8) : (m.setAh b).slot = m.slot := rfl

end Machine

def flagIf (c : Bool) (i : ℕ) : BitVec 32 := if c then 1 <<< i else 0

def addFlags (a b : BitVec 8) : BitVec 32 :=
  let r := a + b
  flagIf (256 ≤ a.toNat + b.toNat) 0 ||| flagIf ((List.range 8).countP r.getLsbD % 2 == 0) 2 |||
    flagIf (16 ≤ a.toNat % 16 + b.toNat % 16) 4 ||| flagIf (r == 0) 6 ||| flagIf r.msb 7 |||
    flagIf (a.msb == b.msb && r.msb != a.msb) overflow

def exec (m : Machine) : FlagInstruction → Machine
  | .saveRegister => { m with slot := m.rax }
  | .restoreRegister => { m with rax := m.slot }
  | .swapRestoreRegister => { m with rax := m.slot, slot := m.rax }
  | .lahf => m.setAh (m.flags.setWidth 8 &&& ahFlags ||| 2)
  | .sahf => { m with
      flags := m.flags &&& ~~~ahFlags.setWidth 32 ||| (m.ah &&& ahFlags).setWidth 32 }
  | .seto => m.setAl (if m.flags.getLsbD overflow then 1 else 0)
  | .add imm => { m.setAl (m.al + imm) with
      flags := m.flags &&& ~~~allArithmeticFlags ||| addFlags m.al imm }

def run (m : Machine) (instrs : List FlagInstruction) : Machine := instrs.foldl exec m

def savedFlags (alwaysSpillFlags : Bool) (zone : FlagZone) : BitVec 32 :=
  if alwaysSpillFlags then zone.killedFlags else zone.killedFlags &&& zone.liveFlags

def injectSaveFlags (alwaysSpillFlags : Bool) (zone : FlagZone) (instrs : List FlagInstruction) :
    List FlagInstruction :=
  let flags := savedFlags alwaysSpillFlags zone
  if flags = 0 then instrs
  else
    let instrs := .swapRestoreRegister :: instrs
    let instrs := if flags.getLsbD overflow then .seto :: instrs else instrs
    .saveRegister :: .lahf :: instrs

def injectRestoreFlags (alwaysSpillFlags : Bool) (zone : FlagZone) (instrs : List FlagInstruction) :
    List FlagInstruction :=
  let flags := savedFlags alwaysSpillFlags zone
  if flags = 0 then instrs
  else
    let instrs := .swapRestoreRegister :: instrs
    let instrs := if flags.getLsbD overflow then instrs ++ [.add 0x7F] else instrs
    instrs ++ [.sahf, .restoreRegister]

/-- `SaveAndRestoreFlags`: what it puts into the flag entries and exits, which are empty. -/
def saveAndRestoreFlags (alwaysSpillFlags : Bool) (s : State) (i : FragmentId) :
    List FlagInstruction :=
  match s.cls i with
  | .flagEntry => injectSaveFlags alwaysSpillFlags (s.zone (s.flagZone i)) []
  | .flagExit => injectRestoreFlags alwaysSpillFlags (s.zone (s.flagZone i)) []
  | _ => []

/-- A slot with flags in it; `OF` is there if it was asked for. -/
structure Keeps (hasOf : Bool) (flags : BitVec 32) (slot : BitVec 64) : Prop where
  ah : ∀ b, ahFlags.getLsbD b = true → slot.getLsbD (8 + b) = flags.getLsbD b
  of : hasOf = true → slot.setWidth 8 = if flags.getLsbD overflow then (1 : BitVec 8) else 0

section

variable {sp : Bool} {zone : FlagZone} {flags : BitVec 32}

theorem getLsbD_lahf (flags : BitVec 32) {b : ℕ} (hb : ahFlags.getLsbD b = true) :
    (flags.setWidth 8 &&& ahFlags ||| 2).getLsbD b = flags.getLsbD b := by
  have hlt : b < 8 := BitVec.lt_of_getLsbD hb
  have htwo : ∀ b < 8, ahFlags.getLsbD b = true → (2 : BitVec 8).getLsbD b = false := by decide
  rw [BitVec.getLsbD_or, BitVec.getLsbD_and, hb, htwo b hlt hb, BitVec.getLsbD_setWidth]
  simp [hlt]

theorem run_injectSaveFlags (m : Machine) (h : savedFlags sp zone ≠ 0) :
    (run m (injectSaveFlags sp zone [])).flags = m.flags ∧
      (run m (injectSaveFlags sp zone [])).rax = m.rax ∧
      Keeps ((savedFlags sp zone).getLsbD overflow) m.flags
        (run m (injectSaveFlags sp zone [])).slot := by
  have hah (m' : Machine) (hm : m'.ah = m.flags.setWidth 8 &&& ahFlags ||| 2) {b : ℕ}
      (hb : ahFlags.getLsbD b = true) : m'.rax.getLsbD (8 + b) = m.flags.getLsbD b := by
    rw [← Machine.getLsbD_ah m' (BitVec.lt_of_getLsbD hb), hm, getLsbD_lahf m.flags hb]
  cases hof : (savedFlags sp zone).getLsbD overflow with
  | false =>
    have hlist : injectSaveFlags sp zone [] = [.saveRegister, .lahf, .swapRestoreRegister] := by
      simp only [injectSaveFlags, if_neg h, hof]
      rfl
    rw [hlist]
    refine ⟨rfl, rfl, fun b hb ↦ hah _ ?_ hb, fun h ↦ absurd h Bool.false_ne_true⟩
    exact Machine.ah_setAh _ _
  | true =>
    have hlist : injectSaveFlags sp zone [] =
        [.saveRegister, .lahf, .seto, .swapRestoreRegister] := by
      simp only [injectSaveFlags, if_neg h, hof]
      rfl
    rw [hlist]
    refine ⟨rfl, rfl, fun b hb ↦ hah _ ?_ hb, fun _ ↦ ?_⟩
    · exact (Machine.ah_setAl _ _).trans (Machine.ah_setAh _ _)
    · exact Machine.al_setAl _ _

theorem getLsbD_sahf (m : Machine) (b : ℕ) : (exec m .sahf).flags.getLsbD b =
    if ahFlags.getLsbD b = true then m.rax.getLsbD (8 + b) else m.flags.getLsbD b := by
  have hflags : (exec m .sahf).flags =
      m.flags &&& ~~~ahFlags.setWidth 32 ||| (m.ah &&& ahFlags).setWidth 32 := rfl
  by_cases hb : ahFlags.getLsbD b = true
  · have hlt : b < 8 := BitVec.lt_of_getLsbD hb
    have hlt' : b < 32 := by omega
    rw [if_pos hb, ← m.getLsbD_ah hlt, hflags]
    simp [hb, hlt']
  · rw [Bool.not_eq_true] at hb
    by_cases hlt : b < 32
    · rw [hflags]
      simp [hb, hlt]
    · simp [hb, BitVec.getLsbD_of_ge _ _ (not_lt.mp hlt)]

theorem getLsbD_add (m : Machine) {c : Bool} (hal : m.al = if c then 1 else 0) (b : ℕ)
    (hb : ahFlags.getLsbD b = false) : (exec m (.add 0x7F)).flags.getLsbD b =
    if b = overflow then c else m.flags.getLsbD b := by
  have hflags : (exec m (.add 0x7F)).flags =
      m.flags &&& ~~~allArithmeticFlags ||| addFlags m.al 0x7F := rfl
  have hof : (addFlags (if c then 1 else 0) 0x7F).getLsbD overflow = c := by
    cases c <;> decide
  have hadd : ∀ c, ∀ b < 32, b ≠ overflow → ahFlags.getLsbD b = false →
      (addFlags (if c = true then 1 else 0) 0x7F).getLsbD b = false ∧
        allArithmeticFlags.getLsbD b = false := by decide
  rw [hflags, hal, BitVec.getLsbD_or, BitVec.getLsbD_and, BitVec.getLsbD_not]
  rcases eq_or_ne b overflow with rfl | hne
  · have harith : allArithmeticFlags.getLsbD overflow = true := by decide
    rw [hof, harith, if_pos rfl, Bool.not_true, Bool.and_false, Bool.and_false, Bool.false_or]
  · rw [if_neg hne]
    by_cases hlt : b < 32
    · obtain ⟨h₁, h₂⟩ := hadd c b hlt hne hb
      rw [h₁, h₂, decide_eq_true hlt, Bool.not_false, Bool.and_true, Bool.and_true, Bool.or_false]
    · simp [BitVec.getLsbD_of_ge _ _ (not_lt.mp hlt)]

theorem run_injectRestoreFlags (m : Machine) (h : savedFlags sp zone ≠ 0)
    (hk : Keeps ((savedFlags sp zone).getLsbD overflow) flags m.slot) :
    (run m (injectRestoreFlags sp zone [])).rax = m.rax ∧
      ∀ b, (run m (injectRestoreFlags sp zone [])).flags.getLsbD b =
        if ahFlags.getLsbD b = true ∨ (savedFlags sp zone).getLsbD overflow = true ∧ b = overflow then
          flags.getLsbD b
        else m.flags.getLsbD b := by
  cases hof : (savedFlags sp zone).getLsbD overflow with
  | false =>
    have hlist : injectRestoreFlags sp zone [] =
        [.swapRestoreRegister, .sahf, .restoreRegister] := by
      simp only [injectRestoreFlags, if_neg h, hof]
      rfl
    rw [hlist]
    refine ⟨rfl, fun b ↦ (getLsbD_sahf (exec m .swapRestoreRegister) b).trans ?_⟩
    by_cases hb : ahFlags.getLsbD b = true
    · simp only [hb, if_true, true_or]
      exact hk.ah b hb
    · simp only [hb, Bool.false_eq_true, false_and, or_self, if_false]
      rfl
  | true =>
    have hlist : injectRestoreFlags sp zone [] =
        [.swapRestoreRegister, .add 0x7F, .sahf, .restoreRegister] := by
      simp only [injectRestoreFlags, if_neg h, hof]
      rfl
    rw [hlist]
    let m' := exec m .swapRestoreRegister
    refine ⟨rfl, fun b ↦ (getLsbD_sahf (exec m' (.add 0x7F)) b).trans ?_⟩
    by_cases hb : ahFlags.getLsbD b = true
    · have hah : (exec m' (.add 0x7F)).ah = m'.ah := Machine.ah_setAl _ _
      have hlt := BitVec.lt_of_getLsbD hb
      simp only [hb, if_true, true_or]
      rw [← Machine.getLsbD_ah _ hlt, hah, Machine.getLsbD_ah _ hlt]
      exact hk.ah b hb
    · rw [if_neg hb, getLsbD_add m' (hk.of hof) b (Bool.eq_false_iff.mpr hb)]
      rcases eq_or_ne b overflow with rfl | hne
      · simp
      · simp only [hb, hne, if_false, Bool.false_eq_true, and_false, or_self]
        rfl

theorem rax_injectSaveFlags (m : Machine) : (run m (injectSaveFlags sp zone [])).rax = m.rax := by
  by_cases h : savedFlags sp zone = 0
  · simp only [injectSaveFlags, if_pos h]
    rfl
  · exact (run_injectSaveFlags m h).2.1

theorem rax_injectRestoreFlags (m : Machine) :
    (run m (injectRestoreFlags sp zone [])).rax = m.rax := by
  by_cases h : savedFlags sp zone = 0
  · simp only [injectRestoreFlags, if_pos h]
    rfl
  · cases hof : (savedFlags sp zone).getLsbD overflow <;> simp only [injectRestoreFlags, if_neg h, hof] <;>
      rfl

theorem sub_savedFlags (sp : Bool) (zone : FlagZone) : Sub (savedFlags sp zone) zone.killedFlags := by
  intro b hb
  unfold savedFlags at hb
  split_ifs at hb
  · exact hb
  · rw [BitVec.getLsbD_and, Bool.and_eq_true] at hb
    exact hb.1

theorem ahFlags_or_overflow : ∀ b, allArithmeticFlags.getLsbD b = true →
    ahFlags.getLsbD b = true ∨ b = overflow := by
  have h : ∀ b < 32, allArithmeticFlags.getLsbD b = true →
      ahFlags.getLsbD b = true ∨ b = overflow := by decide
  exact fun b hb ↦ h b (BitVec.lt_of_getLsbD hb) hb

/-- Whatever code runs between them, as long as it leaves the slot alone and changes only flags that
the zone kills: the flags that it kills and that were to be saved are as they were, as are those that
it does not kill, and `RAX` is kept by either. -/
theorem injectRestoreFlags_injectSaveFlags (sp : Bool) (zone : FlagZone) (m m' : Machine)
    (harith : Sub zone.killedFlags allArithmeticFlags)
    (hslot : m'.slot = (run m (injectSaveFlags sp zone [])).slot)
    (hkilled : ∀ b, zone.killedFlags.getLsbD b = false → m'.flags.getLsbD b = m.flags.getLsbD b) :
    (run m (injectSaveFlags sp zone [])).flags = m.flags ∧
      (run m (injectSaveFlags sp zone [])).rax = m.rax ∧
      (run m' (injectRestoreFlags sp zone [])).rax = m'.rax ∧
      ∀ b, zone.killedFlags.getLsbD b = false ∨ (savedFlags sp zone).getLsbD b = true →
        (run m' (injectRestoreFlags sp zone [])).flags.getLsbD b = m.flags.getLsbD b := by
  by_cases h : savedFlags sp zone = 0
  · have hsave : injectSaveFlags sp zone [] = [] := by simp only [injectSaveFlags, if_pos h]
    have hrestore : injectRestoreFlags sp zone [] = [] := by simp only [injectRestoreFlags, if_pos h]
    rw [hsave, hrestore]
    refine ⟨rfl, rfl, rfl, fun b hb ↦ hkilled b (hb.resolve_right fun hs ↦ ?_)⟩
    rw [h, BitVec.ofNat_eq_ofNat, BitVec.getLsbD_zero] at hs
    exact Bool.false_ne_true hs
  · obtain ⟨hflags, hrax, hkeeps⟩ := run_injectSaveFlags m h
    rw [← hslot] at hkeeps
    obtain ⟨hrax', hbits⟩ := run_injectRestoreFlags m' h hkeeps
    refine ⟨hflags, hrax, hrax', fun b hb ↦ ?_⟩
    rw [hbits b]
    split_ifs with hb'
    · rfl
    · refine hkilled b (hb.resolve_right fun hs ↦ hb' ?_)
      rcases ahFlags_or_overflow b (harith b (sub_savedFlags sp zone b hs)) with hah | rfl
      · exact .inl hah
      · exact .inr ⟨hs, rfl⟩

/-- Around an `ADD` that sets `OF` and clears `CF`. -/
theorem injectRestoreFlags_injectSaveFlags_add :
    let zone : FlagZone := { killedFlags := allArithmeticFlags, liveFlags := allArithmeticFlags }
    let m : Machine := { flags := 0x801, rax := 0x1234, slot := 0 }
    let m' : Machine := { run m (injectSaveFlags false zone []) with flags := 0x84, rax := 5 }
    (run m (injectSaveFlags false zone [])).flags = m.flags ∧
      (run m (injectSaveFlags false zone [])).rax = m.rax ∧
      (run m' (injectRestoreFlags false zone [])).rax = m'.rax ∧
      ∀ b, zone.killedFlags.getLsbD b = false ∨ (savedFlags false zone).getLsbD b = true →
        (run m' (injectRestoreFlags false zone [])).flags.getLsbD b = m.flags.getLsbD b :=
  injectRestoreFlags_injectSaveFlags false _ _ _ (Sub.refl _) rfl (by
    have h : ∀ b < 32, allArithmeticFlags.getLsbD b = false →
        (0x84 : BitVec 32).getLsbD b = (0x801 : BitVec 32).getLsbD b := by decide
    intro b hb
    by_cases hlt : b < 32
    · exact h b hlt hb
    · rw [BitVec.getLsbD_of_ge _ _ (not_lt.mp hlt), BitVec.getLsbD_of_ge _ _ (not_lt.mp hlt)])

end

end Granary.Assemble.SaveAndRestoreFlags
