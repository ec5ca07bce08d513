import Granary.Arch.ContextSwitch

namespace Granary.Arch.Interrupt

open Granary.Base.WordMemory Granary.Arch.Machine Granary.Arch.ContextSwitch

variable {X : Type}

def interruptFlagBit : ℕ :=
  9

def generateInterruptDisableCode : List (Instr X) :=
  [.pushfq, .cli, .popSavedFlags, .ret]

def jnbOver (arith : BitVec 64 → BitVec 64) (is : List (Instr X)) (s : State X) :
    Option (State X) :=
  if s.flags.getLsbD 0 then run arith is s else some s

def generateInterruptEnableCode (arith : BitVec 64 → BitVec 64) (s : State X) :
    Option (State X) :=
  ((run arith [.pushfq, .btSavedFlags interruptFlagBit] s).bind
    (jnbOver arith [.orTop (1 <<< interruptFlagBit)])).bind
    (run arith [.popfq, .ret])

def allocateDisableInterrupts (arith : BitVec 64 → BitVec 64) (ra : BitVec 64) :
    List (Instr X) :=
  [.call ra (run arith generateInterruptDisableCode)]

def allocateEnableInterrupts (arith : BitVec 64 → BitVec 64) (ra : BitVec 64) :
    List (Instr X) :=
  [.call ra (generateInterruptEnableCode arith)]

/-- Code with the partitions that disable interrupts on entry and enable them on exit. -/
inductive Code (X : Type) where
  | plain (g : State X → State X)
  | seq (a b : Code X)
  | partition (body : Code X)

def runCode (arith : BitVec 64 → BitVec 64) (ra : BitVec 64) : Code X → State X → Option (State X)
  | .plain g, s => some (g s)
  | .seq a b, s => (runCode arith ra a s).bind (runCode arith ra b)
  | .partition body, s =>
    ((run arith (allocateDisableInterrupts arith ra) s).bind (runCode arith ra body)).bind
      (run arith (allocateEnableInterrupts arith ra))

def Code.hasPartition : Code X → Bool
  | plain _ => false
  | seq a b => a.hasPartition || b.hasPartition
  | partition _ => true

def Code.nests : Code X → Bool
  | plain _ => false
  | seq a b => a.nests || b.nests
  | partition body => body.hasPartition

/-- Plain code leaves the interrupt flag and the slot of the saved flags alone, and it leaves room
on the stack. -/
def Code.Quiet : Code X → Prop
  | plain g => ∀ s : State X, 16 ≤ s.rsp.toNat →
      16 ≤ (g s).rsp.toNat ∧ (g s).savedFlags = s.savedFlags ∧
        (g s).flags &&& interruptFlag = s.flags &&& interruptFlag
  | seq a b => a.Quiet ∧ b.Quiet
  | partition body => body.Quiet

variable {arith : BitVec 64 → BitVec 64} {ra : BitVec 64} {s t : State X} {c : Code X}

theorem load_pushWord {v : BitVec 64} (hlo : 8 ≤ s.rsp.toNat) (hhi : s.rsp.toNat + 8 ≤ 2 ^ 64) :
    load (s.pushWord v).mem s.rsp = load s.mem s.rsp := by
  have hbelow := toNat_sub_eight hlo
  exact load_store_of_apart (by omega) hhi (by omega)

theorem mem_pushWord_pushWord {v w : BitVec 64} (hroom : 16 ≤ s.rsp.toNat) :
    ∀ b ∉ Span (s.rsp.toNat - 16) s.rsp.toNat, ((s.pushWord v).pushWord w).mem b = s.mem b := by
  intro b hb
  have hbelow : (s.pushWord v).rsp.toNat = s.rsp.toNat - 8 := toNat_sub_eight (by omega)
  rw [mem_span] at hb
  rw [mem_pushWord (by omega), mem_pushWord (by omega)]
  · rw [mem_span]
    omega
  · rw [mem_span]
    omega

theorem run_allocateDisableInterrupts (arith : BitVec 64 → BitVec 64) (ra : BitVec 64)
    (hroom : 16 ≤ s.rsp.toNat) :
    ∃ mem, run arith (allocateDisableInterrupts arith ra) s = some { s with
        flags := s.flags &&& ~~~interruptFlag
        savedFlags := s.flags
        pc := ra
        mem := mem } ∧
      ∀ b ∉ Span (s.rsp.toNat - 16) s.rsp.toNat, mem b = s.mem b := by
  let u := s.pushWord ra
  have hu : u.rsp.toNat = s.rsp.toNat - 8 := toNat_sub_eight (by omega)
  have := s.rsp.isLt
  have hback : u.rsp - 8 + 8 = u.rsp := BitVec.sub_add_cancel ..
  have hreturn : u.rsp + 8 = s.rsp := BitVec.sub_add_cancel ..
  have hret : load (u.pushWord u.flags).mem u.rsp = ra := by
    rw [load_pushWord (by omega) (by omega)]
    exact top_pushWord s ra
  refine ⟨(u.pushWord u.flags).mem, ?_, mem_pushWord_pushWord hroom⟩
  apply run_call
  · have hsave : load (u.pushWord u.flags).mem (u.rsp - 8) = s.flags := load_store ..
    rw [generateInterruptDisableCode, run_cons_of_exec rfl, run_cons_of_exec rfl,
      run_cons_of_exec rfl, run_cons, Instr.exec, Option.bind_some, run_nil]
    change some { s with
      rsp := u.rsp - 8 + 8 + 8
      pc := load (u.pushWord u.flags).mem (u.rsp - 8 + 8)
      flags := s.flags &&& ~~~interruptFlag
      savedFlags := load (u.pushWord u.flags).mem (u.rsp - 8)
      mem := (u.pushWord u.flags).mem } = _
    rw [hback, hreturn, hret, hsave]
  · rfl

/-- The end of the code that enables interrupts, with the flags to be restored on the stack. -/
theorem run_popfq_ret {v : BitVec 64} (hflags : load t.mem t.rsp = v)
    (hret : load t.mem (t.rsp + 8) = ra) :
    run arith [.popfq, .ret] t = some { t with rsp := t.rsp + 8 + 8, flags := v, pc := ra } := by
  rw [run_cons, Instr.exec, Option.bind_some, run_cons, Instr.exec, Option.bind_some, run_nil]
  simp only [State.drop, State.top, hflags, hret]

theorem and_interruptFlag (w : BitVec 64) :
    w &&& interruptFlag = if w.getLsbD 9 then interruptFlag else 0#64 := by
  have hpow : interruptFlag = BitVec.twoPow 64 9 := by decide
  rw [hpow, BitVec.and_twoPow]

/-- After the bit test the flags that are to be restored are on the stack, with the interrupt flag
set if it is set in the slot. -/
theorem run_jnbOver (arith : BitVec 64 → BitVec 64) (u : State X) (hroom : 8 ≤ u.rsp.toNat) :
    ∃ t, ((run arith [.pushfq, .btSavedFlags interruptFlagBit] u).bind
        (jnbOver arith [.orTop (1 <<< interruptFlagBit)])) = some t ∧
      t = { u with rsp := u.rsp - 8, flags := t.flags, mem := t.mem } ∧
      load t.mem (u.rsp - 8) = u.flags ||| u.savedFlags &&& interruptFlag ∧
      ∀ b ∉ Span (u.rsp.toNat - 8) u.rsp.toNat, t.mem b = u.mem b := by
  have hbelow := toNat_sub_eight hroom
  have := u.rsp.isLt
  let v : State X := { u.pushWord u.flags with
    flags := u.flags &&& ~~~1 ||| (BitVec.ofBool (u.savedFlags.getLsbD 9)).setWidth 64 }
  have hrun : run arith [.pushfq, .btSavedFlags interruptFlagBit] u = some v := rfl
  have hcarry : v.flags.getLsbD 0 = u.savedFlags.getLsbD 9 := by
    change (u.flags &&& ~~~1 ||| _).getLsbD 0 = _
    simp
  have htop : v.top = u.flags := top_pushWord ..
  rw [hrun, Option.bind_some, jnbOver, hcarry]
  cases hbit : u.savedFlags.getLsbD 9 with
  | false =>
    have hsaved : u.savedFlags &&& interruptFlag = 0#64 := by
      rw [and_interruptFlag, hbit]
      rfl
    refine ⟨v, rfl, rfl, ?_, fun b ↦ mem_pushWord hroom⟩
    rw [hsaved, BitVec.or_zero]
    exact htop
  | true =>
    have hsaved : u.savedFlags &&& interruptFlag = interruptFlag := by
      rw [and_interruptFlag, hbit]
      rfl
    refine ⟨_, rfl, rfl, ?_, fun b hb ↦ ?_⟩
    · rw [hsaved, ← htop]
      exact load_store ..
    · have hv : v.rsp.toNat = u.rsp.toNat - 8 := hbelow
      rw [mem_span] at hb
      refine (store_of_notMem ?_ ?_).trans (mem_pushWord hroom hb)
      · omega
      · rw [mem_span]
        omega

theorem run_allocateEnableInterrupts (arith : BitVec 64 → BitVec 64) (ra : BitVec 64)
    (hroom : 16 ≤ s.rsp.toNat) :
    ∃ mem, run arith (allocateEnableInterrupts arith ra) s = some { s with
        flags := s.flags ||| s.savedFlags &&& interruptFlag
        pc := ra
        mem := mem } ∧
      ∀ b ∉ Span (s.rsp.toNat - 16) s.rsp.toNat, mem b = s.mem b := by
  let u := s.pushWord ra
  have hu : u.rsp.toNat = s.rsp.toNat - 8 := toNat_sub_eight (by omega)
  have := s.rsp.isLt
  obtain ⟨t, ht, heq, hflags, hmem⟩ := run_jnbOver arith u (by omega)
  have hrsp : t.rsp = u.rsp - 8 := by
    rw [heq]
  have hback : u.rsp - 8 + 8 = u.rsp := BitVec.sub_add_cancel ..
  have hreturn : u.rsp + 8 = s.rsp := BitVec.sub_add_cancel ..
  have hret : load t.mem u.rsp = ra := by
    rw [load_congr (by omega) fun b hb ↦ hmem b ?_]
    · exact top_pushWord s ra
    · rw [mem_span] at hb ⊢
      omega
  have hflags' : load t.mem t.rsp = u.flags ||| u.savedFlags &&& interruptFlag := by
    rw [hrsp, hflags]
  have hret' : load t.mem (t.rsp + 8) = ra := by
    rw [hrsp, hback, hret]
  refine ⟨t.mem, ?_, fun b hb ↦ ?_⟩
  · apply run_call
    · rw [generateInterruptEnableCode, ht, Option.bind_some, run_popfq_ret hflags' hret', heq,
        hback, hreturn]
      rfl
    · rfl
  · rw [mem_span] at hb
    rw [hmem, mem_pushWord (by omega)]
    · rw [mem_span]
      omega
    · rw [mem_span]
      omega

theorem or_and_interruptFlag {v w : BitVec 64} (hv : v &&& interruptFlag = 0) :
    (v ||| w &&& interruptFlag) &&& interruptFlag = w &&& interruptFlag := by
  ext i hi
  have hbit : (v.getLsbD i && interruptFlag.getLsbD i) = false := by
    simpa using congrArg (BitVec.getLsbD · i) hv
  rw [← BitVec.getLsbD_eq_getElem, ← BitVec.getLsbD_eq_getElem, BitVec.getLsbD_and,
    BitVec.getLsbD_or, BitVec.getLsbD_and, Bool.and_or_distrib_right, hbit, Bool.false_or,
    Bool.and_assoc, Bool.and_self]

/-- What code makes of the interrupt flag and of the slot. Inside of a partition the flag is clear,
so that what a nested partition leaves in the slot has it clear. -/
theorem exists_runCode (arith : BitVec 64 → BitVec 64) (ra : BitVec 64) (hc : c.Quiet)
    (hroom : 16 ≤ s.rsp.toNat) :
    ∃ t, runCode arith ra c s = some t ∧ 16 ≤ t.rsp.toNat ∧
      t.flags &&& interruptFlag = (if c.nests then 0 else s.flags &&& interruptFlag) ∧
      (c.hasPartition = false → t.savedFlags = s.savedFlags) ∧
      (s.flags &&& interruptFlag = 0 → c.hasPartition = true →
        t.savedFlags &&& interruptFlag = 0) := by
  induction c generalizing s with
  | plain g =>
    obtain ⟨hrsp, hslot, hflags⟩ := hc s hroom
    exact ⟨g s, rfl, hrsp, hflags, fun _ ↦ hslot, nofun⟩
  | seq a b iha ihb =>
    obtain ⟨u, hu, huroom, huflags, huslot, huclear⟩ := iha hc.1 hroom
    obtain ⟨t, ht, htroom, htflags, htslot, htclear⟩ := ihb hc.2 huroom
    refine ⟨t, ?_, htroom, ?_, ?_, ?_⟩
    · rw [runCode, hu, Option.bind_some, ht]
    · rw [htflags, huflags, Code.nests]
      cases a.nests <;> cases b.nests <;> rfl
    · intro hnone
      rw [Code.hasPartition, Bool.or_eq_false_iff] at hnone
      rw [htslot hnone.2, huslot hnone.1]
    · intro hs hsome
      have hu : u.flags &&& interruptFlag = 0 := by
        rw [huflags, hs, ite_self]
      cases hb : b.hasPartition with
      | true => exact htclear hu hb
      | false =>
        rw [Code.hasPartition, hb, Bool.or_false] at hsome
        rw [htslot hb, huclear hs hsome]
  | partition body ih =>
    obtain ⟨mem, hdisable, -⟩ := run_allocateDisableInterrupts arith ra hroom
    obtain ⟨t, ht, htroom, htflags, htslot, htclear⟩ := ih (s := { s with
      flags := s.flags &&& ~~~interruptFlag
      savedFlags := s.flags
      pc := ra
      mem := mem }) hc hroom
    have hclear : t.flags &&& interruptFlag = 0 := by
      rw [htflags, andNot_and_interruptFlag, ite_self]
    obtain ⟨mem', henable, -⟩ := run_allocateEnableInterrupts arith ra htroom
    refine ⟨{ t with
      flags := t.flags ||| t.savedFlags &&& interruptFlag
      pc := ra
      mem := mem' }, ?_, htroom, ?_, nofun, ?_⟩
    · rw [runCode, hdisable, Option.bind_some, ht, Option.bind_some, henable]
    · rw [or_and_interruptFlag hclear, Code.nests]
      cases hbody : body.hasPartition with
      | false =>
        rw [htslot hbody]
        rfl
      | true => exact htclear (andNot_and_interruptFlag _) hbody
    · intro hs _
      cases hbody : body.hasPartition with
      | false => exact (congrArg (· &&& interruptFlag) (htslot hbody)).trans hs
      | true => exact htclear (andNot_and_interruptFlag _) hbody

/-- Partitions give the interrupt flag back, whatever it was, as long as none of them is inside of
another one. With only one slot for the saved flags a nested partition leaves the interrupts
disabled for good. -/
theorem runCode_interrupts (hc : c.Quiet) (hroom : 16 ≤ s.rsp.toNat) :
    ∃ t, runCode arith ra c s = some t ∧
      t.flags &&& interruptFlag = if c.nests then 0 else s.flags &&& interruptFlag := by
  obtain ⟨t, ht, -, hflags, -, -⟩ := exists_runCode arith ra hc hroom
  exact ⟨t, ht, hflags⟩

theorem runCode_interrupts_nested : ∃ t,
    runCode id 1 (.seq (.partition (.plain id)) (.partition (.partition (.plain id)))) userThread =
        some t ∧
      t.flags &&& interruptFlag = 0 := by
  have hquiet : Code.Quiet
      (.seq (.partition (.plain id)) (.partition (.partition (.plain id))) : Code Unit) :=
    ⟨fun _ h ↦ ⟨h, rfl, rfl⟩, fun _ h ↦ ⟨h, rfl, rfl⟩⟩
  exact runCode_interrupts hquiet (by decide)

end Granary.Arch.Interrupt
