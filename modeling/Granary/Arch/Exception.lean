import Granary.Arch.Instruction
import Granary.Os.Exception

namespace Granary.Arch.Exception

open Function Granary.Arch.StackMachine Granary.Os.Exception

structure RegisterOperand where
  reg : Reg
  rw : Action
deriving DecidableEq, Repr

def isString : ExceptionalForm → Bool
  | .movs _ => true
  | _ => false

/-- An `ExceptionalControlFlowInstruction`, with the prefixes that are in front of it and the
registers that the instruction used before it was mangled. -/
structure ExceptionalCFI where
  form : ExceptionalForm
  rep : Bool
  repne : Bool
  usedRegs : Gpr → Bool
  savedRegs : Gpr → ℕ
  savedRegs_injective : Injective savedRegs

def bytePart (isHigh : Bool) : Part :=
  if isHigh then .high else .low

def pushOperands : ExceptionalForm → List (Instr Reg)
  | .movSegMemw _ base => [.pushMem base]
  | .movSegGpr16 _ src => [.push src]
  | .movMembImmb base imm => [.push base, .pushImm (imm.signExtend 64)]
  | .movMemvImmz _ base imm => [.push base, .pushImm (imm.signExtend 64)]
  | .movMembGpr8 base src _ | .movMemvGprv _ base src => [.push base, .push src]
  | .xchgMembGpr8 base reg _ | .xchgMemvGprv _ base reg => [.push base, .push reg]
  | .movGpr8Memb dst _ base | .movGprvMemv _ dst base | .movzxGprvMemb _ dst base =>
    [.push dst, .push base]
  | .fxsave64 base | .fxrstor64 base | .prefetcht0 base => [.push base]
  | .movs _ | .rdmsr | .wrmsr | .fwait => []

def popOnSuccess : ExceptionalForm → ℕ → Option Reg
  | .xchgMembGpr8 _ reg _, 1 | .xchgMemvGprv _ _ reg, 1 => some reg
  | .movGpr8Memb dst _ _, 0 | .movGprvMemv _ dst _, 0 | .movzxGprvMemb _ dst _, 0 => some dst
  | _, _ => none

def numPushedOps (form : ExceptionalForm) : ℕ :=
  (pushOperands form).length

namespace ExceptionalCFI

-- `ConvertDecodedPrefixes` takes the prefixes of instructions that can be repeated only
def hasPrefixRep (i : ExceptionalCFI) : Bool :=
  isString i.form && i.rep

def hasPrefixRepne (i : ExceptionalCFI) : Bool :=
  isString i.form && i.repne

def isRestartable (i : ExceptionalCFI) : Bool :=
  i.hasPrefixRep || i.hasPrefixRepne

/-- The register operands as decoded, implicit ones included. `ForEachImplicitOperand` leaves out
`BASE0` and `BASE1`, so that the addresses of a string instruction are in memory operands only. -/
def registerOperands (i : ExceptionalCFI) : List RegisterOperand :=
  match i.form with
  | .movSegGpr16 _ src | .movMembGpr8 _ src _ | .movMemvGprv _ _ src => [⟨src, .r⟩]
  | .xchgMembGpr8 _ reg _ | .xchgMemvGprv _ _ reg => [⟨reg, .rw⟩]
  | .movGpr8Memb dst _ _ | .movGprvMemv _ dst _ | .movzxGprvMemb _ dst _ => [⟨dst, .w⟩]
  | .movs _ => if i.isRestartable then [⟨rcx, .rw⟩] else []
  | .rdmsr => [⟨rax, .w⟩, ⟨rdx, .w⟩, ⟨rcx, .r⟩]
  | .wrmsr => [⟨rax, .r⟩, ⟨rdx, .r⟩, ⟨rcx, .r⟩]
  | .movSegMemw .. | .movMembImmb .. | .movMemvImmz .. | .fxsave64 _ | .fxrstor64 _
  | .prefetcht0 _ | .fwait => []

/-- `FindRWRegs`. -/
def isRw (i : ExceptionalCFI) (g : Gpr) : Bool :=
  i.registerOperands.any fun op ↦ op.rw.isRead && op.rw.isWrite && op.reg = .gpr g

def restoreReg (i : ExceptionalCFI) (g : Gpr) : List (Instr Reg) :=
  if i.isRestartable && i.isRw g then
    [.bswap (.gpr g), .bswap (.vr (i.savedRegs g)), .mov .w32 (.gpr g) (.vr (i.savedRegs g)),
      .bswap (.gpr g)]
  else [.mov .w64 (.gpr g) (.vr (i.savedRegs g))]

def restoreRegsOnFailure (i : ExceptionalCFI) : List (Instr Reg) :=
  ((List.finRange 15).filter i.usedRegs).flatMap i.restoreReg

end ExceptionalCFI

def unspillRegsOnFailure (form : ExceptionalForm) : List (Instr Reg) :=
  if numPushedOps form = 0 then [] else [.leaStack (8 * numPushedOps form)]

def unspillReg (form : ExceptionalForm) (n : ℕ) : Instr Reg :=
  match popOnSuccess form n with
  | some reg => .pop reg
  | none => .leaStack 8

def unspillRegsOnSuccess (form : ExceptionalForm) : List (Instr Reg) :=
  (List.range (numPushedOps form)).reverse.map (unspillReg form)

section Process

variable {F : Type} (env : Env F)

/-- Where the emulating function returns to, when it is called in front of `next`. -/
def returned (form : ExceptionalForm) (o : Outcome) (next : BitVec 64) (s : Cpu F) :
    Option (BitVec 64 × Cpu F) :=
  (StackMachine.run env.toEnv (pushOperands form) s).bind fun s ↦
    (emulation form).run env o (s.pushWord next)

/-- The code that `ProcessExceptionalCFI` makes. At `next` is a jump of 5 bytes to the path without
a fault, and the path with a fault is behind it. -/
def processExceptionalCFI (i : ExceptionalCFI) (o : Outcome) (next : BitVec 64) (s : Cpu F) :
    Option (Cpu F) :=
  (returned env i.form o next s).bind fun (pc, s) ↦
    if pc = next then StackMachine.run env.toEnv (unspillRegsOnSuccess i.form) s
    else if pc = next + 5 then
      StackMachine.run env.toEnv (unspillRegsOnFailure i.form ++ i.restoreRegsOnFailure) s
    else none

/-- The instruction that was replaced, where it does not fault. -/
def original (i : ExceptionalCFI) (s : Cpu F) : Cpu F :=
  match i.form with
  | .movSegMemw seg base => s.setSegment seg (env.memory (s.regs base))
  | .movSegGpr16 seg src => s.setSegment seg (s.regs src)
  | .movMembImmb .. | .movMemvImmz .. | .movMembGpr8 .. | .movMemvGprv .. => s
  | .xchgMembGpr8 base reg isHigh =>
    s.set reg ((bytePart isHigh).write (s.regs reg) (env.memory (s.regs base)))
  | .xchgMemvGprv w base reg => s.set reg (w.write (s.regs reg) (env.memory (s.regs base)))
  | .movGpr8Memb dst isHigh base =>
    s.set dst ((bytePart isHigh).write (s.regs dst) (env.memory (s.regs base)))
  | .movGprvMemv w dst base => s.set dst (w.write (s.regs dst) (env.memory (s.regs base)))
  | .movzxGprvMemb w dst base =>
    s.set dst (w.write (s.regs dst) ((byte 0 (env.memory (s.regs base))).setWidth 64))
  | .fxrstor64 base => s.setFpu (env.fpuImage (s.regs base))
  | .movs order =>
    if i.isRestartable then repeatString (stringBytes order) (s.regs rcx) s
    else moveString (stringBytes order) 1 s
  | .rdmsr => readMsr env s
  | .fxsave64 _ | .prefetcht0 _ | .wrmsr | .fwait => s

def interrupted (i : ExceptionalCFI) (done : BitVec 64) (s : Cpu F) : Cpu F :=
  match i.form with
  | .movs order => repeatString (stringBytes order) done s
  | _ => s

def joinHalves (high low : BitVec 64) : BitVec 64 :=
  (high >>> 32) <<< 32 ||| (low.setWidth 32).setWidth 64

/-- Each instruction that unwinds takes the stack to where it was before the last push that is not
unwound yet. -/
def Unwinds (i : ExceptionalCFI) (next : BitVec 64) (s : Cpu F) : Prop :=
  ∀ n ≤ numPushedOps i.form, ∃ r t u, returned env i.form .completes next s = some (next, r) ∧
    StackMachine.run env.toEnv ((pushOperands i.form).take (numPushedOps i.form - n)) s = some t ∧
    StackMachine.run env.toEnv ((unspillRegsOnSuccess i.form).take n) r = some u ∧
    u.stack.length = t.stack.length

/-- The registers that a repeated instruction reads and writes: the count and both addresses. -/
def stringRegs : List Reg :=
  [rcx, rsi, rdi]

def Recovers (i : ExceptionalCFI) (o : Outcome) (next : BitVec 64) (s : Cpu F) : Prop :=
  match o with
  | .completes => processExceptionalCFI env i o next s = some (original env i s) ∧
      Unwinds env i next s
  | .faults done => ∃ s', processExceptionalCFI env i o next s = some s' ∧ s'.stack = s.stack ∧
      ∀ g, i.usedRegs g → s'.regs (.gpr g) =
        if i.isRestartable ∧ .gpr g ∈ stringRegs then
          joinHalves (s.regs (.vr (i.savedRegs g))) ((interrupted i done s).regs (.gpr g))
        else s.regs (.vr (i.savedRegs g))

/-- The rest of a narrow destination is as the code leaves it. -/
def Suits (i : ExceptionalCFI) (s : Cpu F) : Prop :=
  match i.form with
  | .xchgMembGpr8 base reg true =>
    byte 0 (s.regs reg) = byte 0 (env.memory (s.regs base)) ∧
      byte 1 (s.regs reg) = byte 0 (env.memory (s.regs base))
  | .movGpr8Memb dst false _ => s.regs dst >>> 8 = s.regs rsi >>> 8
  | .movGpr8Memb dst true base =>
    s.regs dst >>> 16 = s.regs rsi >>> 16 ∧
      byte 0 (s.regs dst) = byte 0 (env.memory (s.regs base)) ∧
      byte 1 (s.regs rsi) = byte 0 (env.memory (s.regs base))
  | .movGprvMemv .w16 dst _ => s.regs dst >>> 16 = s.regs rsi >>> 16
  | .movzxGprvMemb .w16 dst _ => s.regs dst >>> 16 = 0
  | .movs _ => i.isRestartable
  | _ => True

/-- Where a repeated instruction is interrupted, the low half of the count is null, and those of the
addresses are as they were saved. -/
def LowHalvesSuit (i : ExceptionalCFI) (done : BitVec 64) (s : Cpu F) : Prop :=
  ∀ g, i.usedRegs g → i.isRestartable → .gpr g ∈ stringRegs →
    ((interrupted i done s).regs (.gpr g)).setWidth 32 =
      if .gpr g = rcx then 0#32 else (s.regs (.vr (i.savedRegs g))).setWidth 32

end Process

section Completes

variable {F : Type} {env : Env F} {s : Cpu F} {next : BitVec 64}

/-- What the code does where there is no fault. -/
def emulated (env : Env F) (i : ExceptionalCFI) (s : Cpu F) : Cpu F :=
  match i.form with
  | .xchgMembGpr8 base reg _ =>
    s.set reg (Part.low.write (s.regs reg) (env.memory (s.regs base)))
  | .movGpr8Memb dst _ base =>
    s.set dst (Part.low.write (s.regs rsi) (env.memory (s.regs base)))
  | .movGprvMemv w dst base => s.set dst (w.write (s.regs rsi) (env.memory (s.regs base)))
  | .movzxGprvMemb _ dst base => s.set dst ((byte 0 (env.memory (s.regs base))).setWidth 64)
  | .movs order => repeatString (stringBytes order) (s.regs rcx) s
  | _ => original env i s

def called (s : Cpu F) (ws : List (BitVec 64)) (next : BitVec 64) : Cpu F :=
  { s with stack := next :: (ws ++ s.stack) }

variable (env) in
theorem returned_completes (i : ExceptionalCFI) (next : BitVec 64) (s : Cpu F) :
    ∃ r, returned env i.form .completes next s = some (next, r) ∧
      r.stack.length = s.stack.length + numPushedOps i.form ∧
      StackMachine.run env.toEnv (unspillRegsOnSuccess i.form) r = some (emulated env i s) := by
  simp only [emulated, original]
  cases i.form with
  | movSegMemw seg base =>
    have hr : returned env (.movSegMemw seg base) .completes next s = some (next, _) :=
      makeSegWriteFunc_completes (s := called s [env.memory (s.regs base)] next) seg rfl
    exact ⟨_, hr, rfl, rfl⟩
  | movSegGpr16 seg src =>
    have hr : returned env (.movSegGpr16 seg src) .completes next s = some (next, _) :=
      makeSegWriteFunc_completes (s := called s [s.regs src] next) seg rfl
    exact ⟨_, hr, rfl, rfl⟩
  | movMembImmb base imm =>
    have hr : returned env (.movMembImmb base imm) .completes next s = some (next, _) :=
      makeWriteFunc_completes (s := called s [imm.signExtend 64, s.regs base] next) .low rfl
    exact ⟨_, hr, rfl, rfl⟩
  | movMemvImmz w base imm =>
    have hr : returned env (.movMemvImmz w base imm) .completes next s = some (next, _) :=
      makeWriteFunc_completes (s := called s [imm.signExtend 64, s.regs base] next) (.wide w) rfl
    exact ⟨_, hr, rfl, rfl⟩
  | movMembGpr8 base src isHigh =>
    have hr : returned env (.movMembGpr8 base src isHigh) .completes next s = some (next, _) :=
      makeWriteFunc_completes (s := called s [s.regs src, s.regs base] next) .low rfl
    exact ⟨_, hr, rfl, rfl⟩
  | movMemvGprv w base src =>
    have hr : returned env (.movMemvGprv w base src) .completes next s = some (next, _) :=
      makeWriteFunc_completes (s := called s [s.regs src, s.regs base] next) (.wide w) rfl
    exact ⟨_, hr, rfl, rfl⟩
  | xchgMembGpr8 base reg isHigh =>
    have hr : returned env (.xchgMembGpr8 base reg isHigh) .completes next s = some (next, _) :=
      makeXchgFunc_completes (s := called s [s.regs reg, s.regs base] next) .low rfl
    exact ⟨_, hr, rfl, rfl⟩
  | xchgMemvGprv w base reg =>
    have hr : returned env (.xchgMemvGprv w base reg) .completes next s = some (next, _) :=
      makeXchgFunc_completes (s := called s [s.regs reg, s.regs base] next) (.wide w) rfl
    exact ⟨_, hr, rfl, rfl⟩
  | movGpr8Memb dst isHigh base =>
    have hr : returned env (.movGpr8Memb dst isHigh base) .completes next s = some (next, _) :=
      makeReadFunc_completes (s := called s [s.regs base, s.regs dst] next) .low rfl
    exact ⟨_, hr, rfl, rfl⟩
  | movGprvMemv w dst base =>
    have hr : returned env (.movGprvMemv w dst base) .completes next s = some (next, _) :=
      makeReadFunc_completes (s := called s [s.regs base, s.regs dst] next) (.wide w) rfl
    exact ⟨_, hr, rfl, rfl⟩
  | movzxGprvMemb w dst base =>
    have hr : returned env (.movzxGprvMemb w dst base) .completes next s = some (next, _) :=
      makeReadFunc_movzx_completes (s := called s [s.regs base, s.regs dst] next) rfl
    exact ⟨_, hr, rfl, rfl⟩
  | fxsave64 base =>
    have hr : returned env (.fxsave64 base) .completes next s = some (next, _) :=
      makeMemInstrFunc_completes (e := .fxsave64) (s := called s [s.regs base] next) (fun _ ↦ rfl) rfl
    exact ⟨_, hr, rfl, rfl⟩
  | fxrstor64 base =>
    have hr : returned env (.fxrstor64 base) .completes next s = some (next, _) :=
      makeMemInstrFunc_fxrstor64_completes (s := called s [s.regs base] next) rfl
    exact ⟨_, hr, rfl, rfl⟩
  | prefetcht0 base =>
    have hr : returned env (.prefetcht0 base) .completes next s = some (next, _) :=
      makeMemInstrFunc_completes (e := .prefetcht0) (s := called s [s.regs base] next) (fun _ ↦ rfl) rfl
    exact ⟨_, hr, rfl, rfl⟩
  | movs order =>
    have hr : returned env (.movs order) .completes next s = some (next, _) :=
      makeInstrFunc_completes (e := .repMovs (stringBytes order)) (s := called s [] next) rfl
    exact ⟨_, hr, rfl, rfl⟩
  | rdmsr =>
    have hr : returned env .rdmsr .completes next s = some (next, _) :=
      makeInstrFunc_completes (e := .rdmsr) (s := called s [] next) rfl
    exact ⟨_, hr, rfl, rfl⟩
  | wrmsr =>
    have hr : returned env .wrmsr .completes next s = some (next, _) :=
      makeInstrFunc_completes (e := .wrmsr) (s := called s [] next) rfl
    exact ⟨_, hr, rfl, rfl⟩
  | fwait =>
    have hr : returned env .fwait .completes next s = some (next, _) :=
      makeInstrFunc_completes (e := .fwait) (s := called s [] next) rfl
    exact ⟨_, hr, rfl, rfl⟩

end Completes

section Faults

variable {F : Type} {env : Env F} {s : Cpu F} {next : BitVec 64}

theorem run_unspillRegsOnFailure (form : ExceptionalForm) (s : Cpu F) {r : Cpu F}
    {w : List (BitVec 64)} (hr : r = { s with stack := w ++ s.stack })
    (hlen : w.length = numPushedOps form) :
    StackMachine.run env.toEnv (unspillRegsOnFailure form) r = some s := by
  subst hr
  by_cases hn : numPushedOps form = 0
  · rw [unspillRegsOnFailure, if_pos hn, run_nil]
    rw [hn, List.length_eq_zero_iff] at hlen
    rw [hlen, List.nil_append]
  · have hdiv : 8 * numPushedOps form / 8 = w.length := by omega
    rw [unspillRegsOnFailure, if_neg hn, run_cons, Instr.exec, hdiv, if_pos (by simp),
      Option.bind_some, run_nil, List.drop_left]

variable (env) in
theorem returned_faults (i : ExceptionalCFI) (done next : BitVec 64) (s : Cpu F) :
    ∃ r, returned env i.form (.faults done) next s = some (next + 5, r) ∧
      StackMachine.run env.toEnv (unspillRegsOnFailure i.form) r = some (interrupted i done s) := by
  simp only [interrupted]
  cases i.form with
  | movSegMemw seg base =>
    have hr : returned env (.movSegMemw seg base) (.faults done) next s = some (next + 5, _) :=
      makeSegWriteFunc_faults (s := called s [env.memory (s.regs base)] next) seg rfl
    exact ⟨_, hr, run_unspillRegsOnFailure _ _ (w := [env.memory (s.regs base)]) rfl rfl⟩
  | movSegGpr16 seg src =>
    have hr : returned env (.movSegGpr16 seg src) (.faults done) next s = some (next + 5, _) :=
      makeSegWriteFunc_faults (s := called s [s.regs src] next) seg rfl
    exact ⟨_, hr, run_unspillRegsOnFailure _ _ (w := [s.regs src]) rfl rfl⟩
  | movMembImmb base imm =>
    have hr : returned env (.movMembImmb base imm) (.faults done) next s = some (next + 5, _) :=
      makeWriteFunc_faults (s := called s [imm.signExtend 64, s.regs base] next) .low rfl
    exact ⟨_, hr, run_unspillRegsOnFailure _ _ (w := [imm.signExtend 64, s.regs base]) rfl rfl⟩
  | movMemvImmz w base imm =>
    have hr : returned env (.movMemvImmz w base imm) (.faults done) next s = some (next + 5, _) :=
      makeWriteFunc_faults (s := called s [imm.signExtend 64, s.regs base] next) (.wide w) rfl
    exact ⟨_, hr, run_unspillRegsOnFailure _ _ (w := [imm.signExtend 64, s.regs base]) rfl rfl⟩
  | movMembGpr8 base src isHigh =>
    have hr : returned env (.movMembGpr8 base src isHigh) (.faults done) next s = some (next + 5, _) :=
      makeWriteFunc_faults (s := called s [s.regs src, s.regs base] next) .low rfl
    exact ⟨_, hr, run_unspillRegsOnFailure _ _ (w := [s.regs src, s.regs base]) rfl rfl⟩
  | movMemvGprv w base src =>
    have hr : returned env (.movMemvGprv w base src) (.faults done) next s = some (next + 5, _) :=
      makeWriteFunc_faults (s := called s [s.regs src, s.regs base] next) (.wide w) rfl
    exact ⟨_, hr, run_unspillRegsOnFailure _ _ (w := [s.regs src, s.regs base]) rfl rfl⟩
  | xchgMembGpr8 base reg isHigh =>
    have hr : returned env (.xchgMembGpr8 base reg isHigh) (.faults done) next s = some (next + 5, _) :=
      makeXchgFunc_faults (s := called s [s.regs reg, s.regs base] next) .low rfl
    exact ⟨_, hr, run_unspillRegsOnFailure _ _ (w := [s.regs reg, s.regs base]) rfl rfl⟩
  | xchgMemvGprv w base reg =>
    have hr : returned env (.xchgMemvGprv w base reg) (.faults done) next s = some (next + 5, _) :=
      makeXchgFunc_faults (s := called s [s.regs reg, s.regs base] next) (.wide w) rfl
    exact ⟨_, hr, run_unspillRegsOnFailure _ _ (w := [s.regs reg, s.regs base]) rfl rfl⟩
  | movGpr8Memb dst isHigh base =>
    have hr : returned env (.movGpr8Memb dst isHigh base) (.faults done) next s = some (next + 5, _) :=
      makeReadFunc_faults (e := .read .low) (s := called s [s.regs base, s.regs dst] next) (fun _ _ ↦ rfl) rfl
    exact ⟨_, hr, run_unspillRegsOnFailure _ _ (w := [s.regs base, s.regs dst]) rfl rfl⟩
  | movGprvMemv w dst base =>
    have hr : returned env (.movGprvMemv w dst base) (.faults done) next s = some (next + 5, _) :=
      makeReadFunc_faults (e := .read (.wide w)) (s := called s [s.regs base, s.regs dst] next) (fun _ _ ↦ rfl) rfl
    exact ⟨_, hr, run_unspillRegsOnFailure _ _ (w := [s.regs base, s.regs dst]) rfl rfl⟩
  | movzxGprvMemb w dst base =>
    have hr : returned env (.movzxGprvMemb w dst base) (.faults done) next s = some (next + 5, _) :=
      makeReadFunc_faults (e := .movzx) (s := called s [s.regs base, s.regs dst] next) (fun _ _ ↦ rfl) rfl
    exact ⟨_, hr, run_unspillRegsOnFailure _ _ (w := [s.regs base, s.regs dst]) rfl rfl⟩
  | fxsave64 base =>
    have hr : returned env (.fxsave64 base) (.faults done) next s = some (next + 5, _) :=
      makeMemInstrFunc_faults (e := .fxsave64) (s := called s [s.regs base] next) (fun _ _ ↦ rfl) rfl
    exact ⟨_, hr, run_unspillRegsOnFailure _ _ (w := [s.regs base]) rfl rfl⟩
  | fxrstor64 base =>
    have hr : returned env (.fxrstor64 base) (.faults done) next s = some (next + 5, _) :=
      makeMemInstrFunc_faults (e := .fxrstor64) (s := called s [s.regs base] next) (fun _ _ ↦ rfl) rfl
    exact ⟨_, hr, run_unspillRegsOnFailure _ _ (w := [s.regs base]) rfl rfl⟩
  | prefetcht0 base =>
    have hr : returned env (.prefetcht0 base) (.faults done) next s = some (next + 5, _) :=
      makeMemInstrFunc_faults (e := .prefetcht0) (s := called s [s.regs base] next) (fun _ _ ↦ rfl) rfl
    exact ⟨_, hr, run_unspillRegsOnFailure _ _ (w := [s.regs base]) rfl rfl⟩
  | movs order =>
    have hr : returned env (.movs order) (.faults done) next s = some (next + 5, _) :=
      makeInstrFunc_faults (e := .repMovs (stringBytes order)) (s := called s [] next) rfl
    exact ⟨_, hr, run_unspillRegsOnFailure _ _ (w := []) rfl rfl⟩
  | rdmsr =>
    have hr : returned env .rdmsr (.faults done) next s = some (next + 5, _) :=
      makeInstrFunc_faults (e := .rdmsr) (s := called s [] next) rfl
    exact ⟨_, hr, run_unspillRegsOnFailure _ _ (w := []) rfl rfl⟩
  | wrmsr =>
    have hr : returned env .wrmsr (.faults done) next s = some (next + 5, _) :=
      makeInstrFunc_faults (e := .wrmsr) (s := called s [] next) rfl
    exact ⟨_, hr, run_unspillRegsOnFailure _ _ (w := []) rfl rfl⟩
  | fwait =>
    have hr : returned env .fwait (.faults done) next s = some (next + 5, _) :=
      makeInstrFunc_faults (e := .fwait) (s := called s [] next) rfl
    exact ⟨_, hr, run_unspillRegsOnFailure _ _ (w := []) rfl rfl⟩

/-- A register after `RestoreRegsOnFailure`. -/
def restored (i : ExceptionalCFI) (s : Cpu F) (g : Gpr) : BitVec 64 :=
  if i.isRestartable && i.isRw g then (s.regs (.vr (i.savedRegs g)) >>> 32) <<< 32
  else s.regs (.vr (i.savedRegs g))

theorem bswap_write_bswap (x y : BitVec 64) :
    Asm.bswap (Asm.Width.w32.write x (Asm.bswap y)) = (y >>> 32) <<< 32 := by
  apply BitVec.eq_of_getLsbD_eq
  intro n hn
  rw [Asm.getLsbD_bswap _ hn, Asm.getLsbD_write_w32, Asm.getLsbD_bswap _ (by omega),
    BitVec.getLsbD_shiftLeft, BitVec.getLsbD_ushiftRight]
  rcases lt_or_ge n 32 with h | h
  · simp [h, show ¬8 * (7 - n / 8) + n % 8 < 32 by omega]
  · have hback : 8 * (7 - (8 * (7 - n / 8) + n % 8) / 8) + (8 * (7 - n / 8) + n % 8) % 8 = n := by
      omega
    rw [hback]
    simp [hn, show 8 * (7 - n / 8) + n % 8 < 32 by omega, show ¬n < 32 by omega,
      Nat.add_sub_cancel' h]

variable (env) in
theorem run_restoreReg (i : ExceptionalCFI) (g : Gpr) (s : Cpu F) :
    ∃ t, StackMachine.run env.toEnv (i.restoreReg g) s = some t ∧ t.stack = s.stack ∧
      t.regs (.gpr g) = restored i s g ∧ (∀ h, h ≠ g → t.regs (.gpr h) = s.regs (.gpr h)) ∧
      ∀ n, n ≠ i.savedRegs g → t.regs (.vr n) = s.regs (.vr n) := by
  by_cases hrw : i.isRestartable && i.isRw g
  · have hcode : i.restoreReg g = [.bswap (.gpr g), .bswap (.vr (i.savedRegs g)),
        .mov .w32 (.gpr g) (.vr (i.savedRegs g)), .bswap (.gpr g)] := if_pos hrw
    refine ⟨_, (congrArg (fun is ↦ StackMachine.run env.toEnv is s) hcode).trans rfl, ?_, ?_,
      fun h hh ↦ ?_, fun n hn ↦ ?_⟩
    · rfl
    · rw [restored, if_pos hrw, ← bswap_write_bswap (Asm.bswap (s.regs (.gpr g)))]
      simp [State.set]
    · simp [State.set, hh]
    · simp [State.set, hn]
  · have hcode : i.restoreReg g = [.mov .w64 (.gpr g) (.vr (i.savedRegs g))] := if_neg hrw
    refine ⟨_, (congrArg (fun is ↦ StackMachine.run env.toEnv is s) hcode).trans rfl, ?_, ?_,
      fun h hh ↦ ?_, fun n _ ↦ ?_⟩
    · rfl
    · rw [restored, if_neg hrw]
      simp [State.set, Asm.Width.write]
    · simp [State.set, hh]
    · simp [State.set]

variable (env) in
theorem run_restoreRegs (i : ExceptionalCFI) {l : List Gpr} (hl : l.Nodup) (s : Cpu F) :
    ∃ t, StackMachine.run env.toEnv (l.flatMap i.restoreReg) s = some t ∧ t.stack = s.stack ∧
      ∀ g, t.regs (.gpr g) = if g ∈ l then restored i s g else s.regs (.gpr g) := by
  induction l generalizing s with
  | nil => exact ⟨s, rfl, rfl, fun _ ↦ (if_neg List.not_mem_nil).symm⟩
  | cons g l ih =>
    obtain ⟨hg, hl⟩ := List.nodup_cons.mp hl
    obtain ⟨t, ht, hstack, hself, hother, hsaved⟩ := run_restoreReg env i g s
    obtain ⟨u, hu, hstack', hu'⟩ := ih hl t
    refine ⟨u, ?_, hstack'.trans hstack, fun h ↦ ?_⟩
    · rw [List.flatMap_cons, run_append_of_run ht, hu]
    · rw [hu']
      by_cases hmem : h ∈ l
      · have hne : h ≠ g := ne_of_mem_of_not_mem hmem hg
        have hsame := hsaved _ (i.savedRegs_injective.ne hne)
        rw [if_pos hmem, if_pos (List.mem_cons_of_mem g hmem), restored, restored, hsame]
      · rw [if_neg hmem]
        rcases eq_or_ne h g with rfl | hne
        · rw [if_pos List.mem_cons_self, hself]
        · rw [if_neg (by simp [hne, hmem]), hother h hne]

variable (env) in
theorem process_faults (i : ExceptionalCFI) (done next : BitVec 64) (s : Cpu F) :
    ∃ t, processExceptionalCFI env i (.faults done) next s = some t ∧
      t.stack = (interrupted i done s).stack ∧
      ∀ g, i.usedRegs g → t.regs (.gpr g) = restored i (interrupted i done s) g := by
  obtain ⟨r, hr, hunspill⟩ := returned_faults env i done next s
  obtain ⟨t, ht, hstack, hregs⟩ := run_restoreRegs env i
    (List.Nodup.filter i.usedRegs (List.nodup_finRange 15)) (interrupted i done s)
  refine ⟨t, ?_, hstack, fun g hg ↦ ?_⟩
  · have hne : next + 5 ≠ next := by simp
    rw [processExceptionalCFI, hr, Option.bind_some]
    simp only [if_neg hne, if_true]
    rw [run_append_of_run hunspill]
    exact ht
  · rw [hregs, if_pos (by simp [hg])]

end Faults

section Recovers

variable {F : Type} {env : Env F}

theorem set_eq_set_iff {s : Cpu F} {r : Reg} {x y : BitVec 64} :
    s.set r x = s.set r y ↔ x = y := by
  constructor
  · intro h
    have hr := congrArg (fun t : Cpu F ↦ t.regs r) h
    simpa [State.set] using hr
  · rintro rfl
    rfl

/-- A repeated move counts `RCX` down to null and a single one leaves it alone, and a move of
nothing leaves the addresses alone. -/
theorem repeatString_ne_moveString (order : Fin 4) (s : Cpu F) :
    repeatString (stringBytes order) (s.regs rcx) s ≠ moveString (stringBytes order) 1 s := by
  intro h
  have hcx := congrArg (fun t : Cpu F ↦ t.regs rcx) h
  have hdi := congrArg (fun t : Cpu F ↦ t.regs rdi) h
  have hcx' : s.regs (.gpr 1) = 0 := by
    simpa [repeatString, moveString, State.set, rcx, rdi, rsi, eq_comm] using hcx
  have hstep : stringStep s (stringBytes order) = 0 := by
    simpa [repeatString, moveString, State.set, rcx, rdi, rsi, hcx'] using hdi
  revert hstep
  rw [stringStep]
  fin_cases order <;> split_ifs <;> decide

theorem emulated_eq_original_iff (i : ExceptionalCFI) (s : Cpu F) :
    emulated env i s = original env i s ↔ Suits env i s := by
  simp only [emulated, original, Suits]
  cases i.form with
  | xchgMembGpr8 base reg isHigh =>
    cases isHigh with
    | false => simp [bytePart]
    | true => simp [bytePart, set_eq_set_iff, write_low_eq_write_high_iff]
  | movGpr8Memb dst isHigh base =>
    cases isHigh with
    | false => simp [bytePart, set_eq_set_iff, write_low_eq_iff]
    | true => simp [bytePart, set_eq_set_iff, write_low_eq_write_high_iff]
  | movGprvMemv w dst base =>
    cases w with
    | w16 => simp [set_eq_set_iff, write_w16_eq_iff]
    | w32 => simp [Asm.Width.write]
    | w64 => simp [Asm.Width.write]
  | movzxGprvMemb w dst base =>
    cases w with
    | w16 => simp [set_eq_set_iff, setWidth_byte_eq_write_w16_iff]
    | w32 => simp [Asm.Width.write]
    | w64 => simp [Asm.Width.write]
  | movs order =>
    by_cases hr : i.isRestartable
    · simp [hr]
    · simpa [hr] using repeatString_ne_moveString order s
  | _ => simp

theorem isPush_of_mem_pushOperands {form : ExceptionalForm} {j : Instr Reg}
    (h : j ∈ pushOperands form) : j.IsPush := by
  cases form <;> simp only [pushOperands, List.mem_cons, or_false, List.not_mem_nil] at h <;>
    rcases h with rfl | rfl <;> trivial

theorem unwinds (i : ExceptionalCFI) (next : BitVec 64) (s : Cpu F) : Unwinds env i next s := by
  intro n hn
  obtain ⟨r, hr, hlen, -⟩ := returned_completes env i next s
  have hpush (j) (hj : j ∈ (pushOperands i.form).take (numPushedOps i.form - n)) : j.IsPush :=
    isPush_of_mem_pushOperands (List.mem_of_mem_take hj)
  have hpop (j) (hj : j ∈ (unspillRegsOnSuccess i.form).take n) : j.IsPop := by
    obtain ⟨k, -, rfl⟩ := List.mem_map.mp (List.mem_of_mem_take hj)
    rw [unspillReg]
    cases popOnSuccess i.form k with
    | none => exact rfl
    | some reg => trivial
  obtain ⟨t, ht, htlen⟩ := run_of_isPush hpush s
  have hcount : ((unspillRegsOnSuccess i.form).take n).length = n := by
    simpa [unspillRegsOnSuccess] using hn
  obtain ⟨u, hu, hulen⟩ := run_of_isPop hpop r (by omega)
  refine ⟨r, t, u, hr, ht, hu, ?_⟩
  rw [hulen, htlen, hlen, hcount, List.length_take, ← numPushedOps]
  omega

theorem recovers_completes_iff (i : ExceptionalCFI) (next : BitVec 64) (s : Cpu F) :
    Recovers env i .completes next s ↔ Suits env i s := by
  obtain ⟨r, hr, -, hunspill⟩ := returned_completes env i next s
  have hprocess : processExceptionalCFI env i .completes next s = some (emulated env i s) := by
    rw [processExceptionalCFI, hr, Option.bind_some]
    simp only [if_true]
    exact hunspill
  rw [Recovers, hprocess, Option.some_inj, emulated_eq_original_iff]
  exact and_iff_left (unwinds i next s)

theorem joinHalves_eq_iff (x y : BitVec 64) :
    (y >>> 32) <<< 32 = joinHalves y x ↔ x.setWidth 32 = 0#32 := by
  constructor
  · intro h
    apply BitVec.eq_of_getLsbD_eq
    intro n hn
    have hbit := congrArg (·.getLsbD n) h
    have hn' : n < 64 := by omega
    rw [BitVec.getLsbD_setWidth, BitVec.getLsbD_eq_getElem hn']
    simpa [joinHalves, hn, hn'] using hbit
  · intro h
    rw [joinHalves, h]
    simp

theorem eq_joinHalves_iff (x y : BitVec 64) :
    y = joinHalves y x ↔ x.setWidth 32 = y.setWidth 32 := by
  have hbits (n : ℕ) (hn : n < 64) : (joinHalves y x).getLsbD n =
      if n < 32 then x.getLsbD n else y.getLsbD n := by
    rcases lt_or_ge n 32 with h | h
    · simp [joinHalves, h, hn]
    · simp [joinHalves, h, hn, show ¬n < 32 by omega, Nat.add_sub_cancel' h]
  constructor
  · intro h
    apply BitVec.eq_of_getLsbD_eq
    intro n hn
    have hbit := congrArg (·.getLsbD n) h
    simp only [hbits n (by omega), if_pos hn] at hbit
    simp [BitVec.getLsbD_setWidth, hbit]
  · intro h
    apply BitVec.eq_of_getLsbD_eq
    intro n hn
    rw [hbits n hn]
    split_ifs with hlow
    · have hbit := congrArg (·.getLsbD n) h
      simpa [BitVec.getLsbD_setWidth, hlow, eq_comm] using hbit
    · rfl

theorem isRw_iff {i : ExceptionalCFI} (h : i.isRestartable) (g : Gpr) :
    i.isRw g ↔ Reg.gpr g = rcx := by
  have hops : i.registerOperands = [⟨rcx, .rw⟩] := by
    have hrestart := h
    simp only [ExceptionalCFI.isRestartable, ExceptionalCFI.hasPrefixRep,
      ExceptionalCFI.hasPrefixRepne] at hrestart
    rw [ExceptionalCFI.registerOperands]
    cases hform : i.form with
    | movs order => exact if_pos h
    | _ => simp [hform, isString] at hrestart
  simp [ExceptionalCFI.isRw, hops, Action.isRead, Action.isWrite, eq_comm]

theorem interrupted_vr (i : ExceptionalCFI) (done : BitVec 64) (s : Cpu F) (n : ℕ) :
    (interrupted i done s).regs (.vr n) = s.regs (.vr n) := by
  rw [interrupted]
  cases i.form <;> rfl

theorem interrupted_stack (i : ExceptionalCFI) (done : BitVec 64) (s : Cpu F) :
    (interrupted i done s).stack = s.stack := by
  rw [interrupted]
  cases i.form <;> rfl

theorem recovers_faults_iff (i : ExceptionalCFI) (done next : BitVec 64) (s : Cpu F) :
    Recovers env i (.faults done) next s ↔ LowHalvesSuit i done s := by
  obtain ⟨t, ht, hstack, hregs⟩ := process_faults env i done next s
  rw [interrupted_stack] at hstack
  -- a register of a repeated instruction is restored in the wrong way, or not at all
  have hjoin (g : Gpr) (hrestart : i.isRestartable) :
      restored i (interrupted i done s) g = joinHalves (s.regs (.vr (i.savedRegs g)))
          ((interrupted i done s).regs (.gpr g)) ↔
        ((interrupted i done s).regs (.gpr g)).setWidth 32 =
          if .gpr g = rcx then 0#32 else (s.regs (.vr (i.savedRegs g))).setWidth 32 := by
    have hrw := isRw_iff hrestart g
    rw [restored, interrupted_vr, hrestart, Bool.true_and]
    by_cases hrcx : Reg.gpr g = rcx
    · rw [if_pos (hrw.mpr hrcx), if_pos hrcx]
      exact joinHalves_eq_iff _ _
    · rw [if_neg fun h ↦ hrcx (hrw.mp h), if_neg hrcx]
      exact eq_joinHalves_iff _ _
  constructor
  · rintro ⟨t', ht', -, hregs'⟩ g hg hrestart hmem
    obtain rfl : t = t' := Option.some.inj (ht.symm.trans ht')
    have hval := (hregs g hg).symm.trans (hregs' g hg)
    rw [if_pos ⟨hrestart, hmem⟩] at hval
    exact (hjoin g hrestart).mp hval
  · intro h
    refine ⟨t, ht, hstack, fun g hg ↦ ?_⟩
    rw [hregs g hg]
    split_ifs with hrw
    · exact (hjoin g hrw.1).mpr (h g hg hrw.1 hrw.2)
    · have hnot : ¬(i.isRestartable && i.isRw g) := by
        intro hand
        obtain ⟨hrestart, hrw'⟩ := Bool.and_eq_true_iff.mp hand
        refine hrw ⟨hrestart, ?_⟩
        rw [(isRw_iff hrestart g).mp hrw']
        exact List.mem_cons_self
      rw [restored, if_neg hnot, interrupted_vr]

/-- Recovery is right on either path if and only if what it does to half registers does not
matter. -/
theorem recovers_iff (env : Env F) (i : ExceptionalCFI) (o : Outcome) (next : BitVec 64)
    (s : Cpu F) :
    Recovers env i o next s ↔
      match o with
      | .completes => Suits env i s
      | .faults done => LowHalvesSuit i done s := by
  cases o with
  | completes => exact recovers_completes_iff i next s
  | faults done => exact recovers_faults_iff i done next s

end Recovers

/-- `REP MOVSB` of one byte faults at once, at an address whose low half is not null. -/
def copyOneByte : ExceptionalCFI where
  form := .movs 0
  rep := true
  repne := false
  usedRegs := fun g ↦ Reg.gpr g = rcx || Reg.gpr g = rsi || Reg.gpr g = rdi
  savedRegs := fun g ↦ g
  savedRegs_injective := Fin.val_injective

theorem copyOneByte_not_recovers :
    let env : Env Unit := ⟨⟨fun _ ↦ 0, fun _ _ ↦ 0⟩, fun _ ↦ 0, fun _ ↦ ()⟩
    let s : Cpu Unit := ⟨fun _ ↦ 1, 0, [], ⟨fun _ ↦ 0, ()⟩⟩
    ¬Recovers env copyOneByte (.faults 0) 0 s := by
  intro env s h
  have hnull := (recovers_faults_iff copyOneByte 0 0 s).mp h 1 rfl rfl List.mem_cons_self
  revert hnull
  decide

end Granary.Arch.Exception
