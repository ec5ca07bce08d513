import Mathlib.Data.List.Basic
import Mathlib.Logic.Function.Basic
import Mathlib.Tactic

namespace Granary.Arch.Call

open Function

inductive Gpr where
  | rax | rcx | rdx | rbx | rbp | rsi | rdi | r8 | r9 | r10 | r11 | r12 | r13 | r14 | r15
  deriving DecidableEq, Repr

inductive Width where
  | byte | word | doubleWord | quadWord
  deriving DecidableEq, Repr

def Width.bits : Width → ℕ
  | byte => 8
  | word => 16
  | doubleWord => 32
  | quadWord => 64

/-- A register that an operand can name: an architectural or a virtual one. -/
inductive Reg where
  | rsp
  | gpr (r : Gpr)
  | vr (n : ℕ)
  deriving DecidableEq, Repr

structure MemAddress where
  base : Option Reg
  index : Option Reg
  scale : BitVec 64
  disp : BitVec 64
  deriving DecidableEq, Repr

/-- The `high` registers are `AH`, `BH`, `CH` and `DH`. -/
inductive Operand where
  | mem (address : MemAddress) (width : Width)
  | imm (value : BitVec 64) (width : Width)
  | reg (r : Reg) (width : Width)
  | high (r : Gpr)
  deriving DecidableEq, Repr

structure Stack where
  rsp : BitVec 64
  values : List (BitVec 64)

namespace Stack

def push (s : Stack) (v : BitVec 64) : Stack :=
  ⟨s.rsp - 8, v :: s.values⟩

def pop (s : Stack) : Option (BitVec 64 × Stack) :=
  match s.values with
  | [] => none
  | v :: values => some (v, ⟨s.rsp + 8, values⟩)

theorem pop_push (s : Stack) (v : BitVec 64) : (s.push v).pop = some (v, s) := by
  simp only [pop, push, BitVec.sub_add_cancel]

end Stack

/-- `slot` is where the save and restore annotations keep a register, and `seen` lists the registers
of each entry to the callee. -/
structure State where
  gpr : Gpr → BitVec 64
  vr : ℕ → BitVec 64
  slot : Gpr → BitVec 64
  mem : BitVec 64 → BitVec 64
  flags : BitVec 64
  stack : Stack
  privateStack : Stack
  seen : List (Gpr → BitVec 64)

def calleeSaved : List Gpr :=
  [.rbx, .rbp, .r12, .r13, .r14, .r15]

/-- A function of the client. It may do anything with the memory, the flags and the registers that
its caller is to save. -/
structure Callee where
  gpr : State → Gpr → BitVec 64
  mem : State → BitVec 64 → BitVec 64
  flags : State → BitVec 64
  preserves (s : State) {r : Gpr} : r ∈ calleeSaved → gpr s r = s.gpr r

def Callee.run (c : Callee) (s : State) : State :=
  { s with
    gpr := c.gpr s
    mem := c.mem s
    flags := c.flags s
    seen := s.seen ++ [s.gpr] }

inductive WrapperInstr where
  | pushfq
  | cli
  | xchgPrivateStack
  | push (r : Gpr)
  | call
  | pop (r : Gpr)
  | popfq
  | ret
  deriving DecidableEq, Repr

def encodeIf (p : Prop) [Decidable p] (i : WrapperInstr) : List WrapperInstr :=
  if p then [i] else []

def generateInlineCallCode (isKernel : Bool) (numArgs : ℕ) : List WrapperInstr :=
  List.flatten [
    [.pushfq],
    encodeIf (isKernel = true) .cli,
    encodeIf (isKernel = true) .xchgPrivateStack,
    [.push .rax],
    encodeIf (4 > numArgs) (.push .rcx),
    encodeIf (3 > numArgs) (.push .rdx),
    [.push .rbx, .push .rbp],
    encodeIf (2 > numArgs) (.push .rsi),
    encodeIf (1 > numArgs) (.push .rdi),
    encodeIf (5 > numArgs) (.push .r8),
    encodeIf (6 > numArgs) (.push .r9),
    [.push .r10, .push .r11, .push .r12, .push .r13, .push .r14, .push .r15],
    [.call],
    [.pop .r15, .pop .r14, .pop .r13, .pop .r12, .pop .r11, .pop .r10],
    encodeIf (6 > numArgs) (.pop .r9),
    encodeIf (5 > numArgs) (.pop .r8),
    encodeIf (1 > numArgs) (.pop .rdi),
    encodeIf (2 > numArgs) (.pop .rsi),
    [.pop .rbp, .pop .rbx],
    encodeIf (3 > numArgs) (.pop .rdx),
    encodeIf (4 > numArgs) (.pop .rcx),
    [.pop .rax],
    encodeIf (isKernel = true) .xchgPrivateStack,
    [.popfq, .ret]]

def WrapperInstr.step (c : Callee) (s : State) : WrapperInstr → Option State
  | pushfq => some { s with stack := s.stack.push s.flags }
  | cli => some { s with flags := s.flags &&& ~~~0x200 }
  | xchgPrivateStack => some { s with stack := s.privateStack, privateStack := s.stack }
  | push r => some { s with stack := s.stack.push (s.gpr r) }
  | call => some (c.run s)
  | pop r => s.stack.pop.map fun p ↦ { s with gpr := update s.gpr r p.1, stack := p.2 }
  | popfq => s.stack.pop.map fun p ↦ { s with flags := p.1, stack := p.2 }
  | ret => s.stack.pop.map fun p ↦ { s with stack := p.2 }

def runWrapper (c : Callee) (code : List WrapperInstr) (s : State) : Option State :=
  code.foldlM (WrapperInstr.step c) s

inductive SiteInstr where
  | saveRegister (r : Gpr)
  | restoreRegister (r : Gpr)
  | movMem (dst : ℕ) (width : Width) (src : MemAddress)
  | movImm (dst : ℕ) (value : BitVec 64)
  | movReg (dst : ℕ) (src : Reg)
  | movArg (dst : Gpr) (src : ℕ)
  | reviveRegisters (rs : List Gpr)
  | condLeaveNativeStack
  | callNear (wrapped : List WrapperInstr)
  | condEnterNativeStack
  deriving DecidableEq, Repr

def MemAddress.regs (m : MemAddress) : List Reg :=
  m.base.toList ++ m.index.toList

def Operand.regs : Operand → List Reg
  | mem address _ => address.regs
  | imm _ _ => []
  | reg r _ => [r]
  | high r => [.gpr r]

/-- An inline call of a tool. The argument registers are virtual registers of the block, which no
operand of a tool can name. -/
structure InlineFunctionCall where
  targetAppPC : ℕ
  numArgs : ℕ
  args : Fin 6 → Operand
  argRegs : Fin 6 → ℕ
  numArgs_le : numArgs ≤ 6
  argRegs_injective : Injective argRegs
  fresh (i j : Fin 6) : Reg.vr (argRegs j) ∉ (args i).regs

def copyOperand (dst : ℕ) : Operand → SiteInstr
  | .mem address width => .movMem dst width address
  | .imm value width =>
    if width.bits ≤ 32 then .movImm dst ((value.setWidth 32).setWidth 64) else .movImm dst value
  | .reg r _ => .movReg dst r
  | .high r => .movReg dst (.gpr r)

def argGpr : Fin 6 → Gpr
  | 0 => .rdi
  | 1 => .rsi
  | 2 => .rdx
  | 3 => .rcx
  | 4 => .r8
  | 5 => .r9

def usedArgs (call : InlineFunctionCall) : List (Fin 6) :=
  [0, 1, 2, 3, 4, 5].filter fun i : Fin 6 ↦ i < call.numArgs

def extendFragmentWithInlineCall (wrapped : List WrapperInstr) (call : InlineFunctionCall) :
    List SiteInstr :=
  (usedArgs call).map (fun i ↦ .saveRegister (argGpr i)) ++
  (usedArgs call).map (fun i ↦ copyOperand (call.argRegs i) (call.args i)) ++
  (usedArgs call).map (fun i ↦ .movArg (argGpr i) (call.argRegs i)) ++
  (if call.numArgs ≠ 0 then [.reviveRegisters ((usedArgs call).map argGpr)] else []) ++
  [.condLeaveNativeStack, .callNear wrapped, .condEnterNativeStack] ++
  (usedArgs call).reverse.map (fun i ↦ .restoreRegister (argGpr i))

namespace State

def readReg (s : State) : Reg → BitVec 64
  | .rsp => s.stack.rsp
  | .gpr r => s.gpr r
  | .vr n => s.vr n

def address (s : State) (m : MemAddress) : BitVec 64 :=
  (m.base.map s.readReg).getD 0 + (m.index.map s.readReg).getD 0 * m.scale + m.disp

end State

/-- A write of a byte or of a word leaves the other bytes of a register alone, and one of a double
word clears them. -/
def merge (old new : BitVec 64) : Width → BitVec 64
  | .byte => old &&& ~~~0xff ||| new &&& 0xff
  | .word => old &&& ~~~0xffff ||| new &&& 0xffff
  | .doubleWord => new &&& 0xffffffff
  | .quadWord => new

/-- The annotations about the stack and about live registers are hints to later passes. -/
def SiteInstr.step (c : Callee) (s : State) : SiteInstr → Option State
  | saveRegister r => some { s with slot := update s.slot r (s.gpr r) }
  | restoreRegister r => some { s with gpr := update s.gpr r (s.slot r) }
  | movMem dst width src =>
    some { s with vr := update s.vr dst (merge (s.vr dst) (s.mem (s.address src)) width) }
  | movImm dst value => some { s with vr := update s.vr dst value }
  | movReg dst src => some { s with vr := update s.vr dst (s.readReg src) }
  | movArg dst src => some { s with gpr := update s.gpr dst (s.vr src) }
  | reviveRegisters _ => some s
  | condLeaveNativeStack => some s
  | callNear wrapped =>
    -- the value of the return address does not matter
    runWrapper c wrapped { s with stack := s.stack.push 0 }
  | condEnterNativeStack => some s

def runSite (c : Callee) (code : List SiteInstr) (s : State) : Option State :=
  code.foldlM (SiteInstr.step c) s

abbrev Context := ℕ → Option (List WrapperInstr)

def inlineCallback (isKernel : Bool) (context : Context) (call : InlineFunctionCall) :
    List WrapperInstr × Context :=
  match context call.targetAppPC with
  | some callback => (callback, context)
  | none =>
    let callback := generateInlineCallCode isKernel call.numArgs
    (callback, update context call.targetAppPC (some callback))

def compileCalls (isKernel : Bool) :
    Context → List InlineFunctionCall → List (InlineFunctionCall × List SiteInstr)
  | _, [] => []
  | context, call :: calls =>
    let callback := inlineCallback isKernel context call
    (call, extendFragmentWithInlineCall callback.1 call) ::
      compileCalls isKernel callback.2 calls

namespace Operand

def width : Operand → Width
  | mem _ width | imm _ width | reg _ width => width
  | high _ => .byte

def value (s : State) : Operand → BitVec 64
  | mem address _ => s.mem (s.address address)
  | imm value _ => value
  | reg r _ => s.readReg r
  | high r => s.gpr r >>> 8

end Operand

def Passes (o : Operand) (s : State) (v : BitVec 64) : Prop :=
  v.setWidth o.width.bits = (o.value s).setWidth o.width.bits

/-- Whatever the callee does, it gets its arguments, and the registers and the stacks are afterwards
as they were. -/
def Correct (call : InlineFunctionCall) (code : List SiteInstr) : Prop :=
  ∀ (c : Callee) (s : State), ∃ s' entry, runSite c code s = some s' ∧
    s'.gpr = s.gpr ∧ s'.stack = s.stack ∧ s'.privateStack = s.privateStack ∧
    s'.seen = s.seen ++ [entry] ∧
    ∀ i : Fin 6, i < call.numArgs → Passes (call.args i) s (entry (argGpr i))

section Wrapper

variable {c : Callee} {s t : State}

/-- The registers that a wrapper for so many arguments saves. -/
def savedRegs (numArgs : ℕ) : List Gpr :=
  List.flatten [
    [.rax],
    if 4 > numArgs then [.rcx] else [],
    if 3 > numArgs then [.rdx] else [],
    [.rbx, .rbp],
    if 2 > numArgs then [.rsi] else [],
    if 1 > numArgs then [.rdi] else [],
    if 5 > numArgs then [.r8] else [],
    if 6 > numArgs then [.r9] else [],
    [.r10, .r11, .r12, .r13, .r14, .r15]]

theorem map_encodeIf (p : Prop) [Decidable p] (f : Gpr → WrapperInstr) (r : Gpr) :
    (if p then [r] else []).map f = encodeIf p (f r) := by
  unfold encodeIf
  split_ifs <;> rfl

theorem reverse_ite (p : Prop) [Decidable p] (r : Gpr) :
    (if p then [r] else []).reverse = if p then [r] else [] := by
  split_ifs <;> rfl

theorem generateInlineCallCode_eq (isKernel : Bool) (numArgs : ℕ) :
    generateInlineCallCode isKernel numArgs =
      (.pushfq :: encodeIf (isKernel = true) .cli ++
        encodeIf (isKernel = true) .xchgPrivateStack) ++
      ((savedRegs numArgs).map .push ++ .call :: (savedRegs numArgs).reverse.map .pop) ++
      (encodeIf (isKernel = true) .xchgPrivateStack ++ [.popfq, .ret]) := by
  simp only [generateInlineCallCode, savedRegs, List.flatten_cons, List.flatten_nil,
    List.reverse_append, List.reverse_cons, List.reverse_nil, reverse_ite, List.map_append,
    map_encodeIf, List.map_cons, List.map_nil, List.append_assoc, List.cons_append,
    List.nil_append, List.append_nil]

def pushRegs (g : Gpr → BitVec 64) (rs : List Gpr) (st : Stack) : Stack :=
  rs.foldl (fun st r ↦ st.push (g r)) st

theorem runWrapper_append (code code' : List WrapperInstr) :
    runWrapper c (code ++ code') s = (runWrapper c code s).bind (runWrapper c code') := by
  rw [runWrapper, List.foldlM_append]
  rfl

theorem runWrapper_pushes (rs : List Gpr) :
    runWrapper c (rs.map .push) s = some { s with stack := pushRegs s.gpr rs s.stack } := by
  induction rs generalizing s with
  | nil => rfl
  | cons r rs ih =>
    have h := ih (s := { s with stack := s.stack.push (s.gpr r) })
    exact h

/-- Popping in the opposite order brings back the registers that were pushed, and no others. -/
theorem runWrapper_pops (g : Gpr → BitVec 64) (rs : List Gpr) (st : Stack)
    (h : s.stack = pushRegs g rs st) :
    runWrapper c (rs.reverse.map .pop) s =
      some { s with gpr := fun r ↦ if r ∈ rs then g r else s.gpr r, stack := st } := by
  induction rs using List.reverseRecOn generalizing s with
  | nil =>
    simp only [pushRegs, List.foldl_nil] at h
    simp [runWrapper, ← h]
  | append_singleton rs r ih =>
    have hstack : s.stack = (pushRegs g rs st).push (g r) := by
      rw [h, pushRegs, List.foldl_append]
      rfl
    have hpop : WrapperInstr.step c s (.pop r) =
        some { s with gpr := update s.gpr r (g r), stack := pushRegs g rs st } := by
      simp only [WrapperInstr.step, hstack, Stack.pop_push, Option.map_some]
    rw [List.reverse_append, List.reverse_singleton, List.singleton_append, List.map_cons,
      runWrapper, List.foldlM_cons, hpop]
    refine (ih rfl).trans ?_
    congr 2
    funext q
    by_cases hq : q ∈ rs
    · simp [hq]
    · by_cases hqr : q = r
      · simp [hqr]
      · simp [hq, hqr]

theorem runWrapper_return_user (u : State) (flags : BitVec 64) (st : Stack)
    (h : u.stack = (st.push 0).push flags) :
    runWrapper c (encodeIf (false = true) .xchgPrivateStack ++ [.popfq, .ret]) u =
      some { u with flags := flags, stack := st } := by
  have hpop : WrapperInstr.step c u .popfq =
      some { u with flags := flags, stack := st.push 0 } := by
    simp only [WrapperInstr.step, h, Stack.pop_push, Option.map_some]
  have hret : WrapperInstr.step c { u with flags := flags, stack := st.push 0 } .ret =
      some { u with flags := flags, stack := st } := by
    simp only [WrapperInstr.step, Stack.pop_push, Option.map_some]
  change (List.foldlM (WrapperInstr.step c) u [.popfq, .ret]) = _
  simp only [List.foldlM_cons, List.foldlM_nil, hpop, hret, Option.bind_eq_bind, Option.bind_some]
  rfl

theorem runWrapper_return_kernel (u : State) (flags : BitVec 64) (st : Stack)
    (h : u.privateStack = (st.push 0).push flags) :
    runWrapper c (encodeIf (true = true) .xchgPrivateStack ++ [.popfq, .ret]) u =
      some { u with flags := flags, stack := st, privateStack := u.stack } :=
  runWrapper_return_user { u with stack := u.privateStack, privateStack := u.stack } flags st h

/-- The state in which the callee is entered, with the registers of the caller saved. -/
def entered (numArgs : ℕ) (s : State) : State :=
  { s with stack := pushRegs s.gpr (savedRegs numArgs) s.stack }

theorem runWrapper_saved (numArgs : ℕ) (s : State) :
    runWrapper c ((savedRegs numArgs).map .push ++ .call :: (savedRegs numArgs).reverse.map .pop)
      s = some { c.run (entered numArgs s) with
        gpr := fun r ↦ if r ∈ savedRegs numArgs then s.gpr r else c.gpr (entered numArgs s) r
        stack := s.stack } := by
  rw [runWrapper_append, runWrapper_pushes, Option.bind_some]
  exact runWrapper_pops (s := c.run (entered numArgs s)) s.gpr (savedRegs numArgs) s.stack rfl

/-- What calling a wrapper does: the callee sees the registers as they are, and what the wrapper did
not save is as the callee left it. -/
theorem runWrapper_generate (isKernel : Bool) (numArgs : ℕ) (c : Callee) (s : State) :
    ∃ s' s₁, runWrapper c (generateInlineCallCode isKernel numArgs)
        { s with stack := s.stack.push 0 } = some s' ∧
      s₁.gpr = s.gpr ∧
      s'.gpr = (fun r ↦ if r ∈ savedRegs numArgs then s.gpr r else c.gpr s₁ r) ∧
      s'.slot = s.slot ∧ s'.stack = s.stack ∧ s'.privateStack = s.privateStack ∧
      s'.seen = s.seen ++ [s.gpr] := by
  rw [generateInlineCallCode_eq, runWrapper_append, runWrapper_append]
  cases isKernel with
  | false =>
    let u : State := { s with stack := (s.stack.push 0).push s.flags }
    have hpre : runWrapper c (.pushfq :: encodeIf (false = true) .cli ++
        encodeIf (false = true) .xchgPrivateStack) { s with stack := s.stack.push 0 } =
        some u := rfl
    rw [hpre, Option.bind_some, runWrapper_saved, Option.bind_some,
      runWrapper_return_user _ s.flags s.stack rfl]
    exact ⟨_, entered numArgs u, rfl, rfl, rfl, rfl, rfl, rfl, rfl⟩
  | true =>
    let u : State := { s with
      flags := s.flags &&& ~~~0x200
      stack := s.privateStack
      privateStack := (s.stack.push 0).push s.flags }
    have hpre : runWrapper c (.pushfq :: encodeIf (true = true) .cli ++
        encodeIf (true = true) .xchgPrivateStack) { s with stack := s.stack.push 0 } =
        some u := rfl
    rw [hpre, Option.bind_some, runWrapper_saved, Option.bind_some,
      runWrapper_return_kernel _ s.flags s.stack rfl]
    exact ⟨_, entered numArgs u, rfl, rfl, rfl, rfl, rfl, rfl, rfl⟩

end Wrapper

section Site

variable {c : Callee} {s : State}

/-- Updates at different places: each place written holds its own value, and the others hold what
they did. -/
theorem foldl_update {ι κ α : Type*} [DecidableEq κ] {key : ι → κ} (hkey : Injective key)
    (val : ι → α) (is : List ι) (f : κ → α) :
    (∀ i ∈ is, is.foldl (fun f i ↦ update f (key i) (val i)) f (key i) = val i) ∧
      ∀ k, k ∉ is.map key → is.foldl (fun f i ↦ update f (key i) (val i)) f k = f k := by
  induction is using List.reverseRecOn with
  | nil => simp
  | append_singleton is j ih =>
    simp only [List.foldl_append, List.foldl_cons, List.foldl_nil]
    constructor
    · intro i hi
      by_cases hij : i = j
      · rw [hij, update_self]
      · rw [update_of_ne (hkey.ne hij)]
        apply ih.1
        simpa [hij] using hi
    · intro k hk
      simp only [List.map_append, List.map_cons, List.map_nil, List.mem_append,
        List.mem_singleton, not_or] at hk
      rw [update_of_ne hk.2, ih.2 k hk.1]

theorem argGpr_injective : Injective argGpr := by
  decide

theorem mem_usedArgs {call : InlineFunctionCall} {i : Fin 6} :
    i ∈ usedArgs call ↔ i < call.numArgs := by
  rw [usedArgs, List.mem_filter, decide_eq_true_iff, and_iff_right_iff_imp]
  intro _
  fin_cases i <;> simp

theorem runSite_append (code code' : List SiteInstr) :
    runSite c (code ++ code') s = (runSite c code s).bind (runSite c code') := by
  rw [runSite, List.foldlM_append]
  rfl

theorem runSite_singleton (i : SiteInstr) : runSite c [i] s = i.step c s := by
  simp [runSite]

theorem runSite_saves (is : List (Fin 6)) :
    runSite c (is.map fun i ↦ .saveRegister (argGpr i)) s =
      some { s with slot := is.foldl (fun f i ↦ update f (argGpr i) (s.gpr (argGpr i))) s.slot } := by
  induction is generalizing s with
  | nil => rfl
  | cons i is ih => exact ih (s := { s with slot := update s.slot (argGpr i) (s.gpr (argGpr i)) })

theorem runSite_moves (argRegs : Fin 6 → ℕ) (is : List (Fin 6)) :
    runSite c (is.map fun i ↦ .movArg (argGpr i) (argRegs i)) s =
      some { s with gpr := is.foldl (fun f i ↦ update f (argGpr i) (s.vr (argRegs i))) s.gpr } := by
  induction is generalizing s with
  | nil => rfl
  | cons i is ih => exact ih (s := { s with gpr := update s.gpr (argGpr i) (s.vr (argRegs i)) })

theorem runSite_restores (is : List (Fin 6)) :
    runSite c (is.map fun i ↦ .restoreRegister (argGpr i)) s =
      some { s with gpr := is.foldl (fun f i ↦ update f (argGpr i) (s.slot (argGpr i))) s.gpr } := by
  induction is generalizing s with
  | nil => rfl
  | cons i is ih => exact ih (s := { s with gpr := update s.gpr (argGpr i) (s.slot (argGpr i)) })

def copyValue (s : State) (old : BitVec 64) : Operand → BitVec 64
  | .mem address width => merge old (s.mem (s.address address)) width
  | .imm value width => if width.bits ≤ 32 then (value.setWidth 32).setWidth 64 else value
  | .reg r _ => s.readReg r
  | .high r => s.gpr r

theorem step_copyOperand (dst : ℕ) (o : Operand) :
    SiteInstr.step c s (copyOperand dst o) =
      some { s with vr := update s.vr dst (copyValue s (s.vr dst) o) } := by
  cases o with
  | mem address width => rfl
  | imm value width =>
    simp only [copyOperand, copyValue]
    split_ifs <;> rfl
  | reg r width => rfl
  | high r => rfl

theorem copyValue_congr {o : Operand} {v : ℕ → BitVec 64} (old : BitVec 64)
    (h : ∀ n, Reg.vr n ∈ o.regs → v n = s.vr n) :
    copyValue { s with vr := v } old o = copyValue s old o := by
  have hread : ∀ r ∈ o.regs, State.readReg { s with vr := v } r = s.readReg r := by
    intro r hr
    cases r with
    | rsp => rfl
    | gpr r => rfl
    | vr n => exact h n hr
  cases o with
  | mem address width =>
    have hbase : address.base.map (State.readReg { s with vr := v }) =
        address.base.map s.readReg :=
      Option.map_congr fun r hr ↦ hread r (by simp_all [Operand.regs, MemAddress.regs])
    have hindex : address.index.map (State.readReg { s with vr := v }) =
        address.index.map s.readReg :=
      Option.map_congr fun r hr ↦ hread r (by simp_all [Operand.regs, MemAddress.regs])
    simp only [copyValue, State.address, hbase, hindex]
  | imm value width => rfl
  | reg r width => exact hread r (by simp [Operand.regs])
  | high r => rfl

theorem runSite_copies (call : InlineFunctionCall) (is : List (Fin 6)) (his : is.Nodup) :
    ∃ v, runSite c (is.map fun i ↦ copyOperand (call.argRegs i) (call.args i)) s =
        some { s with vr := v } ∧
      (∀ i ∈ is, v (call.argRegs i) =
        copyValue s (s.vr (call.argRegs i)) (call.args i)) ∧
      ∀ n, n ∉ is.map call.argRegs → v n = s.vr n := by
  induction is using List.reverseRecOn with
  | nil => exact ⟨s.vr, rfl, by simp, fun _ _ ↦ rfl⟩
  | append_singleton is j ih =>
    obtain ⟨his, -, hj⟩ := List.nodup_append.1 his
    have hj : j ∉ is := fun h ↦ hj j h j (List.mem_singleton_self j) rfl
    obtain ⟨v, hrun, hwritten, hother⟩ := ih his
    have hjv : v (call.argRegs j) = s.vr (call.argRegs j) := by
      apply hother
      rw [List.mem_map_of_injective call.argRegs_injective]
      exact hj
    have hcopy : copyValue { s with vr := v } (v (call.argRegs j)) (call.args j) =
        copyValue s (s.vr (call.argRegs j)) (call.args j) := by
      rw [hjv]
      apply copyValue_congr
      intro n hn
      apply hother
      intro hmem
      obtain ⟨i, -, rfl⟩ := List.mem_map.1 hmem
      exact call.fresh j i hn
    refine ⟨update v (call.argRegs j) (copyValue s (s.vr (call.argRegs j)) (call.args j)),
      ?_, ?_, ?_⟩
    · rw [List.map_append, runSite_append, hrun, Option.bind_some, ← hcopy]
      rw [List.map_singleton, runSite_singleton]
      exact step_copyOperand (s := { s with vr := v }) (call.argRegs j) (call.args j)
    · intro i hi
      by_cases hij : i = j
      · rw [hij, update_self]
      · rw [update_of_ne (call.argRegs_injective.ne hij)]
        apply hwritten
        simpa [hij] using hi
    · intro n hn
      simp only [List.map_append, List.map_cons, List.map_nil, List.mem_append,
        List.mem_singleton, not_or] at hn
      rw [update_of_ne hn.2, hother n hn.1]

theorem usedArgs_nodup (call : InlineFunctionCall) : (usedArgs call).Nodup := by
  apply List.Nodup.filter
  decide

theorem runSite_callNear (wrapped : List WrapperInstr) :
    runSite c [.condLeaveNativeStack, .callNear wrapped, .condEnterNativeStack] s =
      runWrapper c wrapped { s with stack := s.stack.push 0 } := by
  simp only [runSite, List.foldlM_cons, List.foldlM_nil, SiteInstr.step, Option.bind_eq_bind,
    Option.bind_some, Option.pure_def]
  exact Option.bind_fun_some _

theorem runSite_revive (p : Prop) [Decidable p] (regs : List Gpr) :
    runSite c (if p then [.reviveRegisters regs] else []) s = some s := by
  split_ifs <;> rfl

theorem runSite_extend (isKernel : Bool) (k : ℕ) (call : InlineFunctionCall) (c : Callee)
    (s : State) :
    ∃ s' s₁, runSite c (extendFragmentWithInlineCall (generateInlineCallCode isKernel k) call) s =
        some s' ∧
      (∀ r, s'.gpr r = if r ∈ (usedArgs call).map argGpr ∨ r ∈ savedRegs k then s.gpr r else
        c.gpr s₁ r) ∧
      s'.stack = s.stack ∧ s'.privateStack = s.privateStack ∧ s'.seen = s.seen ++ [s₁.gpr] ∧
      (∀ i ∈ usedArgs call,
        s₁.gpr (argGpr i) = copyValue s (s.vr (call.argRegs i)) (call.args i)) ∧
      ∀ r, r ∉ (usedArgs call).map argGpr → s₁.gpr r = s.gpr r := by
  let sSaved : State := { s with
    slot := (usedArgs call).foldl (fun f i ↦ update f (argGpr i) (s.gpr (argGpr i))) s.slot }
  have hsaved := foldl_update argGpr_injective (fun i ↦ s.gpr (argGpr i)) (usedArgs call) s.slot
  obtain ⟨v, hcopies, hargs, -⟩ :=
    runSite_copies (c := c) (s := sSaved) call (usedArgs call) (usedArgs_nodup call)
  let sMoved : State := { sSaved with
    vr := v
    gpr := (usedArgs call).foldl (fun f i ↦ update f (argGpr i) (v (call.argRegs i))) s.gpr }
  have hmoved := foldl_update argGpr_injective (fun i ↦ v (call.argRegs i)) (usedArgs call) s.gpr
  obtain ⟨sCalled, s₁, hwrapper, hgpr₁, hgpr, hslot, hstack, hprivate, hseen⟩ :=
    runWrapper_generate isKernel k c sMoved
  have hrestored := foldl_update argGpr_injective (fun i ↦ sCalled.slot (argGpr i))
    (usedArgs call).reverse sCalled.gpr
  let sRestored : State := { sCalled with
    gpr := (usedArgs call).reverse.foldl
      (fun f i ↦ update f (argGpr i) (sCalled.slot (argGpr i))) sCalled.gpr }
  refine ⟨sRestored, s₁, ?_, ?_, hstack, hprivate, ?_, ?_, ?_⟩
  · rw [extendFragmentWithInlineCall, runSite_append, runSite_append, runSite_append,
      runSite_append, runSite_append, runSite_saves, Option.bind_some, hcopies, Option.bind_some,
      runSite_moves, Option.bind_some, runSite_revive, Option.bind_some, runSite_callNear]
    refine (congrArg (Option.bind · _) hwrapper).trans ?_
    exact runSite_restores _
  · intro r
    by_cases hr : r ∈ (usedArgs call).map argGpr
    · obtain ⟨i, hi, rfl⟩ := List.mem_map.1 hr
      rw [if_pos (Or.inl hr)]
      refine (hrestored.1 i (List.mem_reverse.2 hi)).trans ?_
      rw [hslot]
      exact hsaved.1 i hi
    · refine (hrestored.2 r (by simpa using hr)).trans ?_
      simp only [hgpr, hr, false_or]
      rw [show sMoved.gpr r = s.gpr r from hmoved.2 r hr]
  · rw [hgpr₁]
    exact hseen
  · intro i hi
    rw [hgpr₁]
    exact (hmoved.1 i hi).trans (hargs i hi)
  · intro r hr
    rw [hgpr₁]
    exact hmoved.2 r hr

end Site

theorem argGpr_mem_savedRegs (k : ℕ) (j : Fin 6) : argGpr j ∈ savedRegs k ↔ k ≤ j := by
  fin_cases j <;> simp [argGpr, savedRegs] <;> omega

theorem mem_savedRegs_of_ne (k : ℕ) {r : Gpr} (hr : ∀ j, argGpr j ≠ r) : r ∈ savedRegs k := by
  cases r
  case rdi => exact absurd rfl (hr 0)
  case rsi => exact absurd rfl (hr 1)
  case rdx => exact absurd rfl (hr 2)
  case rcx => exact absurd rfl (hr 3)
  case r8 => exact absurd rfl (hr 4)
  case r9 => exact absurd rfl (hr 5)
  all_goals simp [savedRegs]

theorem merge_setWidth (old new : BitVec 64) (w : Width) :
    (merge old new w).setWidth w.bits = new.setWidth w.bits := by
  cases w <;> simp only [merge, Width.bits, BitVec.setWidth_and, BitVec.setWidth_or]
  case byte => simpa using BitVec.and_allOnes (w := 8)
  case word => simpa using BitVec.and_allOnes (w := 16)
  case doubleWord => simpa using BitVec.and_allOnes (w := 32)

theorem passes_copyValue {s : State} {o : Operand} (old : BitVec 64)
    (ho : ∀ r, o ≠ .high r) : Passes o s (copyValue s old o) := by
  cases o with
  | mem address width => exact merge_setWidth old _ width
  | imm value width =>
    simp only [Passes, copyValue, Operand.width, Operand.value]
    split_ifs with h
    · rw [BitVec.setWidth_setWidth_of_le _ (by omega), BitVec.setWidth_setWidth_of_le _ h]
    · rfl
  | reg r width => rfl
  | high r => exact absurd rfl (ho r)

def clobber : Callee where
  gpr s r := if r ∈ calleeSaved then s.gpr r else s.gpr r + 1
  mem s := s.mem
  flags s := s.flags
  preserves _ _ hr := if_pos hr

theorem argGpr_notMem_calleeSaved (i : Fin 6) : argGpr i ∉ calleeSaved := by
  fin_cases i <;> simp [argGpr, calleeSaved]

def State.ofGpr (gpr : Gpr → BitVec 64) : State where
  gpr := gpr
  vr _ := 0
  slot _ := 0
  mem _ := 0
  flags := 0
  stack := ⟨0, []⟩
  privateStack := ⟨0, []⟩
  seen := []

theorem correct_iff (isKernel : Bool) {k : ℕ} (hk : k ≤ 6) (call : InlineFunctionCall) :
    Correct call (extendFragmentWithInlineCall (generateInlineCallCode isKernel k) call) ↔
      (∀ i : Fin 6, i < call.numArgs → ∀ r, call.args i ≠ .high r) ∧ k ≤ call.numArgs := by
  constructor
  · intro h
    constructor
    · -- the low byte is zero and the one above it is not
      intro i hi r hr
      obtain ⟨s', s₁, hrun, -, -, -, hseen, hargs, -⟩ :=
        runSite_extend isKernel k call clobber (.ofGpr fun _ ↦ 0x100)
      obtain ⟨s'', entry, hrun', -, -, -, hseen', hpasses⟩ := h clobber (.ofGpr fun _ ↦ 0x100)
      rw [hrun, Option.some.injEq] at hrun'
      subst hrun'
      rw [hseen, List.append_cancel_left_eq, List.singleton_inj] at hseen'
      have harg := hargs i (mem_usedArgs.2 hi)
      have hpass := hpasses i hi
      rw [← hseen', harg, hr] at hpass
      revert hpass
      simp [Passes, copyValue, State.ofGpr, Operand.width, Operand.value, Width.bits]
    · by_contra hlt
      push Not at hlt
      let j : Fin 6 := ⟨call.numArgs, by omega⟩
      have hunused : argGpr j ∉ (usedArgs call).map argGpr := by
        rw [List.mem_map_of_injective argGpr_injective, mem_usedArgs]
        exact lt_irrefl _
      have hunsaved : argGpr j ∉ savedRegs k := by
        rw [argGpr_mem_savedRegs]
        exact not_le.2 hlt
      obtain ⟨s', s₁, hrun, hgpr, -, -, -, -, hother⟩ :=
        runSite_extend isKernel k call clobber (.ofGpr fun _ ↦ 0)
      obtain ⟨s'', entry, hrun', hgpr', -⟩ := h clobber (.ofGpr fun _ ↦ 0)
      rw [hrun, Option.some.injEq] at hrun'
      subst hrun'
      have hj := hgpr (argGpr j)
      rw [if_neg (not_or.2 ⟨hunused, hunsaved⟩), hgpr'] at hj
      simp only [clobber, argGpr_notMem_calleeSaved, if_false, hother _ hunused] at hj
      revert hj
      simp [State.ofGpr]
  · rintro ⟨hhigh, hle⟩ c s
    obtain ⟨s', s₁, hrun, hgpr, hstack, hprivate, hseen, hargs, -⟩ :=
      runSite_extend isKernel k call c s
    refine ⟨s', s₁.gpr, hrun, ?_, hstack, hprivate, hseen, ?_⟩
    · funext r
      rw [hgpr r]
      apply if_pos
      by_cases hr : ∃ j, argGpr j = r
      · obtain ⟨j, rfl⟩ := hr
        rcases lt_or_ge (j : ℕ) call.numArgs with hj | hj
        · exact Or.inl (List.mem_map_of_mem (mem_usedArgs.2 hj))
        · exact Or.inr ((argGpr_mem_savedRegs k j).2 (hle.trans hj))
      · exact Or.inr (mem_savedRegs_of_ne k (not_exists.1 hr))
    · intro i hi
      rw [hargs i (mem_usedArgs.2 hi)]
      exact passes_copyValue _ (hhigh i hi)

section Sequence

variable (isKernel : Bool) (context : Context)

def firstNumArgs (calls : List InlineFunctionCall) (pc : ℕ) : ℕ :=
  ((calls.find? (·.targetAppPC = pc)).map (·.numArgs)).getD 0

theorem firstNumArgs_le (calls : List InlineFunctionCall) (pc : ℕ) : firstNumArgs calls pc ≤ 6 := by
  unfold firstNumArgs
  cases calls.find? (·.targetAppPC = pc) with
  | none => exact Nat.zero_le 6
  | some call => exact call.numArgs_le

/-- The callback that a context gives out for a target while the calls are compiled. -/
def callback (calls : List InlineFunctionCall) (pc : ℕ) : List WrapperInstr :=
  (context pc).getD (generateInlineCallCode isKernel (firstNumArgs calls pc))

theorem inlineCallback_fst (call : InlineFunctionCall) (calls : List InlineFunctionCall) :
    (inlineCallback isKernel context call).1 =
      callback isKernel context (call :: calls) call.targetAppPC := by
  unfold inlineCallback callback
  cases context call.targetAppPC with
  | none => simp [firstNumArgs]
  | some cb => rfl

/-- A context that has handed out a callback goes on as if it were to compile all of the calls. -/
theorem inlineCallback_snd (call : InlineFunctionCall) (calls : List InlineFunctionCall) :
    callback isKernel (inlineCallback isKernel context call).2 calls =
      callback isKernel context (call :: calls) := by
  funext pc
  by_cases hpc : call.targetAppPC = pc
  · subst hpc
    unfold inlineCallback callback
    cases hcontext : context call.targetAppPC with
    | none => simp [firstNumArgs]
    | some cb => simp [hcontext]
  · have hfirst : firstNumArgs (call :: calls) pc = firstNumArgs calls pc := by
      simp [firstNumArgs, hpc]
    have hrest : (inlineCallback isKernel context call).2 pc = context pc := by
      unfold inlineCallback
      cases context call.targetAppPC with
      | none => exact update_of_ne (Ne.symm hpc) _ _
      | some cb => rfl
    rw [callback, callback, hfirst, hrest]

theorem forall_compileCalls (P : InlineFunctionCall → List SiteInstr → Prop)
    (calls : List InlineFunctionCall) :
    (∀ p ∈ compileCalls isKernel context calls, P p.1 p.2) ↔
      ∀ call ∈ calls, P call (extendFragmentWithInlineCall
        (callback isKernel context calls call.targetAppPC) call) := by
  induction calls generalizing context with
  | nil => simp [compileCalls]
  | cons call calls ih =>
    rw [compileCalls, List.forall_mem_cons, List.forall_mem_cons, ih, inlineCallback_snd,
      inlineCallback_fst isKernel context call calls]

/-- A sequence of inline calls, compiled in order from a fresh context, keeps the registers and
passes the arguments exactly when no argument is the high byte of a register and no call has fewer
arguments than the first one to its target, for which the wrapper was made. -/
theorem compileCalls_correct_iff (calls : List InlineFunctionCall) :
    (∀ p ∈ compileCalls isKernel (fun _ ↦ none) calls, Correct p.1 p.2) ↔
      ∀ call ∈ calls, (∀ i : Fin 6, i < call.numArgs → ∀ r, call.args i ≠ .high r) ∧
        ∀ first, calls.find? (·.targetAppPC = call.targetAppPC) = some first →
          first.numArgs ≤ call.numArgs := by
  rw [forall_compileCalls]
  apply forall₂_congr
  intro call hcall
  rw [callback, Option.getD_none, correct_iff isKernel (firstNumArgs_le calls call.targetAppPC)]
  apply and_congr_right'
  unfold firstNumArgs
  cases hfind : calls.find? (·.targetAppPC = call.targetAppPC) with
  | none => simp
  | some first => simp

end Sequence

def zerosCall (pc : ℕ) (numArgs : Fin 7) : InlineFunctionCall where
  targetAppPC := pc
  numArgs := numArgs
  args _ := .imm 0 .quadWord
  argRegs i := i
  numArgs_le := by omega
  argRegs_injective := Fin.val_injective
  fresh _ _ := List.not_mem_nil

/-- The function is called with two arguments and then with one: `RSI` is saved neither at the second
call nor by the wrapper. -/
theorem compileCalls_loses_rsi :
    ¬ ∀ p ∈ compileCalls false (fun _ ↦ none) [zerosCall 0 2, zerosCall 0 1],
      Correct p.1 p.2 := by
  rw [forall_compileCalls]
  intro h
  have hcorrect := h (zerosCall 0 1) (by simp)
  have hle := ((correct_iff false (k := 2) (by omega) _).1 hcorrect).2
  exact absurd hle (by decide)

end Granary.Arch.Call
