import Granary.Arch.EarlyMangle

namespace Granary.Arch.EarlyMangle

def trunc (n : ℕ) (v : BitVec 64) : BitVec 64 := (v.setWidth (8 * n)).setWidth 64

def merge (n : ℕ) (old v : BitVec 64) : BitVec 64 :=
  trunc n v ||| (old &&& ~~~trunc n (BitVec.allOnes 64))

theorem getElem_trunc (n : ℕ) (v : BitVec 64) (i : ℕ) (hi : i < 64) :
    (trunc n v)[i] = (decide (i < 8 * n) && v[i]) := by
  rw [trunc, BitVec.getElem_setWidth, BitVec.getLsbD_setWidth, BitVec.getLsbD_eq_getElem hi]

@[simp] theorem trunc_eight (v : BitVec 64) : trunc 8 v = v := by
  ext i hi
  rw [getElem_trunc, decide_eq_true (by omega), Bool.true_and]

@[simp] theorem merge_eight (old v : BitVec 64) : merge 8 old v = v := by
  rw [merge, trunc_eight, trunc_eight, BitVec.not_allOnes, BitVec.and_zero, BitVec.or_zero]

abbrev Mem := Addr → BitVec 8

def Mem.word (mem : Mem) (a : Addr) : BitVec 64 :=
  (List.range 8).foldr (fun k w ↦ (w <<< 8) ||| (mem (a + BitVec.ofNat 64 k)).setWidth 64) 0

def Mem.load (mem : Mem) (n : ℕ) (a : Addr) : BitVec 64 := trunc n (mem.word a)

def Mem.store (mem : Mem) (n : ℕ) (a : Addr) (v : BitVec 64) : Mem := fun x ↦
  let k := (x - a).toNat
  if k < n then (v >>> (8 * k)).setWidth 8 else mem x

/-- The state of the application. Its general-purpose registers are numbered as they
are in `VirtualRegister`; `rest` is the flags and all other registers. -/
structure AppState (ρ : Type) where
  gpr : ℕ → BitVec 64
  rsp : BitVec 64
  selector : ℕ → BitVec 16
  segBase : ℕ → Addr
  mem : Mem
  /-- Where a control-flow instruction goes. -/
  target : Option Addr
  rest : ρ

/-- The state with the virtual registers of the mangler. -/
structure State (ρ : Type) where
  app : AppState ρ
  vr : ℕ → BitVec 64

/-- What an instruction finds at an operand: a value, the memory at an address, or a
register to write. -/
inductive Arg
  | value (v : BitVec 64)
  | mem (a : Addr) (width : ℕ)
  | reg (r : VirtualRegister)

/-- What the processor does for the instructions that are not modelled, given what
they find at their operands, and the base of the segment of a selector. -/
structure Processor (ρ : Type) where
  effect : IClass → ℕ → List Arg → AppState ρ → AppState ρ
  descriptor : ℕ → BitVec 16 → Addr

variable {ρ : Type} (P : Processor ρ)

namespace AppState

def push (s : AppState ρ) (n : ℕ) (v : BitVec 64) : AppState ρ :=
  let rsp := s.rsp - BitVec.ofNat 64 n
  { s with rsp, mem := s.mem.store n rsp v }

end AppState

namespace State

def readReg (s : State ρ) (r : VirtualRegister) : BitVec 64 :=
  match r.kind with
  | .archGpr =>
    if r.isLegacy then trunc 1 (s.app.gpr r.number >>> 8)
    else trunc r.numBytes (s.app.gpr r.number)
  | .unschedulable =>
    if r.isStackPointer then trunc r.numBytes s.app.rsp
    else (s.app.selector r.number).setWidth 64
  | .virtualGpr => trunc r.numBytes (s.vr r.number)
  | .invalid | .slot => 0

/-- A write to four bytes of a register clears the others, a write to fewer bytes
keeps them. -/
def mergeReg (r : VirtualRegister) (old v : BitVec 64) : BitVec 64 :=
  if r.isLegacy then (old &&& ~~~(0xFF00 : BitVec 64)) ||| (trunc 1 v <<< 8)
  else if 4 ≤ r.numBytes then trunc r.numBytes v
  else merge r.numBytes old v

def writeReg (s : State ρ) (r : VirtualRegister) (v : BitVec 64) : State ρ :=
  match r.kind with
  | .archGpr =>
    { s with app := { s.app with
      gpr := Function.update s.app.gpr r.number (mergeReg r (s.app.gpr r.number) v) } }
  | .unschedulable =>
    if r.isStackPointer then { s with app := { s.app with rsp := mergeReg r s.app.rsp v } }
    else
      let selector := v.setWidth 16
      { s with app := { s.app with
        selector := Function.update s.app.selector r.number selector
        segBase := Function.update s.app.segBase r.number (P.descriptor r.number selector) } }
  | .virtualGpr =>
    { s with vr := Function.update s.vr r.number (mergeReg r (s.vr r.number) v) }
  | .invalid | .slot => s

/-- An address is computed with 32 bits if its registers have that width. -/
def addressBytes (base index : VirtualRegister) : ℕ :=
  if base.isValid ∧ base.numBytes = 4 ∨ index.isValid ∧ index.numBytes = 4 then 4 else 8

def effectiveAddress (s : State ρ) (op : Operand) : Addr :=
  match op.value with
  | .mem r => s.readReg r
  | .compound base index disp scale =>
    trunc (addressBytes base index)
      (s.readReg base + s.readReg index * BitVec.ofNat 64 scale + BitVec.ofInt 64 disp)
  | .ptr a => a
  | .reg _ | .imm _ | .branchTarget _ => 0

def address (s : State ρ) (op : Operand) : Addr :=
  (match op.segment with
    | some seg => s.app.segBase seg
    | none => 0) + s.effectiveAddress op

def value (s : State ρ) (n : ℕ) (op : Operand) : BitVec 64 :=
  match op.value with
  | .reg r => s.readReg r
  | .imm v | .branchTarget v => v
  | .mem _ | .compound .. | .ptr _ => s.app.mem.load n (s.address op)

def writeOp (s : State ρ) (n : ℕ) (op : Operand) (v : BitVec 64) : State ρ :=
  match op.value with
  | .reg r => s.writeReg P r v
  | .mem _ | .compound .. | .ptr _ =>
    { s with app := { s.app with mem := s.app.mem.store n (s.address op) v } }
  | .imm _ | .branchTarget _ => s

/-- A general-purpose register that is not written stands for its value. -/
def arg (s : State ρ) (op : Operand) : Arg :=
  match op.value with
  | .reg r =>
    if !op.rw.isWrite && (r.isGeneralPurpose || EarlyMangle.isStackPointer r) then
      .value (s.readReg r)
    else .reg r
  | .imm v | .branchTarget v => .value v
  | .mem _ | .compound .. | .ptr _ => .mem (s.address op) op.width

def argValue (s : State ρ) (n : ℕ) : Arg → BitVec 64
  | .value v => v
  | .mem a _ => s.app.mem.load n a
  | .reg r => s.readReg r

/-- `MOV` and `MOVZX`. -/
def move (s : State ρ) : List Arg → State ρ
  | [.reg r, src] => s.writeReg P r (s.argValue r.numBytes src)
  | [.mem a width, src] =>
    { s with app := { s.app with
      mem := s.app.mem.store (width / 8) a (s.argValue (width / 8) src) } }
  | _ => s

end State

/-- The display of `ENTER`: the frame pointers below `rbp`, of `n` bytes each, that are
pushed after the first one. -/
def enterDisplay (n : ℕ) : ℕ → BitVec 64 → AppState ρ → AppState ρ
  | 0, _, s => s
  | k + 1, rbp, s =>
    let rbp := rbp - BitVec.ofNat 64 n
    enterDisplay n k rbp (s.push n (s.mem.load n rbp))

/-- `ENTER`, with operands of `n` bytes: only these bytes of the frame pointer change. -/
def enter (n : ℕ) (allocSize : BitVec 16) (nestingLevel : BitVec 8) (s : AppState ρ) :
    AppState ρ :=
  let nestingLevel := nestingLevel.toNat % 32
  let rbp := s.gpr regRBP.number
  let s := s.push n rbp
  let frameTemp := s.rsp
  let s := if nestingLevel = 0 then s
    else
      let s := if 1 < nestingLevel then enterDisplay n (nestingLevel - 1) rbp s else s
      s.push n frameTemp
  { s with
    gpr := Function.update s.gpr regRBP.number (merge n rbp frameTemp)
    rsp := s.rsp - allocSize.setWidth 64 }

/-- What an instruction does. The address in memory where a value is popped to is
computed after the stack pointer is incremented. -/
def exec (i : Instruction) (s : State ρ) : State ρ :=
  let n := i.effectiveOperandWidth / 8
  match i.iclass, i.ops with
  | .callNear, [op] =>
    let target := s.value 8 op
    { s with app := { s.app.push 8 (i.decodedPc + BitVec.ofNat 64 i.decodedLength) with
      target := some target } }
  | .jmp, [op] => { s with app := { s.app with target := some (s.value 8 op) } }
  | .push, [op] => { s with app := s.app.push n (s.value n op) }
  | .pop, [op] =>
    let v := s.app.mem.load n s.app.rsp
    let s := { s with app := { s.app with rsp := s.app.rsp + BitVec.ofNat 64 n } }
    s.writeOp P n op v
  | .xlat, [al, op] => s.writeOp P 1 al (s.value 1 op)
  | .enter, [op₀, op₁] =>
    { s with app := enter n ((s.value 2 op₀).setWidth 16) ((s.value 1 op₁).setWidth 8) s.app }
  | .leave, _ =>
    let s := s.writeReg P regRSP (s.readReg regRBP)
    let v := s.app.mem.load 8 s.app.rsp
    ({ s with app := { s.app with rsp := s.app.rsp + 8 } } : State ρ).writeReg P regRBP v
  | .lea, [dst, src] => s.writeOp P 8 dst (s.effectiveAddress src)
  | .mov, ops | .movzx, ops => s.move P (ops.map s.arg)
  | .pushf, _ | .pushfq, _ =>
    { s with app := P.effect i.iclass i.effectiveOperandWidth [] s.app }
  | iclass, ops =>
    { s with app := P.effect iclass i.effectiveOperandWidth (ops.map s.arg) s.app }

/-- The states are the same, but for the virtual registers from `k` on. -/
structure Agree (k : ℕ) (s t : State ρ) : Prop where
  app : s.app = t.app
  vr : ∀ n < k, s.vr n = t.vr n

/-- A register that is not a virtual one from `k` on. -/
def Below (k : ℕ) (r : VirtualRegister) : Prop := r.kind = .virtualGpr → r.number < k

def Operand.Below (k : ℕ) (op : Operand) : Prop :=
  match op.value with
  | .reg r | .mem r => EarlyMangle.Below k r
  | .compound base index _ _ => EarlyMangle.Below k base ∧ EarlyMangle.Below k index
  | .ptr _ | .imm _ | .branchTarget _ => True

variable {k : ℕ} {s t u : State ρ}

theorem Agree.refl (s : State ρ) : Agree k s s := ⟨rfl, fun _ _ ↦ rfl⟩

theorem Agree.trans (h : Agree k s t) (h' : Agree k t u) : Agree k s u :=
  ⟨h.app.trans h'.app, fun n hn ↦ (h.vr n hn).trans (h'.vr n hn)⟩

theorem Agree.mono {l : ℕ} (hl : k ≤ l) (h : Agree l s t) : Agree k s t :=
  ⟨h.app, fun n hn ↦ h.vr n (lt_of_lt_of_le hn hl)⟩

theorem Agree.readReg (h : Agree k s t) {r : VirtualRegister} (hr : Below k r) :
    s.readReg r = t.readReg r := by
  unfold State.readReg
  cases hkind : r.kind with
  | virtualGpr => simp only [h.vr _ (hr hkind)]
  | _ => simp only [h.app]

theorem Agree.writeReg (h : Agree k s t) (r : VirtualRegister) (v : BitVec 64)
    (hr : Below k r) : Agree k (s.writeReg P r v) (t.writeReg P r v) := by
  unfold State.writeReg
  cases hkind : r.kind with
  | virtualGpr =>
    refine ⟨h.app, fun n hn ↦ ?_⟩
    simp only [h.vr _ (hr hkind)]
    rcases eq_or_ne n r.number with rfl | hne
    · rw [Function.update_self, Function.update_self]
    · rw [Function.update_of_ne hne, Function.update_of_ne hne, h.vr n hn]
  | archGpr => exact ⟨by simp only [h.app], h.vr⟩
  | unschedulable =>
    split_ifs
    · exact ⟨by simp only [h.app], h.vr⟩
    · exact ⟨by simp only [h.app], h.vr⟩
  | invalid => exact h
  | slot => exact h

theorem Agree.effectiveAddress (h : Agree k s t) {op : Operand} (hop : op.Below k) :
    s.effectiveAddress op = t.effectiveAddress op := by
  unfold Operand.Below at hop
  unfold State.effectiveAddress
  cases hvalue : op.value with
  | mem r =>
    rw [hvalue] at hop
    exact h.readReg hop
  | compound base index disp scale =>
    rw [hvalue] at hop
    simp only [h.readReg hop.1, h.readReg hop.2]
  | _ => rfl

theorem Agree.address (h : Agree k s t) {op : Operand} (hop : op.Below k) :
    s.address op = t.address op := by
  unfold State.address
  rw [h.effectiveAddress hop, h.app]

theorem Agree.value (h : Agree k s t) (n : ℕ) {op : Operand} (hop : op.Below k) :
    s.value n op = t.value n op := by
  have haddr := h.address hop
  unfold Operand.Below at hop
  unfold State.value
  cases hvalue : op.value with
  | reg r =>
    rw [hvalue] at hop
    exact h.readReg hop
  | mem r => simp only [haddr, h.app]
  | compound base index disp scale => simp only [haddr, h.app]
  | ptr a => simp only [haddr, h.app]
  | imm v => rfl
  | branchTarget v => rfl

theorem Agree.arg (h : Agree k s t) {op : Operand} (hop : op.Below k) :
    s.arg op = t.arg op := by
  have haddr := h.address hop
  unfold Operand.Below at hop
  unfold State.arg
  cases hvalue : op.value with
  | reg r =>
    rw [hvalue] at hop
    simp only [h.readReg hop]
  | mem r => simp only [haddr]
  | compound base index disp scale => simp only [haddr]
  | ptr a => simp only [haddr]
  | imm v => rfl
  | branchTarget v => rfl

def execItem (s : State ρ) : Item → State ρ
  | .native i => exec P i s
  | .annotInvalidStack | .annotInterruptDeliveryStateChange => s

def run (block : List Item) (s : State ρ) : State ρ := block.foldl (execItem P) s

theorem run_append (b : List Item) (x : Item) (s : State ρ) :
    run P (b ++ [x]) s = execItem P (run P b s) x := by
  rw [run, List.foldl_append]
  rfl

def EarlyMangler.after (m : EarlyMangler) (s : State ρ) : State ρ := run P m.block s

theorem after_app (m : EarlyMangler) (i : Instruction) (s : State ρ) :
    (m.app i).after P s = exec P i (m.after P s) := run_append P m.block (.native i) s

theorem after_appNative (m : EarlyMangler) (i ni : Instruction) (s : State ρ) :
    (m.appNative i ni).after P s = exec P { ni with
      decodedPc := i.decodedPc, effectiveOperandWidth := i.effectiveOperandWidth }
      (m.after P s) := after_app P m _ s

theorem run_mangled (i : Instruction) (s : State ρ) : run P (mangled i) s =
    exec P (mangleDecodedInstruction i).1 ((mangleDecodedInstruction i).2.after P s) :=
  run_append P _ _ s

section Registers

variable (s : State ρ)

@[simp] theorem readReg_regRSP : s.readReg regRSP = s.app.rsp := trunc_eight _

@[simp] theorem readReg_regRBP : s.readReg regRBP = s.app.gpr regRBP.number := trunc_eight _

@[simp] theorem writeReg_regRSP (v : BitVec 64) :
    s.writeReg P regRSP v = { s with app := { s.app with rsp := v } } := by
  have hmerge : State.mergeReg regRSP s.app.rsp v = v := trunc_eight v
  exact congrArg (fun w ↦ ({ s with app := { s.app with rsp := w } } : State ρ)) hmerge

@[simp] theorem writeReg_regRBP (v : BitVec 64) : s.writeReg P regRBP v =
    { s with app := { s.app with gpr := Function.update s.app.gpr regRBP.number v } } := by
  have hmerge : State.mergeReg regRBP (s.app.gpr regRBP.number) v = v := trunc_eight v
  exact congrArg (fun w ↦ ({ s with
    app := { s.app with gpr := Function.update s.app.gpr regRBP.number w } } : State ρ)) hmerge

structure IsScratch (n : ℕ) (r : VirtualRegister) : Prop where
  kind : r.kind = .virtualGpr
  number : r.number = n
  numBytes : r.numBytes = 8
  isLegacy : r.isLegacy = false

variable {s} {n : ℕ} {r : VirtualRegister}

theorem IsScratch.readReg (h : IsScratch n r) (s : State ρ) : s.readReg r = s.vr n := by
  simp only [State.readReg, h.kind, h.number, h.numBytes, trunc_eight]

theorem IsScratch.writeReg (h : IsScratch n r) (s : State ρ) (v : BitVec 64) :
    s.writeReg P r v = { s with vr := Function.update s.vr n v } := by
  simp [State.writeReg, State.mergeReg, h.kind, h.number, h.numBytes, h.isLegacy]

theorem IsScratch.isGeneralPurpose (h : IsScratch n r) :
    (r.isGeneralPurpose || isStackPointer r) = true := by
  simp [VirtualRegister.isGeneralPurpose, h.kind]

end Registers

section Exec

variable (s : State ρ) (dst src : VirtualRegister) (op : Operand) (pc : Addr) (len width : ℕ)

theorem exec_leaGprAgen : exec P { leaGprAgen dst op with
      decodedPc := pc, decodedLength := len, effectiveOperandWidth := width } s =
    s.writeReg P dst (s.effectiveAddress op) := rfl

theorem arg_of_isMemory {op : Operand} (hop : op.isMemory = true) :
    s.arg op = .mem (s.address op) op.width := by
  unfold Arch.Operand.isMemory at hop
  unfold State.arg
  cases hvalue : op.value with
  | mem r => rfl
  | compound base index disp scale => rfl
  | ptr a => rfl
  | _ => exact absurd hop (by simp [hvalue])

theorem arg_regOp_w : s.arg (regOp dst .w) = .reg dst := by
  simp [State.arg, regOp, Action.isWrite]

variable {op} in
theorem exec_movGprMem (hop : op.isMemory = true) : exec P { movGprMem dst op with
      decodedPc := pc, decodedLength := len, effectiveOperandWidth := width } s =
    s.writeReg P dst (s.app.mem.load dst.numBytes (s.address op)) := by
  have hsrc : s.arg { op with rw := .r } = .mem (s.address op) op.width := arg_of_isMemory s hop
  show s.move P [s.arg (regOp dst .w), s.arg { op with rw := .r }] = _
  rw [arg_regOp_w, hsrc]
  rfl

theorem exec_pushGpr50 : exec P { pushGpr50 src with
      decodedPc := pc, decodedLength := len, effectiveOperandWidth := width } s =
    { s with app := s.app.push (width / 8) (s.readReg src) } := rfl

variable {src op}

theorem arg_regOp (hsrc : (src.isGeneralPurpose || isStackPointer src) = true) :
    s.arg (regOp src .r) = .value (s.readReg src) := by
  simp [State.arg, regOp, Action.isWrite, hsrc]

theorem exec_movMemGpr (hop : op.isMemory = true)
    (hsrc : (src.isGeneralPurpose || isStackPointer src) = true) : exec P { movMemGpr op src with
      decodedPc := pc, decodedLength := len, effectiveOperandWidth := width } s =
    { s with app := { s.app with
      mem := s.app.mem.store (op.width / 8) (s.address op) (s.readReg src) } } := by
  have harg := arg_regOp s hsrc
  have hdst : s.arg { op with rw := .w } = .mem (s.address op) op.width := arg_of_isMemory s hop
  show s.move P [s.arg { op with rw := .w }, s.arg (regOp src .r)] = _
  rw [harg, hdst]
  rfl

theorem exec_movGprGpr89 (hsrc : (src.isGeneralPurpose || isStackPointer src) = true) :
    exec P { movGprGpr89 dst src with
      decodedPc := pc, decodedLength := len, effectiveOperandWidth := width } s =
    s.writeReg P dst (s.readReg src) := by
  show s.move P [s.arg (regOp dst .w), s.arg (regOp src .r)] = _
  rw [arg_regOp_w, arg_regOp s hsrc]
  rfl

end Exec

theorem effectiveAddress_baseDispMemOp (s : State ρ) (disp : ℤ) {base : VirtualRegister}
    (width : ℕ) (hbase : base.numBytes = 8) :
    s.effectiveAddress (baseDispMemOp disp base width) = s.readReg base + BitVec.ofInt 64 disp := by
  have hbytes : State.addressBytes base {} = 8 := by
    simp [State.addressBytes, hbase, VirtualRegister.isValid]
  have hindex : s.readReg {} = 0 := rfl
  unfold baseDispMemOp State.effectiveAddress
  by_cases hd : disp = 0
  · subst hd
    simp
  · simp only [ne_eq, hd, not_false_eq_true, if_true, hbytes, hindex, trunc_eight]
    simp

theorem address_baseDispMemOp (s : State ρ) (disp : ℤ) {base : VirtualRegister} (width : ℕ)
    (hbase : base.numBytes = 8) :
    s.address (baseDispMemOp disp base width) = s.readReg base + BitVec.ofInt 64 disp := by
  have hsegment : (baseDispMemOp disp base width).segment = none := rfl
  rw [State.address, effectiveAddress_baseDispMemOp s disp width hbase, hsegment]
  exact BitVec.zero_add _

theorem isMemory_baseDispMemOp (disp : ℤ) (base : VirtualRegister) (width : ℕ) :
    (baseDispMemOp disp base width).isMemory = true := by
  unfold baseDispMemOp Arch.Operand.isMemory
  split_ifs <;> rfl

end Granary.Arch.EarlyMangle
