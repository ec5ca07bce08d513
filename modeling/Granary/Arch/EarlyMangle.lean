import Granary.Arch.Instruction
import Granary.Arch.Branch

namespace Granary.Arch.EarlyMangle

/-- `VirtualRegister::IsStackPointer`; the field of that name also marks aliases. -/
def isStackPointer (r : VirtualRegister) : Bool := r.kind == .unschedulable && r.isStackPointer

def markAsStackPointerAlias (r : VirtualRegister) : VirtualRegister :=
  { r with isStackPointer := true }

def widen (r : VirtualRegister) (numBytes : ℕ) : VirtualRegister :=
  { r with numBytes, preservesBytesOnWrite := decide (numBytes < 4) }

/-- An operand with its segment, if that is `FS` or `GS`. -/
structure Operand extends Arch.Operand where
  segment : Option ℕ := none
  isSticky : Bool := false
deriving DecidableEq, Repr

inductive IClass
  | callNear | callFar | jmp | retNear | retFar | iret | push | pop | pushf | pushfq | popf | popfq
  | cli | sti | xlat | enter | leave | lea | mov | movzx | add | sub | inc | dec | other (n : ℕ)
deriving DecidableEq, Repr

inductive IForm
  | movGprGpr89 | pushGpr50 | pushFs | pushGs | popGpr51 | popFs | popGs | other
deriving DecidableEq, Repr

structure Instruction where
  iclass : IClass
  iform : IForm := .other
  ops : List Operand := []
  implicitOps : List Operand := []
  effectiveOperandWidth : ℕ := 0
  decodedPc : Addr := 0
  decodedLength : ℕ := 0
deriving DecidableEq, Repr

def Operand.isImmediate (op : Operand) : Bool :=
  match op.value with
  | .imm _ | .branchTarget _ => true
  | _ => false

def Operand.isStackPointer (op : Operand) : Bool :=
  match op.value with
  | .reg r => EarlyMangle.isStackPointer r
  | _ => false

/-- `AnalyzeOperandStackUsage`, as far as it is about reads. -/
def Operand.readsFromStackPointer (op : Operand) : Bool :=
  match op.value with
  | .reg r => EarlyMangle.isStackPointer r && (op.rw.isRead || op.rw.isConditionalWrite)
  | .compound base _ _ _ => EarlyMangle.isStackPointer base
  | .mem r => EarlyMangle.isStackPointer r
  | .ptr _ | .imm _ | .branchTarget _ => false

namespace Instruction

def readsFromStackPointer (i : Instruction) : Bool :=
  (i.ops ++ i.implicitOps).any (·.readsFromStackPointer)

def writesToStackPointer (i : Instruction) : Bool :=
  (i.ops ++ i.implicitOps).any fun op ↦ op.isStackPointer && op.rw.isWrite

def shiftsStackPointer (i : Instruction) : Bool :=
  match i.iclass with
  | .pop => !(i.ops[0]?.any (·.isStackPointer))
  | .pushf | .popf | .pushfq | .popfq | .push | .callNear | .retNear | .enter => true
  | .add | .sub => i.ops[0]?.any (·.isStackPointer) && i.ops[1]?.any (·.isImmediate)
  | .inc | .dec => i.ops[0]?.any (·.isStackPointer)
  | .lea =>
    i.ops[0]?.any (·.isStackPointer) && i.ops[1]?.any fun op ↦
      match op.value with
      | .compound base index _ scale =>
        EarlyMangle.isStackPointer base && !index.isValid && decide (scale ≤ 1)
      | _ => false
  | .callFar | .jmp | .retFar | .iret | .cli | .sti | .xlat | .leave | .mov | .movzx
  | .other _ => false

end Instruction

def regOp (r : VirtualRegister) (action : Action) : Operand :=
  { value := .reg r, width := 8 * r.numBytes, rw := action }

def baseDispMemOp (disp : ℤ) (base : VirtualRegister) (width : ℕ) : Operand :=
  { value := if disp ≠ 0 then .compound base {} disp 0 else .mem base, width }

def regRSP : VirtualRegister := { kind := .unschedulable, number := 78, isStackPointer := true }

def regRAX : VirtualRegister := { kind := .archGpr, number := 0 }

def regAL : VirtualRegister :=
  { kind := .archGpr, number := 0, numBytes := 1, preservesBytesOnWrite := true }

def regRBX : VirtualRegister := { kind := .archGpr, number := 3 }

def regRBP : VirtualRegister := { kind := .archGpr, number := 4 }

def leaGprAgen (dst : VirtualRegister) (src : Operand) : Instruction :=
  { iclass := .lea, ops := [regOp dst .w, { src with rw := .r }] }

def leaGprAgenIndex (dst base index : VirtualRegister) : Instruction :=
  leaGprAgen dst { value := .compound base index 0 1, width := 64 }

def movGprGpr89 (dst src : VirtualRegister) : Instruction :=
  { iclass := .mov, iform := .movGprGpr89, ops := [regOp dst .w, regOp src .r] }

def movGprMem (dst : VirtualRegister) (src : Operand) : Instruction :=
  { iclass := .mov, ops := [regOp dst .w, { src with rw := .r }] }

def movMemGpr (dst : Operand) (src : VirtualRegister) : Instruction :=
  { iclass := .mov, ops := [{ dst with rw := .w }, regOp src .r] }

/-- `MOV_GPRv_IMMv`, for a 64-bit immediate. -/
def movGprImm (dst : VirtualRegister) (imm : BitVec 64) : Instruction :=
  { iclass := .mov, ops := [regOp dst .w, { value := .imm imm, width := 64 }] }

/-- `MOV_GPRv_SEG` and `MOV_SEG_GPR16`. -/
def movSeg (dst src : VirtualRegister) : Instruction :=
  { iclass := .mov, ops := [regOp dst .w, regOp src .r] }

def movzx (dst src : VirtualRegister) : Instruction :=
  { iclass := .movzx, ops := [regOp dst .w, regOp src .r] }

def pushGpr50 (src : VirtualRegister) : Instruction :=
  { iclass := .push, iform := .pushGpr50, ops := [regOp src .r] }

def popGpr51 (dst : VirtualRegister) : Instruction :=
  { iclass := .pop, iform := .popGpr51, ops := [regOp dst .w] }

def Instruction.inPlaceOf (ni i : Instruction) (width : ℕ) : Instruction :=
  { ni with
    decodedPc := i.decodedPc, decodedLength := i.decodedLength, effectiveOperandWidth := width }

inductive Item
  | annotInvalidStack
  | annotInterruptDeliveryStateChange
  | native (i : Instruction)
deriving DecidableEq, Repr

structure EarlyMangler where
  regNum : ℕ := 0
  /-- What has been appended to the block. -/
  block : List Item := []

namespace EarlyMangler

/-- `AllocateVirtualRegister`, where the registers are numbered as they are in `regs`. -/
def allocateVirtualRegister (m : EarlyMangler) (numBytes : ℕ) : VirtualRegister × EarlyMangler :=
  let reg : VirtualRegister := { kind := .virtualGpr, number := m.regNum }
  (if numBytes ≠ 8 then widen reg numBytes else reg, { m with regNum := m.regNum + 1 })

def append (m : EarlyMangler) (x : Item) : EarlyMangler := { m with block := m.block ++ [x] }

def app (m : EarlyMangler) (ni : Instruction) : EarlyMangler := m.append (.native ni)

def appNative (m : EarlyMangler) (instr ni : Instruction) : EarlyMangler :=
  m.app { ni with
    decodedPc := instr.decodedPc, effectiveOperandWidth := instr.effectiveOperandWidth }

end EarlyMangler

def mangleExplicitMemOp (m : EarlyMangler) (op : Operand) : Operand × EarlyMangler :=
  match op.value with
  | .compound base index disp _ =>
    if op.isSticky then
      if disp = 0 ∧ ¬ index.isValid then ({ op with value := .mem base }, m) else (op, m)
    else
      let (memReg, m) := m.allocateVirtualRegister 8
      let memReg := if isStackPointer base then markAsStackPointerAlias memReg else memReg
      ({ op with value := .mem memReg }, m.app (leaGprAgen memReg { op with segment := none }))
  | _ => (op, m)

def moveStackPointerToGPR (i : Instruction) (reg : VirtualRegister) : Instruction :=
  (leaGprAgen (markAsStackPointerAlias reg) (baseDispMemOp 0 regRSP 64)).inPlaceOf i 0

def mangleStackPointerOperand (m : EarlyMangler) (op : Operand) (numBytes : ℕ) :
    Operand × EarlyMangler :=
  let (sp, m) := m.allocateVirtualRegister 8
  let sp := markAsStackPointerAlias sp
  let m := m.app (leaGprAgen sp (baseDispMemOp 0 regRSP 64))
  ({ op with value := .reg (widen sp numBytes) }, m)

def mangleSegmentOffset (m : EarlyMangler) (op : Operand) (addr : BitVec 64) :
    Operand × EarlyMangler :=
  let (offset, m) := m.allocateVirtualRegister 8
  ({ op with value := .mem offset }, m.app (movGprImm offset addr))

/-- The loop of `MangleExplicitOps`, from the operands `todo` on. The stack pointer is
the last operand of the move that becomes a `LEA`, which ends the loop. -/
def mangleExplicitOpsFrom (i : Instruction) (done : List Operand) :
    List Operand → EarlyMangler → Instruction × EarlyMangler
  | [], m => ({ i with ops := done }, m)
  | op :: todo, m =>
    match op.value with
    | .mem _ | .compound .. =>
      let (op, m) := mangleExplicitMemOp m op
      mangleExplicitOpsFrom i (done ++ [op]) todo m
    | .ptr addr =>
      if op.segment.isSome then
        let (op, m) := mangleSegmentOffset m op addr
        mangleExplicitOpsFrom i (done ++ [op]) todo m
      else mangleExplicitOpsFrom i (done ++ [op]) todo m
    | .reg r =>
      if isStackPointer r && !op.rw.isWrite then
        if i.iform = .movGprGpr89 ∧ i.effectiveOperandWidth = 64 then
          match done with
          | { value := .reg reg, .. } :: _ => (moveStackPointerToGPR i reg, m)
          | _ => ({ i with ops := done ++ op :: todo }, m)
        else
          let (op, m) := mangleStackPointerOperand m op r.numBytes
          mangleExplicitOpsFrom i (done ++ [op]) todo m
      else mangleExplicitOpsFrom i (done ++ [op]) todo m
    | .imm _ | .branchTarget _ => mangleExplicitOpsFrom i (done ++ [op]) todo m

def mangleExplicitOps (m : EarlyMangler) (i : Instruction) : Instruction × EarlyMangler :=
  mangleExplicitOpsFrom i [] i.ops m

/-- `APP_NATIVE_MANGLED`. What is mangled is always a move, so that its mangling is
`MangleExplicitOps`. -/
def EarlyMangler.appNativeMangled (m : EarlyMangler) (instr ni : Instruction) : EarlyMangler :=
  let (ni, m) := mangleExplicitOps m { ni with
    decodedPc := instr.decodedPc, effectiveOperandWidth := instr.effectiveOperandWidth }
  m.app ni

def mangleIndirectCFI (m : EarlyMangler) (i : Instruction) (aop : Operand) :
    Instruction × EarlyMangler :=
  let (targetLoc, m) := m.allocateVirtualRegister 8
  if aop.isMemory then
    let m := m.appNativeMangled i (movGprMem targetLoc aop)
    ({ i with ops := [{ aop with value := .reg targetLoc, isSticky := false, segment := none }] }, m)
  else
    match aop.value with
    | .reg r =>
      if !r.isVirtual then
        ({ i with ops := [{ aop with value := .reg targetLoc }] }, m.app (movGprGpr89 targetLoc r))
      else (i, m)
    | _ => (i, m)

def manglePushMemOp (m : EarlyMangler) (i : Instruction) (op : Operand) :
    Instruction × EarlyMangler :=
  let stackShift := i.effectiveOperandWidth / 8
  let (vr, m) := m.allocateVirtualRegister stackShift
  let m := m.appNativeMangled i (movGprMem vr op)
  ({ i with iform := .pushGpr50, ops := [{ op with value := .reg vr }] }, m)

def manglePushSegReg (m : EarlyMangler) (i : Instruction) (op : Operand) (seg : VirtualRegister) :
    Instruction × EarlyMangler :=
  let (vr16, m) := m.allocateVirtualRegister 2
  let vr32 := widen vr16 4
  let m := m.app (movSeg vr16 seg)
  let m := m.app (movzx vr32 vr16)
  let stackShift := i.effectiveOperandWidth / 8
  ({ i with
      iform := .pushGpr50
      ops := [{ op with
        value := .reg (widen vr16 stackShift), width := i.effectiveOperandWidth,
        isSticky := false }] }, m)

def manglePush (m : EarlyMangler) (i : Instruction) (op : Operand) : Instruction × EarlyMangler :=
  if op.isMemory then manglePushMemOp m i op
  else
    match op.value with
    | .reg r =>
      if i.iform = .pushFs ∨ i.iform = .pushGs then manglePushSegReg m i op r else (i, m)
    | _ => (i, m)

def addDisp (disp : ℤ) (shift : ℕ) : ℤ := (BitVec.ofInt 32 (disp + shift)).toInt

def manglePopMemOp (m : EarlyMangler) (i : Instruction) (op : Operand) :
    Instruction × EarlyMangler :=
  let stackShift := i.effectiveOperandWidth / 8
  let (vr, m) := m.allocateVirtualRegister stackShift
  let m := m.app (movGprMem vr (baseDispMemOp 0 regRSP i.effectiveOperandWidth))
  let op := match op.value with
    | .compound base index disp scale =>
      if isStackPointer base then
        { op with value := .compound base index (addDisp disp stackShift) scale }
      else op
    | .mem r => if isStackPointer r then baseDispMemOp stackShift regRSP op.width else op
    | _ => op
  let m := m.appNativeMangled i (movMemGpr op vr)
  ((leaGprAgen regRSP (baseDispMemOp stackShift regRSP 64)).inPlaceOf i 0, m)

def manglePopStackPointer (m : EarlyMangler) (i : Instruction) (r : VirtualRegister) :
    Instruction × EarlyMangler :=
  let stackMemOp := baseDispMemOp 0 regRSP i.effectiveOperandWidth
  mangleExplicitOps m ((movGprMem r stackMemOp).inPlaceOf i i.effectiveOperandWidth)

def manglePopSegReg (m : EarlyMangler) (i : Instruction) (op : Operand) (segReg : VirtualRegister) :
    Instruction × EarlyMangler :=
  let stackShift := i.effectiveOperandWidth / 8
  let (vr, m) := m.allocateVirtualRegister stackShift
  let vr16 := widen vr 2
  let m := m.app { i with
    iform := .popGpr51
    ops := [{ op with value := .reg vr, width := i.effectiveOperandWidth, isSticky := false }] }
  ((movSeg segReg vr16).inPlaceOf i 16, m)

def manglePop (m : EarlyMangler) (i : Instruction) (op : Operand) : Instruction × EarlyMangler :=
  if op.isMemory then manglePopMemOp m i op
  else
    match op.value with
    | .reg r =>
      if isStackPointer r then manglePopStackPointer m i r
      else if i.iform = .popFs ∨ i.iform = .popGs then manglePopSegReg m i op r
      else (i, m)
    | _ => (i, m)

def mangleXLAT (m : EarlyMangler) (i : Instruction) : Instruction × EarlyMangler :=
  let (addr, m) := m.allocateVirtualRegister 8
  let m := m.app (movzx addr regAL)
  let m := m.app (leaGprAgenIndex addr addr regRBX)
  ((movGprMem regAL { value := .mem addr, width := 8 }).inPlaceOf i 0, m)

/-- One turn of the loop of `MangleEnter`. -/
def copyDisplay (i : Instruction) (numArgs : ℕ) (copiedAddr destAddr copiedVal : VirtualRegister)
    (m : EarlyMangler) (k : ℕ) : EarlyMangler :=
  let rbpDisp : ℤ := -(k * 8 : ℕ)
  let rspDisp : ℤ := ((numArgs - k - 1) * 8 : ℕ)
  let m := m.app (leaGprAgen copiedAddr (baseDispMemOp rbpDisp regRBP 64))
  let m := m.app (leaGprAgen destAddr (baseDispMemOp rspDisp regRSP 64))
  let m := m.appNative i (movGprMem copiedVal (baseDispMemOp 0 copiedAddr 64))
  m.appNative i (movMemGpr (baseDispMemOp 0 destAddr 64) copiedVal)

/-- What `MangleEnter` appends for a display. -/
def mangleDisplay (m : EarlyMangler) (i : Instruction) (numArgs : ℕ) (tempRbp : VirtualRegister) :
    EarlyMangler :=
  let disp : ℤ := -((numArgs - 1 : ℕ) : ℤ) * 8
  let m := m.appNative i (leaGprAgen regRSP (baseDispMemOp disp regRSP 64))
  let (copiedAddr, m) := m.allocateVirtualRegister 8
  let (destAddr, m) := m.allocateVirtualRegister 8
  let (copiedVal, m) := m.allocateVirtualRegister 8
  let destAddr := markAsStackPointerAlias destAddr
  let m := (List.range' 1 (numArgs - 1)).foldl
    (copyDisplay i numArgs copiedAddr destAddr copiedVal) m
  m.appNative i (pushGpr50 tempRbp)

def mangleEnter (m : EarlyMangler) (i : Instruction) (imm0 imm1 : BitVec 64) :
    Instruction × EarlyMangler :=
  let frameSize := (imm0 &&& 0xFFFF).toNat
  let numArgs := (imm1 &&& 0x1F).toNat
  let (tempRbp, m) := m.allocateVirtualRegister 8
  let tempRbp := markAsStackPointerAlias tempRbp
  let m := m.appNative i (pushGpr50 regRBP)
  let m := m.appNative i (leaGprAgen tempRbp (baseDispMemOp 0 regRSP 64))
  let m := if numArgs ≠ 0 then mangleDisplay m i numArgs tempRbp else m
  let m := if frameSize ≠ 0 then
      m.app (leaGprAgen regRSP (baseDispMemOp (-frameSize) regRSP 64))
    else m
  ((movGprGpr89 regRBP tempRbp).inPlaceOf i 64, m)

def mangleLeave (m : EarlyMangler) (i : Instruction) : Instruction × EarlyMangler :=
  let m := m.appNative i (movGprGpr89 regRSP regRBP)
  ((popGpr51 regRBP).inPlaceOf i 64, m)

def manglePushFlags (m : EarlyMangler) (i : Instruction) : Instruction × EarlyMangler :=
  let (reg, m) := m.allocateVirtualRegister 8
  ({ i with ops := [{ value := .reg reg, width := i.effectiveOperandWidth, rw := .w }] }, m)

def Instruction.invalidatesStack (i : Instruction) : Bool :=
  i.writesToStackPointer && !i.shiftsStackPointer &&
    i.iclass != .retFar && i.iclass != .callFar && i.iclass != .iret

/-- `MangleDecodedInstruction`: the instruction as it is appended in the end, and what
comes before it. -/
def mangleDecodedInstruction (i : Instruction) : Instruction × EarlyMangler :=
  let m : EarlyMangler := {}
  let m := if i.invalidatesStack then m.append .annotInvalidStack else m
  match i.iclass, i.ops with
  | .callNear, [aop] | .jmp, [aop] => mangleIndirectCFI m i aop
  | .push, [op] => manglePush m i op
  | .pop, [op] => manglePop m i op
  | .xlat, _ => mangleXLAT m i
  | .enter, [op₀, op₁] =>
    match op₀.value, op₁.value with
    | .imm imm0, .imm imm1 => mangleEnter m i imm0 imm1
    | _, _ => (i, m)
  | .leave, _ => mangleLeave m i
  | .pushf, _ | .pushfq, _ => manglePushFlags m i
  | .popf, _ | .popfq, _ | .cli, _ | .sti, _ => (i, m.append .annotInterruptDeliveryStateChange)
  | .lea, op :: ops =>
    match op.value with
    | .reg r =>
      if i.readsFromStackPointer then
        ({ i with ops := { op with value := .reg (markAsStackPointerAlias r) } :: ops }, m)
      else (i, m)
    | _ => (i, m)
  | _, _ => mangleExplicitOps m i

def mangled (i : Instruction) : List Item :=
  let (i, m) := mangleDecodedInstruction i
  m.block ++ [.native i]

end Granary.Arch.EarlyMangle
