import Granary.Arch.Instruction
import Granary.Base.Format

namespace Granary.Assemble.CompileInlineAssembly

open Granary.Arch (RegisterKind Action)
open Granary.Base.Format (deFormat)

-- The numbers of `xed_reg_enum_t`; the general-purpose registers of each width are in one order.
abbrev regInvalid : ℕ := 0
abbrev regAX : ℕ := 42
abbrev regEAX : ℕ := 58
abbrev regRAX : ℕ := 74
abbrev regRSP : ℕ := 78
abbrev regR15 : ℕ := 89
abbrev regAL : ℕ := 90
abbrev regAH : ℕ := 106
abbrev regBH : ℕ := 109
abbrev regDS : ℕ := 154
abbrev regFS : ℕ := 157
abbrev regGS : ℕ := 158
abbrev regLast : ℕ := 280

/-- A register that is not part of a general-purpose one stands for itself: only whether the largest
register is a general-purpose one matters. -/
def getLargestEnclosingRegister (reg : ℕ) : ℕ :=
  if regAX ≤ reg ∧ reg < regEAX then reg - regAX + regRAX
  else if regEAX ≤ reg ∧ reg < regRAX then reg - regEAX + regRAX
  else if regAL ≤ reg ∧ reg < regAH then reg - regAL + regRAX
  else if regAH ≤ reg ∧ reg ≤ regBH then reg - regAH + regRAX
  else reg

-- The bytes of a general-purpose register, one bit each.
abbrev lowByte : ℕ := 0x1
abbrev byte2 : ℕ := 0x2
abbrev low2Bytes : ℕ := 0x3
abbrev low4Bytes : ℕ := 0xF
abbrev all8Bytes : ℕ := 0xFF
abbrev high6Bytes : ℕ := 0xFC
abbrev high7Bytes : ℕ := 0xFE
abbrev high6Low1Byte : ℕ := 0xFD

structure VirtualRegister where
  regNum : ℕ := 0
  kind : RegisterKind := .invalid
  numBytes : ℕ := 0
  byteMask : ℕ := 0
  preservedByteMask : ℕ := 0
  isLegacy : Bool := false
  isScheduled : Bool := false
  isStackPointer : Bool := false
  deriving DecidableEq, Repr

namespace VirtualRegister

def isValid (r : VirtualRegister) : Bool := r.kind != .invalid

def isNative (r : VirtualRegister) : Bool := r.kind == .unschedulable || r.kind == .archGpr

def isGeneralPurpose (r : VirtualRegister) : Bool := r.kind == .archGpr || r.kind == .virtualGpr

/-- The bytes that a part of a general-purpose register names, and those that a write to it keeps. -/
def nativeBytes (reg : ℕ) : ℕ × ℕ :=
  if reg < regEAX then (low2Bytes, high6Bytes)
  else if reg < regRAX then (low4Bytes, 0)
  else if reg < regAL then (all8Bytes, 0)
  else if reg < regAH then (lowByte, high7Bytes)
  else (byte2, high6Low1Byte)

def decodeFromNative (widthBits : ℕ → ℕ) (reg : ℕ) : VirtualRegister :=
  if reg = regInvalid ∨ regLast ≤ reg then {}
  else
    let widestReg := getLargestEnclosingRegister reg
    let numBytes := widthBits reg / 8 % 2 ^ 8
    let isStackPointer := decide (widestReg = regRSP)
    if widestReg < regRAX ∨ regR15 < widestReg ∨ isStackPointer then
      { regNum := reg
        kind := .unschedulable
        numBytes := numBytes
        isScheduled := true
        isStackPointer := isStackPointer }
    else
      { regNum := if regRSP < widestReg then widestReg - regRAX - 1 else widestReg - regRAX
        kind := .archGpr
        numBytes := numBytes
        byteMask := (nativeBytes reg).1
        preservedByteMask := (nativeBytes reg).2
        isLegacy := decide (regAH ≤ reg ∧ reg ≤ regBH)
        isScheduled := true }

def encodeToNative (r : VirtualRegister) : ℕ :=
  match r.kind with
  | .unschedulable => r.regNum
  | .archGpr =>
    let widestReg := r.regNum + regRAX
    let widestReg := if regRSP ≤ widestReg then widestReg + 1 else widestReg
    if r.byteMask = low2Bytes then widestReg - (regRAX - regAX)
    else if r.byteMask = low4Bytes then widestReg - (regRAX - regEAX)
    else if r.byteMask = all8Bytes then widestReg
    else if r.byteMask = lowByte then widestReg + (regAL - regRAX)
    else if r.byteMask = byte2 then widestReg + (regAH - regRAX)
    else regInvalid
  | .invalid | .virtualGpr | .slot => regInvalid

/-- Only the widths of a general-purpose register are known. -/
def widen (r : VirtualRegister) : ℕ → Option VirtualRegister
  | 1 => some { r with numBytes := 1, byteMask := lowByte, preservedByteMask := high7Bytes }
  | 2 => some { r with numBytes := 2, byteMask := low2Bytes, preservedByteMask := high6Bytes }
  | 4 => some { r with numBytes := 4, byteMask := low4Bytes, preservedByteMask := 0 }
  | 8 => some { r with numBytes := 8, byteMask := all8Bytes, preservedByteMask := 0 }
  | _ => none

/-- `AllocateVirtualRegister` with the width of a general-purpose register. -/
def allocate (regNum : ℕ) : VirtualRegister :=
  { regNum := regNum, kind := .virtualGpr, numBytes := 8, byteMask := all8Bytes }

end VirtualRegister

inductive OperandType where
  | invalid
  | brdisp
  | mem
  | reg
  | imm0
  | simm0
  | imm1
  | ptr
  deriving DecidableEq, Repr

structure Mem where
  base : VirtualRegister := {}
  index : VirtualRegister := {}
  disp : BitVec 32 := 0
  scale : ℕ := 0
  deriving DecidableEq, Repr

/-- The union of an operand, by the member it was written through. The register of a memory operand
that is not compound is its base. -/
inductive Value where
  | zero
  | reg (r : VirtualRegister)
  | mem (m : Mem)
  | addr (a : BitVec 64)
  | imm (v : BitVec 64)
  | annotationInstr (label : ℕ)
  deriving DecidableEq, Repr

structure Operand where
  type : OperandType := .invalid
  value : Value := .zero
  width : ℕ := 0
  rw : Action := .invalid
  segment : ℕ := regInvalid
  isSticky : Bool := false
  isExplicit : Bool := false
  isCompound : Bool := false
  isEffectiveAddress : Bool := false
  isAnnotationInstr : Bool := false
  deriving DecidableEq, Repr

namespace Operand

def isRegister (op : Operand) : Bool := op.type == .reg

def isMemory (op : Operand) : Bool := op.type == .mem || op.type == .ptr

def isImmediate (op : Operand) : Bool :=
  op.type == .brdisp || op.type == .imm0 || op.type == .simm0 || op.type == .imm1

def copy (op : Operand) : Operand :=
  { op with isEffectiveAddress := false, isExplicit := true, isSticky := false }

end Operand

/-- The instruction classes that the parser tells apart. -/
inductive IClass where
  | bndcl
  | bndcn
  | bndcu
  | bndmk
  | clflush
  | clflushopt
  | lea
  | prefetch (n : ℕ)
  | retFar
  | retNear
  | other (n : ℕ)
  deriving DecidableEq, Repr

inductive Category where
  | call
  | condBr
  | uncondBr
  | interrupt
  | push
  | pop
  | other
  deriving DecidableEq, Repr

structure Prefixes where
  lock : Bool := false
  rep : Bool := false
  repne : Bool := false
  deriving DecidableEq, Repr

structure Instruction where
  iclass : IClass
  category : Category
  prefixes : Prefixes
  ops : List Operand := []
  implicitOps : List Operand := []
  iform : ℕ := 0
  isel : ℕ := 0
  effectiveOperandWidth : ℕ := 0
  isStackBlind : Bool := false
  deriving DecidableEq, Repr

def maxNumOperands : ℕ := 11

/-- The instruction form that was selected, what it does to each explicit operand, and its implicit
operands. -/
structure Selection where
  iform : ℕ
  isel : ℕ
  rw : ℕ → Action
  implicitOps : List Operand
  writesDirectionFlag : Bool

structure Xed where
  regName : ℕ → List Char
  strToReg : List Char → ℕ
  registerWidthBits : ℕ → ℕ
  iclassName : IClass → List Char
  strToIClass : List Char → Option IClass
  iclassCategory : IClass → Category
  selectInstruction : IClass → List Operand → Option Selection

namespace Instruction

def isJump (i : Instruction) : Bool := i.category == .uncondBr || i.category == .condBr

def isFunctionCall (i : Instruction) : Bool := i.category == .call

def isFunctionReturn (i : Instruction) : Bool := i.iclass == .retFar || i.iclass == .retNear

def isInterruptCall (i : Instruction) : Bool := i.category == .interrupt

end Instruction

def IClass.isEffectiveAddress : IClass → Bool
  | .bndcl | .bndcn | .bndcu | .bndmk | .clflush | .clflushopt | .lea | .prefetch _ => true
  | .retFar | .retNear | .other _ => false

def isWhiteSpace (c : Char) : Bool := c == ' ' || c == '\t' || c == '\n'

def endsWord (c : Char) : Bool :=
  isWhiteSpace c || c == ';' || c == ',' || c == ':' || c == '[' || c == ']'

def peek (next : Char) (ch : List Char) : Bool := ch.head? == some next

def peekNumber (ch : List Char) : Bool := ch.head?.any fun c ↦ '0' ≤ c ∧ c ≤ '9'

def peekAlpha (ch : List Char) : Bool := ch.head?.any fun c ↦ 'A' ≤ c ∧ c ≤ 'Z'

def accept (next : Char) (ch : List Char) : Option (List Char) :=
  if peek next ch then some ch.tail else none

def consumeWhiteSpace (ch : List Char) : List Char := ch.dropWhile isWhiteSpace

def buffSize : ℕ := 20

/-- The word at the front of a text, and the text after it. A longer one runs over the buffer. -/
def parseWord (ch : List Char) : Option (List Char × List Char) :=
  let buff := ch.takeWhile fun c ↦ !endsWord c
  if buff.length < buffSize then some (buff, ch.dropWhile fun c ↦ !endsWord c) else none

def maxNumInlineVars : ℕ := 16

abbrev Vars := ℕ → Option Operand

/-- The variables of the scope that are initialised, and what the next label and virtual register
are called. -/
structure Scope where
  vars : Vars
  nextLabel : ℕ
  nextRegister : ℕ

def parseVar (ch : List Char) : Option (ℕ × List Char) := do
  let ch ← accept '%' ch
  let (buff, ch) ← parseWord ch
  let (_, stores) ← deFormat buff ['%', 'u']
  let varNum := match stores with
    | [.word v] => v.toNat
    | _ => maxNumInlineVars
  guard (maxNumInlineVars > varNum)
  some (varNum, ch)

def initLabelVar (s : Scope) (varNum : ℕ) : Operand × Scope :=
  match s.vars varNum with
  | some aop => (aop, s)
  | none =>
    let aop : Operand :=
      { type := .brdisp
        value := .annotationInstr s.nextLabel
        width := 64
        isAnnotationInstr := true }
    (aop, { s with vars := Function.update s.vars varNum aop, nextLabel := s.nextLabel + 1 })

def initRegVar (s : Scope) (varNum : ℕ) : Operand × Scope :=
  match s.vars varNum with
  | some aop => (aop, s)
  | none =>
    let aop : Operand :=
      { type := .reg, value := .reg (.allocate s.nextRegister), width := 64 }
    (aop, { s with vars := Function.update s.vars varNum aop, nextRegister := s.nextRegister + 1 })

def parseArchRegister (x : Xed) (ch : List Char) : Option (VirtualRegister × List Char) := do
  let (buff, ch) ← parseWord ch
  some (.decodeFromNative x.registerWidthBits (x.strToReg buff), consumeWhiteSpace ch)

def parseOperandVar (vars : Vars) (ch : List Char) : Option (Operand × List Char) := do
  let (varNum, ch) ← parseVar ch
  let aop ← vars varNum
  some (aop, consumeWhiteSpace ch)

/-- The register of an operand, at the width of a general-purpose register. -/
def Operand.widenedReg (op : Operand) : Option VirtualRegister :=
  match op.value with
  | .reg r => r.widen 8
  | _ => none

def parseRegisterVar (vars : Vars) (ch : List Char) : Option (VirtualRegister × List Char) := do
  let (aop, ch) ← parseOperandVar vars ch
  guard aop.isRegister
  let reg ← aop.widenedReg
  some (reg, ch)

def parsePointerOperand (ch : List Char) : Option (BitVec 64 × List Char) := do
  let (buff, ch) ← parseWord ch
  let (_, stores) ← deFormat buff (if buff.head? = some '0' then ['%', 'l', 'x'] else ['%', 'l', 'u'])
  match stores with
  | [.long v] => some (v, ch)
  | _ => some (0, ch)

inductive MemState where
  | parseReg
  | interpretRegAsBase
  | interpretRegAsIndex
  | tryParseIndexOrDisp
  | parseScale
  | parseDisp
  deriving DecidableEq, Repr

structure MemParser where
  state : MemState := .parseReg
  reg : VirtualRegister := {}
  mem : Mem := {}
  ch : List Char
  deriving DecidableEq, Repr

/-- The loop over the states goes on, or is left for good. -/
inductive Outcome where
  | next (m : MemParser)
  | done (m : MemParser)
  deriving DecidableEq, Repr

def interpretRegAsBase (m : MemParser) : Option Outcome := do
  guard m.reg.isValid
  let m := { m with mem := { m.mem with base := m.reg } }
  if peek '+' m.ch then
    let ch ← accept '+' m.ch
    some (.next { m with state := .tryParseIndexOrDisp, ch := consumeWhiteSpace ch })
  else
    guard (peek ']' m.ch)
    some (.next m)

def interpretRegAsIndex (m : MemParser) : Option Outcome := do
  guard m.reg.isValid
  let m := { m with mem := { m.mem with index := m.reg, scale := 1 } }
  if peek '*' m.ch then
    let ch ← accept '*' m.ch
    some (.next { m with state := .parseScale, ch := consumeWhiteSpace ch })
  else if peek '+' m.ch then
    let ch ← accept '+' m.ch
    some (.next { m with state := .parseDisp, ch := consumeWhiteSpace ch })
  else
    guard (peek ']' m.ch)
    some (.next m)

def Operand.disp (op : Operand) : Option (BitVec 32) :=
  match op.value with
  | .imm v => if (v.setWidth 32).signExtend 64 = v then some (v.setWidth 32) else none
  | _ => none

def parseScaleDigit : List Char → Option ℕ
  | '1' :: _ => some 1
  | '2' :: _ => some 2
  | '4' :: _ => some 4
  | '8' :: _ => some 8
  | _ => none

def memStep (x : Xed) (vars : Vars) (m : MemParser) : Option Outcome :=
  match m.state with
  | .parseReg => do
    let (reg, ch) ←
      if peek '%' m.ch then parseRegisterVar vars m.ch
      else do
        guard (peekAlpha m.ch)
        parseArchRegister x m.ch
    let m := { m with reg := reg, ch := ch }
    if peek '+' ch || peek ']' ch then
      interpretRegAsBase { m with state := .interpretRegAsBase }
    else if peek '*' ch then some (.next { m with state := .interpretRegAsIndex })
    else some (.next m)
  | .interpretRegAsBase => interpretRegAsBase m
  | .interpretRegAsIndex => interpretRegAsIndex m
  | .tryParseIndexOrDisp =>
    if peekNumber m.ch then some (.next { m with state := .parseDisp })
    else if peekAlpha m.ch then do
      let (reg, ch) ← parseArchRegister x m.ch
      interpretRegAsIndex { m with state := .interpretRegAsIndex, reg := reg, ch := ch }
    else if peek '%' m.ch then do
      let (aop, ch) ← parseOperandVar vars m.ch
      if aop.isRegister then
        let reg ← aop.widenedReg
        interpretRegAsIndex { m with state := .interpretRegAsIndex, reg := reg, ch := ch }
      else
        guard aop.isImmediate
        let disp ← aop.disp
        some (.done { m with mem := { m.mem with disp := disp }, ch := ch })
    else none
  | .parseScale => do
    let (buff, ch) ← parseWord m.ch
    let ch := consumeWhiteSpace ch
    let scale ← parseScaleDigit buff
    let m := { m with mem := { m.mem with scale := scale }, ch := ch }
    if peek '+' ch then
      let ch ← accept '+' ch
      some (.next { m with state := .parseDisp, ch := consumeWhiteSpace ch })
    else some (.done m)
  | .parseDisp =>
    if peekNumber m.ch then do
      let (buff, ch) ← parseWord m.ch
      let (_, stores) ← deFormat buff (if buff.head? = some '0' then ['%', 'x'] else ['%', 'd'])
      let disp := match stores with
        | [.word v] => v
        | _ => m.mem.disp
      some (.done { m with mem := { m.mem with disp := disp }, ch := ch })
    else if peek '%' m.ch then do
      let (aop, ch) ← parseOperandVar vars m.ch
      guard aop.isImmediate
      let disp ← aop.disp
      some (.done { m with mem := { m.mem with disp := disp }, ch := ch })
    else none

def memLoop (x : Xed) (vars : Vars) : ℕ → MemParser → Option MemParser
  | 0, _ => none
  | fuel + 1, m =>
    if peek ']' m.ch then some m
    else
      match memStep x vars m with
      | some (.next m) => memLoop x vars fuel m
      | some (.done m) => some m
      | none => none

def Mem.isCompound (m : Mem) : Bool :=
  m.disp != 0 || 1 < m.scale || (m.base.isValid && m.index.isValid)

/-- The base is preferred to an index that is neither scaled nor displaced. -/
def Mem.canonicalize (m : Mem) : Mem :=
  if !m.isCompound && m.index.isValid then { m with base := m.index, index := {}, scale := 0 } else m

def parseCompoundMemoryOperand (x : Xed) (vars : Vars) (ch : List Char) :
    Option (Operand × List Char) := do
  let ch ← accept '[' ch
  let ch := consumeWhiteSpace ch
  if peekNumber ch then
    let (a, ch) ← parsePointerOperand ch
    let ch ← accept ']' (consumeWhiteSpace ch)
    some ({ type := .ptr, value := .addr a }, ch)
  else
    -- every two turns of the loop read a character
    let m ← memLoop x vars (2 * ch.length + 2) { ch := ch }
    guard (m.mem.base.isValid || m.mem.index.isValid)
    let ch ← accept ']' (consumeWhiteSpace m.ch)
    some ({ type := .mem, value := .mem m.mem.canonicalize, isCompound := m.mem.isCompound }, ch)

def parseSegment (x : Xed) (vars : Vars) (name : List Char) (ch : List Char) :
    Option (Operand × List Char) := do
  let (buff, ch) ← parseWord ch
  guard (buff = name)
  let ch ← accept ':' ch
  parseCompoundMemoryOperand x vars ch

def parseMemoryOperand (x : Xed) (vars : Vars) (iclass : IClass) (ch : List Char) :
    Option (Operand × List Char) := do
  let (op, segReg, ch) ←
    if peek '[' ch then do
      let (op, ch) ← parseCompoundMemoryOperand x vars ch
      some (op, regInvalid, ch)
    else if peek 'F' ch then do
      let (op, ch) ← parseSegment x vars ['F', 'S'] ch
      some (op, regFS, ch)
    else if peek 'G' ch then do
      let (op, ch) ← parseSegment x vars ['G', 'S'] ch
      some (op, regGS, ch)
    else if peek '%' ch then do
      let (varNum, ch) ← parseVar ch
      let aop ← vars varNum
      match aop.type, aop.value with
      | .reg, .reg r => do
        let segReg := r.encodeToNative
        guard (segReg ≠ regInvalid ∧ segReg ≠ regDS)
        let ch ← accept ':' ch
        let (op, ch) ← parseCompoundMemoryOperand x vars ch
        some (op, segReg, ch)
      | _, _ => do
        guard aop.isMemory
        some (aop.copy, regInvalid, ch)
    else some ({}, regInvalid, ch)
  guard (!(iclass.isEffectiveAddress && segReg != regInvalid))
  some ({ op with segment := segReg, isEffectiveAddress := iclass.isEffectiveAddress }, ch)

def parseRegisterOperand (x : Xed) (s : Scope) (width : ℕ) (ch : List Char) :
    Option (Operand × Scope × List Char) := do
  let (op, s, ch) ←
    if peek '%' ch then do
      let (varNum, ch) ← parseVar ch
      let (aop, s) := initRegVar s varNum
      some (aop.copy, s, ch)
    else do
      let (buff, ch) ← parseWord ch
      let reg := x.strToReg buff
      guard (reg ≠ regInvalid)
      some ({ type := .reg, value := .reg (.decodeFromNative x.registerWidthBits reg) }, s, ch)
  match op.value with
  | .reg r => do
    let r ← r.widen (width / 8)
    some ({ op with value := .reg r }, s, ch)
  | _ => none

def immediateFormat : List Char → List Char × List Char
  | '0' :: 'x' :: buff | '0' :: 'X' :: buff => (buff, ['%', 'l', 'x'])
  | buff => (buff, ['%', 'l', 'u'])

def parseImmediateLiteralOperand (numImmediates : ℕ) (ch : List Char) :
    Option (Operand × ℕ × List Char) := do
  let (buff, ch) ← parseWord ch
  let negate := decide (buff.head? = some '-')
  let (buff, form) := immediateFormat (if negate then buff.tail else buff)
  let (got, stores) ← deFormat buff form
  guard (1 = got)
  let num := match stores with
    | [.long v] => v
    | _ => 0
  if numImmediates = 0 then
    some ({ type := if negate then .simm0 else .imm0, value := .imm (if negate then -num else num) },
      numImmediates + 1, ch)
  else some ({ type := .imm1, value := .imm num }, numImmediates, ch)

def parseImmediateOperand (vars : Vars) (numImmediates : ℕ) (ch : List Char) :
    Option (Operand × ℕ × List Char) :=
  if peek '%' ch then do
    let (varNum, ch) ← parseVar ch
    let aop ← vars varNum
    guard aop.isImmediate
    some (aop.copy, numImmediates, ch)
  else parseImmediateLiteralOperand numImmediates ch

def parseLabelOperand (s : Scope) (iclass : IClass) (ch : List Char) :
    Option (Operand × Scope × List Char) := do
  let (varNum, ch) ← parseVar ch
  let (aop, s) := initLabelVar s varNum
  match aop.value with
  | .annotationInstr _ =>
    some ({ aop.copy with
      isEffectiveAddress := iclass.isEffectiveAddress
      type := if iclass.isEffectiveAddress then .ptr else aop.type }, s, ch)
  | _ => none

def parseOperandType (buff : List Char) : Option (Char × ℕ) := do
  let (_, stores) ← deFormat buff ['%', 'c', '%', 'u']
  match stores with
  | [.char type, .word width] => some (type, width.toNat)
  | [.char type] => some (type, 0)
  | _ => none

def parseOperand (x : Xed) (iclass : IClass) (s : Scope) (numImmediates : ℕ) (ch : List Char) :
    Option (Operand × Scope × ℕ × List Char) := do
  let (buff, ch) ← parseWord ch
  let (type, width) ← parseOperandType buff
  let ch := consumeWhiteSpace ch
  let (op, s, numImmediates, ch) ← match type with
    | 'm' => do
      let (op, ch) ← parseMemoryOperand x s.vars iclass ch
      some (op, s, numImmediates, ch)
    | 'r' => do
      let (op, s, ch) ← parseRegisterOperand x s width ch
      some (op, s, numImmediates, ch)
    | 'i' => do
      let (op, numImmediates, ch) ← parseImmediateOperand s.vars numImmediates ch
      some (op, s, numImmediates, ch)
    | 'l' => do
      let (op, s, ch) ← parseLabelOperand s iclass ch
      some (op, s, numImmediates, ch)
    | _ => none
  some ({ op with
    width := width % 2 ^ 16
    rw := .invalid
    isExplicit := true
    isSticky := false }, s, numImmediates, ch)

def addPrefix (p : Prefixes) (buff : List Char) : Option Prefixes :=
  if buff = ['L', 'O', 'C', 'K'] then some { p with lock := true }
  else if buff = ['R', 'E', 'P'] ∨ buff = ['R', 'E', 'P', 'E'] then some { p with rep := true }
  else if buff = ['R', 'E', 'P', 'N', 'E'] then some { p with repne := true }
  else none

/-- The prefixes, the first word that is not one, and the text after it. -/
def parseInstructionPrefixes : ℕ → Prefixes → List Char →
    Option (Prefixes × List Char × List Char)
  | 0, _, _ => none
  | fuel + 1, p, ch => do
    let (buff, ch) ← parseWord (consumeWhiteSpace ch)
    if buff = [] then some (p, buff, ch)
    else
      match addPrefix p buff with
      | some p => parseInstructionPrefixes fuel p ch
      | none => some (p, buff, ch)

inductive CodeCacheKind where
  | cold
  | frozen
  | subZero
  deriving DecidableEq, Repr

/-- What is put before the annotation instruction that holds the assembly. -/
inductive Inserted where
  | label (label : ℕ)
  | codeCacheKind (kind : CodeCacheKind)
  | branch (i : Instruction) (target : ℕ)
  | call (i : Instruction) (isIndirect : Bool)
  | functionReturn (i : Instruction)
  | native (i : Instruction)
  deriving DecidableEq, Repr

def tryParseAnnotationInstruction (isColdCode : Bool) (s : Scope) (buff ch : List Char) :
    Option (Option (Inserted × Scope × List Char)) :=
  if buff = ['@', 'L', 'A', 'B', 'E', 'L'] then do
    let (varNum, ch) ← parseVar (consumeWhiteSpace ch)
    let (aop, s) := initLabelVar s varNum
    let ch ← accept ':' ch
    match aop.value with
    | .annotationInstr label => some (some (.label label, s, ch))
    | _ => none
  else if buff = ['@', 'C', 'O', 'L', 'D'] then do
    let ch ← accept ';' ch
    some (some (.codeCacheKind (if isColdCode then .frozen else .cold), s, ch))
  else if buff = ['@', 'F', 'R', 'O', 'Z', 'E', 'N'] then do
    let ch ← accept ';' ch
    some (some (.codeCacheKind (if isColdCode then .subZero else .frozen), s, ch))
  else some none

def fixupOperand (action : Action) (op : Operand) : Operand :=
  { op with
    rw := action
    isExplicit := true
    isSticky := match op.type, op.value with
      | .reg, .reg r => r.isNative && !r.isGeneralPurpose
      | _, _ => false }

def fixupOperands (sel : Selection) (i : Instruction) : Instruction :=
  { i with
    iform := sel.iform
    isel := sel.isel
    implicitOps := sel.implicitOps
    ops := i.ops.mapIdx fun n op ↦ fixupOperand (sel.rw n) op
    effectiveOperandWidth :=
      if i.category = .push ∨ i.category = .pop then 64
      else (i.ops.map Operand.width).foldl max 0 }

def makeInstruction (x : Xed) (i : Instruction) : Option Inserted := do
  let sel ← x.selectInstruction i.iclass i.ops
  guard (i.ops.all fun op ↦ op.type != .invalid)
  guard (!sel.writesDirectionFlag)
  let i := fixupOperands sel i
  if i.isJump then
    match i.ops with
    | { value := .annotationInstr label, isAnnotationInstr := true, .. } :: _ =>
      some (.branch i label)
    | _ => none
  else if i.isFunctionCall then
    match i.ops with
    | op :: _ => some (.call i (op.type = .reg ∨ op.type = .mem ∨ op.type = .ptr))
    | [] => some (.call i false)
  else if i.isFunctionReturn then some (.functionReturn i)
  else if i.isInterruptCall then some (.native { i with isStackBlind := true })
  else some (.native i)

/-- The operands up to the end of the instruction, after those that were read before. -/
def parseOperands (x : Xed) (iclass : IClass) : ℕ → Scope → ℕ → List Operand → List Char →
    Option (List Operand × Scope × List Char)
  | 0, _, _, _, _ => none
  | fuel + 1, s, numImmediates, ops, ch =>
    if peek ';' ch then some (ops, s, ch)
    else do
      let ch ← if ops = [] then some ch else (accept ',' ch).map consumeWhiteSpace
      guard (ops.length < maxNumOperands)
      let (op, s, numImmediates, ch) ← parseOperand x iclass s numImmediates ch
      parseOperands x iclass fuel s numImmediates (ops ++ [op]) (consumeWhiteSpace ch)

def parseInstruction (x : Xed) (isColdCode : Bool) (s : Scope) (ch : List Char) :
    Option (Inserted × Scope × List Char) := do
  let (prefixes, buff, ch) ← parseInstructionPrefixes (ch.length + 1) {} ch
  match ← tryParseAnnotationInstruction isColdCode s buff ch with
  | some result => some result
  | none => do
    let iclass ← x.strToIClass buff
    let ch := consumeWhiteSpace ch
    let (ops, s, ch) ← parseOperands x iclass (ch.length + 1) s 0 [] ch
    let ch ← accept ';' ch
    let i ← makeInstruction x
      { iclass := iclass
        category := x.iclassCategory iclass
        prefixes := prefixes
        ops := ops }
    some (i, s, ch)

def parseInstructions (x : Xed) (isColdCode : Bool) : ℕ → Scope → List Char →
    Option (List Inserted × Scope)
  | 0, _, _ => none
  | fuel + 1, s, ch =>
    if ch = [] ∨ consumeWhiteSpace ch = [] then some ([], s)
    else do
      let (i, s, ch) ← parseInstruction x isColdCode s (consumeWhiteSpace ch)
      let (is, s) ← parseInstructions x isColdCode fuel s ch
      some (i :: is, s)

def compileInlineAssemblyBlock (x : Xed) (isColdCode : Bool) (s : Scope) (assembly : List Char) :
    Option (List Inserted × Scope) :=
  parseInstructions x isColdCode (assembly.length + 1) s assembly

end Granary.Assemble.CompileInlineAssembly
