import Granary.Assemble.CompileInlineAssembly

namespace Granary.Assemble.CompileInlineAssembly

open Granary.Arch (RegisterKind)
open Granary.Base.Format (getDigit readDigits formatGenericInt)

structure Blanks where
  text : List Char := []
  white : ∀ c ∈ text, isWhiteSpace c = true := by decide

structure Gap extends Blanks where
  ne_nil : text ≠ [] := by decide

def IsWord (w : List Char) : Prop :=
  w.length < buffSize ∧ ∀ c ∈ w, endsWord c = false

instance (w : List Char) : Decidable (IsWord w) := inferInstanceAs (Decidable (_ ∧ _))

/-- A number in the text. A decimal one has no zero in front. -/
structure Numeral where
  isHex : Bool
  digits : List Char
  ne_nil : digits ≠ [] := by decide
  isDigit : ∀ c ∈ digits, getDigit (if isHex then 16 else 10) c ≠ none := by decide
  normal : isHex = false → digits.head? = some '0' → digits = ['0'] := by decide

namespace Numeral

def base (n : Numeral) : ℕ := if n.isHex then 16 else 10

def value (n : Numeral) : ℕ := readDigits n.base 0 n.digits

def text (n : Numeral) : List Char := if n.isHex then '0' :: 'x' :: n.digits else n.digits

end Numeral

structure Width where
  digits : List Char
  isDigit : ∀ c ∈ digits, getDigit 10 c ≠ none := by decide
  fits : digits.length + 1 < buffSize := by decide
  small : readDigits 10 0 digits < 2 ^ 16 := by decide

def Width.value (w : Width) : ℕ := readDigits 10 0 w.digits

def varText (n : Fin maxNumInlineVars) : List Char := '%' :: formatGenericInt n 10

namespace Xed

/-- The name of a register is a word that stands for that register. -/
structure NamesReg (x : Xed) (r : ℕ) : Prop where
  isWord : IsWord (x.regName r)
  isAlpha : peekAlpha (x.regName r) = true
  strToReg_regName : x.strToReg (x.regName r) = r
  ne_invalid : r ≠ regInvalid
  lt_last : r < regLast

structure NamesIClass (x : Xed) (c : IClass) : Prop where
  isWord : IsWord (x.iclassName c)
  ne_nil : x.iclassName c ≠ []
  not_prefix : ∀ p, addPrefix p (x.iclassName c) = none
  not_annotation : (x.iclassName c).head? ≠ some '@'
  strToIClass_iclassName : x.strToIClass (x.iclassName c) = some c

end Xed

inductive RegName (x : Xed) where
  | arch (r : ℕ) (named : x.NamesReg r)
  | var (n : Fin maxNumInlineVars)

def RegName.text {x : Xed} : RegName x → List Char
  | .arch r _ => x.regName r
  | .var n => varText n

structure Sign where
  before : Gap
  after : Blanks

def Sign.text (s : Sign) (sign : Char) : List Char := s.before.text ++ sign :: s.after.text

structure Displacement where
  plus : Sign
  numeral : Numeral
  isWord : IsWord numeral.text := by decide
  small : numeral.value < 2 ^ 31 := by decide

def Displacement.text (d : Displacement) : List Char := d.plus.text '+' ++ d.numeral.text

inductive ScaleDigit where
  | one
  | two
  | four
  | eight
  deriving DecidableEq, Repr

namespace ScaleDigit

def char : ScaleDigit → Char
  | .one => '1'
  | .two => '2'
  | .four => '4'
  | .eight => '8'

def value : ScaleDigit → ℕ
  | .one => 1
  | .two => 2
  | .four => 4
  | .eight => 8

end ScaleDigit

structure Scale where
  times : Sign
  digit : ScaleDigit

def Scale.text (s : Scale) : List Char := s.times.text '*' ++ [s.digit.char]

/-- What stands between the brackets of a memory operand. -/
inductive Address (x : Xed) where
  | pointer (n : Numeral) (isWord : IsWord n.text) (small : n.value < 2 ^ 64)
      (d : Option Displacement)
  | base (b : RegName x) (d : Option Displacement)
  | index (i : RegName x) (s : Scale) (d : Option Displacement)
  | baseIndex (b : RegName x) (plus : Sign) (i : RegName x) (s : Option Scale)
      (d : Option Displacement)

def Address.text {x : Xed} : Address x → List Char
  | .pointer n _ _ d => n.text ++ d.elim [] Displacement.text
  | .base b d => b.text ++ d.elim [] Displacement.text
  | .index i s d => i.text ++ s.text ++ d.elim [] Displacement.text
  | .baseIndex b plus i s d =>
    b.text ++ plus.text '+' ++ i.text ++ s.elim [] Scale.text ++ d.elim [] Displacement.text

structure Bracketed (x : Xed) where
  opening : Blanks
  address : Address x
  closing : Blanks

def Bracketed.text {x : Xed} (b : Bracketed x) : List Char :=
  '[' :: b.opening.text ++ b.address.text ++ b.closing.text ++ [']']

inductive SegmentName where
  | fs
  | gs
  deriving DecidableEq, Repr

namespace SegmentName

def text : SegmentName → List Char
  | .fs => ['F', 'S']
  | .gs => ['G', 'S']

def reg : SegmentName → ℕ
  | .fs => regFS
  | .gs => regGS

end SegmentName

structure Segment where
  name : SegmentName
  before : Blanks
  after : Blanks

def Segment.text (s : Segment) : List Char := s.name.text ++ s.before.text ++ ':' :: s.after.text

structure Literal where
  isNegative : Bool
  numeral : Numeral
  isWord : IsWord (if isNegative then '-' :: numeral.text else numeral.text) := by decide

def Literal.text (l : Literal) : List Char :=
  if l.isNegative then '-' :: l.numeral.text else l.numeral.text

inductive AsmOperand (x : Xed) where
  | register (w : Width) (gap : Gap) (r : RegName x)
  | label (w : Width) (gap : Gap) (n : Fin maxNumInlineVars)
  | literal (w : Width) (gap : Gap) (l : Literal)
  | immediateVar (w : Width) (gap : Gap) (n : Fin maxNumInlineVars)
  | memory (w : Width) (blanks : Blanks) (b : Bracketed x)
  | segmented (w : Width) (gap : Gap) (s : Segment) (b : Bracketed x)

def AsmOperand.text {x : Xed} : AsmOperand x → List Char
  | .register w gap r => 'r' :: w.digits ++ gap.text ++ r.text
  | .label w gap n => 'l' :: w.digits ++ gap.text ++ varText n
  | .literal w gap l => 'i' :: w.digits ++ gap.text ++ l.text
  | .immediateVar w gap n => 'i' :: w.digits ++ gap.text ++ varText n
  | .memory w blanks b => 'm' :: w.digits ++ blanks.text ++ b.text
  | .segmented w gap s b => 'm' :: w.digits ++ gap.text ++ s.text ++ b.text

structure Argument (x : Xed) where
  before : Blanks
  operand : AsmOperand x
  after : Blanks

def Argument.text {x : Xed} (a : Argument x) : List Char :=
  a.before.text ++ a.operand.text ++ a.after.text

def argumentsText {x : Xed} : List (Argument x) → List Char
  | [] => []
  | [a] => a.text
  | a :: as => a.text ++ ',' :: argumentsText as

inductive PrefixName where
  | lock
  | rep
  | repe
  | repne
  deriving DecidableEq, Repr

namespace PrefixName

def text : PrefixName → List Char
  | .lock => ['L', 'O', 'C', 'K']
  | .rep => ['R', 'E', 'P']
  | .repe => ['R', 'E', 'P', 'E']
  | .repne => ['R', 'E', 'P', 'N', 'E']

def add (p : Prefixes) : PrefixName → Prefixes
  | .lock => { p with lock := true }
  | .rep | .repe => { p with rep := true }
  | .repne => { p with repne := true }

end PrefixName

structure AsmInstruction (x : Xed) where
  blanks : Blanks
  prefixes : List (PrefixName × Gap)
  iclass : IClass
  named : x.NamesIClass iclass
  afterName : Blanks
  arguments : List (Argument x)
  gap : arguments ≠ [] → afterName.text ≠ []
  numOperands : arguments.length ≤ maxNumOperands

def AsmInstruction.text {x : Xed} (i : AsmInstruction x) : List Char :=
  i.blanks.text ++ i.prefixes.flatMap (fun p ↦ p.1.text ++ p.2.text) ++ x.iclassName i.iclass ++
    i.afterName.text ++ argumentsText i.arguments ++ [';']

structure Program (x : Xed) where
  instructions : List (AsmInstruction x)
  blanks : Blanks

def Program.text {x : Xed} (p : Program x) : List Char :=
  p.instructions.flatMap AsmInstruction.text ++ p.blanks.text

inductive RegDesc where
  | native (reg : ℕ)
  | abstract (kind : RegisterKind) (regNum numBytes : ℕ)
  deriving DecidableEq, Repr

def VirtualRegister.desc (r : VirtualRegister) : Option RegDesc :=
  match r.kind with
  | .invalid => none
  | .unschedulable | .archGpr => some (.native r.encodeToNative)
  | .virtualGpr | .slot => some (.abstract r.kind r.regNum r.numBytes)

inductive Meaning where
  | register (r : RegDesc)
  | immediate (v : BitVec 64) (isSecond : Bool)
  | label (label : ℕ)
  | pointer (a : BitVec 64) (segment : ℕ)
  | memory (base index : Option RegDesc) (scale : ℕ) (disp : ℤ) (segment : ℕ)
  deriving DecidableEq, Repr

def Meaning.isLabel : Meaning → Bool
  | .label _ => true
  | .register _ | .immediate _ _ | .pointer _ _ | .memory _ _ _ _ _ => false

structure OperandDesc where
  meaning : Meaning
  width : ℕ
  deriving DecidableEq, Repr

structure InstructionDesc where
  iclass : IClass
  prefixes : Prefixes
  operands : List OperandDesc
  deriving DecidableEq, Repr

def Operand.meaning (op : Operand) : Option Meaning :=
  match op.type, op.value with
  | .reg, .reg r => r.desc.map .register
  | .imm0, .imm v | .simm0, .imm v => some (.immediate v false)
  | .imm1, .imm v => some (.immediate v true)
  | .brdisp, .annotationInstr label | .ptr, .annotationInstr label =>
    if op.isAnnotationInstr then some (.label label) else none
  | .ptr, .addr a => some (.pointer a op.segment)
  | .mem, .mem m => some (.memory m.base.desc m.index.desc m.scale m.disp.toInt op.segment)
  | _, _ => none

def Operand.desc (op : Operand) : Option OperandDesc :=
  op.meaning.map fun m ↦ { meaning := m, width := op.width }

def Instruction.desc (i : Instruction) : Option InstructionDesc :=
  (i.ops.mapM Operand.desc).map fun ops ↦
    { iclass := i.iclass, prefixes := i.prefixes, operands := ops }

def Inserted.desc : Inserted → Option InstructionDesc
  | .label _ | .codeCacheKind _ => none
  | .branch i _ | .call i _ | .functionReturn i | .native i => i.desc

def Operand.reg? (op : Operand) : Option VirtualRegister :=
  match op.type, op.value with
  | .reg, .reg r => some r
  | _, _ => none

def Operand.label? (op : Operand) : Option ℕ :=
  match op.type, op.value, op.isAnnotationInstr with
  | .brdisp, .annotationInstr label, true => some label
  | _, _, _ => none

def Operand.immediate? (op : Operand) : Option (BitVec 64) :=
  match op.type, op.value with
  | .imm0, .imm v | .simm0, .imm v | .imm1, .imm v => some v
  | _, _ => none

/-- A variable in an address stands for its register, at the full width. -/
def RegName.denote {x : Xed} (vars : Vars) : RegName x → Option RegDesc
  | .arch r _ => some (.native r)
  | .var n => do
    let aop ← vars n
    let r ← aop.reg?
    let r ← r.widen 8
    r.desc

def dispValue (value : Numeral → ℕ) (d : Option Displacement) : ℕ :=
  d.elim 0 fun d ↦ value d.numeral

/-- The meaning of an address, by the values of its numerals. An index that is neither scaled nor
displaced is the base. -/
def Address.meaning {x : Xed} (value : Numeral → ℕ) (vars : Vars) (segment : ℕ) :
    Address x → Option Meaning
  | .pointer n _ _ d =>
    some (.pointer (BitVec.ofNat 64 (value n + dispValue value d)) segment)
  | .base b d => do
    let b ← b.denote vars
    some (.memory (some b) none 0 (dispValue value d) segment)
  | .index i s d => do
    let i ← i.denote vars
    if s.digit = .one ∧ dispValue value d = 0 then some (.memory (some i) none 0 0 segment)
    else some (.memory none (some i) s.digit.value (dispValue value d) segment)
  | .baseIndex b _ i s d => do
    let b ← b.denote vars
    let i ← i.denote vars
    some (.memory (some b) (some i) (s.elim 1 fun s ↦ s.digit.value) (dispValue value d) segment)

def Address.denote {x : Xed} (vars : Vars) (segment : ℕ) (a : Address x) : Option Meaning :=
  a.meaning Numeral.value vars segment

def Literal.value (l : Literal) : BitVec 64 :=
  if l.isNegative then -BitVec.ofNat 64 l.numeral.value else BitVec.ofNat 64 l.numeral.value

namespace AsmOperand

variable {x : Xed}

def width : AsmOperand x → ℕ
  | .register w _ _ | .label w _ _ | .literal w _ _ | .immediateVar w _ _ | .memory w _ _
  | .segmented w _ _ _ => w.value

def isImmediate : AsmOperand x → Bool
  | .literal _ _ _ | .immediateVar _ _ _ => true
  | .register _ _ _ | .label _ _ _ | .memory _ _ _ | .segmented _ _ _ _ => false

def isLiteral : AsmOperand x → Bool
  | .literal _ _ _ => true
  | .register _ _ _ | .label _ _ _ | .immediateVar _ _ _ | .memory _ _ _ | .segmented _ _ _ _ => false

/-- The meaning of an operand after so many immediates, and the scope after it. There is none where a
variable does not hold what the operand asks for. -/
def denote (s : Scope) (immediates : ℕ) : AsmOperand x → Option (Meaning × Scope)
  | .register _ _ (.arch r _) => some (.register (.native r), s)
  | .register w _ (.var n) => do
    let r ← (initRegVar s n).1.reg?
    let r ← ((r.widen (w.value / 8)).getD r).desc
    some (.register r, (initRegVar s n).2)
  | .label _ _ n => do
    let l ← (initLabelVar s n).1.label?
    some (.label l, (initLabelVar s n).2)
  | .literal _ _ l => some (.immediate l.value (immediates != 0), s)
  | .immediateVar _ _ n => do
    let aop ← s.vars n
    let v ← aop.immediate?
    some (.immediate v (immediates != 0), s)
  | .memory _ _ b => (b.address.denote s.vars regInvalid).map fun m ↦ (m, s)
  | .segmented _ _ seg b => (b.address.denote s.vars seg.name.reg).map fun m ↦ (m, s)

end AsmOperand

variable {x : Xed}

def denoteArguments : Scope → ℕ → List (Argument x) → Option (List OperandDesc × Scope)
  | s, _, [] => some ([], s)
  | s, immediates, a :: as => do
    let (m, s) ← a.operand.denote s immediates
    let (ds, s) ← denoteArguments s (immediates + a.operand.isImmediate.toNat) as
    some ({ meaning := m, width := a.operand.width } :: ds, s)

def AsmInstruction.denote (s : Scope) (i : AsmInstruction x) : Option (InstructionDesc × Scope) := do
  let (operands, s) ← denoteArguments s 0 i.arguments
  if x.iclassCategory i.iclass = .uncondBr ∨ x.iclassCategory i.iclass = .condBr then
    guard (operands.head?.any fun d ↦ d.meaning.isLabel)
  some ({ iclass := i.iclass
          prefixes := i.prefixes.foldl (fun p q ↦ q.1.add p) {}
          operands := operands }, s)

def denoteInstructions : Scope → List (AsmInstruction x) → Option (List InstructionDesc)
  | _, [] => some []
  | s, i :: is => do
    let (d, s) ← i.denote s
    let ds ← denoteInstructions s is
    some (d :: ds)

def Program.denote (s : Scope) (p : Program x) : Option (List InstructionDesc) :=
  denoteInstructions s p.instructions

/-- There is an instruction form for every list of operands that says the same. -/
def Xed.Selects (x : Xed) (d : InstructionDesc) : Prop :=
  ∀ ops : List Operand, ops.mapM Operand.desc = some d.operands →
    ∃ sel, x.selectInstruction d.iclass ops = some sel ∧ sel.writesDirectionFlag = false

/-- In an address, the digits after `0x` are not read. -/
def Numeral.Readable (n : Numeral) : Prop :=
  n.isHex = true → n.value = 0

/-- A part of a general-purpose register: the stack pointer is not one. -/
def IsGpr (reg : ℕ) : Prop :=
  let widestReg := getLargestEnclosingRegister reg
  regRAX ≤ widestReg ∧ widestReg ≤ regR15 ∧ widestReg ≠ regRSP

def IsLowPart (numBytes reg : ℕ) : Prop :=
  IsGpr reg →
    (numBytes = 1 ∧ regAL ≤ reg ∧ reg < regAH) ∨ (numBytes = 2 ∧ regAX ≤ reg ∧ reg < regEAX) ∨
      (numBytes = 4 ∧ regEAX ≤ reg ∧ reg < regRAX) ∨ (numBytes = 8 ∧ regRAX ≤ reg ∧ reg < regAL)

def RegName.Readable (numBytes : ℕ) : RegName x → Prop
  | .arch r _ => IsLowPart numBytes r
  | .var _ => True

def Address.IsPlain : Address x → Prop
  | .pointer _ _ _ d => d = none
  | .base _ _ | .index _ _ _ | .baseIndex _ _ _ _ _ => True

def Address.Readable : Address x → Prop
  | .pointer n _ _ d => d = none ∧ n.Readable
  | .base _ d | .index _ _ d | .baseIndex _ _ _ _ d => ∀ e ∈ d, e.numeral.Readable

/-- The colon of a segment has no blanks around it, and the operand is not an effective address. -/
def Segment.Readable (iclass : IClass) (s : Segment) : Prop :=
  s.before.text = [] ∧ s.after.text = [] ∧ iclass.isEffectiveAddress = false

/-- The operand comes after so many immediates, of which so many are literals. -/
def AsmOperand.Readable (vars : Vars) (iclass : IClass) (immediates literals : ℕ) :
    AsmOperand x → Prop
  | .register w _ r => w.value / 8 ∈ [1, 2, 4, 8] ∧ r.Readable (w.value / 8)
  | .label _ _ _ => True
  | .literal _ _ l =>
    (immediates ≠ 0 → literals ≠ 0) ∧ (literals ≠ 0 → l.value = BitVec.ofNat 64 l.numeral.value)
  | .immediateVar _ _ n => ∀ op ∈ vars n, op.type = .imm1 ↔ immediates ≠ 0
  | .memory _ _ b => b.address.Readable
  | .segmented _ _ s b => s.Readable iclass ∧ b.address.Readable

def ReadableArguments (vars : Vars) (iclass : IClass) : ℕ → ℕ → List (Argument x) → Prop
  | _, _, [] => True
  | immediates, literals, a :: as =>
    a.operand.Readable vars iclass immediates literals ∧
      ReadableArguments vars iclass (immediates + a.operand.isImmediate.toNat)
        (literals + a.operand.isLiteral.toNat) as

def AsmInstruction.Readable (vars : Vars) (i : AsmInstruction x) : Prop :=
  ReadableArguments vars i.iclass 0 0 i.arguments

end Granary.Assemble.CompileInlineAssembly
