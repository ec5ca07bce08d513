import Granary.Base.Iterate
import Granary.Code.Fragment

namespace Granary.Assemble.BuildFragmentList

open Function
open Granary.Code (FragmentId FragmentKind CodeCacheKind Slot)

abbrev InstrId := ℕ

abbrev BlockId := ℕ

abbrev BlockMetaData := ℕ

inductive Annotation
  | endBlock
  | codeCacheKind (k : CodeCacheKind)
  | invalidStack
  | updateAddressWhenEncoded
  | interruptDeliveryStateChange
  | contextFunctionCall
  | inlineFunctionCall
  | condLeaveNativeStack
  | condEnterNativeStack
  | other
deriving DecidableEq, Repr

inductive BranchKind
  | jump | conditionalJump | functionCall
deriving DecidableEq, Repr

inductive CFIKind
  | jump | conditionalJump | functionCall | systemCall | interruptCall
  | systemReturn | interruptReturn | functionReturn
deriving DecidableEq, Repr

structure NativeInfo where
  isApp : Bool := true
  readsFlags : Bool := false
  writesFlags : Bool := false
  writesStackPointer : Bool := false
deriving DecidableEq, Repr

inductive Instruction
  | label
  | annotation (a : Annotation)
  | native (info : NativeInfo)
  | branch (kind : BranchKind) (info : NativeInfo) (target : InstrId)
  | exceptional (info : NativeInfo) (target : BlockId)
  | cfi (kind : CFIKind) (hasIndirectTarget : Bool) (target : BlockId)
deriving DecidableEq, Repr

def Instruction.isNative : Instruction → Bool
  | label | annotation _ => false
  | native _ | branch .. | exceptional .. | cfi .. => true

/-- A block of a trace. The list of instructions of a decoded block starts after its
first instruction, which marks the beginning of the block. -/
inductive Block
  | decoded (md : BlockMetaData) (isColdCode : Bool) (instrs : List InstrId)
  | direct (md : BlockMetaData)
  | cached (md : BlockMetaData)
  | native (hasStartPC : Bool)
  | indirect (md : Option BlockMetaData)
  | ret (md : Option BlockMetaData)
deriving DecidableEq, Repr

/-- A trace, with the instructions of its blocks. The field `data` of a label counts
the references to it. -/
structure Trace where
  blocks : List BlockId
  block : BlockId → Block
  instr : InstrId → Instruction
  owner : InstrId → BlockId
  data : InstrId → ℕ

namespace Trace

variable (tr : Trace)

def code (b : BlockId) : List InstrId :=
  match tr.block b with
  | .decoded _ _ instrs => instrs
  | _ => []

def unsafeMetaData (b : BlockId) : Option BlockMetaData :=
  match tr.block b with
  | .decoded md _ _ | .direct md | .cached md => some md
  | .native _ => none
  | .indirect md | .ret md => md

end Trace

inductive FragmentClass
  | code | nonLocalEntry | exit
deriving DecidableEq, Repr

/-- An instruction of a fragment: one that was moved into it, the code of the edge of an
indirect control-flow instruction, or some other one that was made for it. -/
inductive Item
  | moved (i : InstrId)
  | indirectEdge (i : InstrId)
  | generated
deriving DecidableEq, Repr

structure CodeAttributes where
  branchIsFunctionCall : Bool := false
  canAddSuccToPartition : Bool := true
  canAddPredToPartition : Bool := true
  hasNativeInstrs : Bool := false
  readsFlags : Bool := false
  modifiesFlags : Bool := false
  isBlockHead : Bool := false
deriving DecidableEq, Repr

/-- A fragment. An exit fragment keeps the block whose edge or whose address it
holds. -/
structure Fragment where
  cls : FragmentClass := .code
  kind : FragmentKind := .invalid
  cache : CodeCacheKind := .hot
  stackInvalid : Bool := false
  blockMeta : Option BlockMetaData := none
  instrs : List Item := []
  fallThrough : Option FragmentId := none
  branch : Option FragmentId := none
  exitTo : Option BlockId := none
  isEdgeCode : Bool := false
  attr : CodeAttributes := {}
deriving DecidableEq, Repr

namespace Fragment

def setSuccessor (f : Fragment) (sel : Slot) (s : FragmentId) : Fragment :=
  match sel with
  | .fallThrough => { f with fallThrough := some s }
  | .branch => { f with branch := some s }

def successors (f : Fragment) : List FragmentId := f.fallThrough.toList ++ f.branch.toList

/-- Instrumentation instructions may not write the flags in an application fragment, and
application instructions may not touch the flags or change the stack pointer in an
instrumentation fragment. -/
def splits (f : Fragment) (info : NativeInfo) : Bool :=
  match f.kind with
  | .invalid => false
  | .app => !info.isApp && info.writesFlags
  | .inst => info.isApp && (info.readsFlags || info.writesFlags || info.writesStackPointer)

def addNative (f : Fragment) (info : NativeInfo) : Fragment :=
  { f with
    kind := if f.kind = .invalid then if info.isApp then .app else .inst else f.kind
    attr.readsFlags := f.attr.readsFlags || info.readsFlags
    attr.modifiesFlags := f.attr.modifiesFlags || info.writesFlags
    attr.hasNativeInstrs := true }

def addBranch (f : Fragment) (isApp isFunctionCall : Bool) : Fragment :=
  { f with
    kind := if isApp then .app else f.kind
    attr.branchIsFunctionCall := isFunctionCall
    attr.hasNativeInstrs := true }

def denySuccessors (f : Fragment) : Fragment := { f with attr.canAddSuccToPartition := false }

/-- A fragment without instructions after a system call does not join what a label
starts. -/
def endAtLabel (f : Fragment) : Fragment :=
  if f.attr.hasNativeInstrs || f.attr.canAddPredToPartition then f else f.denySuccessors

end Fragment

/-- The builder, with everything that it changes: the instructions that are still in
the blocks, the fragments of labels and of blocks, the fragment list, the work list,
and the partitions that were made one. -/
structure Builder where
  lists : BlockId → List InstrId
  data : InstrId → ℕ
  labelFragment : InstrId → Option FragmentId := fun _ ↦ none
  blockFragment : BlockId → Option FragmentId := fun _ ↦ none
  frags : List FragmentId := []
  heap : FragmentId → Fragment := fun _ ↦ {}
  next : FragmentId := 0
  work : List (FragmentId × Option InstrId) := []
  unions : List (FragmentId × FragmentId) := []

namespace Builder

def modify (b : Builder) (f : FragmentId) (g : Fragment → Fragment) : Builder :=
  { b with heap := update b.heap f (g (b.heap f)) }

/-- `new`, for a fragment that starts as `x`. -/
def alloc (b : Builder) (x : Fragment) : Builder :=
  { b with heap := update b.heap b.next x, next := b.next + 1 }

def setSuccessor (b : Builder) (f : FragmentId) (sel : Slot) (s : FragmentId) : Builder :=
  b.modify f (·.setSuccessor sel s)

def insertAfter (b : Builder) (f g : FragmentId) : Builder :=
  { b with frags := Granary.Code.FragmentList.insertAfter b.frags f g }

def append (b : Builder) (f : FragmentId) : Builder := { b with frags := b.frags ++ [f] }

def prepend (b : Builder) (f : FragmentId) : Builder := { b with frags := f :: b.frags }

def push (b : Builder) (f : FragmentId) (i : Option InstrId) : Builder :=
  { b with work := (f, i) :: b.work }

def union (b : Builder) (f g : FragmentId) : Builder := { b with unions := (f, g) :: b.unions }

end Builder

def after (l : List InstrId) (i : InstrId) : List InstrId := (l.dropWhile (· ≠ i)).tail

section Build

variable (tr : Trace)

/-- `Instruction::Next`. -/
def nextInstr (b : Builder) (i : InstrId) : Option InstrId := (after (b.lists (tr.owner i)) i).head?

/-- `frag->instrs.Append(Instruction::Unlink(instr).release())`. -/
def moveInstr (b : Builder) (f : FragmentId) (i : InstrId) : Builder :=
  let b := { b with lists := update b.lists (tr.owner i) ((b.lists (tr.owner i)).erase i) }
  b.modify f fun x ↦ { x with instrs := x.instrs ++ [.moved i] }

def addBlockTailToWorkList (b : Builder) (pred : FragmentId) (label : Option InstrId)
    (firstInstr : Option InstrId) (sel : Slot) : Builder :=
  match label.bind b.labelFragment with
  | some tail => b.setSuccessor pred sel tail
  | none =>
    let frag := b.next
    let b := b.alloc { blockMeta := (b.heap pred).blockMeta }
    let b := (b.push frag firstInstr).insertAfter pred frag
    let b := match label with
      | some l => { b with labelFragment := update b.labelFragment l (some frag) }
      | none => b
    b.setSuccessor pred sel frag

def addBlockStragglerToWorkList (b : Builder) (md : BlockMetaData) (label : InstrId) : Builder :=
  let frag := b.next
  let cfrag := b.next + 1
  let b := b.alloc { cls := .nonLocalEntry, cache := .frozen, fallThrough := some cfrag }
  let b := { b with labelFragment := update b.labelFragment label (some frag) }
  let b := b.alloc { blockMeta := some md }
  ((b.push cfrag (nextInstr tr b label)).append frag).append cfrag

def createContextCallFragment (b : Builder) (pred : FragmentId) : FragmentId × Builder :=
  let callFrag := b.next
  let b := b.alloc { instrs := [.generated] }
  (callFrag, (b.setSuccessor pred .fallThrough callFrag).insertAfter pred callFrag)

/-- `ProcessAnnotation`, which says whether the fragment goes on. -/
def processAnnotation (b : Builder) (frag : FragmentId) (i : InstrId) (a : Annotation)
    (nextInstr : Option InstrId) : Builder × Bool :=
  match a with
  | .endBlock => (b, false)
  | .codeCacheKind k => (b.modify frag fun x ↦ { x with cache := k }, true)
  | .invalidStack => (b.modify frag fun x ↦ { x with stackInvalid := true }, true)
  | .updateAddressWhenEncoded => (moveInstr tr b frag i, true)
  | .interruptDeliveryStateChange =>
    let b := b.modify frag Fragment.denySuccessors
    (addBlockTailToWorkList b frag none nextInstr .fallThrough, false)
  | .contextFunctionCall =>
    let r := createContextCallFragment b frag
    (addBlockTailToWorkList r.2 r.1 none nextInstr .fallThrough, false)
  | .inlineFunctionCall =>
    (b.modify frag fun x ↦
      { x with attr.hasNativeInstrs := true, instrs := x.instrs ++ [.generated] }, true)
  | .condLeaveNativeStack | .condEnterNativeStack => (moveInstr tr b frag i, true)
  | .other => (b, true)

def asLabel (i : Option InstrId) : Option InstrId := i.filter fun i ↦ tr.instr i == .label

/-- The fragment that a branch goes into: a new one, for a branch of the application in
an instrumentation fragment. -/
def fragmentWithBranch (b : Builder) (frag : FragmentId) (isApp : Bool) : FragmentId × Builder :=
  if isApp && (b.heap frag).kind == .inst then
    let c := b.alloc { blockMeta := (b.heap frag).blockMeta }
    (b.next, (c.setSuccessor frag .fallThrough b.next).insertAfter frag b.next)
  else (frag, b)

/-- What follows a branch. A label there holds a reference. -/
def addFallThrough (b : Builder) (frag : FragmentId) (nextI : Option InstrId) : Builder :=
  match asLabel tr nextI with
  | some l =>
    let b := { b with data := update b.data l (b.data l + 1) }
    addBlockTailToWorkList b frag (some l) (nextInstr tr b l) .fallThrough
  | none => addBlockTailToWorkList b frag none nextI .fallThrough

def processBranch (b : Builder) (frag : FragmentId) (i : InstrId) (kind : BranchKind)
    (info : NativeInfo) (target : InstrId) (nextI : Option InstrId) : Builder :=
  let isApp := info.isApp && (kind == .conditionalJump || info.writesStackPointer)
  let r := fragmentWithBranch b frag isApp
  let frag := r.1
  let b := r.2.modify frag (·.addBranch isApp (kind == .functionCall))
  let b := addBlockTailToWorkList b frag (some target) (nextInstr tr b target) .branch
  let b := if kind = .jump then b else addFallThrough tr b frag nextI
  moveInstr tr b frag i

/-- `ProcessNativeInstr`, which says whether the instruction is added to the
fragment. -/
def processNativeInstr (b : Builder) (frag : FragmentId) (i : InstrId) (info : NativeInfo) :
    Builder × Bool :=
  if (b.heap frag).splits info then
    (addBlockTailToWorkList b frag none (some i) .fallThrough, false)
  else (moveInstr tr (b.modify frag (·.addNative info)) frag i, true)

/-- `arch::ProcessExceptionalCFI`: the code that emulates the instruction goes before
it, and the fragment branches to one that recovers. -/
def archProcessExceptionalCFI (b : Builder) (frag : FragmentId) (i : InstrId)
    (target : BlockId) : Builder :=
  let b := b.modify frag fun x ↦
    { x with instrs := x.instrs.filter (· ≠ .moved i) ++ [.generated, .moved i] }
  let recovery := b.next
  let b := b.alloc
    { blockMeta := (b.heap frag).blockMeta
      stackInvalid := (b.heap frag).stackInvalid
      kind := .inst
      instrs := [.generated]
      fallThrough := b.blockFragment target
      attr := { hasNativeInstrs := true, canAddSuccToPartition := false } }
  ((b.union recovery frag).setSuccessor frag .branch recovery).insertAfter frag recovery

/-- An exceptional instruction goes into the fragment, or into the one that it starts,
which is then taken from the work list at once. -/
def addExceptionalInstr (b : Builder) (frag : FragmentId) (i : InstrId) (info : NativeInfo) :
    FragmentId × Builder :=
  let r := processNativeInstr tr b frag i info
  if r.2 then (frag, r.1)
  else match r.1.work with
    | [] => (frag, r.1)
    | elm :: work => (elm.1, (processNativeInstr tr { r.1 with work := work } elm.1 i info).1)

def processExceptionalCFI (b : Builder) (frag : FragmentId) (i : InstrId) (info : NativeInfo)
    (target : BlockId) (nextI : Option InstrId) : Builder :=
  let r := addExceptionalInstr tr b frag i info
  addBlockTailToWorkList (archProcessExceptionalCFI r.2 r.1 i target) r.1 none nextI .fallThrough

/-- `UpdateIndirectEdgeFrag`, for a fragment that is made with the given instructions
and successors. -/
def edgeFragment (cache : CodeCacheKind) (md : Option BlockMetaData) (instrs : List Item)
    (fallThrough branch : Option FragmentId) : Fragment where
  cache := cache
  blockMeta := md
  instrs := instrs
  fallThrough := fallThrough
  branch := branch
  kind := .inst
  isEdgeCode := true
  attr := { hasNativeInstrs := true }

/-- `GenerateIndirectEdgeCode`, which gives the first fragment of the edge. -/
def generateIndirectEdgeCode (b : Builder) (cfi : InstrId) (pred : FragmentId)
    (md : Option BlockMetaData) : FragmentId × Builder :=
  let inEdge := b.next
  let goToGranary := b.next + 1
  let compareTarget := b.next + 2
  let exitToBlock := b.next + 3
  let b := b.alloc (edgeFragment .hot md [.indirectEdge cfi] none (some goToGranary))
  let b := b.alloc (edgeFragment .edge md [.generated] (some compareTarget) none)
  let b := b.alloc (edgeFragment .edge md [.generated] (some exitToBlock) (some goToGranary))
  let b := b.alloc { cls := .exit, cache := .edge, blockMeta := md, instrs := [.generated] }
  let b := (((b.append inEdge).append goToGranary).append compareTarget).append exitToBlock
  (inEdge, ((b.union inEdge pred).union goToGranary pred).union compareTarget pred)

def addIndirectEdge (b : Builder) (pred : FragmentId) (cfi : InstrId) (target : BlockId) :
    FragmentId × Builder :=
  generateIndirectEdgeCode b cfi pred (tr.unsafeMetaData target)

def metaOf (b : Builder) (f : Option FragmentId) : Option BlockMetaData :=
  f.bind fun f ↦ (b.heap f).blockMeta

def processJump (b : Builder) (pred : FragmentId) (cfi : InstrId) (hasIndirectTarget : Bool)
    (target : BlockId) : Builder :=
  if hasIndirectTarget then
    let r := addIndirectEdge tr b pred cfi target
    r.2.setSuccessor pred .fallThrough r.1
  else
    let targetFrag := b.blockFragment target
    b.modify pred fun x ↦
      { x with
        attr.canAddSuccToPartition := x.blockMeta == metaOf b targetFrag
        fallThrough := targetFrag }

def makeCFIFrag (b : Builder) (pred : FragmentId) (cfi : InstrId) (isFunctionCall : Bool) :
    FragmentId × Builder :=
  let frag := b.next
  let b := b.alloc
    { kind := .app
      blockMeta := (b.heap pred).blockMeta
      attr := { hasNativeInstrs := true, branchIsFunctionCall := isFunctionCall,
                canAddSuccToPartition := false, canAddPredToPartition := false } }
  let b := b.modify pred Fragment.denySuccessors
  let b := (b.setSuccessor pred .fallThrough frag).insertAfter pred frag
  (frag, moveInstr tr b frag cfi)

def processTwoWayCFITail (b : Builder) (pred : FragmentId) (nextI : Option InstrId) : Builder :=
  match nextI.map fun i ↦ (i, tr.instr i) with
  | some (i, .cfi .jump hasIndirectTarget target) =>
    processJump tr b pred i hasIndirectTarget target
  | _ => addBlockTailToWorkList b pred none nextI .fallThrough

def processCFI (b : Builder) (pred : FragmentId) (i : InstrId) (kind : CFIKind)
    (hasIndirectTarget : Bool) (target : BlockId) (nextI : Option InstrId) : Builder :=
  match kind with
  | .jump => processJump tr b pred i hasIndirectTarget target
  | .functionCall =>
    let r := makeCFIFrag tr b pred i true
    let frag := r.1
    let r : Option FragmentId × Builder := if hasIndirectTarget then
        let b := r.2.modify frag fun x ↦ { x with attr.canAddPredToPartition := true }
        let r := addIndirectEdge tr (b.union pred frag) frag i target
        (some r.1, r.2)
      else (r.2.blockFragment target, r.2)
    let b := r.2.modify frag fun x ↦ { x with branch := r.1 }
    processTwoWayCFITail tr b frag nextI
  | .conditionalJump =>
    let r := makeCFIFrag tr b pred i false
    let b := r.2.modify r.1 fun x ↦ { x with branch := r.2.blockFragment target }
    processTwoWayCFITail tr b r.1 nextI
  | .systemCall | .interruptCall =>
    let frag := b.next
    let b := b.alloc
      { attr := { hasNativeInstrs := true, canAddSuccToPartition := false,
                  canAddPredToPartition := false } }
    let b := moveInstr tr b frag i
    let b := (b.setSuccessor pred .fallThrough frag).insertAfter pred frag
    processTwoWayCFITail tr b frag nextI
  | .systemReturn | .interruptReturn | .functionReturn =>
    let frag := b.next
    let b := b.alloc { cls := .exit }
    let b := moveInstr tr b frag i
    b.setSuccessor pred .fallThrough frag

/-- `ProcessLabel`, which says whether the label is skipped. -/
def processLabel (b : Builder) (frag : FragmentId) (label : InstrId)
    (nextI : Option InstrId) : Builder × Bool :=
  if b.data label = 0 then (b, true)
  else
    let b := b.modify frag Fragment.endAtLabel
    (addBlockTailToWorkList b frag (some label) nextI .fallThrough, false)

def processInstr (b : Builder) (frag : FragmentId) (i : InstrId) (nextI : Option InstrId) :
    Builder × Bool :=
  match tr.instr i with
  | .label => processLabel b frag i nextI
  | Instruction.annotation a => processAnnotation tr b frag i a nextI
  | .branch kind info target => (processBranch tr b frag i kind info target nextI, false)
  | .exceptional info target => (processExceptionalCFI tr b frag i info target nextI, false)
  | .cfi kind hasIndirectTarget target =>
    (processCFI tr b frag i kind hasIndirectTarget target nextI, false)
  | .native info => processNativeInstr tr b frag i info

/-- The loop over the instructions of a block, from the one where the fragment
starts. -/
def processFragment (b : Builder) (frag : FragmentId) : List InstrId → Builder
  | [] => b
  | i :: is =>
    let r := processInstr tr b frag i is.head?
    if r.2 then processFragment r.1 frag is else r.1

def hasUsefulInstruction (is : List InstrId) : Bool := is.any fun i ↦ (tr.instr i).isNative

/-- A label of a block that nothing has reached yet. -/
def isStraggler (b : Builder) (block : BlockId) (i : InstrId) : Bool :=
  tr.instr i == .label && b.data i != 0 && (b.labelFragment i).isNone &&
    hasUsefulInstruction tr (after (b.lists block) i)

/-- The first such label of a block. -/
def addStraggler (b : Builder) (block : BlockId) : Builder :=
  match tr.block block with
  | .decoded md _ _ =>
    match (b.lists block).find? (isStraggler tr b block) with
    | some label => addBlockStragglerToWorkList tr b md label
    | none => b
  | _ => b

def addStragglerFragments (b : Builder) : Builder := tr.blocks.reverse.foldl (addStraggler tr) b

/-- `InitBlockFragment`, and what it calls for each kind of block. -/
def initBlockFragment (b : Builder) (block : BlockId) : Builder :=
  let frag := b.next
  let exit (cache : CodeCacheKind) (md : Option BlockMetaData) (instrs : List Item) : Builder :=
    let b := b.alloc
      { cls := .exit, cache := cache, blockMeta := md, instrs := instrs, exitTo := some block }
    { b.append frag with blockFragment := update b.blockFragment block (some frag) }
  match tr.block block with
  | .direct md => exit .edge (some md) [.generated]
  | .cached md => exit .edge (some md) []
  | .native true => exit .edge none []
  | .native false | .indirect _ | .ret _ => b
  | .decoded md isColdCode _ =>
    let b := b.alloc
      { blockMeta := some md, cache := if isColdCode then .cold else .hot
        attr := { isBlockHead := true } }
    let b := b.push frag (b.lists block).head?
    { b.prepend frag with blockFragment := update b.blockFragment block (some frag) }

def initializeFragAndWorklist : Builder :=
  tr.blocks.reverse.foldl (initBlockFragment tr) { lists := tr.code, data := tr.data }

def instrsFrom (b : Builder) : Option InstrId → List InstrId
  | none => []
  | some i => (b.lists (tr.owner i)).dropWhile (· ≠ i)

/-- One turn of the loop of `BuildFragmentList`, unless the work list is empty. -/
def buildStep (b : Builder) : Builder × Bool :=
  match b.work with
  | [] => (b, false)
  | (frag, i) :: work =>
    let b := processFragment tr { b with work := work } frag (instrsFrom tr b i)
    (if b.work.isEmpty then addStragglerFragments tr b else b, true)

/-- `BuildFragmentList`, with at most `fuel` turns. -/
def buildFragmentList (fuel : ℕ) : Option Builder :=
  Granary.Base.Iterate.repeatUntil (buildStep tr) fuel (initializeFragAndWorklist tr)

end Build

end Granary.Assemble.BuildFragmentList
