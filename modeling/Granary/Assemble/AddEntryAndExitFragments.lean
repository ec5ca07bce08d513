import Granary.Assemble.AnalyzeFlagsUse
import Granary.Assemble.TrackVirtualRegs
import Granary.Base.Chain

namespace Granary.Assemble.AddEntryAndExitFragments

open Function Granary.Base Granary.Code Granary.Assemble.AnalyzeFlagsUse
open Granary.Base.Chain (walk Path)

structure FlagZone where
  killedFlags : BitVec 32 := 0
  liveFlags : BitVec 32 := 0
deriving DecidableEq, Repr

/-- The fragment list, with what the pass reads and writes besides. The values of the disjoint sets
are kept at the representatives; of the instruction that ends a fragment we know whether it is a
`ControlFlowInstruction`, and not a branch within the block. -/
structure State where
  list : FragmentList
  branchIsCfi : FragmentId → Bool := fun _ ↦ false
  blockMeta : FragmentId → Option ℕ := fun _ ↦ none
  stackStatus : FragmentId → StackStatus := fun _ ↦ .valid
  zone : ℕ → FlagZone := fun _ ↦ {}
  entryExitFrag : FragmentId → Option FragmentId := fun _ ↦ none
  numPredecessors : FragmentId → ℕ := fun _ ↦ 0
  partitionInfo : ℕ → Option ℕ := fun _ ↦ none

namespace State

abbrev frags (s : State) : List FragmentId := s.list.frags

abbrev heap (s : State) : Heap := s.list.heap

abbrev next (s : State) : FragmentId := s.list.next

def cls (s : State) (i : FragmentId) : FragmentClass := (s.heap i).cls

def partition (s : State) (i : FragmentId) : ℕ := (s.heap i).partition

def flagZone (s : State) (i : FragmentId) : ℕ := (s.heap i).flagZone

/-- `IsA<ControlFlowInstruction *>(frag->branch_instr)`. -/
def isCfi (s : State) (i : FragmentId) : Bool :=
  (s.heap i).branchInstr.isSome && s.branchIsCfi i

def setHeap (s : State) (h : Heap) : State := { s with list := { s.list with heap := h } }

def setSuccessor (s : State) (i : FragmentId) (k : Slot) (j : FragmentId) : State :=
  s.setHeap (update s.heap i ((s.heap i).setSuccessor k (some j)))

end State

/-- The successors are looked at in their order, and a fragment may be its own successor. -/
def propagateFragKind (h : Heap) (i : FragmentId) : Heap :=
  if (h i).isCode then
    if (h i).kind ≠ .invalid then h
    else
      let succs := (h i).successors.filter fun j ↦ (h j).isCode
      let h := succs.foldl (fun h j ↦ update h i { h i with kind := (h j).kind }) h
      if (h i).kind ≠ .invalid then h
      else if succs ≠ [] then update h i { h i with kind := .inst }
      else update h i { h i with kind := .app }
  else if (h i).kind = .invalid then update h i { h i with kind := .app }
  else h

def propagateFragKinds (frags : List FragmentId) (h : Heap) : Heap :=
  frags.reverse.foldl propagateFragKind h

/-- `flag_zone.Union`, before any zone has a value: the root of the first goes below that of the
second. -/
def unionFlagZones (h : Heap) (i j : FragmentId) : Heap := fun a ↦
  if (h a).flagZone = (h i).flagZone then { h a with flagZone := (h j).flagZone } else h a

def combineFlagZone (i : FragmentId) (h : Heap) (j : FragmentId) : Heap :=
  if (h j).isCode && (h i).partition == (h j).partition then
    if (h i).kind = (h j).kind then unionFlagZones h i j
    else if (h j).kind = .app ∧ (h j).branchInstr = none ∧ (h j).appFlags.allReadFlags = 0 ∧
        (h j).appFlags.allWrittenFlags = 0 then
      unionFlagZones (update h j { h j with kind := .inst }) i j
    else h
  else h

def combineFlagZones (frags : List FragmentId) (h : Heap) : Heap :=
  frags.foldl (fun h i ↦ if (h i).isCode then (h i).successors.foldl (combineFlagZone i) h else h) h

def updateFlagZone (h : Heap) (zone : ℕ → FlagZone) (i : FragmentId) : ℕ → FlagZone :=
  if (h i).kind = .inst then
    let z := zone (h i).flagZone
    update zone (h i).flagZone
      { killedFlags := z.killedFlags ||| (h i).instFlags.allWrittenFlags
        liveFlags := z.liveFlags ||| (h i).appFlags.exitLiveFlags }
  else zone

def updateFlagZones (s : State) : State :=
  { s with zone := s.frags.foldl (updateFlagZone s.heap) s.zone }

def isFlagInstCode (s : State) (i : FragmentId) : Bool :=
  (s.heap i).kind == .inst && (s.zone (s.flagZone i)).killedFlags != 0

def isFlagEntry (s : State) (curr next : FragmentId) : Bool :=
  if s.cls curr = .flagEntry then false
  else if s.cls next = .flagEntry then false
  else if s.partition curr ≠ s.partition next then false
  else if s.flagZone curr = s.flagZone next then false
  else isFlagInstCode s next

def isFlagExit (s : State) (curr next : FragmentId) : Bool :=
  if s.cls curr = .flagExit then false
  else if s.cls next = .flagExit then false
  else if s.partition curr ≠ s.partition next then false
  else if s.flagZone curr = s.flagZone next then false
  else isFlagInstCode s curr

def isPartitionEntry (s : State) (curr next : FragmentId) : Bool :=
  if s.cls curr = .partitionEntry then false
  else if s.cls next = .partitionEntry then false
  else if s.cls next = .exit then false
  else if s.cls curr = .nonLocalEntry then !s.isCfi next
  else if s.isCfi next then false
  else s.partition curr != s.partition next

def isPartitionExit (s : State) (curr next : FragmentId) : Bool :=
  if s.cls curr = .partitionExit then false
  else if s.cls next = .partitionExit then false
  else if s.cls curr = .partitionEntry then false
  else if s.isCfi curr then false
  else s.partition curr != s.partition next

def resetEntryExitFrag (s : State) : State :=
  { s with entryExitFrag := s.frags.foldl (fun e i ↦ update e i none) s.entryExitFrag }

/-- The fragment that `MakeFragment` fills in. One that guards a partition is a flag zone of its
own. -/
def newFragment (cls : FragmentClass) (i : FragmentId) (inherit succ : Fragment) : Fragment where
  cls := cls
  kind := .inst
  cache := inherit.cache
  partition := inherit.partition
  flagZone := if cls = .partitionEntry ∨ cls = .partitionExit then i else inherit.flagZone
  appFlags :=
    { entryLiveFlags := succ.appFlags.entryLiveFlags
      exitLiveFlags := succ.appFlags.entryLiveFlags }

/-- `MakeFragment`, which gives the fragment the next address. -/
def makeFragment (cls : FragmentClass) (s : State) (inherit succ : FragmentId) : State :=
  let frag := { newFragment cls s.next (s.heap inherit) (s.heap succ) with fallThrough := some succ }
  { s with
    list := { s.list with heap := update s.heap s.next frag, next := s.next + 1 }
    blockMeta := update s.blockMeta s.next (s.blockMeta inherit)
    stackStatus := update s.stackStatus s.next (s.stackStatus inherit) }

def insertAfter (s : State) (i j : FragmentId) : State :=
  { s with list := { s.list with frags := FragmentList.insertAfter s.frags i j } }

section Add

variable (isEnd : State → FragmentId → FragmentId → Bool) (cls : FragmentClass)
  (inherit : FragmentId → FragmentId → FragmentId)

/-- Puts a fragment between `curr` and a successor that takes after one of them. The last one made
for the successor is used again if it is in the same partition as the one to take after. -/
def addFragment (s : State) (curr : FragmentId) (k : Slot) : State :=
  match (s.heap curr).successor k with
  | none => s
  | some succ =>
    if isEnd s curr succ then
      match (s.entryExitFrag succ).filter
          fun link ↦ s.partition (inherit curr succ) == s.partition link with
      | some link => s.setSuccessor curr k link
      | none =>
        let frag := s.next
        let s := insertAfter (makeFragment cls s (inherit curr succ) succ) curr frag
        let s := s.setSuccessor curr k frag
        { s with entryExitFrag := update s.entryExitFrag succ (some frag) }
    else s

def addEntryFragment : State → FragmentId → Slot → State := addFragment isEnd cls fun _ succ ↦ succ

def addExitFragment : State → FragmentId → Slot → State := addFragment isEnd cls fun curr _ ↦ curr

end Add

/-- `frag->list.Next()`. -/
def nextFrag (s : State) (i : FragmentId) : Option FragmentId :=
  (s.frags.dropWhile (· ≠ i)).tail.head?

/-- A loop over the list, which may put fragments behind the one that it is at, and over the
successors of each. -/
def forSuccessors (add : State → FragmentId → Slot → State) (fuel : ℕ) (s : State) : Option State :=
  walk nextFrag (fun s i ↦ add (add s i .fallThrough) i .branch) fuel s.frags.head? s

def addEntryFragments (isEnd : State → FragmentId → FragmentId → Bool) (cls : FragmentClass)
    (fuel : ℕ) (s : State) : Option State :=
  forSuccessors (addEntryFragment isEnd cls) fuel s

def addExitFragments (isEnd : State → FragmentId → FragmentId → Bool) (cls : FragmentClass)
    (fuel : ℕ) (s : State) : Option State :=
  forSuccessors (addExitFragment isEnd cls) fuel (resetEntryExitFrag s)

/-- A partition without a `PartitionInfo` gets one, with the identifier after the last one. -/
def namePartition (r : State × ℕ) (i : FragmentId) : State × ℕ :=
  match r.1.partitionInfo (r.1.partition i) with
  | some _ => r
  | none =>
    let info := update r.1.partitionInfo (r.1.partition i) (some (r.2 + 1))
    ({ r.1 with partitionInfo := info }, r.2 + 1)

def countPredecessor (s : State) (j : FragmentId) : State :=
  { s with numPredecessors := update s.numPredecessors j (s.numPredecessors j + 1) }

/-- Code behind a partition entry is marked. -/
def markFollower (s : State) (i : FragmentId) : State :=
  match (s.heap i).fallThrough with
  | some j =>
    if s.cls i = .partitionEntry ∧ (s.heap j).isCode = true then
      s.setHeap (update s.heap j { s.heap j with attr.followsPartitionEntrypoint := true })
    else s
  | none => s

/-- The loop keeps the last identifier that was given out. -/
def labelPartition (r : State × ℕ) (i : FragmentId) : State × ℕ :=
  let r := namePartition r i
  (markFollower ((r.1.heap i).successors.foldl countPredecessor r.1) i, r.2)

def labelPartitions (s : State) : State := (s.frags.foldl labelPartition (s, 0)).1

def propagateCodeCacheKind (i : FragmentId) (s : State) (j : FragmentId) : State :=
  if s.numPredecessors j ≤ 1 ∧ (s.heap i).cache = (s.heap j).cache then
    s.setHeap (update s.heap j { s.heap j with cache := (s.heap i).cache })
  else s

def propagateCodeCacheKinds (s : State) : State :=
  s.frags.foldl (fun s i ↦ (s.heap i).successors.foldl (propagateCodeCacheKind i) s) s

def findFlagZones (fuel : ℕ) (s : State) : Option State :=
  (analyzeFlagsUse s.frags fuel (propagateFragKinds s.frags s.heap)).map fun h ↦
    updateFlagZones (s.setHeap (combineFlagZones s.frags h))

/-- A partition entry in front of the first fragment. -/
def addFirstEntry (first : FragmentId) (s : State) : State :=
  if s.isCfi first then s
  else
    let frag := s.next
    let s := makeFragment .partitionEntry s first first
    { s with
      list := { s.list with frags := frag :: s.frags }
      entryExitFrag := update s.entryExitFrag first (some frag) }

/-- `AddEntryAndExitFragments`, with at most `fuel` turns of each loop. -/
def addEntryAndExitFragments (fuel : ℕ) (s : State) : Option State := do
  let s ← findFlagZones fuel s
  let s := resetEntryExitFrag s
  let first ← s.frags.head?
  let s ← addEntryFragments isPartitionEntry .partitionEntry fuel (addFirstEntry first s)
  let s ← addExitFragments isPartitionExit .partitionExit fuel s
  let s ← addEntryFragments isFlagEntry .flagEntry fuel (resetEntryExitFrag s)
  let s ← addExitFragments isFlagExit .flagExit fuel (resetEntryExitFrag s)
  some (propagateCodeCacheKinds (labelPartitions s))

end Granary.Assemble.AddEntryAndExitFragments
