import Granary.Base.Run
import Mathlib.Data.BitVec
import Mathlib.Logic.Function.Basic
import Mathlib.Tactic

namespace Granary.Clients.Watchpoints.TypeId

open Function Granary.Base.Run

def kMaxWatchpointTypeId : ℕ := 32767

def kTypeTableSize : ℕ := 4096

structure TypeName where
  retAddress : BitVec 64
  sizeOrder : ℕ
deriving DecidableEq, Repr

structure Call where
  retAddress : BitVec 64
  numBytes : ℕ
  numBytes_pos : 0 < numBytes
  numBytes_lt : numBytes < 2 ^ 32
deriving DecidableEq

def sizeOrder (numBytes : ℕ) : ℕ :=
  if numBytes = 0 then 0 else 63 - (BitVec.ofNat 64 numBytes).clz.toNat

def bucketOf (retAddress : BitVec 64) : ℕ := retAddress.toNat % kTypeTableSize

def Call.name (c : Call) : TypeName := ⟨c.retAddress, sizeOrder c.numBytes⟩

def Call.bucket (c : Call) : ℕ := bucketOf c.retAddress

inductive Phase where
  | idle
  | called (c : Call)
  /-- It has the lock of its list as a reader. -/
  | reading (c : Call)
  /-- It has found nothing, and has no lock. -/
  | missed (c : Call)
  /-- It has the lock of its list as the writer. -/
  | writing (c : Call)
  /-- It has found nothing once more. -/
  | creating (c : Call)
  /-- It has got an identifier. -/
  | numbered (c : Call) (typeId : ℕ)
deriving DecidableEq

structure Return where
  call : Call
  id : ℕ
deriving DecidableEq

variable {T : Type*}

/-- The lists are those of the `next` pointers. Each has a lock, with a writer or readers. -/
structure State (T : Type*) where
  gTypes : ℕ → TypeName
  gTypeTable : ℕ → List ℕ
  gNextTypeId : ℕ
  writer : ℕ → Option T
  readers : ℕ → List T
  phase : T → Phase
  /-- What the calls have returned so far. -/
  returned : List Return

def initial : State T where
  gTypes := fun _ ↦ ⟨0, 0⟩
  gTypeTable := fun _ ↦ []
  gNextTypeId := 0
  writer := fun _ ↦ none
  readers := fun _ ↦ []
  phase := fun _ ↦ .idle
  returned := []

structure Action (T : Type*) where
  thread : T
  /-- What the thread calls, if it is idle. -/
  call : Call

def findType (s : State T) (c : Call) : Option ℕ :=
  (s.gTypeTable c.bucket).find? fun id ↦ s.gTypes id = c.name

section Step

variable [DecidableEq T]

/-- The identifier is returned as a word of 16 bits. -/
def State.finish (s : State T) (t : T) (c : Call) (id : ℕ) : State T :=
  { s with
    phase := update s.phase t .idle
    returned := ⟨c, id % 2 ^ 16⟩ :: s.returned }

def State.releaseRead (s : State T) (t : T) (c : Call) : State T :=
  { s with readers := update s.readers c.bucket ((s.readers c.bucket).erase t) }

def State.releaseWrite (s : State T) (c : Call) : State T :=
  { s with writer := update s.writer c.bucket none }

def State.insert (s : State T) (c : Call) (id : ℕ) : State T :=
  { s with
    gTypes := update s.gTypes id c.name
    gTypeTable := update s.gTypeTable c.bucket (id :: s.gTypeTable c.bucket) }

def step (s : State T) (a : Action T) : Option (State T) :=
  let t := a.thread
  match s.phase t with
  | .idle => some { s with phase := update s.phase t (.called a.call) }
  | .called c =>
    if s.writer c.bucket = none then
      some { s with
        readers := update s.readers c.bucket (t :: s.readers c.bucket)
        phase := update s.phase t (.reading c) }
    else none
  | .reading c =>
    match findType s c with
    | some id => some ((s.releaseRead t c).finish t c id)
    | none => some { s.releaseRead t c with phase := update s.phase t (.missed c) }
  | .missed c =>
    if s.writer c.bucket = none ∧ s.readers c.bucket = [] then
      some { s with
        writer := update s.writer c.bucket (some t)
        phase := update s.phase t (.writing c) }
    else none
  | .writing c =>
    match findType s c with
    | some id => some ((s.releaseWrite c).finish t c id)
    | none => some { s with phase := update s.phase t (.creating c) }
  | .creating c =>
    let typeId := s.gNextTypeId
    let s := { s with gNextTypeId := (typeId + 1) % 2 ^ 64 }
    if kMaxWatchpointTypeId ≤ typeId then
      some ((s.releaseWrite c).finish t c kMaxWatchpointTypeId)
    else some { s with phase := update s.phase t (.numbered c typeId) }
  | .numbered c typeId => some (((s.insert c typeId).releaseWrite c).finish t c typeId)

end Step

/-- The rest of the loop over `gTypes`, `n` entries from the end of it. -/
def forEachFrom (s : State T) (maxId : ℕ) : (n id : ℕ) → List (ℕ × TypeName)
  | 0, _ => []
  | n + 1, id => (id, s.gTypes id) :: if id + 1 ≥ maxId then [] else forEachFrom s maxId n (id + 1)

def forEachType (s : State T) : List (ℕ × TypeName) :=
  forEachFrom s s.gNextTypeId (kMaxWatchpointTypeId + 1) 0

def sizeOfType (s : State T) (typeId : ℕ) : ℕ := 2 ^ (s.gTypes typeId).sizeOrder

def Quiet (s : State T) : Prop := ∀ t, s.phase t = .idle

def Call.pair (c : Call) : BitVec 64 × ℕ := (c.retAddress, Nat.log 2 c.numBytes)

/-- The identifiers below the last one name the pairs of the calls that got them. -/
structure Naming (s : State T) : Prop where
  names {r r' : Return} : r ∈ s.returned → r' ∈ s.returned → r.id < kMaxWatchpointTypeId →
    r'.id < kMaxWatchpointTypeId → (r.call.pair = r'.call.pair ↔ r.id = r'.id)
  size {r : Return} : r ∈ s.returned → r.id < kMaxWatchpointTypeId →
    sizeOfType s r.id ≤ r.call.numBytes ∧ r.call.numBytes < 2 * sizeOfType s r.id

/-- Every identifier that was returned is visited once, with its own name, and no other is. -/
structure Enumerates (s : State T) : Prop where
  once : ((forEachType s).map Prod.fst).Nodup
  visits (id : ℕ) (name : TypeName) : (id, name) ∈ forEachType s ↔
    ∃ r ∈ s.returned, r.id = id ∧ id < kMaxWatchpointTypeId ∧
      name = ⟨r.call.retAddress, Nat.log 2 r.call.numBytes⟩

end Granary.Clients.Watchpoints.TypeId
