import Granary.Base.Run
import Granary.Context

namespace Granary.Entry

open Function Granary.Base.Run Granary.Context

structure Config where
  kernel : Bool
  unsafePatchEdges : Bool

def Config.directEdgeCodeSizeBytes (cfg : Config) : ℕ :=
  if cfg.kernel then 32 else 48

inductive Phase where
  | outside
  /-- At the jump through `entry_target_pc` that the code of an edge begins with. -/
  | jump (edge : ℕ)
  /-- In `granary_enter_direct_edge`, about to acquire `gExitGranaryLock`. -/
  | enter (edge : ℕ)
  | acquire (edge : ℕ)
  | check (edge : ℕ)
  /-- In `Translate`. -/
  | translating (edge : ℕ)
  | clear (edge : ℕ)
  | patch (edge : ℕ)
  | prepare (edge : ℕ)
  | release (edge : ℕ)
  | leave (edge : ℕ)
  /-- At the same jump as first, with the edge behind it. -/
  | back (edge : ℕ)
  /-- In a call of `Translate` that no direct edge makes. -/
  | translatingOther
  deriving DecidableEq, Repr

/-- The locks of the edges are with the threads that hold them, and `calls` are the edge and the
meta-data of each call of `Translate` that an edge has made. The functions that hold `edge_list_lock`
from their first operation to their last are one step each. -/
structure State (T : Type*) where
  context : Context
  lock : ℕ → Option T
  /-- The readers of `gExitGranaryLock`. -/
  readers : Finset T
  /-- `granary_exit` has acquired `gExitGranaryLock`, which it never releases. -/
  exiting : Bool
  phase : T → Phase
  calls : List (ℕ × ℕ)

inductive Action (T : Type*) where
  /-- A thread comes to the code of an edge. -/
  | jump (thread : T) (edge : ℕ)
  /-- The next operation. What `choice` decides is whether `Translate` has use for its meta-data or
  deletes it, and whether the edge can be patched. -/
  | go (thread : T) (choice : Bool)
  /-- `Translate` is called by an entry point or for an indirect edge. -/
  | translate (thread : T)
  /-- A call of `Translate` makes an edge with meta-data of its own. -/
  | allocate (thread : T) (edge destBlockMeta : ℕ)
  /-- A call of `Translate` encodes an edge at `pc`, where the jump takes up `length` bytes. -/
  | encode (thread : T) (edge pc length : ℕ)
  /-- A call of `Translate` returns the address of a block. -/
  | finish (thread : T) (pc : ℕ)
  | exit

variable {T : Type*}

def initial : State T where
  context := empty
  lock := fun _ ↦ none
  readers := ∅
  exiting := false
  phase := fun _ ↦ .outside
  calls := []

def edgeHasTranslation (cfg : Config) (d : DirectEdge) : Bool :=
  d.entryTargetPC < d.edgeCodePC ||
    d.edgeCodePC + cfg.directEdgeCodeSizeBytes ≤ d.entryTargetPC

section Step

variable [DecidableEq T]

def State.goto (s : State T) (t : T) (p : Phase) : State T :=
  { s with phase := update s.phase t p }

/-- The call takes the meta-data, which stays if there is use for it. -/
def State.callTranslate (s : State T) (edge destBlockMeta : ℕ) (keep : Bool) : State T :=
  { s with
    context := { s.context with metas := update s.context.metas destBlockMeta keep }
    calls := s.calls ++ [(edge, destBlockMeta)] }

/-- The next operation of `granary_enter_direct_edge`, or of the jump that the edge begins with. -/
def goOn (cfg : Config) (s : State T) (t : T) (choice : Bool) : Option (State T) :=
  match s.phase t with
  | .jump edge | .back edge =>
    (s.context.edges edge).map fun d ↦
      s.goto t (if edgeHasTranslation cfg d then .outside else .enter edge)
  | .enter edge =>
    if s.exiting then none else some { s.goto t (.acquire edge) with readers := insert t s.readers }
  | .acquire edge =>
    if s.lock edge = none then
      some { s.goto t (.check edge) with lock := update s.lock edge (some t) }
    else none
  | .check edge =>
    (s.context.edges edge).map fun d ↦
      if edgeHasTranslation cfg d then s.goto t (.release edge)
      else (s.callTranslate edge d.word choice).goto t (.translating edge)
  | .clear edge =>
    (s.context.edges edge).map fun d ↦
      { s.goto t (.patch edge) with context := s.context.set edge { d with word := 0 } }
  | .patch edge =>
    some (s.goto t (if cfg.unsafePatchEdges && choice then .release edge else .prepare edge))
  | .prepare edge =>
    (s.context.preparePatchDirectEdge edge).map fun c ↦
      { s.goto t (.release edge) with context := c }
  | .release edge => some { s.goto t (.leave edge) with lock := update s.lock edge none }
  | .leave edge => some { s.goto t (.back edge) with readers := s.readers.erase t }
  | .outside | .translating _ | .translatingOther => none

def Phase.translates : Phase → Bool
  | .translating _ | .translatingOther => true
  | _ => false

/-- No block is in the bytes from the code of the edge on that `EdgeHasTranslation` takes for it, which
are more than the jump. -/
def finish (cfg : Config) (s : State T) (t : T) (pc : ℕ) : Option (State T) :=
  match s.phase t with
  | .translating edge =>
    (s.context.edges edge).bind fun d ↦
      if edgeHasTranslation cfg { d with entryTargetPC := pc } then
        some { s.goto t (.clear edge) with
          context := s.context.set edge { d with entryTargetPC := pc } }
      else none
  | .translatingOther => some (s.goto t .outside)
  | _ => none

def step (cfg : Config) (s : State T) : Action T → Option (State T)
  | .jump t edge =>
    (s.context.edges edge).bind fun d ↦
      if s.phase t = .outside ∧ d.entryTargetPC ≠ 0 then some (s.goto t (.jump edge)) else none
  | .go t choice => goOn cfg s t choice
  | .translate t =>
    if s.phase t = .outside then some (s.goto t .translatingOther) else none
  | .allocate t edge m =>
    if (s.phase t).translates ∧ edge ≠ 0 ∧ s.context.edges edge = none ∧ m ≠ 0 ∧
        s.context.metas m = false then
      some { s with
        context :=
          { s.context with metas := update s.context.metas m true }.allocateDirectEdge m edge }
    else none
  | .encode t edge pc length =>
    (s.context.edges edge).bind fun d ↦
      if (s.phase t).translates ∧ d.edgeCodePC = 0 ∧ d.entryTargetPC = 0 ∧ pc ≠ 0 ∧
          length < cfg.directEdgeCodeSizeBytes then
        some { s with
          context :=
            s.context.set edge { d with edgeCodePC := pc, entryTargetPC := pc + length } }
      else none
  | .finish t pc => finish cfg s t pc
  | .exit => if s.readers = ∅ then some { s with exiting := true } else none

end Step

def Phase.holds : Phase → Option ℕ
  | .check edge | .translating edge | .clear edge | .patch edge | .prepare edge | .release edge =>
    some edge
  | _ => none

def Phase.edge : Phase → Option ℕ
  | .outside | .translatingOther => none
  | .jump edge | .enter edge | .acquire edge | .check edge | .translating edge | .clear edge
  | .patch edge | .prepare edge | .release edge | .leave edge | .back edge => some edge

def Phase.inside : Phase → Bool
  | .outside | .translatingOther | .jump _ | .enter _ | .back _ => false
  | _ => true

def State.Called (s : State T) (e : ℕ) : Prop :=
  e ∈ s.calls.map Prod.fst

def State.user (s : State T) (e : ℕ) : Phase :=
  (s.lock e).elim .outside s.phase

/-- The edge waits for its translation, and has the meta-data for it. -/
structure Fresh (cfg : Config) (s : State T) (unpatched : List ℕ) (e : ℕ) (d : DirectEdge) :
    Prop where
  called : ¬s.Called e
  translation : edgeHasTranslation cfg d = false
  word : d.word ≠ 0
  live : s.context.metas d.word = true
  unlinked : e ∉ unpatched

structure Done (cfg : Config) (s : State T) (unpatched : List ℕ) (e : ℕ) (d : DirectEdge) :
    Prop where
  called : s.Called e
  translation : edgeHasTranslation cfg d = true
  word : e ∉ unpatched → d.word = 0

/-- What is known of an edge while the thread with its lock is in a phase. -/
def Expects (cfg : Config) (s : State T) (unpatched : List ℕ) (e : ℕ) (d : DirectEdge) :
    Phase → Prop
  | .translating _ => s.Called e ∧ edgeHasTranslation cfg d = false ∧ e ∉ unpatched
  | .clear _ => s.Called e ∧ edgeHasTranslation cfg d = true ∧ e ∉ unpatched
  | .patch _ | .prepare _ =>
    s.Called e ∧ edgeHasTranslation cfg d = true ∧ e ∉ unpatched ∧ d.word = 0
  | .release _ => Done cfg s unpatched e d
  | _ => Fresh cfg s unpatched e d ∨ Done cfg s unpatched e d

structure Inv (cfg : Config) (s : State T) (all unpatched : List ℕ) : Prop where
  lists : Lists s.context all unpatched
  calls : (s.calls.map Prod.fst).Nodup
  allocated (e : ℕ) : s.Called e → s.context.edges e ≠ none
  edge (e : ℕ) (d : DirectEdge) :
    s.context.edges e = some d → Expects cfg s unpatched e d (s.user e)
  owner (e e' : ℕ) (d d' : DirectEdge) : s.context.edges e = some d →
    s.context.edges e' = some d' → ¬s.Called e → ¬s.Called e' → d.word = d'.word → e = e'
  lock (e : ℕ) (t : T) : s.lock e = some t ↔ (s.phase t).holds = some e
  live (t : T) (e : ℕ) : (s.phase t).edge = some e → s.context.edges e ≠ none
  back (t : T) (e : ℕ) (d : DirectEdge) : s.phase t = .leave e ∨ s.phase t = .back e →
    s.context.edges e = some d → edgeHasTranslation cfg d = true
  readers (t : T) : t ∈ s.readers ↔ (s.phase t).inside = true
  exiting : s.exiting = true → s.readers = ∅

theorem inv_initial (cfg : Config) : Inv cfg (initial : State T) [] [] where
  lists := lists_empty
  calls := List.nodup_nil
  allocated := by simp [State.Called, initial]
  edge := by simp [initial, empty]
  owner := by simp [initial, empty]
  lock := by simp [initial, Phase.holds]
  live := by simp [initial, Phase.edge]
  back := by simp [initial, empty]
  readers := by simp [initial, Phase.inside]
  exiting := by simp [initial]

end Granary.Entry
