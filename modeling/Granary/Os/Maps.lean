import Granary.Base.Bytes
import Granary.Base.Format
import Granary.Base.Format.Buffer
import Granary.Os.Module

namespace Granary.Os.Maps

open Function Granary.Base.Bytes Granary.Base.Format

def kMaxModulePathLength : ℕ := 256

def buffSize : ℕ := 8192

/-- The lexer, with what the calls of `read` will return. -/
structure Lexer where
  fileBuffer : ℕ → Char
  fileOffset : ℕ
  tokenBuffer : ℕ → Char
  tokenOffset : ℕ
  tryFillBuffer : Bool
  reads : List (List Char)

namespace Lexer

variable (lexer : Lexer)

/-- At the end of the file nothing is read. -/
def fillBuffer : Lexer :=
  if lexer.tryFillBuffer then
    let chunk := lexer.reads.headD []
    let amountRead := chunk.length
    let fileBuffer := store (update lexer.fileBuffer 0 '\x00') 0 chunk
    { lexer with
      fileOffset := 0
      fileBuffer :=
        if amountRead < buffSize then update fileBuffer amountRead '\x00' else fileBuffer
      tryFillBuffer := 0 < amountRead
      reads := lexer.reads.tail }
  else lexer

def init (fileBuffer tokenBuffer : ℕ → Char) (reads : List (List Char)) : Lexer :=
  fillBuffer
    { fileBuffer := fileBuffer
      fileOffset := 0
      tokenBuffer := tokenBuffer
      tokenOffset := 0
      tryFillBuffer := true
      reads := reads }

/-- To write past the buffer of the token is undefined. -/
def finalizeToken : Option Lexer :=
  if lexer.tokenOffset < kMaxModulePathLength then
    some { lexer with
      tokenBuffer := update lexer.tokenBuffer lexer.tokenOffset '\x00'
      tokenOffset := 0 }
  else none

inductive Scan where
  | token
  | endOfBuffer
  deriving DecidableEq, Repr

/-- The loop over the rest of the buffer. -/
def scan : (num : ℕ) → Lexer → Option (Scan × Lexer)
  | 0, lexer => some (.endOfBuffer, lexer)
  | num + 1, lexer =>
    let ch := lexer.fileBuffer lexer.fileOffset
    if ch = '\x00' then some (.endOfBuffer, lexer)
    else if ch = ' ' ∨ ch = '\n' then
      if lexer.tokenOffset ≠ 0 then lexer.finalizeToken.map (.token, ·)
      else
        let lexer := { lexer with fileOffset := lexer.fileOffset + 1 }
        if ch = '\n' then
          let lexer := { lexer with tokenBuffer := update lexer.tokenBuffer 0 '\n', tokenOffset := 1 }
          lexer.finalizeToken.map (.token, ·)
        else scan num lexer
    else if lexer.tokenOffset < kMaxModulePathLength then
      scan num
        { lexer with
          tokenBuffer := update lexer.tokenBuffer lexer.tokenOffset ch
          tokenOffset := lexer.tokenOffset + 1
          fileOffset := lexer.fileOffset + 1 }
    else none

theorem finalizeToken_reads {lexer l : Lexer} (h : lexer.finalizeToken = some l) :
    l.reads = lexer.reads := by
  rw [finalizeToken] at h
  split_ifs at h
  rw [← Option.some_inj.1 h]

theorem scan_reads {num : ℕ} {lexer l : Lexer} {r : Scan} (h : scan num lexer = some (r, l)) :
    l.reads = lexer.reads := by
  induction num generalizing lexer with
  | zero =>
    obtain ⟨-, rfl⟩ := Prod.mk.inj (Option.some_inj.1 h)
    rfl
  | succ num ih =>
    rw [scan] at h
    dsimp only at h
    split_ifs at h
    · obtain ⟨-, rfl⟩ := Prod.mk.inj (Option.some_inj.1 h)
      rfl
    · obtain ⟨t, ht, heq⟩ := Option.map_eq_some_iff.1 h
      obtain ⟨-, rfl⟩ := Prod.mk.inj heq
      rw [finalizeToken_reads ht]
    · obtain ⟨t, ht, heq⟩ := Option.map_eq_some_iff.1 h
      obtain ⟨-, rfl⟩ := Prod.mk.inj heq
      rw [finalizeToken_reads ht]
    · rw [ih h]
    · rw [ih h]

theorem reads_fillBuffer_lt {lexer : Lexer} (h : lexer.fillBuffer.tryFillBuffer = true) :
    lexer.fillBuffer.reads.length < lexer.reads.length := by
  rw [fillBuffer] at h ⊢
  split_ifs at h ⊢ with htry
  · cases hreads : lexer.reads with
    | nil => simp [hreads] at h
    | cons chunk reads => simp
  · exact absurd h htry

def nextToken (lexer : Lexer) : Option Lexer :=
  match _hscan : scan (buffSize - lexer.fileOffset) lexer with
  | none => none
  | some (.token, l) => some l
  | some (.endOfBuffer, l) =>
    if _hfill : l.fillBuffer.tryFillBuffer = true then nextToken l.fillBuffer
    else l.fillBuffer.finalizeToken
termination_by lexer.reads.length
decreasing_by
  rw [← scan_reads _hscan]
  exact reads_fillBuffer_lt _hfill

def token : List Char :=
  cString (load lexer.tokenBuffer 0 kMaxModulePathLength)

end Lexer

/-- A call with which the parser changes what is known of modules, or asks for it. -/
inductive Call where
  | findByPath (path : List Char)
  | register (path : List Char)
  | addRange (path : List Char) (base limit offset : BitVec 64) (perms : BitVec 32)
  deriving DecidableEq, Repr

structure Module where
  path : List Char
  ranges : List Module.ModuleAddressRange
  deriving DecidableEq, Repr

/-- The path is copied to a buffer. -/
def Module.init (path : List Char) : Module where
  path := path.take (kMaxModulePathLength - 1)
  ranges := []

/-- The modules, the one that was registered last first, and the calls that were made. -/
structure ModuleManager where
  modules : List Module
  calls : List Call
  deriving DecidableEq, Repr

namespace ModuleManager

variable (manager : ModuleManager)

def findByPath (path : List Char) : Option ℕ × ModuleManager :=
  (manager.modules.findIdx? fun module ↦ module.path = path,
    { manager with calls := manager.calls ++ [.findByPath path] })

def register (module : Module) : ModuleManager where
  modules := module :: manager.modules
  calls := manager.calls ++ [.register module.path]

def addRange (module : ℕ) (base limit offset : BitVec 64) (perms : BitVec 32) :
    Option ModuleManager :=
  match manager.modules[module]? with
  | none => none
  | some m =>
    (Os.Module.addRange base.toNat limit.toNat offset perms m.ranges).map fun ranges ↦
      { modules := manager.modules.set module { m with ranges := ranges }
        calls := manager.calls ++ [.addRange m.path base limit offset perms] }

def findOrRegister (path : List Char) : ℕ × ModuleManager :=
  match manager.findByPath path with
  | (some module, manager) => (module, manager)
  | (none, manager) => (0, manager.register (.init path))

end ModuleManager

def moduleReadable : BitVec 32 := 1#32

def moduleWritable : BitVec 32 := 1#32 <<< 1

def moduleExecutable : BitVec 32 := 1#32 <<< 2

def moduleCopyOnWrite : BitVec 32 := 1#32 <<< 3

def modulePerms (token : ℕ → Char) : BitVec 32 :=
  (if token 0 = 'r' then moduleReadable else 0) |||
    (if token 1 = 'w' then moduleWritable else 0) |||
    (if token 2 = 'x' then moduleExecutable else 0) |||
    (if token 3 = 'p' then moduleCopyOnWrite else 0)

def kAnonModuleName : List Char := ['[', 'a', 'n', 'o', 'n', ']']

def storedAt (stores : List Arg) (i : ℕ) : BitVec 64 :=
  match stores[i]? with
  | some (.long v) => v
  | _ => 0

/-- The loop that skips things like `(deleted)`, cut off after some turns. -/
def skipTokens : (turns : ℕ) → Lexer → Option Lexer
  | 0, _ => none
  | turns + 1, lexer =>
    lexer.nextToken.bind fun lexer ↦
      if lexer.tokenBuffer 0 ≠ '\x00' ∧ lexer.tokenBuffer 0 ≠ '\n' then skipTokens turns lexer
      else some lexer

/-- The end of a line: the path of a module, or nothing. -/
def parseModule (turns : ℕ) (lexer : Lexer) (manager : ModuleManager)
    (base limit offset : BitVec 64) (perms : BitVec 32) : Option (Lexer × ModuleManager) := do
  let lexer ← lexer.nextToken
  let isAnon := lexer.tokenBuffer 0 = '\n'
  let path := if isAnon then kAnonModuleName else lexer.token
  let (module, manager) := manager.findOrRegister path
  let manager ← manager.addRange module base limit offset perms
  if isAnon then
    return (lexer, manager)
  let lexer ← skipTokens turns lexer
  return (lexer, manager)

/-- One turn of the loop over the lines. Without bounds the loop is left. -/
def parseLine (turns : ℕ) (lexer : Lexer) (manager : ModuleManager) :
    Option (Option (Lexer × ModuleManager)) := do
  let lexer ← lexer.nextToken
  let (numArgs, bounds) ← deFormat lexer.token "%lx-%lx".toList
  if numArgs = 0 then
    return none
  let lexer ← lexer.nextToken
  let perms := modulePerms lexer.tokenBuffer
  let lexer ← lexer.nextToken
  let (_, offsets) ← deFormat lexer.token "%lx".toList
  let lexer ← lexer.nextToken
  let lexer ← lexer.nextToken
  (parseModule turns lexer manager (storedAt bounds 0) (storedAt bounds 1) (storedAt offsets 0)
    perms).map some

/-- `ParseMapsFile`, cut off after some turns. -/
def parseMapsFile : (turns : ℕ) → Lexer → ModuleManager → Option ModuleManager
  | 0, _, _ => none
  | turns + 1, lexer, manager =>
    match parseLine turns lexer manager with
    | none => none
    | some none => some manager
    | some (some (lexer, manager)) => parseMapsFile turns lexer manager

end Granary.Os.Maps
