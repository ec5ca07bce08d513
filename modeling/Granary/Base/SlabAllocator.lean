import Granary.Base.Bytes
import Granary.Base.Chain
import Granary.Base.Run

namespace Granary.Base.SlabAllocator

open Granary.Base.Bytes

abbrev Byte := BitVec 8

def pageSizeBytes : ℕ := 4096

def kNewAllocatorNumPagesPerSlab : ℕ := 4

def kNewAllocatorNumBytesPerSlab : ℕ := pageSizeBytes * kNewAllocatorNumPagesPerSlab

def pointerSize : ℕ := 8

/-- Arithmetic of `size_t` wraps around. -/
def wordSize : ℕ := 2 ^ 64

def subWord (a b : ℕ) : ℕ :=
  (wordSize + a - b) % wordSize

def alignFactor (x align : ℕ) : ℕ :=
  if x % align ≠ 0 then align - x % align else 0

def alignTo (x align : ℕ) : ℕ :=
  (x + alignFactor x align) % wordSize

structure Properties where
  sizeOf : ℕ
  kRequestedAlignment : ℕ
  kObjectAlignment : ℕ
  deriving DecidableEq, Repr

namespace Properties

variable (p : Properties)

def kMinimumAlignment : ℕ :=
  max p.kRequestedAlignment p.kObjectAlignment

def kAlignedSize : ℕ :=
  alignTo p.sizeOf p.kMinimumAlignment

def kStartOffset : ℕ :=
  alignTo pointerSize p.kMinimumAlignment

def kNumObjsPerSlab : ℕ :=
  subWord (subWord kNewAllocatorNumBytesPerSlab p.kStartOffset) (p.kAlignedSize - 1) /
    p.kAlignedSize

def kEndOffset : ℕ :=
  (p.kStartOffset + p.kNumObjsPerSlab * p.kAlignedSize) % wordSize

end Properties

structure Compiles (p : Properties) : Prop where
  sizeOf_pos : 0 < p.sizeOf
  kObjectAlignment_pos : 0 < p.kObjectAlignment
  kMinimumAlignment_lt : p.kMinimumAlignment < wordSize
  sizeOf_le : p.sizeOf ≤ p.kAlignedSize
  kEndOffset_le : p.kEndOffset ≤ kNewAllocatorNumBytesPerSlab

/-- A write of the allocator, and the objects that are live when it is made. -/
structure Write where
  address : ℕ
  length : ℕ
  live : List ℕ
  deriving DecidableEq, Repr

/-- The allocator with the memory that it uses. `pages` are the slabs that `AllocateDataPages` will
return, and `slabs` those that it has returned, the last one first. -/
structure State where
  mem : ℕ → Byte
  offset : ℕ
  slabList : ℕ
  freeList : ℕ
  pages : List ℕ
  slabs : List ℕ
  live : List ℕ
  writes : List Write

def kUnallocatedMemoryPoison : Byte := 0xAB

def kDeallocatedMemoryPoison : Byte := 0xCD

def kUninitializedMemoryPoison : Byte := 0xEF

def readPointer (mem : ℕ → Byte) (address : ℕ) : ℕ :=
  decode (load mem address pointerSize)

namespace State

def write (s : State) (address : ℕ) (bytes : List Byte) : State :=
  { s with
    mem := store s.mem address bytes
    writes := s.writes ++ [⟨address, bytes.length, s.live⟩] }

def writePointer (s : State) (address pointer : ℕ) : State :=
  s.write address (encode pointerSize pointer)

/-- `GRANARY_IF_DEBUG( checked_memset(...) )` -/
def poison (debug : Bool) (s : State) (address : ℕ) (byte : Byte) (numBytes : ℕ) : State :=
  if debug then s.write address (List.replicate numBytes byte) else s

end State

section Operations

variable (p : Properties) (debug : Bool)

def initial (mem : ℕ → Byte) (pages : List ℕ) : State where
  mem := mem
  offset := p.kEndOffset
  slabList := 0
  freeList := 0
  pages := pages
  slabs := []
  live := []
  writes := []

/-- With no pages left there is no slab. -/
def allocateSlab (s : State) (nextSlab : ℕ) : Option (ℕ × State) :=
  match s.pages with
  | [] => none
  | slab :: pages =>
    let s := { s with pages := pages, slabs := slab :: s.slabs }
    let s := s.poison debug slab kUnallocatedMemoryPoison kNewAllocatorNumBytesPerSlab
    some (slab, s.writePointer slab nextSlab)

def slabForAllocation (s : State) : Option State :=
  if s.offset ≥ p.kEndOffset then
    (allocateSlab debug s s.slabList).map fun (slab, s) ↦
      { s with slabList := slab, offset := p.kStartOffset }
  else some s

def memoryNotInUse (mem : ℕ → Byte) (address numBytes : ℕ) : Bool :=
  (load mem address numBytes).all fun byte ↦
    byte = kUnallocatedMemoryPoison ∨ byte = kDeallocatedMemoryPoison

def allocateFromFreeList (s : State) : Option (ℕ × State) :=
  if s.freeList = 0 then none
  else
    let head := s.freeList
    let s := { s with freeList := readPointer s.mem head }
    some (head, s.poison debug head kDeallocatedMemoryPoison pointerSize)

/-- The end of `Allocate`, with the assertion of a debug build. -/
def handOut (s : State) (address : ℕ) : Option State :=
  if debug = true ∧ memoryNotInUse s.mem address p.kAlignedSize = false then none
  else
    let s := s.poison debug address kUninitializedMemoryPoison p.kAlignedSize
    some { s with live := address :: s.live }

def allocate (s : State) : Option State :=
  match allocateFromFreeList debug s with
  | some (address, s) => handOut p debug s address
  | none =>
    (slabForAllocation p debug s).bind fun s ↦
      handOut p debug { s with offset := (s.offset + p.kAlignedSize) % wordSize }
        ((s.slabList + s.offset) % wordSize)

/-- Only a live object is freed. -/
def free (s : State) (address : ℕ) : Option State :=
  if address ∈ s.live then
    let s := { s with live := s.live.erase address }
    let s := s.poison debug address kDeallocatedMemoryPoison p.kAlignedSize
    let s := s.writePointer address s.freeList
    some { s with freeList := address }
  else none

/-- A client writes to an object of its own. -/
def fill (s : State) (address i : ℕ) (bytes : List Byte) : Option State :=
  if address ∈ s.live ∧ i + bytes.length ≤ p.sizeOf then
    some { s with mem := store s.mem (address + i) bytes }
  else none

inductive Action where
  | allocate
  | free (address : ℕ)
  | fill (address i : ℕ) (bytes : List Byte)

def step (s : State) : Action → Option State
  | .allocate => allocate p debug s
  | .free address => free p debug s address
  | .fill address i bytes => fill p s address i bytes

end Operations

/-- Two ranges of addresses have no address in common. -/
def Apart (a m b n : ℕ) : Prop :=
  a + m ≤ b ∨ b + n ≤ a

def Within (slabs : List ℕ) (offset a m : ℕ) : Prop :=
  ∃ slab ∈ slabs, slab + offset ≤ a ∧ a + m ≤ slab + kNewAllocatorNumBytesPerSlab

structure Pages (pages : List ℕ) : Prop where
  aligned (slab : ℕ) : slab ∈ pages → pageSizeBytes ∣ slab
  pos (slab : ℕ) : slab ∈ pages → 0 < slab
  le (slab : ℕ) : slab ∈ pages → slab + kNewAllocatorNumBytesPerSlab ≤ wordSize
  apart : pages.Pairwise fun slab slab' ↦
    Apart slab kNewAllocatorNumBytesPerSlab slab' kNewAllocatorNumBytesPerSlab

structure Safe (p : Properties) (s : State) : Prop where
  apart : s.live.Pairwise fun a b ↦ Apart a p.sizeOf b p.sizeOf
  aligned (a : ℕ) : a ∈ s.live → p.kMinimumAlignment ∣ a
  within (a : ℕ) : a ∈ s.live → Within s.slabs p.kStartOffset a p.sizeOf
  writes (w : Write) : w ∈ s.writes → Within s.slabs 0 w.address w.length ∧
    ∀ a ∈ w.live, Apart w.address w.length a p.sizeOf

/-- The layouts with room for a link in each object, for each object in a slab, and with an alignment
that pages have. -/
structure Fits (p : Properties) : Prop where
  pointerSize_le : pointerSize ≤ p.kAlignedSize
  le : p.kStartOffset + p.kAlignedSize ≤ kNewAllocatorNumBytesPerSlab
  dvd : p.kMinimumAlignment ∣ pageSizeBytes

end Granary.Base.SlabAllocator
