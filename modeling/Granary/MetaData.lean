import Granary.Base.SlabAllocator.Parameters

namespace Granary.MetaData

open Granary.Base.Packing
open Granary.Base.SlabAllocator

def kMaxNumManagedMetaData : ℕ := 32

structure Layout where
  gAlign : ℕ := 0
  gSize : ℕ := 0
  placed : List (ℕ × Piece) := []

/-- The identifiers are the places in an array. -/
def addMetaData (gDescriptions : List ObjectType) (desc : ObjectType) : Option (List ObjectType) :=
  if gDescriptions.length < kMaxNumManagedMetaData then some (gDescriptions ++ [desc]) else none

def finalizeDescription (l : Layout) (desc : ObjectType) : Layout :=
  let offset := (l.gSize + padding l.gSize desc.align) % wordSize
  { gAlign := max desc.align l.gAlign
    gSize := (offset + desc.size) % wordSize
    placed := l.placed ++ [(offset, desc.toPiece)] }

def finalize (gDescriptions : List ObjectType) : Option Layout := do
  let l := gDescriptions.foldl finalizeDescription {}
  let gSize ← alignTo? l.gSize l.gAlign
  return { l with gSize }

def initAllocator (l : Layout) : Option Parameters := do
  let offset ← alignTo? pointerSize l.gSize
  slabParameters offset l.gSize

def initMetaData (descs : List ObjectType) : Option (Layout × Parameters) := do
  let gDescriptions ← descs.foldlM addMetaData []
  let l ← finalize gDescriptions
  let p ← initAllocator l
  return (l, p)

section Layout

variable {descs : List ObjectType}

theorem foldlM_addMetaData : descs.foldlM addMetaData [] =
    if descs.length ≤ kMaxNumManagedMetaData then some descs else none := by
  induction descs using List.reverseRecOn with
  | nil => rfl
  | append_singleton descs desc ih =>
    have hadd : (descs ++ [desc]).foldlM addMetaData [] =
        (descs.foldlM addMetaData []).bind fun gDescriptions ↦ addMetaData gDescriptions desc := by
      simp [List.foldlM_append]
    rw [hadd, ih, List.length_append, List.length_singleton]
    by_cases hlt : descs.length < kMaxNumManagedMetaData
    · rw [if_pos hlt.le, if_pos (Nat.succ_le_of_lt hlt), Option.bind_some, addMetaData, if_pos hlt]
    · rw [if_neg (by omega : ¬descs.length + 1 ≤ kMaxNumManagedMetaData)]
      split_ifs
      · rw [Option.bind_some, addMetaData, if_neg hlt]
      · rfl

theorem foldl_finalizeDescription : descs.foldl finalizeDescription {} =
    { gAlign := maxAlign (piecesOf descs)
      gSize := wrapFinish wordSize 0 (piecesOf descs)
      placed := wrapPlace wordSize 0 (piecesOf descs) } := by
  induction descs using List.reverseRecOn with
  | nil => rfl
  | append_singleton descs desc ih =>
    have hpieces : piecesOf (descs ++ [desc]) = piecesOf descs ++ [desc.toPiece] := List.map_append
    rw [List.foldl_append, ih, hpieces, maxAlign_concat, wrapFinish_append, wrapPlace_append]
    rfl

theorem initMetaData_cases {l : Layout} {p : Parameters} (h : initMetaData descs = some (l, p)) :
    descs.length ≤ kMaxNumManagedMetaData ∧
      l.placed = wrapPlace wordSize 0 (piecesOf descs) ∧
      l.gSize = alignTo (wrapFinish wordSize 0 (piecesOf descs)) (maxAlign (piecesOf descs)) ∧
      0 < l.gSize ∧ slabParameters (alignTo pointerSize l.gSize) l.gSize = some p := by
  obtain ⟨gDescriptions, hadd, h⟩ := Option.bind_eq_some_iff.1 h
  rw [foldlM_addMetaData] at hadd
  split_ifs at hadd with hlen
  obtain rfl := Option.some_inj.1 hadd
  obtain ⟨l', hfinal, h⟩ := Option.bind_eq_some_iff.1 h
  obtain ⟨p', hinit, h⟩ := Option.bind_eq_some_iff.1 h
  obtain ⟨rfl, rfl⟩ := Prod.mk.inj (Option.some_inj.1 h)
  rw [finalize, foldl_finalizeDescription] at hfinal
  obtain ⟨gSize, hsize, hfinal⟩ := Option.bind_eq_some_iff.1 hfinal
  obtain rfl := Option.some_inj.1 hfinal
  obtain ⟨offset, hoffset, hinit⟩ := Option.bind_eq_some_iff.1 hinit
  obtain ⟨hpos, rfl⟩ := alignTo?_eq_some hoffset
  exact ⟨hlen, rfl, (alignTo?_eq_some hsize).2, hpos, hinit⟩

/-- The meta-data is laid out as it should be exactly when something of a size is registered,
and two objects fit a slab, but for a byte. -/
theorem initMetaData_ok_iff (descs : List ObjectType) :
    (∃ l p, initMetaData descs = some (l, p) ∧ ObjectsOk l.placed l.gSize p) ↔
      descs.length ≤ kMaxNumManagedMetaData ∧ 0 < objectSize (piecesOf descs) ∧
        pointerSize + padding pointerSize (objectSize (piecesOf descs)) +
          2 * objectSize (piecesOf descs) ≤ kNewAllocatorNumBytesPerSlab + 1 := by
  have hbytes := numBytesPerSlab_eq
  constructor
  · rintro ⟨l, p, h, hok⟩
    obtain ⟨hlen, hplaced, hsize, hpos, hparams⟩ := initMetaData_cases h
    have hstart := hok.slab.header
    rw [(slabParameters_cases hparams).1] at hstart
    obtain ⟨-, hle⟩ := (slabParameters_ok_iff hstart).1 ⟨p, hparams, hok.slab⟩
    have hpacked := hok.packed
    rw [hplaced] at hpacked
    have hobject : l.gSize = objectSize (piecesOf descs) := hsize.trans
      (alignTo_of_packed (fun q hq ↦ align_dvd_of_mem hq) (fun q hq ↦ align_le_of_mem hq) hpacked
        (by omega))
    rw [alignTo_pointerSize hpos (by omega), hobject] at hle
    exact ⟨hlen, hobject ▸ hpos, hle⟩
  · rintro ⟨hlen, hpos, hle⟩
    have hlast : finish 0 (piecesOf descs) ≤ objectSize (piecesOf descs) := Nat.le_add_right _ _
    obtain ⟨hplace, hfinish, hobject⟩ := layout_of_objectSize_le
      (fun q hq ↦ align_le_of_mem hq) (by omega : objectSize (piecesOf descs) ≤ 2 ^ 63)
    have hne := ne_nil_of_objectSize_pos hpos
    have hfinal : finalize descs = some
        { gAlign := maxAlign (piecesOf descs)
          gSize := objectSize (piecesOf descs)
          placed := place 0 (piecesOf descs) } := by
      rw [finalize, foldl_finalizeDescription, hplace, hfinish,
        alignTo?_of_pos (maxAlign_pos hne), hobject]
      rfl
    rw [← alignTo_pointerSize hpos (by omega)] at hle
    have hheader : pointerSize ≤ alignTo pointerSize (objectSize (piecesOf descs)) := by
      rw [alignTo_pointerSize hpos (by omega)]
      exact Nat.le_add_right _ _
    obtain ⟨p, hp, hok⟩ := (slabParameters_ok_iff hheader).2 ⟨hpos, hle⟩
    refine ⟨⟨maxAlign (piecesOf descs), objectSize (piecesOf descs), place 0 (piecesOf descs)⟩, p,
      ?_, (packed_place 0 (piecesOf descs)).mono hlast, (slabParameters_cases hp).2.ge, hok⟩
    rw [initMetaData, foldlM_addMetaData, if_pos hlen]
    simp only [Option.bind_eq_bind, Option.bind_some, hfinal, initAllocator, alignTo?_of_pos hpos,
      hp]
    rfl

end Layout

end Granary.MetaData
