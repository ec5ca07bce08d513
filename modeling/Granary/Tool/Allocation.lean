import Granary.MetaData
import Granary.Tool

namespace Granary.Tool

open Function Granary.Base.DepthFirst Granary.Base.Packing
open Granary.Base.SlabAllocator hiding alignFactor
open Granary.MetaData (initMetaData initMetaData_ok_iff kMaxNumManagedMetaData)

structure TypedTools extends Tools where
  type : ℕ → ObjectType
  typed (id : ℕ) :
    (gRegisteredTools id).getD ⟨0, 1⟩ = { size := (type id).size, align := (type id).align }

def initAllocator (s : Activation) : Option Parameters := do
  let size ← alignTo? s.gAllocationSize s.gAllocationAlign
  let allocationOffset ← alignTo? pointerSize s.gAllocationAlign
  slabParameters allocationOffset size

def initTools (t : Tools) (builtin : Name) (flagTools : Option (List Char)) :
    Option (Activation × Parameters) := do
  let s ← initToolManager t builtin flagTools
  let p ← initAllocator s
  return (s, p)

section Laid

variable {t : TypedTools} {s s' : Activation} {id : ℕ}

def activePieces (t : TypedTools) (s : Activation) : List Piece :=
  piecesOf (s.gActiveTools.map t.type)

def Activation.placed (t : TypedTools) (s : Activation) : List (ℕ × Piece) :=
  s.gActiveTools.map fun id ↦ (s.allocationOffset id, (t.type id).toPiece)

/-- The objects of the active tools are one after the other. -/
structure Laid (t : TypedTools) (s : Activation) : Prop where
  active (id : ℕ) : id ∈ s.gActiveTools → s.isActive id
  placed : s.placed t = wrapPlace wordSize 0 (activePieces t s)
  size : s.gAllocationSize = wrapFinish wordSize 0 (activePieces t s)
  align : s.gAllocationAlign = maxAlign (activePieces t s)

theorem laid_empty (t : TypedTools) : Laid t .empty :=
  ⟨fun _ hid ↦ absurd hid List.not_mem_nil, rfl, rfl, rfl⟩

theorem Laid.allocate (h : Laid t s) (hactive : s.isActive id) (hid : id ∉ s.gActiveTools) :
    Laid t (s.allocate id ((t.gRegisteredTools id).getD ⟨0, 1⟩)) := by
  rw [t.typed]
  set desc : ToolDescription := { size := (t.type id).size, align := (t.type id).align }
  have hpieces : activePieces t (s.allocate id desc) =
      activePieces t s ++ [(t.type id).toPiece] := by
    simp [activePieces, piecesOf, Activation.allocate]
  have hold : (s.allocate id desc).placed t = s.placed t ++
      [((s.gAllocationSize + padding s.gAllocationSize (t.type id).align) % wordSize,
        (t.type id).toPiece)] := by
    rw [Activation.placed, Activation.allocate, List.map_append]
    congr 1
    · refine List.map_congr_left fun a ha ↦ ?_
      have hne : a ≠ id := ne_of_mem_of_not_mem ha hid
      simp only [update_of_ne hne]
    · simp only [List.map_singleton, update_self]
      rfl
  constructor
  · intro a ha
    rcases List.mem_append.1 ha with ha | ha
    · exact h.active a ha
    · rw [List.mem_singleton.1 ha]
      exact hactive
  · rw [hold, hpieces, wrapPlace_append, h.placed, h.size]
    rfl
  · rw [hpieces, wrapFinish_append, ← h.size]
    rfl
  · rw [hpieces, maxAlign_concat, ← h.align]
    rfl

theorem visits_activateTool {n : ℕ} (h : activateTool t.toTools n id s = some s') :
    Visits (successors t.toTools) [id] s.marks s'.marks := by
  apply visit_visits
  rw [← marks_activateTool, h]
  rfl

/-- A tool that is in progress, and what is done so far. -/
structure InProgress (t : TypedTools) (id : ℕ) (s : Activation) : Prop where
  laid : Laid t s
  active : s.isActive id
  not_done : id ∉ s.gActiveTools

theorem InProgress.start (h : Laid t s) (hid : ¬s.isActive id) :
    InProgress t id { s with isActive := update s.isActive id true } := by
  refine ⟨⟨fun a ha ↦ ?_, h.placed, h.size, h.align⟩, update_self ..,
    fun hmem ↦ hid (h.active id hmem)⟩
  rcases eq_or_ne a id with rfl | hne
  · exact update_self ..
  · have hkeep : update s.isActive id true a = s.isActive a := update_of_ne hne true s.isActive
    exact hkeep.trans (h.active a ha)

theorem InProgress.visit {dep : ℕ} (h : InProgress t id s) (hlaid : Laid t s')
    (hvisits : Visits (successors t.toTools) [dep] s.marks s'.marks) : InProgress t id s' := by
  refine ⟨hlaid, hvisits.mono h.active, fun hmem ↦ ?_⟩
  obtain ⟨new, hdone, -, hnew⟩ := hvisits.done_eq
  have hdone : s'.gActiveTools = s.gActiveTools ++ new := hdone
  rw [hdone] at hmem
  rcases List.mem_append.1 hmem with hmem | hmem
  · exact h.not_done hmem
  · exact ((hnew id).1 hmem).2 h.active

theorem Laid.activateTool {n : ℕ} (h : Laid t s)
    (hs' : activateTool t.toTools n id s = some s') : Laid t s' := by
  induction n generalizing id s s' with
  | zero => exact absurd hs' (Option.some_ne_none _).symm
  | succ n ih =>
    rw [Tool.activateTool] at hs'
    split_ifs at hs' with hmarked
    · obtain rfl := Option.some_inj.1 hs'
      exact h
    · obtain ⟨u, hu, rfl⟩ := Option.map_eq_some_iff.1 hs'
      have hfold (deps : List ℕ) (v : Activation) (hv : InProgress t id v)
          (hu : deps.foldlM (fun s dep ↦ if (t.gRegisteredTools dep).isSome then
            Tool.activateTool t.toTools n dep s else some s) v = some u) : InProgress t id u := by
        induction deps generalizing v with
        | nil =>
          obtain rfl := Option.some_inj.1 hu
          exact hv
        | cons dep deps ihdeps =>
          obtain ⟨w, hw, hu⟩ := Option.bind_eq_some_iff.1 hu
          refine ihdeps w ?_ hu
          dsimp only at hw
          split_ifs at hw
          · exact hv.visit (ih hv.laid hw) (visits_activateTool hw)
          · obtain rfl := Option.some_inj.1 hw
            exact hv
      have hdone := hfold _ _ (InProgress.start h hmarked) hu
      exact hdone.laid.allocate hdone.active hdone.not_done

theorem requestTools_types (t : TypedTools) (builtin : Name) (flagTools : Option (List Char)) :
    (t.requestTools builtin flagTools).gRegisteredTools = t.gRegisteredTools := by
  have hrequest (t : Tools) (name : Name) :
      (t.requestTool name).gRegisteredTools = t.gRegisteredTools := by
    unfold Tools.requestTool
    split <;> rfl
  have hfold (names : List Name) (t : Tools) :
      (names.foldl Tools.requestTool t).gRegisteredTools = t.gRegisteredTools := by
    induction names generalizing t with
    | nil => rfl
    | cons name names ih => exact (ih _).trans (hrequest t name)
  cases flagTools with
  | none => exact hrequest _ _
  | some tools => exact (hfold _ _).trans (hrequest _ _)

def TypedTools.requested (t : TypedTools) (builtin : Name) (flagTools : Option (List Char)) :
    TypedTools where
  toTools := t.requestTools builtin flagTools
  type := t.type
  typed id := by rw [requestTools_types, t.typed]

theorem laid_initToolManager {builtin : Name} {flagTools : Option (List Char)}
    (h : initToolManager t.toTools builtin flagTools = some s) : Laid t s := by
  have hlaid : Laid (t.requested builtin flagTools) s := by
    unfold initToolManager at h
    dsimp only at h
    split at h
    · exact absurd h (Option.some_ne_none _).symm
    · exact (laid_empty _).activateTool (t := t.requested builtin flagTools) h
  exact ⟨hlaid.active, hlaid.placed, hlaid.size, hlaid.align⟩

end Laid

section Objects

variable {t : TypedTools} {s : Activation}

theorem align_pos_of_initAllocator {p : Parameters} (h : initAllocator s = some p) :
    0 < s.gAllocationAlign ∧
      slabParameters (alignTo pointerSize s.gAllocationAlign)
        (alignTo s.gAllocationSize s.gAllocationAlign) = some p := by
  obtain ⟨size, hsize, h⟩ := Option.bind_eq_some_iff.1 h
  obtain ⟨offset, hoffset, h⟩ := Option.bind_eq_some_iff.1 h
  obtain ⟨hpos, rfl⟩ := alignTo?_eq_some hsize
  obtain ⟨-, rfl⟩ := alignTo?_eq_some hoffset
  exact ⟨hpos, h⟩

theorem initAllocator_ok_iff (hs : Laid t s) :
    (∃ p, initAllocator s = some p ∧ ObjectsOk (s.placed t) s.gAllocationSize p) ↔
      0 < objectSize (activePieces t s) ∧
        pointerSize + padding pointerSize (maxAlign (activePieces t s)) +
          2 * objectSize (activePieces t s) ≤ kNewAllocatorNumBytesPerSlab + 1 := by
  have hbytes := numBytesPerSlab_eq
  have halign : ∀ q ∈ activePieces t s, q.align ≤ 2 ^ 62 := fun q hq ↦ align_le_of_mem hq
  have hmax : maxAlign (activePieces t s) ≤ 2 ^ 62 := maxAlign_le halign
  constructor
  · rintro ⟨p, h, hok⟩
    obtain ⟨hpos, hparams⟩ := align_pos_of_initAllocator h
    have hstart := hok.slab.header
    rw [(slabParameters_cases hparams).1] at hstart
    obtain ⟨hsize, hle⟩ := (slabParameters_ok_iff hstart).1 ⟨p, hparams, hok.slab⟩
    have hpacked := hok.packed
    have hlimit := hok.size_le
    rw [(slabParameters_cases hparams).2] at hlimit
    rw [hs.placed] at hpacked
    have hobject : alignTo s.gAllocationSize s.gAllocationAlign = objectSize (activePieces t s) := by
      rw [hs.size, hs.align]
      exact alignTo_of_packed (fun q hq ↦ align_dvd_of_mem hq) halign hpacked (by omega)
    rw [hobject] at hsize hle
    rw [hs.align] at hpos hle
    rw [alignTo_pointerSize hpos (by omega)] at hle
    exact ⟨hsize, hle⟩
  · rintro ⟨hpos, hle⟩
    have hlast : finish 0 (activePieces t s) ≤ objectSize (activePieces t s) := Nat.le_add_right _ _
    obtain ⟨hplace, hfinish, hobject⟩ := layout_of_objectSize_le halign (by omega :
      objectSize (activePieces t s) ≤ 2 ^ 63)
    have hmaxpos := maxAlign_pos (ne_nil_of_objectSize_pos hpos)
    have hstart := alignTo_pointerSize hmaxpos (by omega)
    rw [← hstart] at hle
    have hheader : pointerSize ≤ alignTo pointerSize (maxAlign (activePieces t s)) :=
      hstart ▸ Nat.le_add_right _ _
    obtain ⟨p, hp, hok⟩ := (slabParameters_ok_iff hheader).2 ⟨hpos, hle⟩
    refine ⟨p, ?_, ?_, ?_, hok⟩
    · rw [initAllocator, hs.size, hs.align, hfinish, alignTo?_of_pos hmaxpos,
        alignTo?_of_pos hmaxpos, hobject]
      exact hp
    · rw [hs.placed, hs.size, hplace, hfinish]
      exact packed_place 0 _
    · rw [hs.size, hfinish, (slabParameters_cases hp).2]
      exact hlast

/-- The objects of the meta-data and of the tools are laid out as they should be exactly
when they have a size, and two of them fit a slab behind its header, but for a byte. -/
theorem objects_ok_iff (descs : List ObjectType) (t : TypedTools) (builtin : Name)
    (flagTools : Option (List Char)) :
    ((∃ l p, initMetaData descs = some (l, p) ∧ ObjectsOk l.placed l.gSize p) ↔
      descs.length ≤ kMaxNumManagedMetaData ∧ 0 < objectSize (piecesOf descs) ∧
        pointerSize + padding pointerSize (objectSize (piecesOf descs)) +
          2 * objectSize (piecesOf descs) ≤ kNewAllocatorNumBytesPerSlab + 1) ∧
    ((∃ s p, initTools t.toTools builtin flagTools = some (s, p) ∧
        ObjectsOk (s.placed t) s.gAllocationSize p) ↔
      ∃ s, initToolManager t.toTools builtin flagTools = some s ∧
        0 < objectSize (activePieces t s) ∧
        pointerSize + padding pointerSize (maxAlign (activePieces t s)) +
          2 * objectSize (activePieces t s) ≤ kNewAllocatorNumBytesPerSlab + 1) := by
  refine ⟨initMetaData_ok_iff descs, ?_, ?_⟩
  · rintro ⟨s, p, h, hok⟩
    obtain ⟨s', hs, h⟩ := Option.bind_eq_some_iff.1 h
    obtain ⟨p', hp, h⟩ := Option.bind_eq_some_iff.1 h
    obtain ⟨rfl, rfl⟩ := Prod.mk.inj (Option.some_inj.1 h)
    exact ⟨s', hs, (initAllocator_ok_iff (laid_initToolManager hs)).1 ⟨p', hp, hok⟩⟩
  · rintro ⟨s, hs, hsize⟩
    obtain ⟨p, hp, hok⟩ := (initAllocator_ok_iff (laid_initToolManager hs)).2 hsize
    refine ⟨s, p, ?_, hok⟩
    rw [initTools, hs]
    simp only [Option.bind_eq_bind, Option.bind_some, hp]
    rfl

def largeMetaData : ObjectType where
  size := 9000
  align := 8
  align_pos := by decide
  size_lt := by decide
  align_pow := ⟨3, by decide, rfl⟩

/-- The number of objects is what is left of a subtraction that wraps around. -/
theorem large_not_ok : ∃ l p, initMetaData [largeMetaData] = some (l, p) ∧
    p.remainingSize < p.size ∧ 2 ^ 50 < p.maxNumAllocs ∧ ¬ObjectsOk l.placed l.gSize p := by
  have hsome : (initMetaData [largeMetaData]).isSome := by decide
  obtain ⟨⟨l, p⟩, h⟩ := Option.isSome_iff_exists.1 hsome
  have hvalues : (initMetaData [largeMetaData]).map
      (fun lp ↦ (lp.2.remainingSize, lp.2.size, lp.2.maxNumAllocs)) =
        some (7384, 9000, 2049638230412172) := by decide
  rw [h] at hvalues
  simp only [Option.map_some, Option.some_inj, Prod.mk.injEq] at hvalues
  obtain ⟨hremaining, hsize, hnum⟩ := hvalues
  refine ⟨l, p, h, by omega, by omega, fun hok ↦ ?_⟩
  have hle := hok.slab.size_le
  omega

end Objects

end Granary.Tool
