import Granary.Base.BinarySearch

namespace Granary.Clients.Malcontent

open Granary.Base.BinarySearch

def offsetDescSize : ℕ := 8

instance : NeZero offsetDescSize := ⟨by decide⟩

/-- The size of a `TrainedModuleDesc`: a name of 256 bytes and two 64-bit words. -/
def moduleDescSize : ℕ := 272

-- What `os::ModuleByName` returns.
variable {μ : Type*}

structure TrainedModuleInfo (μ : Type*) where
  module : Option μ
  moduleName : ℤ
  beginOffsets : ℤ
  endOffsets : ℤ

/-- The globals that `InitTrainingFile` sets. The list starts with the module added last. -/
structure TrainingState (μ : Type*) where
  collectMemopStats : Bool
  trainingFileFd : ℤ
  moduleDesc : ℤ
  moduleDescMapSize : ℕ
  trainedModules : List (TrainedModuleInfo μ)

section Code

-- The 32-bit word that stands at an address.
variable (word : ℤ → BitVec 32)

def word64 (a : ℤ) : BitVec 64 := word (a + 4) ++ word a

def numOffsets (desc : ℤ) : ℕ := (word64 word (desc + 256)).toNat

def isLastDesc (desc : ℤ) : Bool := word64 word (desc + 264) ≠ 0

variable (moduleByName : ℤ → Option μ)

def trainedModuleInfo (desc : ℤ) : TrainedModuleInfo μ where
  module := moduleByName desc
  moduleName := desc
  beginOffsets := desc + moduleDescSize
  endOffsets := entry offsetDescSize (desc + moduleDescSize) (numOffsets word desc)

/-- The loop over the descriptors, cut off after `fuel` of them. -/
def visitDescs : ℕ → ℤ → List (TrainedModuleInfo μ) → Option (List (TrainedModuleInfo μ))
  | 0, _, _ => none
  | n + 1, desc, trainedModules =>
    let trainedModules := trainedModuleInfo word moduleByName desc :: trainedModules
    if isLastDesc word desc then some trainedModules
    else
      visitDescs n (desc + moduleDescSize + numOffsets word desc * offsetDescSize) trainedModules

/-- `open` returns `fd`, `fstat` the size of the file if it succeeds, and `mmap` the address
`desc`. -/
def initTrainingFile (hasFlag : Bool) (fd : ℤ) (fileSize : Option ℕ) (desc : ℤ) (fuel : ℕ)
    (s : TrainingState μ) : Option (TrainingState μ) :=
  if !hasFlag then some s
  else if fd ≤ 0 then some { s with trainingFileFd := fd, collectMemopStats := false }
  else
    match fileSize with
    | none => some { s with trainingFileFd := -1, collectMemopStats := false }
    | some size =>
      if moduleDescSize ≤ size then do
        let trainedModules ← visitDescs word moduleByName fuel desc s.trainedModules
        some { s with
          trainingFileFd := fd
          moduleDesc := desc
          moduleDescMapSize := size
          trainedModules := trainedModules }
      else none

/-- The search of `BlockAccessesSharedData`. -/
def findOffset (mod : TrainedModuleInfo μ) (modOffset : BitVec 64) : List ℤ × Option ℤ :=
  search offsetDescSize (fun desc ↦ (word desc).toNat) modOffset.toNat mod.beginOffsets
    mod.endOffsets

def blockAccessesSharedData (mod : TrainedModuleInfo μ) (modOffset : BitVec 64) : Bool :=
  match (findOffset word mod modOffset).2 with
  | some desc => word (desc + 4) ≠ 0
  | none => true

end Code

structure TrainedOffset where
  offset : BitVec 32
  accessesSharedData : BitVec 32
deriving DecidableEq, Repr

/-- The offsets of a module stand behind its descriptor. -/
structure DescAt (word : ℤ → BitVec 32) (desc : ℤ) (offsets : List TrainedOffset)
    (isLast : Bool) : Prop where
  numOffsets : numOffsets word desc = offsets.length
  isLastDesc : isLastDesc word desc = isLast
  entries : ∀ i (h : i < offsets.length),
    word (entry offsetDescSize (desc + moduleDescSize) i) = offsets[i].offset ∧
    word (entry offsetDescSize (desc + moduleDescSize) i + 4) = offsets[i].accessesSharedData
  sorted : offsets.Pairwise fun o o' ↦ o.offset.toNat < o'.offset.toNat

/-- A training file in memory: the descriptors of its modules, one behind the other. -/
def FileAt (word : ℤ → BitVec 32) : ℤ → List (List TrainedOffset) → Prop
  | _, [] => False
  | desc, [offsets] => DescAt word desc offsets true
  | desc, offsets :: next :: file =>
    DescAt word desc offsets false ∧
      FileAt word (entry offsetDescSize (desc + moduleDescSize) offsets.length) (next :: file)

def descs : ℤ → List (List TrainedOffset) → List (ℤ × List TrainedOffset)
  | _, [] => []
  | desc, offsets :: file =>
    (desc, offsets) ::
      descs (entry offsetDescSize (desc + moduleDescSize) offsets.length) file

/-- What the training says about an offset. A block that it never saw may share its data. -/
def trained (offsets : List TrainedOffset) (modOffset : BitVec 64) : Bool :=
  match offsets.find? fun o ↦ o.offset.toNat = modOffset.toNat with
  | some o => o.accessesSharedData ≠ 0
  | none => true

/-- The look-up of an offset reads entries of the table only, and returns what the training says. -/
structure LookUp (word : ℤ → BitVec 32) (mod : TrainedModuleInfo μ) (offsets : List TrainedOffset)
    (modOffset : BitVec 64) : Prop where
  reads : ∀ p ∈ (findOffset word mod modOffset).1, mod.beginOffsets ≤ p ∧ p < mod.endOffsets
  result : blockAccessesSharedData word mod modOffset = trained offsets modOffset

section File

variable {word : ℤ → BitVec 32} {desc : ℤ} {offsets : List TrainedOffset} {isLast : Bool}
  {modOffset : BitVec 64} {file : List (List TrainedOffset)} {o : TrainedOffset}

theorem FileAt.descAt (h : FileAt word desc file) {d : ℤ × List TrainedOffset}
    (hd : d ∈ descs desc file) : ∃ isLast, DescAt word d.1 d.2 isLast := by
  induction file generalizing desc with
  | nil => exact absurd hd List.not_mem_nil
  | cons offsets file ih =>
    cases file with
    | nil =>
      rw [descs, descs, List.mem_singleton] at hd
      subst hd
      exact ⟨true, h⟩
    | cons next file =>
      rcases List.mem_cons.mp hd with rfl | hd
      · exact ⟨false, h.1⟩
      · exact ih h.2 hd

theorem FileAt.visitDescs (h : FileAt word desc file) (moduleByName : ℤ → Option μ) {fuel : ℕ}
    (hfuel : file.length ≤ fuel) (mods : List (TrainedModuleInfo μ)) :
    visitDescs word moduleByName fuel desc mods =
      some (((descs desc file).map fun d ↦ trainedModuleInfo word moduleByName d.1).reverse ++
        mods) := by
  induction file generalizing desc fuel mods with
  | nil => exact h.elim
  | cons offsets file ih =>
    obtain ⟨n, rfl⟩ : ∃ n, fuel = n + 1 := ⟨fuel - 1, by rw [List.length_cons] at hfuel; omega⟩
    cases file with
    | nil =>
      have hd : DescAt word desc offsets true := h
      simp [Malcontent.visitDescs, hd.isLastDesc, descs]
    | cons next file =>
      obtain ⟨hd, hrest⟩ := h
      rw [Malcontent.visitDescs]
      simp only [hd.isLastDesc, hd.numOffsets, Bool.false_eq_true, if_false]
      rw [List.length_cons] at hfuel
      have hn : (next :: file).length ≤ n := by omega
      have hnext := ih hrest hn (trainedModuleInfo word moduleByName desc :: mods)
      rw [entry] at hnext
      rw [hnext]
      simp [descs, entry]

namespace DescAt

theorem endOffsets_eq (h : DescAt word desc offsets isLast) (moduleByName : ℤ → Option μ) :
    (trainedModuleInfo word moduleByName desc).endOffsets =
      entry offsetDescSize (desc + moduleDescSize) offsets.length := by
  rw [trainedModuleInfo, h.numOffsets]

theorem monotoneOn (h : DescAt word desc offsets isLast) :
    MonotoneOn (fun i ↦ (word (entry offsetDescSize (desc + moduleDescSize) i)).toNat)
      (Set.Ico 0 offsets.length) := by
  intro i hi j hj hij
  obtain ⟨m, rfl⟩ := Int.eq_ofNat_of_zero_le hi.1
  obtain ⟨n, rfl⟩ := Int.eq_ofNat_of_zero_le hj.1
  have hm : m < offsets.length := by exact_mod_cast hi.2
  have hn : n < offsets.length := by exact_mod_cast hj.2
  simp only [(h.entries m hm).1, (h.entries n hn).1]
  rcases (Int.ofNat_le.mp hij).eq_or_lt with rfl | hlt
  · exact le_rfl
  · exact (List.pairwise_iff_getElem.mp h.sorted m n hm hn hlt).le

theorem trained_eq (h : DescAt word desc offsets isLast) (ho : o ∈ offsets)
    (hk : o.offset.toNat = modOffset.toNat) :
    trained offsets modOffset = decide (o.accessesSharedData ≠ 0) := by
  have hunique {x y : TrainedOffset} (hx : x ∈ offsets) (hy : y ∈ offsets)
      (he : x.offset.toNat = y.offset.toNat) : x = y := by
    obtain ⟨i, hi, rfl⟩ := List.getElem_of_mem hx
    obtain ⟨j, hj, rfl⟩ := List.getElem_of_mem hy
    obtain hlt | rfl | hgt := Nat.lt_trichotomy i j
    · exact absurd he (List.pairwise_iff_getElem.mp h.sorted i j hi hj hlt).ne
    · rfl
    · exact absurd he (List.pairwise_iff_getElem.mp h.sorted j i hj hi hgt).ne'
  rw [trained]
  cases hf : offsets.find? fun o ↦ decide (o.offset.toNat = modOffset.toNat) with
  | none =>
    rw [List.find?_eq_none] at hf
    exact absurd hk (by simpa using hf o ho)
  | some o' =>
    have hk' := List.find?_some hf
    rw [decide_eq_true_eq] at hk'
    rw [hunique (List.mem_of_find?_eq_some hf) ho (hk'.trans hk.symm)]

theorem beginOffsets_eq (moduleByName : ℤ → Option μ) :
    (trainedModuleInfo word moduleByName desc).beginOffsets =
      entry offsetDescSize (desc + moduleDescSize) 0 := by
  simp [trainedModuleInfo, entry]

theorem findOffset_eq (h : DescAt word desc offsets isLast) (moduleByName : ℤ → Option μ)
    (modOffset : BitVec 64) :
    findOffset word (trainedModuleInfo word moduleByName desc) modOffset =
      search offsetDescSize (fun desc ↦ (word desc).toNat) modOffset.toNat
        (entry offsetDescSize (desc + moduleDescSize) 0)
        (entry offsetDescSize (desc + moduleDescSize) offsets.length) := by
  rw [findOffset, beginOffsets_eq, h.endOffsets_eq]

/-- The entry behind the table is read when no entry of the table ends the search before it. -/
theorem endOffsets_mem_reads_iff (h : DescAt word desc offsets isLast)
    (moduleByName : ℤ → Option μ) (modOffset : BitVec 64) :
    (trainedModuleInfo word moduleByName desc).endOffsets ∈
        (findOffset word (trainedModuleInfo word moduleByName desc) modOffset).1 ↔
      ∀ o ∈ offsets, o.offset.toNat < modOffset.toNat := by
  rw [h.findOffset_eq, h.endOffsets_eq,
    last_mem_search_reads_iff (Int.natCast_nonneg _) h.monotoneOn]
  constructor
  · intro hall o ho
    obtain ⟨i, hi, rfl⟩ := List.getElem_of_mem ho
    rw [← (h.entries i hi).1]
    exact hall i ⟨Int.natCast_nonneg i, by exact_mod_cast hi⟩
  · intro hall n hn
    obtain ⟨i, rfl⟩ := Int.eq_ofNat_of_zero_le hn.1
    have hi : i < offsets.length := by exact_mod_cast hn.2
    rw [(h.entries i hi).1]
    exact hall _ (List.getElem_mem hi)

theorem exists_of_read (h : DescAt word desc offsets isLast) (moduleByName : ℤ → Option μ)
    (hend : (trainedModuleInfo word moduleByName desc).endOffsets ∉
      (findOffset word (trainedModuleInfo word moduleByName desc) modOffset).1) {p : ℤ}
    (hp : p ∈ (findOffset word (trainedModuleInfo word moduleByName desc) modOffset).1) :
    ∃ n, ∃ hn : n < offsets.length, p = entry offsetDescSize (desc + moduleDescSize) n ∧
      word p = offsets[n].offset ∧ word (p + 4) = offsets[n].accessesSharedData := by
  have hread := hp
  rw [h.findOffset_eq] at hp
  obtain ⟨m, hm0, hmn, rfl⟩ := mem_search_reads hp
  obtain ⟨n, rfl⟩ := Int.eq_ofNat_of_zero_le hm0
  have hn : n ≠ offsets.length := by
    intro he
    rw [he, ← h.endOffsets_eq moduleByName] at hread
    exact hend hread
  have hlt : n < offsets.length := by omega
  exact ⟨n, hlt, rfl, h.entries n hlt⟩

theorem blockAccessesSharedData_eq (h : DescAt word desc offsets isLast)
    (moduleByName : ℤ → Option μ)
    (hend : (trainedModuleInfo word moduleByName desc).endOffsets ∉
      (findOffset word (trainedModuleInfo word moduleByName desc) modOffset).1) :
    blockAccessesSharedData word (trainedModuleInfo word moduleByName desc) modOffset =
      trained offsets modOffset := by
  rw [blockAccessesSharedData]
  cases hf : (findOffset word (trainedModuleInfo word moduleByName desc) modOffset).2 with
  | some p =>
    have hfound := hf
    rw [h.findOffset_eq] at hfound
    obtain ⟨hp, hkey⟩ := of_search_eq_some hfound
    rw [← h.findOffset_eq moduleByName] at hp
    obtain ⟨n, hn, -, hoff, hflag⟩ := h.exists_of_read moduleByName hend hp
    rw [hoff] at hkey
    simp only [hflag, h.trained_eq (List.getElem_mem hn) hkey]
  | none =>
    cases ht : offsets.find? fun o ↦ decide (o.offset.toNat = modOffset.toNat) with
    | none => simp only [trained, ht]
    | some o =>
      obtain ⟨i, hi, rfl⟩ := List.getElem_of_mem (List.mem_of_find?_eq_some ht)
      have hk := List.find?_some ht
      rw [decide_eq_true_eq, ← (h.entries i hi).1] at hk
      have hmem : (i : ℤ) ∈ Set.Ico 0 (offsets.length : ℤ) :=
        ⟨Int.natCast_nonneg i, by exact_mod_cast hi⟩
      obtain ⟨p, hp⟩ : ∃ p, (findOffset word (trainedModuleInfo word moduleByName desc)
          modOffset).2 = some p := by
        rw [h.findOffset_eq]
        exact exists_search_eq_some_of_mem_Ico h.monotoneOn hmem hk
      rw [hp] at hf
      exact absurd hf (by simp)

theorem blockAccessesSharedData_of_lt (h : DescAt word desc offsets isLast)
    (moduleByName : ℤ → Option μ) (hall : ∀ o ∈ offsets, o.offset.toNat < modOffset.toNat) :
    blockAccessesSharedData word (trainedModuleInfo word moduleByName desc) modOffset =
      (decide ((word (entry offsetDescSize (desc + moduleDescSize) offsets.length)).toNat ≠
          modOffset.toNat) ||
        decide (word (entry offsetDescSize (desc + moduleDescSize) offsets.length + 4) ≠ 0)) := by
  rw [blockAccessesSharedData, h.findOffset_eq, search_eq_of_forall_lt (Int.natCast_nonneg _)]
  · split_ifs with hk <;> simp [hk]
  · intro n hn
    obtain ⟨i, rfl⟩ := Int.eq_ofNat_of_zero_le hn.1
    have hi : i < offsets.length := by exact_mod_cast hn.2
    rw [(h.entries i hi).1]
    exact hall _ (List.getElem_mem hi)

/-- The look-up meets its purpose when the table holds an offset that is not below the one that is
looked up. Otherwise the search ends behind the table. -/
theorem lookUp_iff (h : DescAt word desc offsets isLast) (moduleByName : ℤ → Option μ)
    (modOffset : BitVec 64) :
    LookUp word (trainedModuleInfo word moduleByName desc) offsets modOffset ↔
      ∃ o ∈ offsets, modOffset.toNat ≤ o.offset.toNat := by
  have hiff := h.endOffsets_mem_reads_iff moduleByName modOffset
  constructor
  · intro hlook
    by_contra hall
    simp only [not_exists, not_and, not_le] at hall
    exact lt_irrefl _ (hlook.reads _ (hiff.mpr hall)).2
  · intro ⟨o, ho, hle⟩
    have hend : (trainedModuleInfo word moduleByName desc).endOffsets ∉
        (findOffset word (trainedModuleInfo word moduleByName desc) modOffset).1 :=
      fun hread ↦ absurd (hiff.mp hread o ho) (not_lt.mpr hle)
    refine ⟨fun p hp ↦ ?_, h.blockAccessesSharedData_eq moduleByName hend⟩
    obtain ⟨n, hn, rfl, -, -⟩ := h.exists_of_read moduleByName hend hp
    rw [beginOffsets_eq, h.endOffsets_eq, entry_le_entry, lt_iff_not_ge, entry_le_entry]
    omega

end DescAt

/-- The training file is read as it is laid out, and the look-up of an offset meets its purpose
exactly when some entry of the table is not below it. -/
theorem trainedOffsets_iff {fd : ℤ} {fuel size : ℕ} (moduleByName : ℤ → Option μ)
    (s : TrainingState μ) (hfile : FileAt word desc file) (hfd : 0 < fd)
    (hsize : moduleDescSize ≤ size) (hfuel : file.length ≤ fuel) :
    (∃ s', initTrainingFile word moduleByName true fd (some size) desc fuel s = some s' ∧
      s'.trainedModules =
        ((descs desc file).map fun d ↦ trainedModuleInfo word moduleByName d.1).reverse ++
          s.trainedModules) ∧
    ∀ d ∈ descs desc file, ∀ modOffset,
      LookUp word (trainedModuleInfo word moduleByName d.1) d.2 modOffset ↔
        ∃ o ∈ d.2, modOffset.toNat ≤ o.offset.toNat := by
  constructor
  · have hvisit := hfile.visitDescs moduleByName hfuel s.trainedModules
    simp [initTrainingFile, not_le.mpr hfd, hsize, hvisit]
  · intro d hd modOffset
    obtain ⟨isLast, hdesc⟩ := hfile.descAt hd
    exact hdesc.lookUp_iff moduleByName modOffset

end File

/-- Two modules, in memory from address 4096 on. The first has three offsets, and the second has
none. -/
def threeOffsets (a : ℤ) : BitVec 32 :=
  if a = 4096 + 256 then 3
  else if a = 4368 then 16
  else if a = 4376 then 32
  else if a = 4376 + 4 then 1
  else if a = 4384 then 48
  else if a = 4392 + 264 then 1
  else 0

theorem fileAt_threeOffsets : FileAt threeOffsets 4096 [[⟨16, 0⟩, ⟨32, 1⟩, ⟨48, 0⟩], []] := by
  refine ⟨⟨rfl, rfl, fun i hi ↦ ?_, ?_⟩, rfl, rfl, fun i hi ↦ absurd hi (Nat.not_lt_zero i), .nil⟩
  · match i, hi with
    | 0, _ => exact ⟨rfl, rfl⟩
    | 1, _ => exact ⟨rfl, rfl⟩
    | 2, _ => exact ⟨rfl, rfl⟩
  · decide

theorem trainedOffsets_iff_threeOffsets :
    (∃ s' : TrainingState Unit, initTrainingFile threeOffsets (fun _ ↦ none) true 3 (some 568) 4096
      2 ⟨true, -1, 0, 0, []⟩ = some s' ∧ s'.trainedModules.length = 2) ∧
    ∀ d ∈ descs 4096 [[⟨16, 0⟩, ⟨32, 1⟩, ⟨48, 0⟩], []], ∀ modOffset,
      LookUp threeOffsets (trainedModuleInfo threeOffsets (fun _ ↦ (none : Option Unit)) d.1) d.2
        modOffset ↔ ∃ o ∈ d.2, modOffset.toNat ≤ o.offset.toNat := by
  have h := trainedOffsets_iff (fun _ ↦ (none : Option Unit)) ⟨true, -1, 0, 0, []⟩
    fileAt_threeOffsets (show 0 < (3 : ℤ) by decide)
    (show moduleDescSize ≤ 568 by decide) (le_refl 2)
  obtain ⟨⟨s', hs, hmods⟩, hlook⟩ := h
  exact ⟨⟨s', hs, by simp [hmods, descs]⟩, hlook⟩

/-- Two modules, in memory from address 4096 on. The first has no offsets. The second is named `abcd`
and has one. -/
def twoModules (a : ℤ) : BitVec 32 :=
  if a = 4368 then 0x64636261
  else if a = 4368 + 256 ∨ a = 4368 + 264 then 1
  else if a = 4368 + 272 then 16
  else 0

theorem fileAt_twoModules : FileAt twoModules 4096 [[], [⟨16, 0⟩]] := by
  refine ⟨⟨rfl, rfl, fun i h ↦ absurd h (Nat.not_lt_zero i), .nil⟩, rfl, rfl, fun i h ↦ ?_,
    List.pairwise_singleton _ _⟩
  obtain rfl : i = 0 := Nat.lt_one_iff.mp h
  exact ⟨rfl, rfl⟩

/-- The name of the second module is read as an entry of the first, which has none. -/
theorem trainedOffsets_misread :
    ¬∀ (word : ℤ → BitVec 32) (desc : ℤ) (file : List (List TrainedOffset)),
      FileAt word desc file → ∀ d ∈ descs desc file, ∀ modOffset,
        LookUp word (trainedModuleInfo word (fun _ ↦ (none : Option Unit)) d.1) d.2 modOffset := by
  intro h
  have hlook := h twoModules 4096 [[], [⟨16, 0⟩]] fileAt_twoModules (4096, []) List.mem_cons_self
    0x64636261
  have hfound : findOffset twoModules
      (trainedModuleInfo twoModules (fun _ ↦ (none : Option Unit)) 4096) 0x64636261 =
        ([4368], some 4368) := by
    rw [findOffset, search]
    rfl
  have hresult := hlook.result
  rw [blockAccessesSharedData, hfound] at hresult
  exact absurd hresult (by decide)

end Granary.Clients.Malcontent
