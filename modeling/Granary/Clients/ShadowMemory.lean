import Granary.Base.Packing
import Granary.Base.Format
import Granary.Base.SlabAllocator.Layout
import Mathlib.Order.CompletePartialOrder

namespace Granary.Clients.ShadowMemory

open Granary.Base.Packing
open Granary.Base.Format (format Arg)
open Granary.Base.SlabAllocator (wordSize subWord pageSizeBytes)

def kUnscaledShadowMemSize : ℕ := 2 ^ 32

def kMaxNumShadowStructures : ℕ := 16

structure ShadowStructureDescription extends ObjectType where
  size_pos : 0 < size

/-- A description with the fields that its registration computes. -/
structure Registered where
  desc : ShadowStructureDescription
  offset : ℕ
  offsetAsmInstruction : List Char

structure Globals where
  descriptions : List Registered := []
  unalignedSize : ℕ := 0
  alignedSize : ℕ := 1
  scaleAmountLong : ℕ := 0
  scaleAmount : BitVec 8 := 0
  prevOffset : ℕ := 0
  shadowMemNumPages : ℕ := 0
  shadowMemSize : ℕ := 0

/-- The builtin that counts leading zeros, which is undefined on zero. -/
def builtinClz (x : BitVec 32) : Option ℕ := if x = 0 then none else some x.clz.toNat

/-- `1UL << n`, which is undefined when `n` is not less than the width. -/
def shiftOne (n : ℕ) : Option ℕ := if n < 64 then some (2 ^ n) else none

def unitScale (unalignedSize : ℕ) : Option (ℕ × ℕ) := do
  let leadingZeros ← builtinClz (BitVec.ofNat 32 unalignedSize)
  let scaleAmount := 32 - leadingZeros - 1
  let alignedSize ← shiftOne scaleAmount
  if unalignedSize > alignedSize then
    let scaleAmount := subWord scaleAmount 1
    let alignedSize ← shiftOne scaleAmount
    return (scaleAmount, alignedSize)
  else return (scaleAmount, alignedSize)

/-- The instruction that goes from one structure to the next, if they are apart. -/
def offsetAsm (offsetDiff : ℕ) : List Char :=
  if offsetDiff ≠ 0 then
    (format 32 "ADD r64 %%4, i8 %lu;".toList [.long (BitVec.ofNat 64 offsetDiff)]).getD []
  else []

def addShadowStructure (g : Globals) (desc : ShadowStructureDescription) : Option Globals := do
  let offset := (g.unalignedSize + padding g.unalignedSize desc.align) % wordSize
  let unalignedSize := (offset + desc.size) % wordSize
  let (scaleAmountLong, alignedSize) ← unitScale unalignedSize
  let shadowMemSize := kUnscaledShadowMemSize * alignedSize % wordSize
  let shadowMemSize := (shadowMemSize + padding shadowMemSize pageSizeBytes) % wordSize
  return {
    descriptions := g.descriptions ++
      [{ desc, offset, offsetAsmInstruction := offsetAsm (subWord offset g.prevOffset) }]
    unalignedSize
    alignedSize
    scaleAmountLong
    scaleAmount := BitVec.ofNat 8 scaleAmountLong
    prevOffset := offset
    shadowMemNumPages := shadowMemSize / pageSizeBytes
    shadowMemSize }

def addShadowStructures (descs : List ShadowStructureDescription) : Option Globals :=
  descs.foldlM addShadowStructure {}

structure Granularity where
  flag : BitVec 32
  isPow : ∃ k : Fin 32, flag = 1#32 <<< k.val

def Granularity.shiftAmount (granularity : Granularity) : ℕ := granularity.flag.ctz.toNat

def Granularity.granule (granularity : Granularity) (addr : BitVec 64) : BitVec 64 :=
  addr >>> granularity.shiftAmount

def shadowOf (g : Globals) (granularity : Granularity) (shadowMem : BitVec 64) (desc : Registered)
    (addr : BitVec 64) : BitVec 64 :=
  let addr := addr >>> granularity.shiftAmount
  let addr := addr <<< g.scaleAmountLong
  let addr := addr &&& 0xFFFFFFFF
  shadowMem + addr + BitVec.ofNat 64 desc.offset

section Register

variable {descs : List ShadowStructureDescription} {desc : ShadowStructureDescription}
  {g g' : Globals}

abbrev pieces (descs : List ShadowStructureDescription) : List Piece :=
  descs.map fun desc ↦ desc.toPiece

def Globals.placed (g : Globals) : List (ℕ × Piece) :=
  g.descriptions.map fun r ↦ (r.offset, r.desc.toPiece)

theorem addShadowStructures_concat : addShadowStructures (descs ++ [desc]) =
    (addShadowStructures descs).bind fun g ↦ addShadowStructure g desc := by
  simp [addShadowStructures, List.foldlM_append]

theorem addShadowStructure_cases (h : addShadowStructure g desc = some g') :
    unitScale g'.unalignedSize = some (g'.scaleAmountLong, g'.alignedSize) ∧
      g'.scaleAmount = BitVec.ofNat 8 g'.scaleAmountLong ∧
      g'.unalignedSize = wrapFinish wordSize g.unalignedSize [desc.toPiece] ∧
      g'.placed = g.placed ++ wrapPlace wordSize g.unalignedSize [desc.toPiece] := by
  simp only [addShadowStructure, Option.bind_eq_bind, Option.pure_def] at h
  obtain ⟨⟨scale, aligned⟩, hscale, hg⟩ := Option.bind_eq_some_iff.1 h
  obtain rfl := Option.some_inj.1 hg
  exact ⟨hscale, rfl, rfl, by simp [Globals.placed, wrapPlace]⟩

theorem exists_addShadowStructure
    (h : (unitScale (wrapFinish wordSize g.unalignedSize [desc.toPiece])).isSome) :
    ∃ g', addShadowStructure g desc = some g' := by
  obtain ⟨scale, hscale⟩ := Option.isSome_iff_exists.1 h
  simp only [wrapFinish] at hscale
  apply Option.isSome_iff_exists.1
  simp only [addShadowStructure, hscale, Option.bind_eq_bind, Option.bind_some]
  rfl

theorem addShadowStructures_layout (h : addShadowStructures descs = some g) :
    g.unalignedSize = wrapFinish wordSize 0 (pieces descs) ∧
      g.placed = wrapPlace wordSize 0 (pieces descs) := by
  induction descs using List.reverseRecOn generalizing g with
  | nil =>
    obtain rfl := Option.some_inj.1 h
    exact ⟨rfl, rfl⟩
  | append_singleton descs desc ih =>
    rw [addShadowStructures_concat] at h
    obtain ⟨g₀, hg₀, hadd⟩ := Option.bind_eq_some_iff.1 h
    obtain ⟨hsize, hplaced⟩ := ih hg₀
    obtain ⟨-, -, hunaligned, hplace⟩ := addShadowStructure_cases hadd
    have hpieces : pieces (descs ++ [desc]) = pieces descs ++ [desc.toPiece] := List.map_append
    rw [hunaligned, hplace, hsize, hplaced, hpieces, wrapFinish_append, wrapPlace_append]
    exact ⟨rfl, rfl⟩

theorem addShadowStructures_scale (h : addShadowStructures descs = some g) (hne : descs ≠ []) :
    unitScale g.unalignedSize = some (g.scaleAmountLong, g.alignedSize) ∧
      g.scaleAmount = BitVec.ofNat 8 g.scaleAmountLong := by
  obtain ⟨front, last, rfl⟩ := (List.eq_nil_or_concat' descs).resolve_left hne
  rw [addShadowStructures_concat] at h
  obtain ⟨g₀, -, hadd⟩ := Option.bind_eq_some_iff.1 h
  obtain ⟨hscale, hamount, -, -⟩ := addShadowStructure_cases hadd
  exact ⟨hscale, hamount⟩

end Register

theorem builtinClz_cases {x : BitVec 32} {leadingZeros : ℕ} (h : builtinClz x = some leadingZeros) :
    leadingZeros < 32 ∧ 2 ^ (31 - leadingZeros) ≤ x.toNat ∧ x.toNat < 2 ^ (32 - leadingZeros) := by
  unfold builtinClz at h
  split_ifs at h with hx
  obtain rfl := Option.some_inj.1 h
  have hlow := BitVec.two_pow_sub_clz_le_toNat_of_ne_zero (by decide) hx
  have hhigh := BitVec.toNat_lt_two_pow_sub_clz (x := x)
  refine ⟨?_, hlow, hhigh⟩
  by_contra hge
  rw [Nat.sub_eq_zero_of_le (not_lt.1 hge), Nat.lt_one_iff] at hhigh
  exact hx (BitVec.eq_of_toNat_eq hhigh)

theorem builtinClz_of_log {x : BitVec 32} {l : ℕ} (hlow : 2 ^ l ≤ x.toNat)
    (hhigh : x.toNat < 2 ^ (l + 1)) : l < 32 ∧ builtinClz x = some (31 - l) := by
  obtain ⟨leadingZeros, hclz⟩ : ∃ leadingZeros, builtinClz x = some leadingZeros := by
    refine ⟨_, if_neg ?_⟩
    rintro rfl
    exact absurd hlow (not_le.2 (Nat.two_pow_pos l))
  obtain ⟨hl, hlow', hhigh'⟩ := builtinClz_cases hclz
  have hle := (Nat.pow_lt_pow_iff_right (by decide)).1 (hlow.trans_lt hhigh')
  have hge := (Nat.pow_lt_pow_iff_right (by decide)).1 (hlow'.trans_lt hhigh)
  refine ⟨by omega, ?_⟩
  rw [hclz]
  congr 1
  omega

theorem shiftOne_of_lt {n : ℕ} (h : n < 64) : shiftOne n = some (2 ^ n) := if_pos h

/-- The scale is the logarithm of the low half of the total if this is the total and a power
of two, and one less otherwise. -/
theorem unitScale_of_log {n l : ℕ} (hlow : 2 ^ l ≤ n % 2 ^ 32) (hhigh : n % 2 ^ 32 < 2 ^ (l + 1)) :
    l < 32 ∧ unitScale n = if n = 2 ^ l then some (l, 2 ^ l) else
      if l = 0 then none else some (l - 1, 2 ^ (l - 1)) := by
  have htoNat : (BitVec.ofNat 32 n).toNat = n % 2 ^ 32 := BitVec.toNat_ofNat n 32
  obtain ⟨hl, hclz⟩ := builtinClz_of_log (htoNat ▸ hlow) (htoNat ▸ hhigh)
  have hscale : 32 - (31 - l) - 1 = l := by omega
  have hle : n % 2 ^ 32 ≤ n := Nat.mod_le n _
  refine ⟨hl, ?_⟩
  simp only [unitScale, hclz, Option.bind_eq_bind, Option.bind_some, hscale, Option.pure_def,
    shiftOne_of_lt (show l < 64 by omega)]
  by_cases hpow : n = 2 ^ l
  · rw [if_neg (by omega), if_pos hpow]
  · rw [if_pos (by omega), if_neg hpow]
    by_cases hzero : l = 0
    · have hundefined : shiftOne (subWord l 1) = none := by
        rw [hzero]
        exact if_neg (by decide)
      rw [hundefined, if_pos hzero]
      rfl
    · have hsub : subWord l 1 = l - 1 := by
        unfold subWord wordSize
        omega
      rw [hsub, shiftOne_of_lt (by omega), if_neg hzero]
      rfl

theorem unitScale_of_mod_eq_zero {n : ℕ} (h : n % 2 ^ 32 = 0) : unitScale n = none := by
  have hzero : BitVec.ofNat 32 n = 0 := BitVec.eq_of_toNat_eq (by rw [BitVec.toNat_ofNat, h]; rfl)
  rw [unitScale, hzero]
  rfl

theorem exists_log {m : ℕ} (h : m ≠ 0) : ∃ l, 2 ^ l ≤ m ∧ m < 2 ^ (l + 1) :=
  ⟨Nat.log 2 m, Nat.pow_log_le_self 2 h, Nat.lt_pow_succ_log_self (by decide) m⟩

theorem unitScale_cases {n scale aligned : ℕ} (h : unitScale n = some (scale, aligned)) :
    scale < 32 ∧ aligned = 2 ^ scale := by
  by_cases hzero : n % 2 ^ 32 = 0
  · rw [unitScale_of_mod_eq_zero hzero] at h
    exact absurd h (Option.some_ne_none _).symm
  · obtain ⟨l, hlow, hhigh⟩ := exists_log hzero
    obtain ⟨hl, hscale⟩ := unitScale_of_log hlow hhigh
    rw [hscale] at h
    split_ifs at h
    · obtain ⟨rfl, rfl⟩ := Prod.mk.inj (Option.some_inj.1 h)
      exact ⟨hl, rfl⟩
    · obtain ⟨rfl, rfl⟩ := Prod.mk.inj (Option.some_inj.1 h)
      exact ⟨by omega, rfl⟩

/-- A total that is a power of two is its own aligned size. That of another one is half of
the power of two below it. -/
theorem unitScale_of_lt {n : ℕ} (hpos : 0 < n) (hlt : n < 2 ^ 32) :
    ∃ k < 32, 2 ^ k ≤ n ∧ n < 2 ^ (k + 1) ∧
      unitScale n = some (if n = 2 ^ k then (k, 2 ^ k) else (k - 1, 2 ^ (k - 1))) := by
  have hmod : n % 2 ^ 32 = n := Nat.mod_eq_of_lt hlt
  obtain ⟨l, hlow, hhigh⟩ := exists_log hpos.ne'
  obtain ⟨hl, hscale⟩ := unitScale_of_log (hmod.symm ▸ hlow) (hmod.symm ▸ hhigh)
  refine ⟨l, hl, hlow, hhigh, ?_⟩
  rw [hscale]
  by_cases hpow : n = 2 ^ l
  · rw [if_pos hpow, if_pos hpow]
  · have hzero : l ≠ 0 := by
      rintro rfl
      omega
    rw [if_neg hpow, if_neg hpow, if_neg hzero]

section Units

variable {descs : List ShadowStructureDescription} {g : Globals}

def total (descs : List ShadowStructureDescription) : ℕ := finish 0 (pieces descs)

theorem total_concat (descs : List ShadowStructureDescription) (desc : ShadowStructureDescription) :
    total (descs ++ [desc]) =
      total descs + padding (total descs) desc.align + desc.size := by
  simp [total, finish_append, finish]

theorem total_eq_zero_iff : total descs = 0 ↔ descs = [] := by
  refine ⟨fun h ↦ ?_, fun h ↦ by simp [h, total, finish]⟩
  rcases List.eq_nil_or_concat' descs with rfl | ⟨front, last, rfl⟩
  · rfl
  · rw [total_concat] at h
    have hpos := last.size_pos
    omega

/-- The unit is a power of two, the least that is enough, and the structures fit in it. -/
structure UnitOk (g : Globals) : Prop where
  least : IsLeast {p | (∃ k, p = 2 ^ k) ∧ g.unalignedSize ≤ p} g.alignedSize
  aligned : g.alignedSize = 2 ^ g.scaleAmount.toNat
  packed : Packed g.placed g.alignedSize

def cell (g : Globals) (granularity : Granularity) (shadowMem : BitVec 64) (desc : Registered)
    (addr : BitVec 64) : Set (BitVec 64) :=
  {c | ∃ i < desc.desc.size, c = shadowOf g granularity shadowMem desc addr + BitVec.ofNat 64 i}

structure CellsOk (g : Globals) (granularity : Granularity) (shadowMem : BitVec 64) : Prop where
  apart (a b : BitVec 64) : (granularity.granule a).toNat % 2 ^ 32 ≠
    (granularity.granule b).toNat % 2 ^ 32 → ∀ p ∈ g.descriptions, ∀ q ∈ g.descriptions,
      Disjoint (cell g granularity shadowMem p a) (cell g granularity shadowMem q b)
  within (a : BitVec 64) : ∀ p ∈ g.descriptions, ∀ c ∈ cell g granularity shadowMem p a,
    (c - shadowMem).toNat < g.shadowMemSize

theorem exists_addShadowStructures_concat {desc : ShadowStructureDescription}
    (hg : addShadowStructures descs = some g) (hword : total (descs ++ [desc]) < wordSize)
    (hscale : (unitScale (total (descs ++ [desc]))).isSome) :
    ∃ g', addShadowStructures (descs ++ [desc]) = some g' := by
  have hsize : wrapFinish wordSize g.unalignedSize [desc.toPiece] = total (descs ++ [desc]) := by
    rw [(addShadowStructures_layout hg).1, ← wrapFinish_append]
    have hpieces : pieces (descs ++ [desc]) = pieces descs ++ [desc.toPiece] := List.map_append
    rw [← hpieces]
    exact (wrapPlace_of_finish_lt hword).2
  obtain ⟨g', hg'⟩ := exists_addShadowStructure (hsize.symm ▸ hscale)
  exact ⟨g', by rw [addShadowStructures_concat, hg, Option.bind_some, hg']⟩

theorem exists_addShadowStructures (h : total descs < 2 ^ 32) :
    ∃ g, addShadowStructures descs = some g := by
  induction descs using List.reverseRecOn with
  | nil => exact ⟨_, rfl⟩
  | append_singleton descs desc ih =>
    have htotal := total_concat descs desc
    have hpos := desc.size_pos
    obtain ⟨g, hg⟩ := ih (by omega)
    obtain ⟨k, -, -, -, hscale⟩ := unitScale_of_lt (n := total (descs ++ [desc])) (by omega) h
    exact exists_addShadowStructures_concat hg (h.trans (by decide)) (hscale ▸ rfl)

theorem addShadowStructures_of_lt (hg : addShadowStructures descs = some g)
    (h : total descs < 2 ^ 32) :
    g.unalignedSize = total descs ∧ g.placed = place 0 (pieces descs) := by
  have hword : finish 0 (pieces descs) < wordSize := h.trans (by decide)
  obtain ⟨hsize, hplaced⟩ := addShadowStructures_layout hg
  obtain ⟨hplace, hfinish⟩ := wrapPlace_of_finish_lt hword
  exact ⟨hsize.trans hfinish, hplaced.trans hplace⟩

theorem total_le_of_packed (hg : addShadowStructures descs = some g)
    (hpacked : Packed g.placed g.alignedSize) (hsize : g.alignedSize < 2 ^ 32) :
    g.unalignedSize = total descs ∧ total descs ≤ 2 ^ 63 := by
  obtain ⟨hunaligned, hplaced⟩ := addShadowStructures_layout hg
  rw [hplaced] at hpacked
  have hdvd : ∀ p ∈ pieces descs, p.align ∣ 2 ^ 63 := by
    intro p hp
    obtain ⟨desc, -, rfl⟩ := List.mem_map.1 hp
    exact desc.align_dvd
  obtain ⟨hfinish, hlast⟩ := wrapFinish_of_packed hdvd hpacked (by omega)
  exact ⟨hunaligned.trans hfinish, hlast⟩

theorem total_eq_of_le {k aligned scale : ℕ} (hk : 2 ^ k ≤ total descs)
    (hscale : (if total descs = 2 ^ k then (k, 2 ^ k) else (k - 1, 2 ^ (k - 1))) = (scale, aligned))
    (hle : total descs ≤ aligned) : total descs = 2 ^ k := by
  by_contra hne
  rw [if_neg hne] at hscale
  obtain ⟨-, rfl⟩ := Prod.mk.inj hscale
  have hmono : 2 ^ (k - 1) ≤ 2 ^ k := Nat.pow_le_pow_right two_pos (Nat.sub_le k 1)
  omega

theorem alignedSize_of_pow {k : ℕ} (hg : addShadowStructures descs = some g) (hk : k < 32)
    (hpow : total descs = 2 ^ k) :
    g.alignedSize = 2 ^ k ∧ g.scaleAmountLong = k ∧
      g.scaleAmount = BitVec.ofNat 8 g.scaleAmountLong := by
  have hlt : total descs < 2 ^ 32 := hpow ▸ Nat.pow_lt_pow_right (by decide) hk
  have hpos : 0 < total descs := hpow ▸ Nat.two_pow_pos k
  have hne : descs ≠ [] := fun h ↦ hpos.ne' (total_eq_zero_iff.2 h)
  obtain ⟨hscale, hamount⟩ := addShadowStructures_scale hg hne
  obtain ⟨l, -, hlow, hhigh, hunit⟩ := unitScale_of_lt hpos hlt
  rw [hpow] at hlow hhigh
  have hl : l = k := by
    have hle := (Nat.pow_le_pow_iff_right (by decide)).1 hlow
    have hlt := (Nat.pow_lt_pow_iff_right (by decide)).1 hhigh
    omega
  rw [(addShadowStructures_of_lt hg hlt).1, hunit, hl, if_pos hpow] at hscale
  obtain ⟨hk, haligned⟩ := Prod.mk.inj (Option.some_inj.1 hscale)
  exact ⟨haligned.symm, hk.symm, hamount⟩

theorem unitOk_iff : (∃ g, addShadowStructures descs = some g ∧ UnitOk g) ↔
    total descs = 0 ∨ ∃ k < 32, total descs = 2 ^ k := by
  constructor
  · rintro ⟨g, hg, hunit⟩
    rcases eq_or_ne descs [] with rfl | hne
    · exact Or.inl (total_eq_zero_iff.2 rfl)
    · right
      obtain ⟨hscale, -⟩ := addShadowStructures_scale hg hne
      obtain ⟨hlt, haligned⟩ := unitScale_cases hscale
      have hsize : g.alignedSize < 2 ^ 32 := haligned ▸ Nat.pow_lt_pow_right (by decide) hlt
      obtain ⟨hunaligned, -⟩ := total_le_of_packed hg hunit.packed hsize
      have hle : total descs ≤ g.alignedSize := hunaligned ▸ hunit.least.1.2
      have hpos : 0 < total descs := Nat.pos_of_ne_zero fun h ↦ hne (total_eq_zero_iff.1 h)
      obtain ⟨k, hk, hlow, -, hunit⟩ := unitScale_of_lt hpos (by omega)
      rw [hunaligned, hunit] at hscale
      exact ⟨k, hk, total_eq_of_le hlow (Option.some_inj.1 hscale) hle⟩
  · rintro (hzero | ⟨k, hk, hpow⟩)
    · obtain rfl := total_eq_zero_iff.1 hzero
      refine ⟨{}, rfl, ⟨⟨⟨0, rfl⟩, Nat.zero_le _⟩, ?_⟩, rfl, packed_place 0 [] |>.mono (by decide)⟩
      rintro _ ⟨⟨k, rfl⟩, -⟩
      exact Nat.one_le_two_pow
    · have hlt : total descs < 2 ^ 32 := hpow ▸ Nat.pow_lt_pow_right (by decide) hk
      obtain ⟨g, hg⟩ := exists_addShadowStructures hlt
      obtain ⟨hunaligned, hplaced⟩ := addShadowStructures_of_lt hg hlt
      obtain ⟨haligned, hscale⟩ := alignedSize_of_pow hg hk hpow
      refine ⟨g, hg, ⟨⟨⟨k, haligned⟩, ?_⟩, ?_⟩, ?_, ?_⟩
      · rw [hunaligned, hpow, haligned]
      · rintro p ⟨-, hp⟩
        rw [haligned, ← hpow, ← hunaligned]
        exact hp
      · rw [hscale.2, haligned, hscale.1, BitVec.toNat_ofNat, Nat.mod_eq_of_lt (by omega)]
      · rw [hplaced, haligned, ← hpow]
        exact packed_place 0 _

theorem Granularity.shiftAmount_lt (granularity : Granularity) : granularity.shiftAmount < 32 := by
  obtain ⟨k, hk⟩ := granularity.isPow
  have hall : ∀ k : Fin 32, 1#32 <<< k.val ≠ 0 := by decide
  apply BitVec.ctz_lt_iff_ne_zero.2
  rw [hk]
  exact hall k

theorem toNat_and_low (x : BitVec 64) : (x &&& 0xFFFFFFFF).toNat = x.toNat % 2 ^ 32 := by
  have hmask : (0xFFFFFFFF : BitVec 64).toNat = 2 ^ 32 - 1 := by decide
  rw [BitVec.toNat_and, hmask, Nat.and_two_pow_sub_one_eq_mod]

theorem Granularity.exists_granule (granularity : Granularity) {n : ℕ} (h : n < 2 ^ 32) :
    ∃ addr, granularity.granule addr = BitVec.ofNat 64 n := by
  refine ⟨BitVec.ofNat 64 (n * 2 ^ granularity.shiftAmount), BitVec.eq_of_toNat_eq ?_⟩
  have hpow : 2 ^ granularity.shiftAmount < 2 ^ 32 :=
    Nat.pow_lt_pow_right (by decide) granularity.shiftAmount_lt
  have hlt : n * 2 ^ granularity.shiftAmount < 2 ^ 64 :=
    (Nat.mul_lt_mul_of_lt_of_lt h hpow).trans_eq (pow_add 2 32 32).symm
  rw [Granularity.granule, BitVec.toNat_ushiftRight, BitVec.toNat_ofNat, BitVec.toNat_ofNat,
    Nat.mod_eq_of_lt hlt, Nat.mod_eq_of_lt (h.trans (by decide)), Nat.shiftRight_eq_div_pow]
  exact Nat.mul_div_cancel _ (Nat.two_pow_pos _)

theorem addShadowStructures_of_size_eq_one {desc : ShadowStructureDescription}
    (h : desc.size = 1) : addShadowStructures [desc] = some
      { descriptions := [{ desc, offset := 0, offsetAsmInstruction := [] }]
        unalignedSize := 1
        alignedSize := 1
        scaleAmountLong := 0
        scaleAmount := 0
        prevOffset := 0
        shadowMemNumPages := 2 ^ 20
        shadowMemSize := 2 ^ 32 } := by
  have hpad : padding 0 desc.align = 0 := padding_of_dvd (dvd_zero _)
  have hscale : unitScale 1 = some (0, 1) := by decide
  have hone : 1 % wordSize = 1 := by decide
  simp only [addShadowStructures, List.foldlM_cons, List.foldlM_nil, addShadowStructure, hpad, h,
    Nat.zero_mod, Nat.zero_add, hone, hscale, Option.bind_eq_bind, Option.bind_some]
  rfl

theorem eq_singleton_of_total_eq_one (h : total descs = 1) :
    ∃ desc, descs = [desc] ∧ desc.size = 1 := by
  rcases List.eq_nil_or_concat' descs with rfl | ⟨front, last, rfl⟩
  · exact absurd h Nat.zero_ne_one
  · rw [total_concat] at h
    have hpos := last.size_pos
    have hfront : front = [] := total_eq_zero_iff.1 (by omega)
    exact ⟨last, by rw [hfront, List.nil_append], by omega⟩

theorem cellsOk_of_size_eq_one {desc : ShadowStructureDescription}
    (hg : addShadowStructures [desc] = some g) (h : desc.size = 1) (granularity : Granularity)
    (shadowMem : BitVec 64) : CellsOk g granularity shadowMem := by
  have hsome := Option.some_inj.1 ((addShadowStructures_of_size_eq_one h).symm.trans hg)
  have hdescs : g.descriptions = [⟨desc, 0, []⟩] := hsome ▸ rfl
  have hscale : g.scaleAmountLong = 0 := hsome ▸ rfl
  have hsize : g.shadowMemSize = 2 ^ 32 := hsome ▸ rfl
  have hcell {a c : BitVec 64} {p : Registered} (hp : p ∈ g.descriptions)
      (hc : c ∈ cell g granularity shadowMem p a) :
      c - shadowMem = granularity.granule a &&& 0xFFFFFFFF := by
    rw [hdescs] at hp
    obtain rfl := List.mem_singleton.1 hp
    obtain ⟨i, hi, rfl⟩ := hc
    obtain rfl : i = 0 := by
      have hi : i < desc.size := hi
      omega
    simp only [shadowOf, hscale, BitVec.shiftLeft_zero, BitVec.ofNat_eq_ofNat, BitVec.add_zero]
    rw [BitVec.add_comm, BitVec.add_sub_cancel]
    rfl
  constructor
  · intro a b hab p hp q hq
    apply Set.disjoint_left.2
    intro c hca hcb
    have htoNat := congrArg BitVec.toNat ((hcell hp hca).symm.trans (hcell hq hcb))
    rw [toNat_and_low, toNat_and_low] at htoNat
    exact hab htoNat
  · intro a p hp c hc
    rw [hcell hp hc, toNat_and_low, hsize]
    exact Nat.mod_lt _ (by decide)

/-- In a unit of several bytes the masked offset of granule `2 ^ (32 - k)` is that of
granule zero. -/
theorem not_cellsOk_of_pow {k : ℕ} (hg : addShadowStructures descs = some g) (hone : 0 < k)
    (hk : k < 32) (hpow : total descs = 2 ^ k) (granularity : Granularity)
    (shadowMem : BitVec 64) : ¬CellsOk g granularity shadowMem := by
  intro hcells
  have hlt : total descs < 2 ^ 32 := hpow ▸ Nat.pow_lt_pow_right (by decide) hk
  obtain ⟨-, hscale, -⟩ := alignedSize_of_pow hg hk hpow
  have hn : 2 ^ (32 - k) < 2 ^ 32 := Nat.pow_lt_pow_right (by decide) (by omega)
  obtain ⟨a, ha⟩ := granularity.exists_granule (show 0 < 2 ^ 32 by decide)
  obtain ⟨b, hb⟩ := granularity.exists_granule hn
  have hsame (p : Registered) :
      shadowOf g granularity shadowMem p a = shadowOf g granularity shadowMem p b := by
    have hoff : (BitVec.ofNat 64 (2 ^ (32 - k)) <<< k &&& 0xFFFFFFFF : BitVec 64) = 0 := by
      apply BitVec.eq_of_toNat_eq
      have hmul : 2 ^ (32 - k) * 2 ^ k = 2 ^ 32 := by
        rw [← pow_add]
        congr 1
        omega
      rw [toNat_and_low, BitVec.toNat_shiftLeft, BitVec.toNat_ofNat,
        Nat.mod_eq_of_lt (hn.trans (by decide)), Nat.shiftLeft_eq, hmul]
      rfl
    have hshadow (addr : BitVec 64) : shadowOf g granularity shadowMem p addr =
        shadowMem + (granularity.granule addr <<< k &&& 0xFFFFFFFF) +
          BitVec.ofNat 64 p.offset := by
      rw [shadowOf, hscale]
      rfl
    rw [hshadow, hshadow, ha, hb, hoff]
    simp
  obtain ⟨p, hp⟩ : ∃ p, p ∈ g.descriptions := by
    apply List.exists_mem_of_ne_nil
    intro hnil
    have hplaced := (addShadowStructures_of_lt hg hlt).2
    rw [Globals.placed, hnil] at hplaced
    have hempty : pieces descs = [] := by
      rcases hp : pieces descs with _ | ⟨q, qs⟩
      · rfl
      · rw [hp] at hplaced
        exact absurd hplaced (List.cons_ne_nil _ _).symm
    rw [total_eq_zero_iff.2 (List.map_eq_nil_iff.1 hempty)] at hpow
    exact (Nat.two_pow_pos k).ne hpow
  have hmem (addr : BitVec 64) : shadowOf g granularity shadowMem p addr ∈
      cell g granularity shadowMem p addr := ⟨0, p.desc.size_pos, by simp⟩
  have hgranules : (granularity.granule a).toNat % 2 ^ 32 ≠
      (granularity.granule b).toNat % 2 ^ 32 := by
    rw [ha, hb, BitVec.toNat_ofNat, BitVec.toNat_ofNat, Nat.mod_eq_of_lt (hn.trans (by decide)),
      Nat.mod_eq_of_lt hn]
    exact (Nat.two_pow_pos _).ne
  exact Set.disjoint_left.1 (hcells.apart a b hgranules p hp p hp) (hmem a) (hsame p ▸ hmem b)

/-- A unit is as it should be for a total that is a power of two, and the cells of granules
are apart only for one byte or none. -/
theorem addShadowStructures_ok_iff (descs : List ShadowStructureDescription)
    (granularity : Granularity) (shadowMem : BitVec 64) :
    ((∃ g, addShadowStructures descs = some g ∧ UnitOk g) ↔
        total descs = 0 ∨ ∃ k < 32, total descs = 2 ^ k) ∧
      ((∃ g, addShadowStructures descs = some g ∧ UnitOk g ∧ CellsOk g granularity shadowMem) ↔
        total descs ≤ 1) := by
  refine ⟨unitOk_iff, ?_, ?_⟩
  · rintro ⟨g, hg, hunit, hcells⟩
    by_contra hlt
    rcases unitOk_iff.1 ⟨g, hg, hunit⟩ with hzero | ⟨k, hk, hpow⟩
    · omega
    · have hone : 0 < k := by
        by_contra hzero
        rw [Nat.eq_zero_of_not_pos hzero] at hpow
        omega
      exact not_cellsOk_of_pow hg hone hk hpow granularity shadowMem hcells
  · intro hle
    have hpow : total descs = 0 ∨ ∃ k < 32, total descs = 2 ^ k := by
      rcases Nat.le_one_iff_eq_zero_or_eq_one.1 hle with h | h
      · exact Or.inl h
      · exact Or.inr ⟨0, by decide, h⟩
    obtain ⟨g, hg, hunit⟩ := unitOk_iff.2 hpow
    refine ⟨g, hg, hunit, ?_⟩
    rcases Nat.le_one_iff_eq_zero_or_eq_one.1 hle with h | h
    · obtain rfl := total_eq_zero_iff.1 h
      obtain rfl := Option.some_inj.1 hg
      exact ⟨fun _ _ _ p hp ↦ absurd hp List.not_mem_nil, fun _ p hp ↦ absurd hp List.not_mem_nil⟩
    · obtain ⟨desc, rfl, hsize⟩ := eq_singleton_of_total_eq_one h
      exact cellsOk_of_size_eq_one hg hsize granularity shadowMem

def twoBytes : ShadowStructureDescription where
  size := 2
  align := 1
  align_pos := by decide
  size_pos := by decide
  size_lt := by decide
  align_pow := ⟨0, by decide, rfl⟩

def oneByte : ShadowStructureDescription where
  size := 1
  align := 1
  align_pos := by decide
  size_pos := by decide
  size_lt := by decide
  align_pow := ⟨0, by decide, rfl⟩

/-- Two bytes and one more get a unit of one byte. -/
theorem three_bytes_not_unitOk :
    ∃ g, addShadowStructures [twoBytes, oneByte] = some g ∧ g.unalignedSize = 3 ∧
      g.alignedSize = 1 ∧ ¬UnitOk g := by
  have hg : (addShadowStructures [twoBytes, oneByte]).isSome := by decide
  obtain ⟨g, hg⟩ := Option.isSome_iff_exists.1 hg
  have hsizes : (addShadowStructures [twoBytes, oneByte]).map
      (fun g ↦ (g.unalignedSize, g.alignedSize)) = some (3, 1) := by decide
  rw [hg] at hsizes
  obtain ⟨hunaligned, haligned⟩ := Prod.mk.inj (Option.some_inj.1 hsizes)
  refine ⟨g, hg, hunaligned, haligned, fun hunit ↦ ?_⟩
  have hle := hunit.least.1.2
  rw [hunaligned, haligned] at hle
  exact absurd hle (by decide)

end Units

end Granary.Clients.ShadowMemory
