import Granary.Base.Packing
import Granary.Base.Run
import Granary.Base.SlabAllocator.Layout
import Granary.Code.Fragment

namespace Granary.Code.Cache

open Function Granary.Base.Run
open Granary.Base.SlabAllocator

def codeAlignBytes : ℕ := 1

def kCodeCacheNumPages : ℕ := 40960

/-- The pages of the code cache, which are aligned and in the address space. -/
structure CodeHeap where
  heap : ℕ
  heap_pos : 0 < heap
  aligned : pageSizeBytes ∣ heap
  heap_le : heap + kCodeCacheNumPages * pageSizeBytes ≤ wordSize

/-- The address of the pages, and the counter after the call. No code page is ever freed, so that
the slow path finds none and returns a null pointer. -/
def allocateCodePages (h : CodeHeap) (numAllocatedPages num : ℕ) : ℕ × ℕ :=
  let index := numAllocatedPages
  let numAllocatedPages := (index + num) % wordSize
  (if kCodeCacheNumPages > numAllocatedPages then h.heap + index * pageSizeBytes else 0,
    numAllocatedPages)

structure CodeCache where
  slabByteOffset : ℕ
  slab : ℕ
  next : List ℕ

def CodeCache.slabs (c : CodeCache) : List ℕ := c.slab :: c.next

structure Allocation where
  kind : CodeCacheKind
  addr : ℕ
  numBytes : ℕ
deriving DecidableEq

structure State where
  numAllocatedPages : ℕ
  caches : CodeCacheKind → CodeCache
  /-- What was returned so far, the last one first. -/
  returned : List Allocation

structure Request where
  kind : CodeCacheKind
  numBytes : ℕ
deriving DecidableEq

section Operations

variable (h : CodeHeap) (slabNumPages : ℕ)

def slabNumBytes : ℕ := slabNumPages * pageSizeBytes % wordSize

def CodeCache.allocateCode (c : CodeCache) (numAllocatedPages size : ℕ) : ℕ × ℕ × CodeCache :=
  let alignedOffset := alignTo c.slabByteOffset codeAlignBytes
  let newOffset := (alignedOffset + size) % wordSize
  if newOffset ≥ slabNumBytes slabNumPages then
    let (slab, numAllocatedPages) := allocateCodePages h numAllocatedPages slabNumPages
    (slab, numAllocatedPages, { slabByteOffset := size, slab, next := c.slabs })
  else (c.slab + alignedOffset, numAllocatedPages, { c with slabByteOffset := newOffset })

/-- `AllocateCode`, which returns a null pointer for no bytes. -/
def allocateCode (s : State) (r : Request) : State :=
  if r.numBytes = 0 then s
  else
    let (addr, numAllocatedPages, cache) :=
      (s.caches r.kind).allocateCode h slabNumPages s.numAllocatedPages r.numBytes
    { numAllocatedPages
      caches := update s.caches r.kind cache
      returned := { kind := r.kind, addr, numBytes := r.numBytes } :: s.returned }

def construct (s : State) (kind : CodeCacheKind) : State :=
  let (slab, numAllocatedPages) := allocateCodePages h s.numAllocatedPages slabNumPages
  { s with
    numAllocatedPages
    caches := update s.caches kind { slabByteOffset := 0, slab, next := [] } }

def codeCacheKinds : List CodeCacheKind := [.hot, .cold, .frozen, .subZero, .edge]

def initCodeCache : State :=
  codeCacheKinds.foldl (construct h slabNumPages)
    { numAllocatedPages := 0, caches := fun _ ↦ ⟨0, 0, []⟩, returned := [] }

end Operations

def Allocation.Apart (a b : Allocation) : Prop :=
  a.addr + a.numBytes ≤ b.addr ∨ b.addr + b.numBytes ≤ a.addr

/-- Everything that was returned is aligned, is in one slab of its cache, which is one of the code
pages, and does not overlap. -/
structure Sound (h : CodeHeap) (slabNumPages : ℕ) (s : State) : Prop where
  aligned (a : Allocation) : a ∈ s.returned → codeAlignBytes ∣ a.addr
  within (a : Allocation) : a ∈ s.returned → ∃ slab ∈ (s.caches a.kind).slabs,
    h.heap ≤ slab ∧ slab + slabNumBytes slabNumPages ≤ h.heap + kCodeCacheNumPages * pageSizeBytes ∧
      slab ≤ a.addr ∧ a.addr + a.numBytes ≤ slab + slabNumBytes slabNumPages
  apart : s.returned.Pairwise Allocation.Apart

/-- A request that does not fit in the slab finds pages for a new one. -/
def Served (slabNumPages : ℕ) (s : State) (r : Request) : Prop :=
  slabNumBytes slabNumPages ≤ alignTo (s.caches r.kind).slabByteOffset codeAlignBytes + r.numBytes →
    s.numAllocatedPages + slabNumPages < kCodeCacheNumPages

section Invariant

variable {h : CodeHeap} {n : ℕ} {s : State} {r : Request}

theorem slabNumBytes_eq (hn : n < kCodeCacheNumPages) : slabNumBytes n = n * pageSizeBytes := by
  apply Nat.mod_eq_of_lt
  unfold kCodeCacheNumPages at hn
  unfold pageSizeBytes wordSize
  omega

theorem allocateCodePages_of_lt {pages : ℕ} (hlt : pages + n < kCodeCacheNumPages) :
    allocateCodePages h pages n = (h.heap + pages * pageSizeBytes, pages + n) := by
  have hmod : (pages + n) % wordSize = pages + n := by
    apply Nat.mod_eq_of_lt
    unfold kCodeCacheNumPages at hlt
    unfold wordSize
    omega
  rw [allocateCodePages, hmod]
  simp only [gt_iff_lt, if_pos hlt]

theorem alignTo_codeAlignBytes {offset : ℕ} (hlt : offset + pageSizeBytes < wordSize) :
    offset ≤ alignTo offset codeAlignBytes ∧ codeAlignBytes ∣ alignTo offset codeAlignBytes ∧
      alignTo offset codeAlignBytes ≤ offset + pageSizeBytes := by
  have hpos : 0 < codeAlignBytes := by decide
  have hfactor := alignFactor_lt (x := offset) hpos
  have hle : codeAlignBytes ≤ pageSizeBytes := by decide
  have heq : alignTo offset codeAlignBytes = offset + alignFactor offset codeAlignBytes :=
    Nat.mod_eq_of_lt (by omega)
  rw [heq]
  exact ⟨Nat.le_add_right _ _, dvd_add_alignFactor hpos, by omega⟩

def Handed (h : CodeHeap) (n : ℕ) (s : State) (slab : ℕ) : Prop :=
  ∃ index, slab = h.heap + index * pageSizeBytes ∧ index + n ≤ s.numAllocatedPages

structure Inv (h : CodeHeap) (n : ℕ) (s : State) : Prop where
  pages_lt : s.numAllocatedPages < kCodeCacheNumPages
  handed {k : CodeCacheKind} {slab : ℕ} : slab ∈ (s.caches k).slabs → Handed h n s slab
  own {k k' : CodeCacheKind} {slab : ℕ} : slab ∈ (s.caches k).slabs → slab ∈ (s.caches k').slabs →
    k = k'
  slabs_apart {k k' : CodeCacheKind} {slab slab' : ℕ} : slab ∈ (s.caches k).slabs →
    slab' ∈ (s.caches k').slabs → slab ≠ slab' →
      slab + n * pageSizeBytes ≤ slab' ∨ slab' + n * pageSizeBytes ≤ slab
  offset_lt (k : CodeCacheKind) : (s.caches k).slabByteOffset < n * pageSizeBytes
  aligned {a : Allocation} : a ∈ s.returned → codeAlignBytes ∣ a.addr
  within {a : Allocation} : a ∈ s.returned → ∃ slab ∈ (s.caches a.kind).slabs, slab ≤ a.addr ∧
    a.addr + a.numBytes ≤ slab + n * pageSizeBytes ∧
      (slab = (s.caches a.kind).slab → a.addr + a.numBytes ≤ slab + (s.caches a.kind).slabByteOffset)
  apart : s.returned.Pairwise Allocation.Apart

theorem Handed.add_le {slab : ℕ} (hs : Handed h n s slab) :
    slab + n * pageSizeBytes ≤ h.heap + s.numAllocatedPages * pageSizeBytes := by
  obtain ⟨index, rfl, hle⟩ := hs
  have hmul := Nat.mul_le_mul_right pageSizeBytes hle
  rw [add_mul] at hmul
  omega

theorem Inv.sound (hi : Inv h n s) (hn : n < kCodeCacheNumPages) : Sound h n s := by
  refine ⟨fun a ha ↦ hi.aligned ha, fun a ha ↦ ?_, hi.apart⟩
  obtain ⟨slab, hslab, hbegin, hend, -⟩ := hi.within ha
  have hmul := Nat.mul_le_mul_right pageSizeBytes hi.pages_lt.le
  have hhanded := (hi.handed hslab).add_le
  obtain ⟨index, hindex, -⟩ := hi.handed hslab
  rw [slabNumBytes_eq hn]
  exact ⟨slab, hslab, by omega, by omega, hbegin, hend⟩

theorem Inv.fits (hi : Inv h n s) {addr newOffset : ℕ} {k : CodeCacheKind} {numBytes : ℕ}
    (haligned : codeAlignBytes ∣ addr)
    (hbegin : (s.caches k).slab + (s.caches k).slabByteOffset ≤ addr)
    (hend : addr + numBytes = (s.caches k).slab + newOffset)
    (hlt : newOffset < n * pageSizeBytes) :
    Inv h n
      { s with
        caches := update s.caches k { s.caches k with slabByteOffset := newOffset }
        returned := { kind := k, addr, numBytes } :: s.returned } := by
  have hslabs (k' : CodeCacheKind) : (update s.caches k
      { s.caches k with slabByteOffset := newOffset } k').slabs = (s.caches k').slabs := by
    rcases eq_or_ne k' k with rfl | hne
    · rw [update_self]
      rfl
    · rw [update_of_ne hne]
  have hslab (k' : CodeCacheKind) : (update s.caches k
      { s.caches k with slabByteOffset := newOffset } k').slab = (s.caches k').slab := by
    rcases eq_or_ne k' k with rfl | hne
    · rw [update_self]
    · rw [update_of_ne hne]
  have hoffset : (s.caches k).slabByteOffset ≤ newOffset := by omega
  have hnew : (s.caches k).slab ∈ (s.caches k).slabs := List.mem_cons_self
  constructor
  · exact hi.pages_lt
  · intro k' slab hmem
    exact hi.handed (hslabs k' ▸ hmem)
  · intro k₁ k₂ slab h₁ h₂
    exact hi.own (hslabs k₁ ▸ h₁) (hslabs k₂ ▸ h₂)
  · intro k₁ k₂ slab slab' h₁ h₂
    exact hi.slabs_apart (hslabs k₁ ▸ h₁) (hslabs k₂ ▸ h₂)
  · intro k'
    rcases eq_or_ne k' k with rfl | hne
    · simpa only [update_self] using hlt
    · simpa only [update_of_ne hne] using hi.offset_lt k'
  · intro a ha
    rcases List.mem_cons.1 ha with rfl | ha
    · exact haligned
    · exact hi.aligned ha
  · intro a ha
    rcases List.mem_cons.1 ha with rfl | ha
    · refine ⟨(s.caches k).slab, (hslabs k).symm ▸ hnew, ?_, ?_, fun _ ↦ ?_⟩
      · dsimp only
        omega
      · dsimp only
        omega
      · simp only [update_self]
        omega
    · obtain ⟨slab, hmem, hbegin', hend', hcurrent⟩ := hi.within ha
      refine ⟨slab, (hslabs a.kind).symm ▸ hmem, hbegin', hend', fun heq ↦ ?_⟩
      have hle := hcurrent (heq.trans (hslab a.kind))
      rcases eq_or_ne a.kind k with hk | hne
      · simp only [hk, update_self] at hle ⊢
        omega
      · simpa only [update_of_ne hne] using hle
  · refine List.pairwise_cons.2 ⟨fun a ha ↦ ?_, hi.apart⟩
    obtain ⟨slab, hmem, hbegin', hend', hcurrent⟩ := hi.within ha
    unfold Allocation.Apart
    dsimp only
    rcases eq_or_ne slab (s.caches k).slab with rfl | hne
    · have hk := hi.own hmem hnew
      have hle := hcurrent (by rw [hk])
      rw [hk] at hle
      omega
    · have happart := hi.slabs_apart hmem hnew hne
      omega

theorem Inv.rollsOver (hi : Inv h n s) (hpages : s.numAllocatedPages + n < kCodeCacheNumPages)
    {k : CodeCacheKind} {numBytes : ℕ} (hlt : numBytes < n * pageSizeBytes) :
    Inv h n
      { numAllocatedPages := s.numAllocatedPages + n
        caches := update s.caches k
          { slabByteOffset := numBytes
            slab := h.heap + s.numAllocatedPages * pageSizeBytes
            next := (s.caches k).slabs }
        returned :=
          { kind := k, addr := h.heap + s.numAllocatedPages * pageSizeBytes, numBytes } ::
            s.returned } := by
  set x := h.heap + s.numAllocatedPages * pageSizeBytes with hx
  set cache : CodeCache := { slabByteOffset := numBytes, slab := x, next := (s.caches k).slabs }
  have hslabs {k' : CodeCacheKind} {slab : ℕ} : slab ∈ (update s.caches k cache k').slabs ↔
      slab = x ∧ k' = k ∨ slab ∈ (s.caches k').slabs := by
    rcases eq_or_ne k' k with rfl | hne
    · rw [update_self]
      simp [cache, CodeCache.slabs]
    · rw [update_of_ne hne]
      simp [hne]
  -- Every slab so far ends before the new one.
  have hbefore {k' : CodeCacheKind} {slab : ℕ} (hmem : slab ∈ (s.caches k').slabs) :
      slab + n * pageSizeBytes ≤ x := (hi.handed hmem).add_le
  have hpos : 0 < n * pageSizeBytes := by omega
  constructor
  · exact hpages
  · intro k' slab hmem
    rcases hslabs.1 hmem with ⟨rfl, -⟩ | hmem
    · exact ⟨s.numAllocatedPages, rfl, le_rfl⟩
    · obtain ⟨index, hindex, hle⟩ := hi.handed hmem
      exact ⟨index, hindex, hle.trans (Nat.le_add_right _ _)⟩
  · intro k₁ k₂ slab h₁ h₂
    rcases hslabs.1 h₁ with ⟨hx₁, hk₁⟩ | hold₁ <;> rcases hslabs.1 h₂ with ⟨hx₂, hk₂⟩ | hold₂
    · exact hk₁.trans hk₂.symm
    · have hlt := hbefore hold₂
      omega
    · have hlt := hbefore hold₁
      omega
    · exact hi.own hold₁ hold₂
  · intro k₁ k₂ slab slab' h₁ h₂ hne
    rcases hslabs.1 h₁ with ⟨hx₁, -⟩ | hold₁ <;> rcases hslabs.1 h₂ with ⟨hx₂, -⟩ | hold₂
    · exact absurd (hx₁.trans hx₂.symm) hne
    · exact Or.inr (hx₁ ▸ hbefore hold₂)
    · exact Or.inl (hx₂ ▸ hbefore hold₁)
    · exact hi.slabs_apart hold₁ hold₂ hne
  · intro k'
    rcases eq_or_ne k' k with rfl | hne
    · simpa only [update_self] using hlt
    · simpa only [update_of_ne hne] using hi.offset_lt k'
  · intro a ha
    rcases List.mem_cons.1 ha with rfl | ha
    · have hpage : codeAlignBytes ∣ pageSizeBytes := by decide
      exact (hpage.trans h.aligned).add (hpage.mul_left _)
    · exact hi.aligned ha
  · intro a ha
    rcases List.mem_cons.1 ha with rfl | ha
    · refine ⟨x, hslabs.2 (Or.inl ⟨rfl, rfl⟩), le_rfl, ?_, fun _ ↦ ?_⟩
      · dsimp only
        omega
      · simp only [update_self, cache, le_refl]
    · obtain ⟨slab, hmem, hbegin, hend, hcurrent⟩ := hi.within ha
      refine ⟨slab, hslabs.2 (Or.inr hmem), hbegin, hend, fun heq ↦ ?_⟩
      rcases eq_or_ne a.kind k with hk | hne
      · have hlt := hbefore hmem
        simp only [hk, update_self, cache] at heq
        omega
      · simp only [update_of_ne hne] at heq ⊢
        exact hcurrent heq
  · refine List.pairwise_cons.2 ⟨fun a ha ↦ Or.inr ?_, hi.apart⟩
    obtain ⟨slab, hmem, -, hend, -⟩ := hi.within ha
    exact hend.trans (hbefore hmem)

theorem Inv.allocateCode (hi : Inv h n s) (hn : n < kCodeCacheNumPages)
    (hlt : r.numBytes < slabNumBytes n) (hserved : Served n s r) :
    Inv h n (allocateCode h n s r) := by
  rw [slabNumBytes_eq hn] at hlt
  have hoffset := hi.offset_lt r.kind
  have hsmall : n * pageSizeBytes < 2 ^ 32 := by
    unfold kCodeCacheNumPages at hn
    unfold pageSizeBytes
    omega
  obtain ⟨hle, hdvd, hge⟩ := alignTo_codeAlignBytes
    (by unfold pageSizeBytes wordSize; omega :
      (s.caches r.kind).slabByteOffset + pageSizeBytes < wordSize)
  have hmod : (alignTo (s.caches r.kind).slabByteOffset codeAlignBytes + r.numBytes) % wordSize =
      alignTo (s.caches r.kind).slabByteOffset codeAlignBytes + r.numBytes := by
    apply Nat.mod_eq_of_lt
    unfold pageSizeBytes at hge
    unfold wordSize
    omega
  unfold Served at hserved
  unfold Cache.allocateCode CodeCache.allocateCode
  split_ifs with hzero
  · exact hi
  · simp only [hmod, slabNumBytes_eq hn, ge_iff_le] at hserved ⊢
    by_cases hfits : n * pageSizeBytes ≤
        alignTo (s.caches r.kind).slabByteOffset codeAlignBytes + r.numBytes
    · simp only [if_pos hfits, allocateCodePages_of_lt (hserved hfits)]
      exact hi.rollsOver (hserved hfits) hlt
    · simp only [if_neg hfits]
      have hslab : codeAlignBytes ∣ (s.caches r.kind).slab := by
        obtain ⟨index, hindex, -⟩ := hi.handed List.mem_cons_self
        have hpage : codeAlignBytes ∣ pageSizeBytes := by decide
        rw [hindex]
        exact (hpage.trans h.aligned).add (hpage.mul_left _)
      exact hi.fits (hslab.add hdvd) (Nat.add_le_add_left hle _) (Nat.add_assoc _ _ _)
        (not_le.1 hfits)

theorem initCodeCache_eq (hinit : codeCacheKinds.length * n < kCodeCacheNumPages) :
    initCodeCache h n =
      { numAllocatedPages := codeCacheKinds.length * n
        caches := fun k ↦ ⟨0, h.heap + k.toNat * n * pageSizeBytes, []⟩
        returned := [] } := by
  have hlength : codeCacheKinds.length = 5 := rfl
  rw [hlength] at hinit ⊢
  have hconstruct {pages : ℕ} (hpages : pages + n < kCodeCacheNumPages)
      (caches : CodeCacheKind → CodeCache) (k : CodeCacheKind) :
      construct h n ⟨pages, caches, []⟩ k =
        ⟨pages + n, update caches k ⟨0, h.heap + pages * pageSizeBytes, []⟩, []⟩ := by
    rw [construct, allocateCodePages_of_lt hpages]
  rw [initCodeCache, codeCacheKinds, List.foldl_cons, hconstruct (by omega), List.foldl_cons,
    hconstruct (by omega), List.foldl_cons, hconstruct (by omega), List.foldl_cons,
    hconstruct (by omega), List.foldl_cons, hconstruct (by omega), List.foldl_nil]
  congr 1
  · omega
  · funext k
    cases k
    · simp [CodeCacheKind.toNat]
    · simp [CodeCacheKind.toNat]
    · simp [CodeCacheKind.toNat, two_mul]
    · simp [CodeCacheKind.toNat, Nat.succ_mul]
    · simp [CodeCacheKind.toNat, Nat.succ_mul]

theorem CodeCacheKind.toNat_inj {k k' : CodeCacheKind} (h : k.toNat = k'.toNat) : k = k' := by
  cases k <;> cases k' <;> first | rfl | exact absurd h (by decide)

theorem inv_initCodeCache (hn : 0 < n) (hinit : codeCacheKinds.length * n < kCodeCacheNumPages) :
    Inv h n (initCodeCache h n) := by
  rw [initCodeCache_eq hinit]
  have hslab {k : CodeCacheKind} {slab : ℕ}
      (hmem : slab ∈ (CodeCache.mk 0 (h.heap + k.toNat * n * pageSizeBytes) []).slabs) :
      slab = h.heap + k.toNat * n * pageSizeBytes := List.mem_singleton.1 hmem
  have hbefore {k k' : CodeCacheKind} (hlt : k.toNat < k'.toNat) :
      h.heap + k.toNat * n * pageSizeBytes + n * pageSizeBytes ≤
        h.heap + k'.toNat * n * pageSizeBytes := by
    have hmul := Nat.mul_le_mul_right pageSizeBytes (Nat.mul_le_mul_right n hlt)
    rw [Nat.succ_mul, add_mul] at hmul
    omega
  have hpages : 0 < n * pageSizeBytes := Nat.mul_pos hn (by decide)
  constructor
  · exact hinit
  · intro k slab hmem
    refine ⟨k.toNat * n, hslab hmem, ?_⟩
    have hk : k.toNat + 1 ≤ codeCacheKinds.length := by
      cases k <;> decide
    have hmul := Nat.mul_le_mul_right n hk
    rwa [Nat.succ_mul] at hmul
  · intro k k' slab h₁ h₂
    apply CodeCacheKind.toNat_inj
    by_contra hne
    have heq := (hslab h₁).symm.trans (hslab h₂)
    rcases Nat.lt_or_gt_of_ne hne with hlt | hlt
    · have hle := hbefore hlt
      omega
    · have hle := hbefore hlt
      omega
  · intro k k' slab slab' h₁ h₂ hne
    rw [hslab h₁, hslab h₂] at hne ⊢
    rcases lt_trichotomy k.toNat k'.toNat with hlt | heq | hlt
    · exact Or.inl (hbefore hlt)
    · exact absurd (by rw [heq]) hne
    · exact Or.inr (hbefore hlt)
  · exact fun _ ↦ hpages
  · exact fun {a} ha ↦ absurd ha List.not_mem_nil
  · exact fun {a} ha ↦ absurd ha List.not_mem_nil
  · exact List.Pairwise.nil

end Invariant

/-- A request that is larger than no slab, with pages left if it needs a slab. -/
structure Request.Ok (n : ℕ) (s : State) (r : Request) : Prop where
  numBytes_lt : r.numBytes < slabNumBytes n
  served : Served n s r

/-- Every request of the run is all right in the state that it is made in. -/
def RunOk (h : CodeHeap) (n : ℕ) : State → List Request → Prop
  | _, [] => True
  | s, r :: requests => r.Ok n s ∧ RunOk h n (allocateCode h n s r) requests

theorem Inv.run {h : CodeHeap} {n : ℕ} {s : State} {requests : List Request} (hi : Inv h n s)
    (hn : n < kCodeCacheNumPages) (hok : RunOk h n s requests) :
    Inv h n (requests.foldl (Cache.allocateCode h n) s) := by
  induction requests generalizing s with
  | nil => exact hi
  | cons r requests ih =>
    obtain ⟨hr, hrest⟩ := hok
    exact ih (hi.allocateCode hn hr.numBytes_lt hr.served) hrest

/-- With pages left for every slab that is needed, the run keeps what is returned sound. -/
theorem allocateCode_sound (h : CodeHeap) {n : ℕ} (hn : 0 < n)
    (hinit : codeCacheKinds.length * n < kCodeCacheNumPages) {requests : List Request}
    (hok : RunOk h n (initCodeCache h n) requests) :
    Sound h n (requests.foldl (allocateCode h n) (initCodeCache h n)) := by
  have hlt : n < kCodeCacheNumPages := by
    have hlength : codeCacheKinds.length = 5 := rfl
    rw [hlength] at hinit
    omega
  exact ((inv_initCodeCache hn hinit).run hlt hok).sound hlt

def codeHeap : CodeHeap where
  heap := pageSizeBytes
  heap_pos := by decide
  aligned := dvd_rfl
  heap_le := by decide

/-- The second request does not fit behind the first one. -/
theorem allocateCode_sound_twoSlabs : Sound codeHeap 8
    ([⟨.hot, 20000⟩, ⟨.hot, 20000⟩].foldl (allocateCode codeHeap 8) (initCodeCache codeHeap 8)) :=
  allocateCode_sound codeHeap (by decide) (by decide)
    ⟨⟨by decide, fun _ ↦ by decide⟩, ⟨by decide, fun _ ↦ by decide⟩, trivial⟩

/-- Slabs of as many pages as there are: a null pointer is taken for the first one. -/
theorem allocateCode_not_sound : ¬Sound codeHeap kCodeCacheNumPages
    ([⟨.hot, 100⟩].foldl (allocateCode codeHeap kCodeCacheNumPages)
      (initCodeCache codeHeap kCodeCacheNumPages)) := by
  intro hsound
  have hreturned : ([⟨.hot, 100⟩].foldl (allocateCode codeHeap kCodeCacheNumPages)
      (initCodeCache codeHeap kCodeCacheNumPages)).returned = [⟨.hot, 0, 100⟩] := by decide
  obtain ⟨slab, -, hheap, -, hle, -⟩ := hsound.within ⟨.hot, 0, 100⟩
    (hreturned ▸ List.mem_cons_self)
  exact absurd (hheap.trans hle) (by decide)

end Granary.Code.Cache
