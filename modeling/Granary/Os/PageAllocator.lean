import Mathlib
import Granary.Base.Run

namespace Granary.Os.PageAllocator

open Function Granary.Base.Run

/-- The rest of the loop over the bits of one slot, `n` bits from the end of it. -/
def scanBits (slot : BitVec 64) (num : ℕ) : (n bit firstSetBit : ℕ) → Option ℕ
  | 0, _, firstSetBit => if num ≤ 64 - firstSetBit then some firstSetBit else none
  | n + 1, bit, firstSetBit =>
    if slot.getLsbD bit then
      scanBits slot num n (bit + 1) (if bit < firstSetBit then bit else firstSetBit)
    else if firstSetBit < bit then
      -- the first zero bit after a run of ones
      if num ≤ bit - firstSetBit then some firstSetBit else scanBits slot num n (bit + 1) 64
    else scanBits slot num n (bit + 1) firstSetBit

/-- The first `turns` turns of the loop over the slots, with the slot and the bit that it goes to
`allocate` with. The counter has 32 bits. -/
def scanSlots (freePages : ℕ → BitVec 64) (kNumSlotsInFreeSet num : ℕ) :
    (turns : ℕ) → (i : BitVec 32) → Option (Option (ℕ × ℕ))
  | 0, _ => none
  | turns + 1, i =>
    if i.toNat < kNumSlotsInFreeSet then
      if freePages i.toNat = 0 then scanSlots freePages kNumSlotsInFreeSet num turns (i + 1)
      else
        match scanBits (freePages i.toNat) num 64 0 64 with
        | some firstSetBit => some (some (i.toNat, firstSetBit))
        | none => scanSlots freePages kNumSlotsInFreeSet num turns (i + 1)
    else some none

def clearBits (slot : BitVec 64) (firstSetBit num : ℕ) : BitVec 64 :=
  (List.range' firstSetBit num).foldl (fun slot bit ↦ slot &&& ~~~(1#64 <<< bit)) slot

def Fits (slot : BitVec 64) (num first : ℕ) : Prop :=
  first + num ≤ 64 ∧ ∀ bit, first ≤ bit → bit < first + num → slot.getLsbD bit = true

section Scan

variable {slot : BitVec 64} {num : ℕ}

/-- The bits from `firstSetBit` to `bit` are set, and no run of `num` bits starts before them. -/
structure Scanned (slot : BitVec 64) (num bit firstSetBit : ℕ) : Prop where
  reset_or : firstSetBit = 64 ∨ firstSetBit < bit
  set (b : ℕ) : firstSetBit ≤ b → b < bit → slot.getLsbD b = true
  le_of_fits {first : ℕ} : Fits slot num first → min firstSetBit bit ≤ first

theorem scanned_set {bit firstSetBit : ℕ} (h : Scanned slot num bit firstSetBit) (hlt : bit < 64)
    (hset : slot.getLsbD bit = true) :
    Scanned slot num (bit + 1) (if bit < firstSetBit then bit else firstSetBit) := by
  have hcases := h.reset_or
  constructor
  · split_ifs <;> omega
  · intro b hb hlt
    obtain hold | rfl : b < bit ∨ b = bit := by omega
    · apply h.set b ?_ hold
      split_ifs at hb <;> omega
    · exact hset
  · intro first hfits
    have hle := h.le_of_fits hfits
    split_ifs <;> omega

theorem scanned_reset {bit firstSetBit : ℕ} (h : Scanned slot num bit firstSetBit)
    (hnum : 1 ≤ num) (hlt : bit < 64) (hclear : slot.getLsbD bit = false)
    (hshort : firstSetBit < bit → bit - firstSetBit < num) : Scanned slot num (bit + 1) 64 := by
  have hcases := h.reset_or
  refine ⟨Or.inl rfl, fun b hb hle ↦ by omega, fun {first} hfits ↦ ?_⟩
  have hle := h.le_of_fits hfits
  by_contra hearly
  -- the clear bit ends the run before it
  have hend : first + num ≤ bit := by
    by_contra hlong
    have hset := hfits.2 bit (by omega) (by omega)
    rw [hclear] at hset
    exact Bool.noConfusion hset
  omega

theorem scanBits_spec (hnum : 1 ≤ num) (n : ℕ) {bit firstSetBit : ℕ} (hn : bit + n = 64)
    (h : Scanned slot num bit firstSetBit) :
    (∀ first, scanBits slot num n bit firstSetBit = some first → Fits slot num first) ∧
      (scanBits slot num n bit firstSetBit = none → ∀ first, ¬Fits slot num first) := by
  induction n generalizing bit firstSetBit with
  | zero =>
    have hbit : bit = 64 := hn
    have hcases := h.reset_or
    subst hbit
    rw [scanBits]
    split_ifs with hlong
    · refine ⟨fun first hfirst ↦ ?_, fun hnone ↦ nomatch hnone⟩
      obtain rfl := Option.some_inj.1 hfirst
      exact ⟨by omega, fun b hb hlt ↦ h.set b hb (by omega)⟩
    · refine ⟨fun first hfirst ↦ (nomatch hfirst), fun _ first hfits ↦ ?_⟩
      have hle := h.le_of_fits hfits
      have hend := hfits.1
      omega
  | succ n ih =>
    have hlt : bit < 64 := by omega
    rw [scanBits]
    by_cases hset : slot.getLsbD bit = true
    · rw [if_pos hset]
      exact ih (by omega) (scanned_set h hlt hset)
    rw [if_neg hset]
    rw [Bool.not_eq_true] at hset
    split_ifs with hrun hlong
    · refine ⟨fun first hfirst ↦ ?_, fun hnone ↦ nomatch hnone⟩
      obtain rfl := Option.some_inj.1 hfirst
      exact ⟨by omega, fun b hb hend ↦ h.set b hb (by omega)⟩
    · exact ih (by omega) (scanned_reset h hnum hlt hset fun _ ↦ by omega)
    · have hreset : firstSetBit = 64 := by
        have hcases := h.reset_or
        omega
      subst hreset
      exact ih (by omega) (scanned_reset h hnum hlt hset fun hrun' ↦ absurd hrun' hrun)

theorem scanned_start : Scanned slot num 0 64 where
  reset_or := Or.inl rfl
  set b _ hlt := by omega
  le_of_fits _ := by omega

theorem fits_of_scanBits (hnum : 1 ≤ num) {first : ℕ}
    (h : scanBits slot num 64 0 64 = some first) : Fits slot num first :=
  (scanBits_spec hnum 64 rfl scanned_start).1 first h

theorem not_fits_of_scanBits (hnum : 1 ≤ num) (h : scanBits slot num 64 0 64 = none)
    (first : ℕ) : ¬Fits slot num first :=
  (scanBits_spec hnum 64 rfl scanned_start).2 h first

theorem not_fits_zero (hnum : 1 ≤ num) (first : ℕ) : ¬Fits 0 num first := by
  intro h
  have hset := h.2 first le_rfl (by omega)
  simp at hset

variable {freePages : ℕ → BitVec 64} {kNumSlotsInFreeSet turns : ℕ} {i : BitVec 32}

theorem fits_of_scanSlots (hnum : 1 ≤ num) {j first : ℕ}
    (h : scanSlots freePages kNumSlotsInFreeSet num turns i = some (some (j, first))) :
    j < kNumSlotsInFreeSet ∧ Fits (freePages j) num first := by
  induction turns generalizing i with
  | zero => exact nomatch h
  | succ turns ih =>
    rw [scanSlots] at h
    split_ifs at h with hi hzero
    · exact ih h
    · split at h
      next f hf =>
        simp only [Option.some.injEq, Prod.mk.injEq] at h
        obtain ⟨rfl, rfl⟩ := h
        exact ⟨hi, fits_of_scanBits hnum hf⟩
      next => exact ih h
    · simp at h

theorem scanSlots_succ (hnum : 1 ≤ num) (hi : i.toNat < kNumSlotsInFreeSet)
    (hnot : ∀ first, ¬Fits (freePages i.toNat) num first) :
    scanSlots freePages kNumSlotsInFreeSet num (turns + 1) i =
      scanSlots freePages kNumSlotsInFreeSet num turns (i + 1) := by
  rw [scanSlots, if_pos hi]
  split_ifs
  · rfl
  · split
    next first hfirst => exact absurd (fits_of_scanBits hnum hfirst) (hnot first)
    next => rfl

theorem toNat_succ (h : i.toNat + 1 < 2 ^ 32) : (i + 1).toNat = i.toNat + 1 := by
  rw [BitVec.toNat_add]
  exact Nat.mod_eq_of_lt h

variable (freePages turns i) in
theorem scanSlots_returns (hnum : 1 ≤ num) (hslots : kNumSlotsInFreeSet < 2 ^ 32)
    (hi : i.toNat ≤ kNumSlotsInFreeSet) (hturns : kNumSlotsInFreeSet < i.toNat + turns) :
    (∃ found, scanSlots freePages kNumSlotsInFreeSet num turns i = some (some found)) ∨
      scanSlots freePages kNumSlotsInFreeSet num turns i = some none ∧
        ∀ j first, i.toNat ≤ j → j < kNumSlotsInFreeSet → ¬Fits (freePages j) num first := by
  induction turns generalizing i with
  | zero => omega
  | succ turns ih =>
    by_cases hlt : i.toNat < kNumSlotsInFreeSet
    · by_cases hnot : ∀ first, ¬Fits (freePages i.toNat) num first
      · rw [scanSlots_succ hnum hlt hnot]
        have hsucc := toNat_succ (i := i) (by omega)
        obtain hfound | ⟨hnone, hrest⟩ := ih (i := i + 1) (by omega) (by omega)
        · exact Or.inl hfound
        · refine Or.inr ⟨hnone, fun j first hle hj ↦ ?_⟩
          obtain heq | hlater : i.toNat = j ∨ (i + 1).toNat ≤ j := by omega
          · exact heq ▸ hnot first
          · exact hrest j first hlater hj
      · left
        rw [scanSlots, if_pos hlt, if_neg]
        · split
          next first _ => exact ⟨(i.toNat, first), rfl⟩
          next hnone => exact absurd (not_fits_of_scanBits hnum hnone) hnot
        · intro hzero
          rw [hzero] at hnot
          exact hnot (not_fits_zero hnum)
    · rw [scanSlots, if_neg hlt]
      exact Or.inr ⟨rfl, fun j _ hle hj ↦ absurd (hle.trans_lt hj) hlt⟩

variable (freePages num) in
/-- With `2 ^ 32` slots or more and no run of free pages in the first `2 ^ 32`, the loop goes on
forever. -/
theorem scanSlots_diverges (hnum : 1 ≤ num) (hslots : 2 ^ 32 ≤ kNumSlotsInFreeSet)
    (hnot : ∀ j < 2 ^ 32, ∀ first, ¬Fits (freePages j) num first) (turns : ℕ) (i : BitVec 32) :
    scanSlots freePages kNumSlotsInFreeSet num turns i = none := by
  induction turns generalizing i with
  | zero => rfl
  | succ turns ih =>
    have hi : i.toNat < 2 ^ 32 := i.isLt
    rw [scanSlots_succ hnum (by omega) (hnot i.toNat hi)]
    exact ih (i + 1)

theorem getLsbD_clearBits (slot : BitVec 64) (firstSetBit num bit : ℕ) :
    (clearBits slot firstSetBit num).getLsbD bit = true ↔
      slot.getLsbD bit = true ∧ ¬(firstSetBit ≤ bit ∧ bit < firstSetBit + num) := by
  induction num generalizing slot firstSetBit with
  | zero => simp [clearBits]
  | succ num ih =>
    have hfold : clearBits slot firstSetBit (num + 1) =
        clearBits (slot &&& ~~~(1#64 <<< firstSetBit)) (firstSetBit + 1) num := rfl
    rw [hfold, ih, ← BitVec.twoPow_eq]
    have hlt : slot.getLsbD bit = true → bit < 64 := BitVec.lt_of_getLsbD
    simp only [BitVec.getLsbD_and, BitVec.getLsbD_not, BitVec.getLsbD_twoPow, Bool.and_eq_true,
      Bool.not_eq_true', decide_eq_true_eq, Bool.and_eq_false_iff, decide_eq_false_iff_not]
    constructor
    · rintro ⟨⟨hset, hbit, hne⟩, hnot⟩
      exact ⟨hset, by omega⟩
    · rintro ⟨hset, hnot⟩
      have hbit := hlt hset
      exact ⟨⟨hset, hbit, by omega⟩, by omega⟩

end Scan

def PAGE_SIZE_BYTES : ℕ := 4096

structure Heap where
  kNumPages : ℕ
  heap : BitVec 64

def Heap.kNumSlotsInFreeSet (h : Heap) : ℕ := h.kNumPages / 64 + 1

/-- `&(heap[page])`. -/
def Heap.address (h : Heap) (page : ℕ) : BitVec 64 :=
  h.heap + BitVec.ofNat 64 (page * PAGE_SIZE_BYTES)

def Heap.page (h : Heap) (addr : BitVec 64) : ℕ :=
  (addr - h.heap).toNat / PAGE_SIZE_BYTES

/-- What `AllocatePages` returned, and how many pages it was called for. -/
structure Allocation where
  mem : BitVec 64
  num : ℕ
  deriving DecidableEq

/-- What a thread does next: anything, or the slow path of a call for `num` pages. -/
inductive Phase where
  | idle
  | slow (num : ℕ)
  deriving DecidableEq

variable {T : Type*}

structure State (T : Type*) where
  numAllocatedPages : ℕ
  freePages : ℕ → BitVec 64
  phase : T → Phase
  /-- The allocations that were not freed. -/
  live : List Allocation

def initial : State T where
  numAllocatedPages := 0
  freePages := fun _ ↦ 0
  phase := fun _ ↦ .idle
  live := []

inductive Action (T : Type*) where
  | allocatePages (thread : T) (num : ℕ)
  | allocatePagesSlow (thread : T)
  | freePages (allocation : Allocation)

/-- The slot and the bit that the scan for `num` pages goes to `allocate` with. It is none if the
scan has not ended when its counter has been at every slot that it gets to. -/
def allocatePagesSlow (h : Heap) (freePages : ℕ → BitVec 64) (num : ℕ) :
    Option (Option (ℕ × ℕ)) :=
  scanSlots freePages h.kNumSlotsInFreeSet num (h.kNumSlotsInFreeSet + 1) 0

def freePage (h : Heap) (freePages : ℕ → BitVec 64) (addr : BitVec 64) : ℕ → BitVec 64 :=
  let page := h.page addr
  update freePages (page / 64) (freePages (page / 64) ||| 1#64 <<< (page % 64))

def freeAll (h : Heap) (freePages : ℕ → BitVec 64) (a : Allocation) : ℕ → BitVec 64 :=
  (List.range a.num).foldl
    (fun freePages i ↦ freePage h freePages (a.mem + BitVec.ofNat 64 (i * PAGE_SIZE_BYTES)))
    freePages

/-- The locked part of one call is one action. The pages come from one `fetch_add` of the counter
if they are in the heap. -/
def step [DecidableEq T] (h : Heap) (s : State T) : Action T → Option (State T)
  | .allocatePages t num =>
    if s.phase t = .idle ∧ 1 ≤ num then
      let index := s.numAllocatedPages
      let numAllocatedPages := (index + num) % 2 ^ 64
      if numAllocatedPages < h.kNumPages then
        some { s with
          numAllocatedPages := numAllocatedPages
          live := ⟨h.address index, num⟩ :: s.live }
      else
        some { s with
          numAllocatedPages := numAllocatedPages
          phase := update s.phase t (.slow num) }
    else none
  | .allocatePagesSlow t =>
    match s.phase t with
    | .idle => none
    | .slow num =>
      match allocatePagesSlow h s.freePages num with
      | none => none
      | some none => some { s with phase := update s.phase t .idle }
      | some (some (i, firstSetBit)) =>
        some { s with
          freePages := update s.freePages i (clearBits (s.freePages i) firstSetBit num)
          phase := update s.phase t .idle
          live := ⟨h.address (firstSetBit + i * 64), num⟩ :: s.live }
  | .freePages a =>
    if a ∈ s.live then
      some { s with freePages := freeAll h s.freePages a, live := s.live.erase a }
    else none

def IsFree (freePages : ℕ → BitVec 64) (page : ℕ) : Prop :=
  (freePages (page / 64)).getLsbD (page % 64) = true

def Allocation.pages (h : Heap) (a : Allocation) : Finset ℕ :=
  Finset.Ico (h.page a.mem) (h.page a.mem + a.num)

def HasRun (h : Heap) (s : State T) (num : ℕ) : Prop :=
  ∃ i < h.kNumSlotsInFreeSet, ∃ first, Fits (s.freePages i) num first

structure Sound (h : Heap) (s : State T) : Prop where
  /-- A live allocation is a run of pages in the heap. -/
  inside : ∀ a ∈ s.live, 1 ≤ a.num ∧ a.mem = h.address (h.page a.mem) ∧
    h.page a.mem + a.num ≤ h.kNumPages
  disjoint : s.live.Pairwise fun a b ↦ Disjoint (a.pages h) (b.pages h)
  notFree : ∀ a ∈ s.live, ∀ page ∈ a.pages h, ¬IsFree s.freePages page

/-- The slow path finds a run of free pages if there is one, and fails if there is none. -/
structure Complete (h : Heap) (s : State T) (num : ℕ) : Prop where
  found : HasRun h s num → ∃ i first, allocatePagesSlow h s.freePages num = some (some (i, first)) ∧
    i < h.kNumSlotsInFreeSet ∧ Fits (s.freePages i) num first
  fails : ¬HasRun h s num → allocatePagesSlow h s.freePages num = some none

def Counts (s : State T) : Action T → Prop
  | .allocatePages _ num => s.numAllocatedPages + num < 2 ^ 64
  | _ => True

section Addresses

variable {h : Heap} {freePages : ℕ → BitVec 64} {page num : ℕ}

theorem page_address (hpage : page < 2 ^ 52) : h.page (h.address page) = page := by
  unfold Heap.page Heap.address PAGE_SIZE_BYTES
  rw [BitVec.add_comm, BitVec.add_sub_cancel, BitVec.toNat_ofNat, Nat.mod_eq_of_lt (by omega)]
  omega

theorem address_add (i : ℕ) :
    h.address page + BitVec.ofNat 64 (i * PAGE_SIZE_BYTES) = h.address (page + i) := by
  unfold Heap.address
  rw [Nat.add_mul, BitVec.ofNat_add, BitVec.add_assoc]

theorem isFree_freePage (hpage : page < 2 ^ 52) (p : ℕ) :
    IsFree (freePage h freePages (h.address page)) p ↔ IsFree freePages p ∨ p = page := by
  unfold IsFree freePage
  simp only [page_address hpage]
  by_cases hslot : p / 64 = page / 64
  · rw [hslot, update_self, ← BitVec.twoPow_eq]
    have hbit : p % 64 < 64 := Nat.mod_lt p (by decide)
    simp only [BitVec.getLsbD_or, BitVec.getLsbD_twoPow, Bool.or_eq_true, Bool.and_eq_true,
      decide_eq_true_eq]
    apply or_congr_right
    omega
  · rw [update_of_ne hslot]
    have hne : p ≠ page := by
      rintro rfl
      exact hslot rfl
    simp [hne]

variable (h freePages page num) in
theorem isFree_freeAll (hend : page + num ≤ 2 ^ 52) (p : ℕ) :
    IsFree (freeAll h freePages ⟨h.address page, num⟩) p ↔
      IsFree freePages p ∨ page ≤ p ∧ p < page + num := by
  unfold freeAll
  induction num with
  | zero => simp
  | succ num ih =>
    rw [List.range_succ, List.foldl_append, List.foldl_cons, List.foldl_nil]
    simp only [address_add] at ih ⊢
    rw [isFree_freePage (by omega), ih (by omega), or_assoc]
    apply or_congr_right
    omega

variable (freePages) in
theorem isFree_clear (i firstSetBit p : ℕ) (hend : firstSetBit + num ≤ 64) :
    IsFree (update freePages i (clearBits (freePages i) firstSetBit num)) p ↔
      IsFree freePages p ∧
        ¬(firstSetBit + i * 64 ≤ p ∧ p < firstSetBit + i * 64 + num) := by
  unfold IsFree
  by_cases hslot : p / 64 = i
  · rw [hslot, update_self, getLsbD_clearBits]
    apply and_congr_right'
    omega
  · rw [update_of_ne hslot]
    have hout : ¬(firstSetBit + i * 64 ≤ p ∧ p < firstSetBit + i * 64 + num) := by omega
    simp [hout]

theorem isFree_of_fits {i first : ℕ} (hfits : Fits (freePages i) num first) {p : ℕ}
    (hp : first + i * 64 ≤ p) (hlt : p < first + i * 64 + num) : IsFree freePages p := by
  have hend := hfits.1
  have hslot : p / 64 = i := by omega
  unfold IsFree
  rw [hslot]
  exact hfits.2 (p % 64) (by omega) (by omega)

end Addresses

structure Inv (h : Heap) (s : State T) : Prop extends Sound h s where
  below : ∀ a ∈ s.live, h.page a.mem + a.num ≤ s.numAllocatedPages
  free_lt (page : ℕ) : IsFree s.freePages page → page < h.kNumPages ∧ page < s.numAllocatedPages
  pending (t : T) (num : ℕ) : s.phase t = .slow num → 1 ≤ num

theorem inv_initial (h : Heap) : Inv h (initial : State T) where
  inside := by simp [initial]
  disjoint := List.Pairwise.nil
  notFree := by simp [initial]
  below := by simp [initial]
  free_lt := by simp [initial, IsFree]
  pending := by simp [initial]

section Preserved

variable [DecidableEq T] {h : Heap} {s s' : State T} {t : T} {num : ℕ}

omit [DecidableEq T] in
theorem sound_hand (hs : Sound h s) (hpages : h.kNumPages < 2 ^ 38) {page : ℕ} (hnum : 1 ≤ num)
    (hend : page + num ≤ h.kNumPages)
    (hapart : ∀ a ∈ s.live, ∀ p ∈ a.pages h, ¬(page ≤ p ∧ p < page + num))
    {freePages : ℕ → BitVec 64} (hless : ∀ p, IsFree freePages p → IsFree s.freePages p)
    (hused : ∀ p, page ≤ p → p < page + num → ¬IsFree freePages p)
    (numAllocatedPages : ℕ) (phase : T → Phase) :
    Sound h ⟨numAllocatedPages, freePages, phase, ⟨h.address page, num⟩ :: s.live⟩ := by
  have hpage : h.page (h.address page) = page := page_address (by omega)
  constructor
  · intro a ha
    obtain rfl | ha := List.mem_cons.1 ha
    · exact ⟨hnum, by rw [hpage], by rw [hpage]; exact hend⟩
    · exact hs.inside a ha
  · apply List.Pairwise.cons
    · intro a ha
      rw [Finset.disjoint_left]
      intro p hp hmem
      rw [Allocation.pages, Finset.mem_Ico, hpage] at hp
      exact hapart a ha p hmem hp
    · exact hs.disjoint
  · intro a ha p hp hfree
    obtain rfl | ha := List.mem_cons.1 ha
    · rw [Allocation.pages, Finset.mem_Ico, hpage] at hp
      exact hused p hp.1 hp.2 hfree
    · exact hs.notFree a ha p hp (hless p hfree)

theorem inv_allocatePages (hi : Inv h s) (hpages : h.kNumPages < 2 ^ 38)
    (hcounts : s.numAllocatedPages + num < 2 ^ 64)
    (hstep : step h s (.allocatePages t num) = some s') : Inv h s' := by
  simp only [step, Nat.mod_eq_of_lt hcounts] at hstep
  split_ifs at hstep with hidle hbump
  · obtain rfl := Option.some_inj.1 hstep
    have hpage : h.page (h.address s.numAllocatedPages) = s.numAllocatedPages :=
      page_address (by omega)
    refine ⟨sound_hand hi.toSound hpages hidle.2 (by omega) ?_ (fun p hp ↦ hp) ?_ _ _, ?_, ?_, ?_⟩
    · intro a ha p hp hin
      rw [Allocation.pages, Finset.mem_Ico] at hp
      have hbelow := hi.below a ha
      omega
    · intro p hp _ hfree
      have hlt := (hi.free_lt p hfree).2
      omega
    · intro a ha
      obtain rfl | ha := List.mem_cons.1 ha
      · rw [hpage]
      · exact (hi.below a ha).trans (Nat.le_add_right _ _)
    · intro p hp
      have hlt := hi.free_lt p hp
      exact ⟨hlt.1, hlt.2.trans_le (Nat.le_add_right _ _)⟩
    · exact hi.pending
  · obtain rfl := Option.some_inj.1 hstep
    refine ⟨⟨hi.inside, hi.disjoint, hi.notFree⟩, ?_, ?_, ?_⟩
    · exact fun a ha ↦ (hi.below a ha).trans (Nat.le_add_right _ _)
    · intro p hp
      have hlt := hi.free_lt p hp
      exact ⟨hlt.1, hlt.2.trans_le (Nat.le_add_right _ _)⟩
    · intro u n hu
      by_cases hut : u = t
      · simp only [hut, update_self, Phase.slow.injEq] at hu
        exact hu ▸ hidle.2
      · simp only [update_of_ne hut] at hu
        exact hi.pending u n hu

theorem pending_idle (hi : Inv h s) (u : T) (n : ℕ) (hu : update s.phase t .idle u = .slow n) :
    1 ≤ n := by
  by_cases hut : u = t
  · rw [hut, update_self] at hu
    cases hu
  · rw [update_of_ne hut] at hu
    exact hi.pending u n hu

theorem inv_allocatePagesSlow (hi : Inv h s) (hpages : h.kNumPages < 2 ^ 38)
    (hstep : step h s (.allocatePagesSlow t) = some s') : Inv h s' := by
  cases hphase : s.phase t with
  | idle => simp [step, hphase] at hstep
  | slow num =>
    have hnum := hi.pending t num hphase
    simp only [step, hphase] at hstep
    split at hstep
    next => cases hstep
    next =>
      obtain rfl := Option.some_inj.1 hstep
      exact ⟨⟨hi.inside, hi.disjoint, hi.notFree⟩, hi.below, hi.free_lt, pending_idle hi⟩
    next i first hscan =>
      obtain rfl := Option.some_inj.1 hstep
      obtain ⟨hslot, hfits⟩ := fits_of_scanSlots hnum hscan
      have hfree (p : ℕ) (hp : first + i * 64 ≤ p) (hlt : p < first + i * 64 + num) :
          IsFree s.freePages p := isFree_of_fits hfits hp hlt
      -- the last page of the run is free, so the run is in the heap
      have hlast := hi.free_lt _ (hfree (first + i * 64 + num - 1) (by omega) (by omega))
      have hclear (p : ℕ) := isFree_clear s.freePages i first p hfits.1
      have hpage : h.page (h.address (first + i * 64)) = first + i * 64 :=
        page_address (by omega)
      refine ⟨sound_hand hi.toSound hpages hnum (by omega) ?_ (fun p hp ↦ ((hclear p).1 hp).1) ?_ _
        _, ?_, ?_, pending_idle hi⟩
      · intro a ha p hp hin
        exact hi.notFree a ha p hp (hfree p hin.1 hin.2)
      · intro p hp hlt hcleared
        exact ((hclear p).1 hcleared).2 ⟨hp, hlt⟩
      · intro a ha
        obtain rfl | ha := List.mem_cons.1 ha
        · simp only [hpage]
          omega
        · exact hi.below a ha
      · exact fun p hp ↦ hi.free_lt p ((hclear p).1 hp).1

theorem inv_freePages (hi : Inv h s) (hpages : h.kNumPages < 2 ^ 38) {a : Allocation}
    (hstep : step h s (.freePages a) = some s') : Inv h s' := by
  simp only [step] at hstep
  split_ifs at hstep with ha
  obtain rfl := Option.some_inj.1 hstep
  obtain ⟨hnum, hmem, hend⟩ := hi.inside a ha
  have hbelow := hi.below a ha
  have hfreed (p : ℕ) : IsFree (freeAll h s.freePages a) p ↔
      IsFree s.freePages p ∨ p ∈ a.pages h := by
    have h' := isFree_freeAll h s.freePages (h.page a.mem) a.num (by omega) p
    rw [← hmem] at h'
    rw [Allocation.pages, Finset.mem_Ico]
    exact h'
  have hpairs : (a :: s.live.erase a).Pairwise fun a b ↦ Disjoint (a.pages h) (b.pages h) :=
    (List.perm_cons_erase ha).pairwise hi.disjoint fun h' ↦ h'.symm
  rw [List.pairwise_cons] at hpairs
  have hrest {b : Allocation} (hb : b ∈ s.live.erase a) : b ∈ s.live := List.mem_of_mem_erase hb
  refine ⟨⟨fun b hb ↦ hi.inside b (hrest hb), hpairs.2, ?_⟩, fun b hb ↦ hi.below b (hrest hb), ?_,
    hi.pending⟩
  · intro b hb p hp hfree
    obtain hold | hnew := (hfreed p).1 hfree
    · exact hi.notFree b (hrest hb) p hp hold
    · exact Finset.disjoint_left.1 (hpairs.1 b hb) hnew hp
  · intro p hp
    obtain hold | hnew := (hfreed p).1 hp
    · exact hi.free_lt p hold
    · rw [Allocation.pages, Finset.mem_Ico] at hnew
      exact ⟨by omega, hnew.2.trans_le hbelow⟩

theorem inv_step (hpages : h.kNumPages < 2 ^ 38) (hi : Inv h s) {a : Action T}
    (hcounts : Counts s a) (hstep : step h s a = some s') : Inv h s' := by
  cases a with
  | allocatePages t num => exact inv_allocatePages hi hpages hcounts hstep
  | allocatePagesSlow t => exact inv_allocatePagesSlow hi hpages hstep
  | freePages a => exact inv_freePages hi hpages hstep

omit [DecidableEq T] in
theorem complete_of_slots_lt (hslots : h.kNumSlotsInFreeSet < 2 ^ 32) (hnum : 1 ≤ num) :
    Complete h s num := by
  have hreturns := scanSlots_returns s.freePages (h.kNumSlotsInFreeSet + 1) 0 hnum hslots
    (Nat.zero_le _) (by simp)
  constructor
  · rintro ⟨i, hi, first, hfits⟩
    obtain ⟨⟨j, first'⟩, hfound⟩ | ⟨-, hnot⟩ := hreturns
    · exact ⟨j, first', hfound, fits_of_scanSlots hnum hfound⟩
    · exact absurd hfits (hnot i first (Nat.zero_le i) hi)
  · intro hnot
    obtain ⟨⟨j, first⟩, hfound⟩ | ⟨hnone, -⟩ := hreturns
    · obtain ⟨hj, hfits⟩ := fits_of_scanSlots hnum hfound
      exact absurd ⟨j, hj, first, hfits⟩ hnot
    · exact hnone

end Preserved

/-- Page `2 ^ 38` is free, and the slow path never finds it. -/
theorem allocatePagesSlow_misses :
    ∃ s : State Unit,
      run (step ⟨2 ^ 38 + 64, 0⟩) initial
        [.allocatePages () (2 ^ 38), .allocatePages () 1, .freePages ⟨2 ^ 50, 1⟩] = some s ∧
      HasRun ⟨2 ^ 38 + 64, 0⟩ s 1 ∧
      ∀ turns, scanSlots s.freePages (Heap.kNumSlotsInFreeSet ⟨2 ^ 38 + 64, 0⟩) 1 turns 0 = none := by
  let freed : ℕ → BitVec 64 := update (fun _ ↦ 0) (2 ^ 32) 1
  refine ⟨⟨2 ^ 38 + 1, freed, fun _ ↦ .idle, [⟨0, 2 ^ 38⟩]⟩, ?_, ?_, ?_⟩
  · rfl
  · refine ⟨2 ^ 32, by decide, 0, by omega, fun bit hbit hlt ↦ ?_⟩
    obtain rfl : bit = 0 := by omega
    simp [freed]
  · intro turns
    apply scanSlots_diverges
    · exact le_rfl
    · decide
    · intro j hj first
      have hzero : freed j = 0 := update_of_ne hj.ne _ _
      change ¬Fits (freed j) 1 first
      rw [hzero]
      exact not_fits_zero le_rfl first

/-- In every run in which the counter does not wrap around, no page is handed out twice, and the
slow path finds a run of free pages or fails if there is none: if, and only if, a 32-bit counter
gets past the slots of the heap. -/
theorem pageAllocator_sound_iff [DecidableEq T] (h : Heap) :
    (∀ (actions : List (Action T)) (s : State T), run (step h) initial actions = some s →
      (∀ past a s', past ++ [a] <+: actions → run (step h) initial past = some s' → Counts s' a) →
      Sound h s ∧ ∀ num, 1 ≤ num → Complete h s num) ↔ h.kNumPages / 64 + 1 < 2 ^ 32 := by
  constructor
  · intro hall
    by_contra hslots
    have hcomplete := (hall [] initial rfl (by simp)).2 1 le_rfl
    have hnot (j first : ℕ) : ¬Fits ((initial : State T).freePages j) 1 first :=
      not_fits_zero le_rfl first
    have hfails := hcomplete.fails fun ⟨j, _, first, hfits⟩ ↦ hnot j first hfits
    have hforever := scanSlots_diverges 1 (initial : State T).freePages le_rfl
      (not_lt.1 hslots) (fun j _ ↦ hnot j) (h.kNumSlotsInFreeSet + 1) 0
    rw [allocatePagesSlow, Heap.kNumSlotsInFreeSet] at hfails
    rw [Heap.kNumSlotsInFreeSet, hfails] at hforever
    cases hforever
  · intro hslots actions s hrun hcounts
    have hpages : h.kNumPages < 2 ^ 38 := by omega
    have hi : Inv h s := run_keeps (I := Inv h) (C := Counts)
      (fun s a s' hi hc hs ↦ inv_step hpages hi hc hs) hcounts (inv_initial h) hrun
    exact ⟨hi.toSound, fun num hnum ↦ complete_of_slots_lt hslots hnum⟩

end Granary.Os.PageAllocator
