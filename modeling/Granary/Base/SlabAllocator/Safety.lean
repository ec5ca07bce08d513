import Granary.Base.SlabAllocator.Operations

namespace Granary.Base.SlabAllocator

open Granary.Base.Bytes Granary.Base.Chain Granary.Base.Run

variable {p : Properties} {debug : Bool} {mem : ℕ → Byte} {pages : List ℕ} {s s' : State}

section Fits

theorem inv_initial (hp : Compiles p) (hf : Fits p) (hpages : Pages pages) :
    Inv p debug [] [] (initial p mem pages) where
  freeChain := rfl
  slabChain := rfl
  pages := by
    rw [initial, List.append_nil]
    exact hpages
  apart := List.Pairwise.nil
  aligned a ha := absurd ha List.not_mem_nil
  within a ha := absurd ha List.not_mem_nil
  tail a ha := absurd ha List.not_mem_nil
  offset := ⟨p.kNumObjsPerSlab, (kEndOffset_eq hf.room).2⟩
  offset_le := hp.kEndOffset_le
  slabs_ne_nil hlt := absurd hlt (Nat.lt_irrefl _)
  writes w hw := absurd hw List.not_mem_nil
  freePoison a i _ ha := absurd ha List.not_mem_nil
  tailPoison i _ hne := absurd rfl hne

theorem step_keeps (hp : Compiles p) (hf : Fits p) {action : Action}
    (h : ∃ free, Inv p debug free s.live s) (hs : step p debug s action = some s') :
    ∃ free, Inv p debug free s'.live s' := by
  obtain ⟨free, h⟩ := h
  cases action with
  | allocate =>
    obtain ⟨hnone, -⟩ | ⟨t, free', ht, hinv⟩ := allocate_spec h hp hf
    · exact absurd (hnone.symm.trans hs) (by simp)
    · obtain rfl := Option.some_inj.1 (ht.symm.trans hs)
      exact ⟨free', hinv⟩
  | free address => exact free_spec h hp hf hs
  | fill address i bytes => exact ⟨free, fill_spec h hp hf hs⟩

theorem run_inv (hp : Compiles p) (hf : Fits p) (hpages : Pages pages) {actions : List Action}
    (h : run (step p debug) (initial p mem pages) actions = some s) :
    ∃ free, Inv p debug free s.live s :=
  run_invariant (I := fun s ↦ ∃ free, Inv p debug free s.live s)
    (fun _ _ _ hI hs ↦ step_keeps hp hf hI hs) ⟨[], inv_initial hp hf hpages⟩ h

theorem Inv.safe {free : List ℕ} (h : Inv p debug free s.live s) (hp : Compiles p) : Safe p s where
  apart := (List.pairwise_append.1 h.apart).2.1.imp fun h ↦ h.mono hp.sizeOf_le hp.sizeOf_le
  aligned a ha := h.aligned a (List.mem_append_right _ ha)
  within a ha := (h.within a (List.mem_append_right _ ha)).mono (List.Subset.refl _)
    (Nat.le_refl _) hp.sizeOf_le
  writes := h.writes

theorem run_allocate (hp : Compiles p) (hf : Fits p) (hpages : Pages pages)
    {actions : List Action} (h : run (step p debug) (initial p mem pages) actions = some s)
    (hne : s.pages ≠ []) : ∃ s', step p debug s .allocate = some s' := by
  obtain ⟨free, hinv⟩ := run_inv hp hf hpages h
  obtain ⟨-, hnil⟩ | ⟨s', -, hs', -⟩ := allocate_spec hinv hp hf
  · exact absurd hnil hne
  · exact ⟨s', hs'⟩

end Fits

section Unfit

def oneSlab (p : Properties) : State :=
  initial p (fun _ ↦ kUnallocatedMemoryPoison) [pageSizeBytes]

theorem pages_pageSizeBytes : Pages [pageSizeBytes] where
  aligned slab hslab := by rw [List.mem_singleton.1 hslab]
  pos slab hslab := by
    rw [List.mem_singleton.1 hslab]
    decide
  le slab hslab := by
    rw [List.mem_singleton.1 hslab]
    decide
  apart := List.pairwise_singleton ..

theorem allocate_oneSlab (debug : Bool) (hp : Compiles p) :
    ∃ s, step p debug (oneSlab p) .allocate = some s ∧
      s.live = [pageSizeBytes + p.kStartOffset] ∧ s.slabs = [pageSizeBytes] ∧
      s.slabList = pageSizeBytes ∧ s.freeList = 0 ∧
      s.offset = (p.kStartOffset + p.kAlignedSize) % wordSize ∧
      ∀ i, pageSizeBytes + p.kStartOffset + p.kAlignedSize ≤ i →
        s.mem i = kUnallocatedMemoryPoison := by
  have hstart := hp.pointerSize_le_kStartOffset
  have haddress : (pageSizeBytes + p.kStartOffset) % wordSize = pageSizeBytes + p.kStartOffset :=
    Nat.mod_eq_of_lt hp.kStartOffset_add_lt
  cases hslab : allocateSlab debug (oneSlab p) (oneSlab p).slabList with
  | none => exact absurd hslab (by simp [allocateSlab, oneSlab, initial])
  | some new =>
    obtain ⟨slab, t⟩ := new
    obtain ⟨pages, mem, writes, hpages, rfl, hout, -, htail, -⟩ := allocateSlab_eq_some hslab
    obtain ⟨rfl, rfl⟩ := List.cons.inj hpages
    have hmem (i : ℕ) (hi : pageSizeBytes + p.kStartOffset ≤ i) :
        mem i = kUnallocatedMemoryPoison := by
      by_cases hlt : i < pageSizeBytes + kNewAllocatorNumBytesPerSlab
      · exact (htail i (by omega) hlt).trans (ite_self _)
      · exact hout i (Or.inr (Nat.le_of_not_lt hlt))
    have hfreeList : allocateFromFreeList debug (oneSlab p) = none := if_pos rfl
    have hfull : (oneSlab p).offset ≥ p.kEndOffset := Nat.le_refl _
    rw [step, allocate, hfreeList]
    dsimp only
    rw [slabForAllocation, if_pos hfull, hslab, Option.map_some, Option.bind_some]
    dsimp only
    rw [haddress, handOut_eq_some fun i _ hle _ ↦ Or.inl (hmem i hle)]
    refine ⟨_, rfl, rfl, State.poison_slabs, State.poison_slabList, State.poison_freeList,
      State.poison_offset, fun i hi ↦ ?_⟩
    dsimp only
    rw [State.poison_mem_of_apart (Or.inr hi)]
    exact hmem i (by omega)

theorem allocate_next (debug : Bool) (hfreeList : s.freeList = 0) (hlt : s.offset < p.kEndOffset)
    (haddress : s.slabList + s.offset < wordSize)
    (hmem : ∀ i, s.slabList + s.offset ≤ i → s.mem i = kUnallocatedMemoryPoison) :
    ∃ s', step p debug s .allocate = some s' ∧ s'.live = (s.slabList + s.offset) :: s.live := by
  have hnone : allocateFromFreeList debug s = none := if_pos hfreeList
  rw [step, allocate, hnone]
  dsimp only
  rw [slabForAllocation, if_neg (Nat.not_le_of_lt hlt), Option.bind_some,
    Nat.mod_eq_of_lt haddress]
  exact ⟨_, handOut_eq_some fun i _ hle _ ↦ Or.inl (hmem i hle), rfl⟩

theorem free_of_mem (p : Properties) (debug : Bool) {a : ℕ} (ha : a ∈ s.live) :
    ∃ s', step p debug s (.free a) = some s' ∧ ⟨a, pointerSize, s.live.erase a⟩ ∈ s'.writes := by
  rw [step, free, if_pos ha]
  refine ⟨_, rfl, List.mem_append_right _ ?_⟩
  rw [length_encode, State.poison_live]
  exact List.mem_singleton_self _

theorem run_small (debug : Bool) (hp : Compiles p) (hsmall : p.kAlignedSize < pointerSize) :
    ∃ s, run (step p debug) (oneSlab p)
      [.allocate, .allocate, .free (pageSizeBytes + p.kStartOffset)] = some s ∧ ¬Safe p s := by
  obtain ⟨s, hs, hlive, -, hslabList, hfreeList, hoffset, hmem⟩ :=
    allocate_oneSlab debug hp
  have hlt := hp.add_lt_kEndOffset hsmall
  have hendLe := hp.kEndOffset_le
  have hpage : pageSizeBytes = 4096 := rfl
  rw [numBytesPerSlab_eq] at hendLe
  rw [Nat.mod_eq_of_lt (by rw [wordSize_eq]; omega)] at hoffset
  have haddress : s.slabList + s.offset = pageSizeBytes + p.kStartOffset + p.kAlignedSize := by
    rw [hslabList, hoffset, Nat.add_assoc]
  obtain ⟨t, ht, htlive⟩ := allocate_next debug hfreeList (by rwa [hoffset])
    (by rw [haddress, wordSize_eq]; omega) (by rwa [haddress])
  rw [haddress, hlive] at htlive
  obtain ⟨u, hu, hwrite⟩ := free_of_mem p debug
    (a := pageSizeBytes + p.kStartOffset) (s := t) (by rw [htlive]; simp)
  refine ⟨u, ?_, fun hsafe ↦ ?_⟩
  · rw [run, List.foldlM_cons, hs, Option.bind_eq_bind, Option.bind_some, List.foldlM_cons, ht,
      Option.bind_eq_bind, Option.bind_some, List.foldlM_cons, hu]
    rfl
  · have hpos := hp.kAlignedSize_pos
    have hsize := hp.sizeOf_pos
    have hlink := (hsafe.writes _ hwrite).2 (pageSizeBytes + p.kStartOffset + p.kAlignedSize) (by
      rw [htlive, List.erase_cons_tail (by simpa using hpos.ne')]
      exact List.mem_cons_self)
    rw [Apart] at hlink
    dsimp only at hlink
    omega

theorem Fits.of_safe (hp : Compiles p)
    (hsafe : ∀ actions s, run (step p debug) (oneSlab p) actions = some s → Safe p s) :
    Fits p := by
  obtain ⟨s, hs, hlive, hslabs, -⟩ := allocate_oneSlab debug hp
  have hfirst := hsafe [.allocate] s (by rw [run, List.foldlM_cons, hs]; rfl)
  have hmem : pageSizeBytes + p.kStartOffset ∈ s.live := by
    rw [hlive]
    exact List.mem_singleton_self _
  have hdvd : p.kMinimumAlignment ∣ pageSizeBytes :=
    (Nat.dvd_add_left hp.dvd_kStartOffset).1 (hfirst.aligned _ hmem)
  refine ⟨?_, ?_, hdvd⟩
  · by_contra hsmall
    obtain ⟨u, hu, hunsafe⟩ := run_small debug hp (Nat.lt_of_not_le hsmall)
    exact hunsafe (hsafe _ u hu)
  · apply hp.kAlignedSize_le hdvd
    obtain ⟨slab, hslab, hle, hend⟩ := hfirst.within _ hmem
    rw [hslabs, List.mem_singleton] at hslab
    subst hslab
    omega

end Unfit

/-- The runs of an allocator are safe for the layouts that fit, and for no other. -/
theorem runs_safe_iff (hp : Compiles p) :
    (∀ mem pages, Pages pages → ∀ actions s,
      run (step p debug) (initial p mem pages) actions = some s → Safe p s) ↔ Fits p := by
  constructor
  · intro hsafe
    exact Fits.of_safe hp (hsafe _ _ pages_pageSizeBytes)
  · intro hf mem pages hpages actions s hs
    obtain ⟨free, hinv⟩ := run_inv hp hf hpages hs
    exact hinv.safe hp

def twoPointers : Properties :=
  ⟨16, 1, 8⟩

theorem compiles_twoPointers : Compiles twoPointers := by
  constructor <;> decide

theorem fits_twoPointers : Fits twoPointers := by
  constructor <;> decide

theorem runs_safe_iff_twoPointers :
    ((∀ mem pages, Pages pages → ∀ actions s,
      run (step twoPointers true) (initial twoPointers mem pages) actions = some s →
        Safe twoPointers s) ↔ Fits twoPointers) ∧ Fits twoPointers :=
  ⟨runs_safe_iff compiles_twoPointers, fits_twoPointers⟩

def oneByte : Properties :=
  ⟨1, 1, 1⟩

theorem compiles_oneByte : Compiles oneByte := by
  constructor <;> decide

/-- Two objects of a byte, at `4104` and at `4105`, of which the first is freed. -/
theorem run_not_safe : ∃ s, run (step oneByte true) (oneSlab oneByte)
    [.allocate, .allocate, .free 4104] = some s ∧ ¬Safe oneByte s :=
  run_small true compiles_oneByte (by decide)

end Granary.Base.SlabAllocator
