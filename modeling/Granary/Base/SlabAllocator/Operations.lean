import Granary.Base.SlabAllocator.Invariant

namespace Granary.Base.SlabAllocator

open Granary.Base.Bytes Granary.Base.Chain

variable {p : Properties} {debug : Bool} {free out : List ℕ} {s s' : State} {a : ℕ}

theorem Inv.perm (h : Inv p debug free out s) {out' : List ℕ} (hperm : out.Perm out') :
    Inv p debug free out' s := by
  have hobjects : (free ++ out).Perm (free ++ out') := hperm.append_left free
  refine { h with apart := ?_, aligned := ?_, within := ?_, tail := ?_ }
  · exact (hobjects.pairwise_iff fun h ↦ h.symm).1 h.apart
  · exact fun b hb ↦ h.aligned b (hobjects.mem_iff.2 hb)
  · exact fun b hb ↦ h.within b (hobjects.mem_iff.2 hb)
  · exact fun b hb ↦ h.tail b (hobjects.mem_iff.2 hb)

theorem Inv.apart_of_mem (h : Inv p debug free (a :: out) s) :
    ∀ b ∈ out, Apart a p.kAlignedSize b p.kAlignedSize :=
  (List.pairwise_cons.1 (List.pairwise_append.1 h.apart).2.1).1

theorem Inv.slabList_mem (h : Inv p debug free out s) (hne : s.slabs ≠ []) :
    s.slabList ∈ s.slabs := by
  have hchain := h.slabChain
  cases hslabs : s.slabs with
  | nil => exact absurd hslabs hne
  | cons slab slabs =>
    rw [hslabs] at hchain
    rw [(pointee_eq_some hchain.1).1]
    exact List.mem_cons_self

theorem Inv.freeList_lt (h : Inv p debug free out s) (hp : Compiles p) :
    s.freeList < wordSize := by
  have hchain := h.freeChain
  have hpos := hp.kAlignedSize_pos
  cases free with
  | nil =>
    rw [pointee_eq_none hchain]
    decide
  | cons b free =>
    obtain ⟨slab, hslab, hle, hend⟩ := h.within b List.mem_cons_self
    have hslabEnd := h.pages.le slab (List.mem_append_right _ hslab)
    rw [(pointee_eq_some hchain.1).1]
    omega

theorem Inv.pos (h : Inv p debug free out s) (ha : a ∈ free ++ out) : 0 < a := by
  obtain ⟨slab, hslab, hle, hend⟩ := h.within a ha
  have hpos := h.pages.pos slab (List.mem_append_right _ hslab)
  omega

theorem Inv.room (h : Inv p debug free out s) (hp : Compiles p) (hf : Fits p)
    (hlt : s.offset < p.kEndOffset) :
    s.offset + p.kAlignedSize ≤ kNewAllocatorNumBytesPerSlab := by
  obtain ⟨k, hk⟩ := h.offset
  obtain ⟨-, hend⟩ := kEndOffset_eq hf.room
  have hendLe := hp.kEndOffset_le
  have hnum : k < p.kNumObjsPerSlab := by
    apply Nat.lt_of_mul_lt_mul_right (a := p.kAlignedSize)
    omega
  have hnext := Nat.mul_le_mul_right p.kAlignedSize (Nat.succ_le_of_lt hnum)
  rw [Nat.succ_mul] at hnext
  omega

theorem Inv.carve (h : Inv p debug free out s) (hp : Compiles p) (hf : Fits p)
    (hne : s.slabs ≠ []) (hroom : s.offset + p.kAlignedSize ≤ kNewAllocatorNumBytesPerSlab) :
    (s.slabList + s.offset) % wordSize = s.slabList + s.offset ∧
      Inv p debug free ((s.slabList + s.offset) :: out)
        { s with offset := (s.offset + p.kAlignedSize) % wordSize } := by
  have hslab := h.slabList_mem hne
  have hslabEnd := h.pages.le _ (List.mem_append_right _ hslab)
  have hpos := hp.kAlignedSize_pos
  have hwrap : (s.offset + p.kAlignedSize) % wordSize = s.offset + p.kAlignedSize :=
    Nat.mod_eq_of_lt (by rw [numBytesPerSlab_eq] at hroom; rw [wordSize_eq]; omega)
  obtain ⟨k, hk⟩ := h.offset
  have hmem {b : ℕ} (hb : b ∈ free ++ (s.slabList + s.offset) :: out) :
      b = s.slabList + s.offset ∨ b ∈ free ++ out :=
    List.mem_cons.1 (List.perm_middle.mem_iff.1 hb)
  refine ⟨Nat.mod_eq_of_lt (by omega), ?_⟩
  rw [hwrap]
  refine { h with
    apart := ?_, aligned := ?_, within := ?_, tail := ?_, offset := ?_, offset_le := ?_,
    slabs_ne_nil := ?_, tailPoison := ?_ }
  · rw [List.perm_middle.pairwise_iff fun h ↦ Apart.symm h]
    refine List.pairwise_cons.2 ⟨fun b hb ↦ ?_, h.apart⟩
    exact (h.tail b hb).symm.mono (by omega) (Nat.le_refl _)
  · intro b hb
    obtain rfl | hb := hmem hb
    · rw [hk]
      have hpage := h.pages.aligned _ (List.mem_append_right _ hslab)
      exact (hf.dvd.trans hpage).add (hp.dvd_kStartOffset.add (hp.dvd_kAlignedSize.mul_left k))
    · exact h.aligned b hb
  · intro b hb
    obtain rfl | hb := hmem hb
    · exact ⟨s.slabList, hslab, by omega, by omega⟩
    · exact h.within b hb
  · intro b hb
    obtain rfl | hb := hmem hb
    · exact Or.inl (Nat.le_of_eq (Nat.add_assoc ..))
    · have happart := h.tail b hb
      rw [Apart] at happart ⊢
      dsimp only
      omega
  · refine ⟨k + 1, ?_⟩
    dsimp only
    rw [hk, Nat.succ_mul, Nat.add_assoc]
  · exact hroom
  · exact fun _ ↦ hne
  · intro i hdebug hne hle hi
    have hle' : s.slabList + s.offset ≤ i := le_trans (by dsimp only; omega) hle
    exact h.tailPoison i hdebug hne hle' hi

theorem Inv.pop (h : Inv p debug (a :: free) out s) :
    s.freeList = a ∧ Inv p debug free (a :: out) { s with freeList := readPointer s.mem a } := by
  obtain ⟨hhead, hchain⟩ := h.freeChain
  have hperm : (a :: free ++ out).Perm (free ++ a :: out) := List.perm_middle.symm
  refine ⟨(pointee_eq_some hhead).1, { h with
    freeChain := hchain, apart := ?_, aligned := ?_, within := ?_, tail := ?_, freePoison := ?_ }⟩
  · exact (hperm.pairwise_iff fun h ↦ Apart.symm h).1 h.apart
  · exact fun b hb ↦ h.aligned b (hperm.mem_iff.2 hb)
  · exact fun b hb ↦ h.within b (hperm.mem_iff.2 hb)
  · exact fun b hb ↦ h.tail b (hperm.mem_iff.2 hb)
  · exact fun b i hdebug hb ↦ h.freePoison b i hdebug (List.mem_cons_of_mem a hb)

theorem Inv.push (h : Inv p debug free (a :: out) s) (hnext : next s.mem a = pointee s.freeList)
    (hpoison : ∀ i, debug = true → a + pointerSize ≤ i → i < a + p.kAlignedSize →
      s.mem i = kDeallocatedMemoryPoison) :
    Inv p debug (a :: free) out { s with freeList := a } := by
  have hperm : (free ++ a :: out).Perm (a :: free ++ out) := List.perm_middle
  have ha : a ∈ free ++ a :: out := List.mem_append_right _ List.mem_cons_self
  refine { h with
    freeChain := ?_, apart := ?_, aligned := ?_, within := ?_, tail := ?_, freePoison := ?_ }
  · refine ⟨pointee_of_pos (h.pos ha), ?_⟩
    rw [hnext]
    exact h.freeChain
  · exact (hperm.pairwise_iff fun h ↦ Apart.symm h).1 h.apart
  · exact fun b hb ↦ h.aligned b (hperm.mem_iff.2 hb)
  · exact fun b hb ↦ h.within b (hperm.mem_iff.2 hb)
  · exact fun b hb ↦ h.tail b (hperm.mem_iff.2 hb)
  · intro b i hdebug hb hle hlt
    obtain rfl | hb := List.mem_cons.1 hb
    · exact hpoison i hdebug hle hlt
    · exact h.freePoison b i hdebug hb hle hlt

theorem Pages.apart_of_within {slab m offset : ℕ} {pages slabs : List ℕ}
    (h : Pages (slab :: (pages ++ slabs))) (ha : Within slabs offset a m) :
    Apart a m slab kNewAllocatorNumBytesPerSlab := by
  obtain ⟨slab', hslab', hle, hend⟩ := ha
  have happart := (List.pairwise_cons.1 h.apart).1 slab' (List.mem_append_right _ hslab')
  rw [Apart] at happart ⊢
  omega

theorem Inv.slabList_lt (h : Inv p debug free out s) : s.slabList < wordSize := by
  by_cases hne : s.slabs = []
  · have hchain := h.slabChain
    rw [hne] at hchain
    rw [pointee_eq_none hchain]
    decide
  · have hend := h.pages.le _ (List.mem_append_right _ (h.slabList_mem hne))
    rw [numBytesPerSlab_eq] at hend
    omega

theorem allocateSlab_eq_some {nextSlab slab : ℕ}
    (hs : allocateSlab debug s nextSlab = some (slab, s')) :
    ∃ pages mem writes, s.pages = slab :: pages ∧
      s' = { s with mem := mem, writes := writes, pages := pages, slabs := slab :: s.slabs } ∧
      (∀ i, i < slab ∨ slab + kNewAllocatorNumBytesPerSlab ≤ i → mem i = s.mem i) ∧
      (nextSlab < wordSize → next mem slab = pointee nextSlab) ∧
      (∀ i, slab + pointerSize ≤ i → i < slab + kNewAllocatorNumBytesPerSlab →
        mem i = if debug then kUnallocatedMemoryPoison else s.mem i) ∧
      ∀ w ∈ writes, w ∈ s.writes ∨
        ∃ n, n ≤ kNewAllocatorNumBytesPerSlab ∧ w = ⟨slab, n, s.live⟩ := by
  rw [allocateSlab] at hs
  split at hs
  · exact absurd hs (by simp)
  rename_i slab' pages hpages
  obtain ⟨rfl, rfl⟩ := Prod.mk.inj (Option.some_inj.1 hs)
  set s₁ : State := { s with pages := pages, slabs := slab' :: s.slabs }
  set s₂ := s₁.poison debug slab' kUnallocatedMemoryPoison kNewAllocatorNumBytesPerSlab with hs₂
  have hpointer : pointerSize ≤ kNewAllocatorNumBytesPerSlab := by decide
  have hlink (i : ℕ) (hi : i < slab' ∨ slab' + pointerSize ≤ i) :
      (s₂.writePointer slab' nextSlab).mem i = s₂.mem i :=
    store_of_apart (by rwa [length_encode])
  refine ⟨pages, (s₂.writePointer slab' nextSlab).mem, (s₂.writePointer slab' nextSlab).writes,
    hpages, ?_, fun i hi ↦ ?_, next_store, fun i hle hlt ↦ ?_, fun w hw ↦ ?_⟩
  · cases debug <;> rfl
  · rw [hlink i (by omega), hs₂, State.poison_mem_of_apart hi]
  · rw [hlink i (by omega)]
    cases debug
    · rfl
    · exact State.poison_mem rfl (by omega) hlt
  · obtain hw | rfl := State.mem_writes_write hw
    · obtain hw | rfl := State.mem_writes_poison hw
      · exact Or.inl hw
      · exact Or.inr ⟨_, Nat.le_refl _, rfl⟩
    · rw [length_encode, State.poison_live]
      exact Or.inr ⟨_, hpointer, rfl⟩

theorem Inv.newSlab (h : Inv p debug free s.live s) (hp : Compiles p) (hf : Fits p) {slab : ℕ}
    (hs : allocateSlab debug s s.slabList = some (slab, s')) :
    Inv p debug free s'.live { s' with slabList := slab, offset := p.kStartOffset } ∧
      s'.slabs ≠ [] := by
  have hstart := hp.pointerSize_le_kStartOffset
  have hroom := hf.le
  have hsize := hf.pointerSize_le
  obtain ⟨pages, mem, writes, hpages, rfl, hout, hnext, htail, hwrites⟩ := allocateSlab_eq_some hs
  have hall : Pages (slab :: (pages ++ s.slabs)) := by
    rw [← List.cons_append, ← hpages]
    exact h.pages
  have hwithin {o m b i : ℕ} (hb : Within s.slabs o b m) (hle : b ≤ i) (hlt : i < b + m) :
      mem i = s.mem i := by
    have happart := hall.apart_of_within hb
    rw [Apart] at happart
    exact hout i (by omega)
  refine ⟨{ h with
    freeChain := ?_, slabChain := ?_, pages := ?_, within := ?_, tail := ?_, offset := ?_,
    offset_le := ?_, slabs_ne_nil := ?_, writes := ?_, freePoison := ?_, tailPoison := ?_ },
    List.cons_ne_nil slab s.slabs⟩
  · refine path_congr (fun b hb ↦ next_congr fun i hle hlt ↦ ?_) h.freeChain
    exact hwithin (h.within b (List.mem_append_left _ hb)) hle (by omega)
  · refine ⟨pointee_of_pos (hall.pos slab List.mem_cons_self), ?_⟩
    dsimp only
    rw [hnext h.slabList_lt]
    refine path_congr (fun b hb ↦ next_congr fun i hle hlt ↦ ?_) h.slabChain
    have hheader : Within s.slabs 0 b pointerSize :=
      ⟨b, hb, Nat.le_refl _, Nat.add_le_add_left (by decide) b⟩
    exact hwithin hheader hle hlt
  · exact hall.perm List.perm_middle.symm
  · intro b hb
    exact (h.within b hb).mono (List.subset_cons_self ..) (Nat.le_refl _) (Nat.le_refl _)
  · intro b hb
    have happart := hall.apart_of_within (h.within b hb)
    rw [Apart] at happart ⊢
    dsimp only
    omega
  · exact ⟨0, by rw [Nat.zero_mul]; rfl⟩
  · exact (Nat.le_add_right ..).trans hroom
  · exact fun _ ↦ List.cons_ne_nil slab s.slabs
  · intro w hw
    obtain hw | ⟨n, hn, rfl⟩ := hwrites w hw
    · obtain ⟨hold, hlive⟩ := h.writes w hw
      exact ⟨hold.mono (List.subset_cons_self ..) (Nat.le_refl _) (Nat.le_refl _), hlive⟩
    · refine ⟨⟨slab, List.mem_cons_self, Nat.le_refl _, Nat.add_le_add_left hn slab⟩,
        fun b hb ↦ ?_⟩
      have happart := hall.apart_of_within (h.within b (List.mem_append_right _ hb))
      exact happart.symm.mono hn hp.sizeOf_le
  · intro b i hdebug hb hle hlt
    rw [← h.freePoison b i hdebug hb hle hlt]
    exact hwithin (h.within b (List.mem_append_left _ hb)) (by omega) hlt
  · intro i hdebug _ hle hlt
    exact (htail i ((Nat.add_le_add_left hstart slab).trans hle) hlt).trans (if_pos hdebug)

theorem memoryNotInUse_eq_true {mem : ℕ → Byte} {n : ℕ}
    (h : ∀ i, a ≤ i → i < a + n →
      mem i = kUnallocatedMemoryPoison ∨ mem i = kDeallocatedMemoryPoison) :
    memoryNotInUse mem a n = true := by
  rw [memoryNotInUse, List.all_eq_true]
  intro byte hbyte
  obtain ⟨i, hi, rfl⟩ := List.mem_map.1 hbyte
  have hlt := List.mem_range.1 hi
  exact decide_eq_true (h (a + i) (by omega) (by omega))

theorem handOut_eq_some (hunused : ∀ i, debug = true → a ≤ i → i < a + p.kAlignedSize →
      s.mem i = kUnallocatedMemoryPoison ∨ s.mem i = kDeallocatedMemoryPoison) :
    handOut p debug s a = some
      { s.poison debug a kUninitializedMemoryPoison p.kAlignedSize with live := a :: s.live } := by
  have hassert : ¬(debug = true ∧ memoryNotInUse s.mem a p.kAlignedSize = false) := by
    intro ⟨hdebug, hinUse⟩
    have hnotInUse := memoryNotInUse_eq_true fun i ↦ hunused i hdebug
    rw [hinUse] at hnotInUse
    exact Bool.false_ne_true hnotInUse
  rw [handOut, if_neg hassert]
  dsimp only
  rw [State.poison_live]

theorem handOut_spec (h : Inv p debug free (a :: out) s) (hlive : s.live = out)
    (hp : Compiles p) (hf : Fits p)
    (hunused : ∀ i, debug = true → a ≤ i → i < a + p.kAlignedSize →
      s.mem i = kUnallocatedMemoryPoison ∨ s.mem i = kDeallocatedMemoryPoison) :
    ∃ s', handOut p debug s a = some s' ∧ Inv p debug free s'.live s' := by
  subst hlive
  have hpoison := h.poison hp hf List.mem_cons_self kUninitializedMemoryPoison
    (Nat.le_refl _) h.apart_of_mem
  exact ⟨_, handOut_eq_some hunused, { hpoison with }⟩

theorem slabForAllocation_spec (h : Inv p debug free s.live s) (hp : Compiles p) (hf : Fits p)
    (hs : slabForAllocation p debug s = some s') :
    Inv p debug free s'.live s' ∧ s'.slabs ≠ [] ∧
      s'.offset + p.kAlignedSize ≤ kNewAllocatorNumBytesPerSlab := by
  rw [slabForAllocation] at hs
  split_ifs at hs with hfull
  · obtain ⟨⟨slab, t⟩, ht, rfl⟩ := Option.map_eq_some_iff.1 hs
    obtain ⟨hnew, hne⟩ := h.newSlab hp hf ht
    exact ⟨hnew, hne, hf.le⟩
  · obtain rfl := Option.some_inj.1 hs
    have hlt := Nat.lt_of_not_le hfull
    exact ⟨h, h.slabs_ne_nil hlt, h.room hp hf hlt⟩

theorem slabForAllocation_eq_none (h : slabForAllocation p debug s = none) : s.pages = [] := by
  rw [slabForAllocation] at h
  split_ifs at h
  rw [Option.map_eq_none_iff, allocateSlab] at h
  split at h
  · assumption
  · exact absurd h (by simp)

theorem allocate_spec (h : Inv p debug free s.live s) (hp : Compiles p) (hf : Fits p) :
    allocate p debug s = none ∧ s.pages = [] ∨
      ∃ s' free', allocate p debug s = some s' ∧ Inv p debug free' s'.live s' := by
  cases free with
  | nil =>
    have hfreeList : s.freeList = 0 := pointee_eq_none h.freeChain
    rw [allocate, allocateFromFreeList, if_pos hfreeList]
    dsimp only
    cases hslab : slabForAllocation p debug s with
    | none => exact Or.inl ⟨rfl, slabForAllocation_eq_none hslab⟩
    | some t =>
      obtain ⟨ht, hne, hroom⟩ := slabForAllocation_spec h hp hf hslab
      obtain ⟨haddress, hcarve⟩ := ht.carve hp hf hne hroom
      obtain ⟨s', hs', hinv⟩ := handOut_spec hcarve rfl hp hf
        fun i hdebug hle hi ↦ Or.inl (ht.tailPoison i hdebug hne hle (by omega))
      rw [Option.bind_some, haddress]
      exact Or.inr ⟨s', [], hs', hinv⟩
  | cons a free =>
    obtain ⟨hhead, hpop⟩ := h.pop
    have hpos := h.pos (List.mem_append_left _ List.mem_cons_self)
    have hpoison := hpop.poison hp hf List.mem_cons_self kDeallocatedMemoryPoison
      hf.pointerSize_le hpop.apart_of_mem
    obtain ⟨s', hs', hinv⟩ := handOut_spec hpoison State.poison_live hp hf fun i hdebug hle hi ↦ by
      right
      by_cases hlink : i < a + pointerSize
      · exact State.poison_mem hdebug hle hlink
      · rw [State.poison_mem_of_apart (Or.inr (Nat.le_of_not_lt hlink))]
        exact h.freePoison a i hdebug List.mem_cons_self (Nat.le_of_not_lt hlink) hi
    rw [allocate, allocateFromFreeList, if_neg (by omega), hhead]
    exact Or.inr ⟨s', free, hs', hinv⟩

theorem free_spec (h : Inv p debug free s.live s) (hp : Compiles p) (hf : Fits p)
    (hs : SlabAllocator.free p debug s a = some s') : ∃ free', Inv p debug free' s'.live s' := by
  rw [SlabAllocator.free] at hs
  split_ifs at hs with ha
  obtain rfl := Option.some_inj.1 hs
  have hout : Inv p debug free (a :: s.live.erase a) { s with live := s.live.erase a } :=
    { h.perm (List.perm_cons_erase ha) with }
  have hpoison := hout.poison hp hf List.mem_cons_self kDeallocatedMemoryPoison
    (Nat.le_refl _) hout.apart_of_mem
  set t := State.poison debug { s with live := s.live.erase a } a kDeallocatedMemoryPoison
    p.kAlignedSize with ht
  have hlive : t.live = s.live.erase a := State.poison_live
  have hlength : (encode pointerSize t.freeList).length ≤ p.kAlignedSize := by
    rw [length_encode]
    exact hf.pointerSize_le
  have hlink := hpoison.write hp hf List.mem_cons_self hlength
    (by rw [hlive]; exact hpoison.apart_of_mem)
  have hpush := hlink.push (next_store (hpoison.freeList_lt hp)) fun i hdebug hle hlt ↦ by
    have hlinkMem : (t.write a (encode pointerSize t.freeList)).mem i = t.mem i :=
      store_of_ge (by rwa [length_encode])
    rw [hlinkMem, ht]
    exact State.poison_mem hdebug (by omega) hlt
  refine ⟨a :: free, ?_⟩
  rw [← hlive] at hpush
  exact hpush

theorem fill_spec (h : Inv p debug free s.live s) (hp : Compiles p) (hf : Fits p) {i : ℕ}
    {bytes : List Byte} (hs : fill p s a i bytes = some s') : Inv p debug free s'.live s' := by
  rw [fill] at hs
  split_ifs at hs with hfill
  obtain rfl := Option.some_inj.1 hs
  exact h.store hp hf hfill.1 (hfill.2.trans hp.sizeOf_le)

end Granary.Base.SlabAllocator
