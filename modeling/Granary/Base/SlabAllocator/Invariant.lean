import Granary.Base.SlabAllocator.Layout

namespace Granary.Base.SlabAllocator

open Granary.Base.Bytes Granary.Base.Chain Granary.Base.Run

section Ranges

variable {a b m n m' n' offset : ℕ} {slabs slabs' : List ℕ}

theorem Apart.symm (h : Apart a m b n) : Apart b n a m :=
  Or.symm h

theorem Apart.mono (h : Apart a m b n) (hm : m' ≤ m) (hn : n' ≤ n) : Apart a m' b n' := by
  rw [Apart] at h ⊢
  omega

theorem Within.mono (h : Within slabs offset a m) (hsub : slabs ⊆ slabs') {offset' : ℕ}
    (hoffset : offset' ≤ offset) (hm : m' ≤ m) : Within slabs' offset' a m' := by
  obtain ⟨slab, hslab, hle, hend⟩ := h
  exact ⟨slab, hsub hslab, by omega, by omega⟩

theorem Pages.apart_of_ne {pages : List ℕ} (h : Pages pages) (ha : a ∈ pages) (hb : b ∈ pages)
    (hne : a ≠ b) : Apart a kNewAllocatorNumBytesPerSlab b kNewAllocatorNumBytesPerSlab := by
  have hsymm : Std.Symm fun slab slab' ↦
      Apart slab kNewAllocatorNumBytesPerSlab slab' kNewAllocatorNumBytesPerSlab :=
    ⟨fun _ _ ↦ Apart.symm⟩
  exact h.apart.forall ha hb hne

theorem Pages.perm {pages pages' : List ℕ} (h : Pages pages) (hperm : pages.Perm pages') :
    Pages pages' where
  aligned slab hslab := h.aligned slab (hperm.mem_iff.2 hslab)
  pos slab hslab := h.pos slab (hperm.mem_iff.2 hslab)
  le slab hslab := h.le slab (hperm.mem_iff.2 hslab)
  apart := (hperm.pairwise_iff fun h ↦ h.symm).1 h.apart

end Ranges

section Pointers

variable {mem mem' : ℕ → Byte} {a : ℕ}

def pointee (pointer : ℕ) : Option ℕ :=
  if pointer = 0 then none else some pointer

theorem pointee_of_pos {pointer : ℕ} (h : 0 < pointer) : pointee pointer = some pointer :=
  if_neg h.ne'

theorem pointee_eq_some {pointer : ℕ} (h : pointee pointer = some a) : pointer = a ∧ 0 < a := by
  rw [pointee] at h
  split_ifs at h with hzero
  have heq := Option.some_inj.1 h
  exact ⟨heq, by omega⟩

theorem pointee_eq_none {pointer : ℕ} (h : pointee pointer = none) : pointer = 0 := by
  rw [pointee] at h
  split_ifs at h with hzero
  exact hzero

def next (mem : ℕ → Byte) (address : ℕ) : Option ℕ :=
  pointee (readPointer mem address)

theorem next_congr (h : ∀ i, a ≤ i → i < a + pointerSize → mem' i = mem i) :
    next mem' a = next mem a := by
  rw [next, next, readPointer, readPointer, load_congr h]

theorem next_store {pointer : ℕ} (h : pointer < wordSize) :
    next (store mem a (encode pointerSize pointer)) a = pointee pointer := by
  have hload := load_store mem a (encode pointerSize pointer)
  rw [length_encode] at hload
  rw [next, readPointer, hload, decode_encode h]

end Pointers

section Writes

variable {debug : Bool} {s : State} {address n : ℕ} {byte : Byte} {bytes : List Byte}

namespace State

@[simp] theorem poison_offset : (s.poison debug address byte n).offset = s.offset := by
  cases debug <;> rfl

@[simp] theorem poison_slabList : (s.poison debug address byte n).slabList = s.slabList := by
  cases debug <;> rfl

@[simp] theorem poison_freeList : (s.poison debug address byte n).freeList = s.freeList := by
  cases debug <;> rfl

@[simp] theorem poison_pages : (s.poison debug address byte n).pages = s.pages := by
  cases debug <;> rfl

@[simp] theorem poison_slabs : (s.poison debug address byte n).slabs = s.slabs := by
  cases debug <;> rfl

@[simp] theorem poison_live : (s.poison debug address byte n).live = s.live := by
  cases debug <;> rfl

theorem poison_mem_of_apart {i : ℕ} (h : i < address ∨ address + n ≤ i) :
    (s.poison debug address byte n).mem i = s.mem i := by
  cases debug
  · rfl
  · exact store_of_apart (by rwa [List.length_replicate])

theorem poison_mem {i : ℕ} (hdebug : debug = true) (hle : address ≤ i) (hlt : i < address + n) :
    (s.poison debug address byte n).mem i = byte := by
  rw [poison, if_pos hdebug]
  exact store_replicate hle hlt

theorem mem_writes_write {w : Write} (h : w ∈ (s.write address bytes).writes) :
    w ∈ s.writes ∨ w = ⟨address, bytes.length, s.live⟩ := by
  obtain h | h := List.mem_append.1 h
  · exact Or.inl h
  · exact Or.inr (List.mem_singleton.1 h)

theorem mem_writes_poison {w : Write} (h : w ∈ (s.poison debug address byte n).writes) :
    w ∈ s.writes ∨ w = ⟨address, n, s.live⟩ := by
  cases debug
  · exact Or.inl h
  · have hwrite := mem_writes_write h
    rwa [List.length_replicate] at hwrite

end State

end Writes

section Invariant

variable {p : Properties} {debug : Bool} {free out : List ℕ} {s s' : State} {a : ℕ}

/-- The objects are in the free list or out of it, and what is not an object is as it should be: the
headers, the rest of the newest slab and, in a debug build, the poison. -/
structure Inv (p : Properties) (debug : Bool) (free out : List ℕ) (s : State) : Prop where
  freeChain : Path (next s.mem) (pointee s.freeList) free none
  slabChain : Path (next s.mem) (pointee s.slabList) s.slabs none
  pages : Pages (s.pages ++ s.slabs)
  apart : (free ++ out).Pairwise fun a b ↦ Apart a p.kAlignedSize b p.kAlignedSize
  aligned (a : ℕ) : a ∈ free ++ out → p.kMinimumAlignment ∣ a
  within (a : ℕ) : a ∈ free ++ out → Within s.slabs p.kStartOffset a p.kAlignedSize
  tail (a : ℕ) : a ∈ free ++ out → Apart a p.kAlignedSize (s.slabList + s.offset)
    (kNewAllocatorNumBytesPerSlab - s.offset)
  offset : ∃ k, s.offset = p.kStartOffset + k * p.kAlignedSize
  offset_le : s.offset ≤ kNewAllocatorNumBytesPerSlab
  slabs_ne_nil : s.offset < p.kEndOffset → s.slabs ≠ []
  writes (w : Write) : w ∈ s.writes → Within s.slabs 0 w.address w.length ∧
    ∀ a ∈ w.live, Apart w.address w.length a p.sizeOf
  freePoison (a i : ℕ) : debug = true → a ∈ free → a + pointerSize ≤ i → i < a + p.kAlignedSize →
    s.mem i = kDeallocatedMemoryPoison
  tailPoison (i : ℕ) : debug = true → s.slabs ≠ [] → s.slabList + s.offset ≤ i →
    i < s.slabList + kNewAllocatorNumBytesPerSlab → s.mem i = kUnallocatedMemoryPoison

def Footprint (p : Properties) (free : List ℕ) (s : State) (i : ℕ) : Prop :=
  (∃ a ∈ free, a ≤ i ∧ i < a + p.kAlignedSize) ∨
    (∃ slab ∈ s.slabs, slab ≤ i ∧ i < slab + pointerSize) ∨
    (s.slabList + s.offset ≤ i ∧ i < s.slabList + kNewAllocatorNumBytesPerSlab)

theorem Inv.congr (h : Inv p debug free out s) (hf : Fits p) {mem : ℕ → Byte}
    (hmem : ∀ i, Footprint p free s i → mem i = s.mem i) :
    Inv p debug free out { s with mem := mem } := by
  have hsize := hf.pointerSize_le
  refine { h with freeChain := ?_, slabChain := ?_, freePoison := ?_, tailPoison := ?_ }
  · refine path_congr (fun a ha ↦ next_congr fun i hle hlt ↦ ?_) h.freeChain
    exact hmem i (Or.inl ⟨a, ha, hle, by omega⟩)
  · refine path_congr (fun slab hslab ↦ next_congr fun i hle hlt ↦ ?_) h.slabChain
    exact hmem i (Or.inr (Or.inl ⟨slab, hslab, hle, hlt⟩))
  · intro a i hdebug ha hle hlt
    rw [← h.freePoison a i hdebug ha hle hlt]
    exact hmem i (Or.inl ⟨a, ha, by omega, hlt⟩)
  · intro i hdebug hne hle hlt
    rw [← h.tailPoison i hdebug hne hle hlt]
    exact hmem i (Or.inr (Or.inr ⟨hle, hlt⟩))

theorem Inv.apart_header (h : Inv p debug free out s) (hp : Compiles p) (ha : a ∈ free ++ out)
    {slab : ℕ} (hslab : slab ∈ s.slabs) : Apart a p.kAlignedSize slab pointerSize := by
  have hstart := hp.pointerSize_le_kStartOffset
  obtain ⟨slab', hslab', hle, hend⟩ := h.within a ha
  by_cases heq : slab' = slab
  · subst heq
    exact Or.inr (by omega)
  · have happart := h.pages.apart_of_ne (List.mem_append_right _ hslab')
      (List.mem_append_right _ hslab) heq
    have hpointer : pointerSize ≤ kNewAllocatorNumBytesPerSlab := by decide
    rw [Apart] at happart ⊢
    omega

theorem Inv.store (h : Inv p debug free out s) (hp : Compiles p) (hf : Fits p) (ha : a ∈ out)
    {i : ℕ} {bytes : List Byte} (hlen : i + bytes.length ≤ p.kAlignedSize) :
    Inv p debug free out { s with mem := store s.mem (a + i) bytes } := by
  have hmem : a ∈ free ++ out := List.mem_append_right _ ha
  apply h.congr hf
  intro j hj
  apply store_of_apart
  obtain ⟨b, hb, hle, hlt⟩ | ⟨slab, hslab, hle, hlt⟩ | ⟨hle, hlt⟩ := hj
  · have happart := (List.pairwise_append.1 h.apart).2.2 b hb a ha
    rw [Apart] at happart
    omega
  · have happart := h.apart_header hp hmem hslab
    rw [Apart] at happart
    omega
  · have happart := h.tail a hmem
    rw [Apart] at happart
    omega

/-- A write of the allocator to an object that is out of the free list and not live. -/
theorem Inv.write (h : Inv p debug free out s) (hp : Compiles p) (hf : Fits p) (ha : a ∈ out)
    {bytes : List Byte} (hlen : bytes.length ≤ p.kAlignedSize)
    (hlive : ∀ b ∈ s.live, Apart a p.kAlignedSize b p.kAlignedSize) :
    Inv p debug free out (s.write a bytes) := by
  have hstore := h.store hp hf ha (show 0 + bytes.length ≤ p.kAlignedSize by omega)
  refine { hstore with writes := ?_ }
  intro w hw
  obtain hw | rfl := State.mem_writes_write hw
  · exact h.writes w hw
  · exact ⟨(h.within a (List.mem_append_right _ ha)).mono (List.Subset.refl _) (Nat.zero_le _) hlen,
      fun b hb ↦ (hlive b hb).mono hlen hp.sizeOf_le⟩

theorem Inv.poison (h : Inv p debug free out s) (hp : Compiles p) (hf : Fits p) (ha : a ∈ out)
    (byte : Byte) {n : ℕ} (hlen : n ≤ p.kAlignedSize)
    (hlive : ∀ b ∈ s.live, Apart a p.kAlignedSize b p.kAlignedSize) :
    Inv p debug free out (s.poison debug a byte n) := by
  rw [State.poison]
  split_ifs
  · exact h.write hp hf ha (by rwa [List.length_replicate]) hlive
  · exact h

end Invariant

end Granary.Base.SlabAllocator
