import Granary.Base.SlabAllocator.Safety

namespace Granary.Base.SlabAllocator

open Granary.Base.Chain Granary.Base.Run

inductive Event where
  | read (slab : ℕ)
  | freeDataPages (address num : ℕ)
  deriving DecidableEq, Repr

/-- The loop of the destructor from a slab on, cut off after `fuel` turns. -/
def destroyFrom (s : State) : (fuel slab : ℕ) → Option (List Event)
  | 0, slab => if slab = 0 then some [] else none
  | fuel + 1, slab =>
    if slab = 0 then some []
    else
      let nextSlab := readPointer s.mem slab
      let slabAddr := s.slabList
      (destroyFrom s fuel nextSlab).map fun events ↦
        .read slab :: .freeDataPages slabAddr kNewAllocatorNumPagesPerSlab :: events

def destroy (s : State) (fuel : ℕ) : Option (State × List Event) :=
  (destroyFrom s fuel s.slabList).map fun events ↦
    ({ s with slabList := 0, freeList := 0 }, events)

def Event.freed : Event → Option (ℕ × ℕ)
  | .read _ => none
  | .freeDataPages address num => some (address, num)

/-- The slabs are freed, each once, and none is read after that. -/
structure Returned (slabs : List ℕ) (events : List Event) : Prop where
  freed : (events.filterMap Event.freed).Perm
    (slabs.map fun slab ↦ (slab, kNewAllocatorNumPagesPerSlab))
  notRead : events.Pairwise fun e e' ↦ ∀ address num slab, e = .freeDataPages address num →
    e' = .read slab → Apart address (num * pageSizeBytes) slab pointerSize

def DestroysOnce (s : State) : Prop :=
  ∃ fuel s' events, destroy s fuel = some (s', events) ∧ Returned s.slabs events

section Destroy

variable {p : Properties} {debug : Bool} {mem : ℕ → Byte} {pages slabs : List ℕ} {s s' : State}
  {slab fuel : ℕ} {events : List Event}

theorem destroyFrom_of_path (h : Path (next s.mem) (pointee slab) slabs none) :
    destroyFrom s slabs.length slab = some (slabs.flatMap fun slab ↦
      [.read slab, .freeDataPages s.slabList kNewAllocatorNumPagesPerSlab]) := by
  induction slabs generalizing slab with
  | nil => rw [List.length_nil, destroyFrom, if_pos (pointee_eq_none h), List.flatMap_nil]
  | cons b slabs ih =>
    obtain ⟨hb, hpath⟩ := h
    obtain ⟨rfl, hpos⟩ := pointee_eq_some hb
    rw [List.length_cons, destroyFrom, if_neg hpos.ne']
    dsimp only
    rw [ih hpath, Option.map_some, List.flatMap_cons]
    rfl

theorem destroy_of_path (h : Path (next s.mem) (pointee s.slabList) slabs none) :
    destroy s slabs.length = some ({ s with slabList := 0, freeList := 0 }, slabs.flatMap fun slab ↦
      [.read slab, .freeDataPages s.slabList kNewAllocatorNumPagesPerSlab]) := by
  rw [destroy, destroyFrom_of_path h]
  rfl

theorem freed_destroyFrom (h : destroyFrom s fuel slab = some events) :
    ∀ range ∈ events.filterMap Event.freed,
      range = (s.slabList, kNewAllocatorNumPagesPerSlab) := by
  induction fuel generalizing slab events with
  | zero =>
    rw [destroyFrom] at h
    split_ifs at h
    obtain rfl := Option.some_inj.1 h
    exact fun range hrange ↦ absurd hrange List.not_mem_nil
  | succ fuel ih =>
    rw [destroyFrom] at h
    split_ifs at h
    · obtain rfl := Option.some_inj.1 h
      exact fun range hrange ↦ absurd hrange List.not_mem_nil
    · obtain ⟨rest, hrest, rfl⟩ := Option.map_eq_some_iff.1 h
      intro range hrange
      obtain rfl | hrange := List.mem_cons.1 hrange
      · rfl
      · exact ih hrest range hrange

theorem destroyFrom_of_ne (h : destroyFrom s fuel slab = some events) (hne : slab ≠ 0) :
    ∃ n rest, destroyFrom s n (readPointer s.mem slab) = some rest ∧
      events = .read slab :: .freeDataPages s.slabList kNewAllocatorNumPagesPerSlab :: rest := by
  cases fuel with
  | zero =>
    rw [destroyFrom, if_neg hne] at h
    exact absurd h (by simp)
  | succ n =>
    rw [destroyFrom, if_neg hne] at h
    obtain ⟨rest, hrest, rfl⟩ := Option.map_eq_some_iff.1 h
    exact ⟨n, rest, hrest, rfl⟩

theorem Inv.readPointer_last {free out : List ℕ} (h : Inv p debug free out s)
    (hlength : s.slabs.length ≤ 1) : ∀ slab ∈ s.slabs, readPointer s.mem slab = 0 := by
  have hchain := h.slabChain
  intro slab hslab
  have hpos := List.length_pos_of_mem hslab
  obtain ⟨b, hb⟩ := List.length_eq_one_iff.1 (by omega : s.slabs.length = 1)
  rw [hb] at hchain hslab
  rw [List.mem_singleton.1 hslab]
  exact pointee_eq_none hchain.2

/-- The list of slabs starts with the last one that was allocated, whatever the layout. -/
structure SlabsInv (s : State) : Prop where
  slabList : s.slabList = s.slabs.headD 0
  pages : Pages (s.pages ++ s.slabs)

theorem SlabsInv.congr (h : SlabsInv s) (hslabList : s'.slabList = s.slabList)
    (hpages : s'.pages = s.pages) (hslabs : s'.slabs = s.slabs) : SlabsInv s' where
  slabList := by rw [hslabList, hslabs, h.slabList]
  pages := by
    rw [hpages, hslabs]
    exact h.pages

theorem SlabsInv.slabForAllocation (h : SlabsInv s)
    (hs : slabForAllocation p debug s = some s') : SlabsInv s' := by
  rw [SlabAllocator.slabForAllocation] at hs
  split_ifs at hs
  · obtain ⟨⟨slab, t⟩, ht, rfl⟩ := Option.map_eq_some_iff.1 hs
    obtain ⟨pages, mem, writes, hpages, rfl, -⟩ := allocateSlab_eq_some ht
    refine ⟨rfl, Pages.perm ?_ List.perm_middle.symm⟩
    rw [← List.cons_append, ← hpages]
    exact h.pages
  · exact Option.some_inj.1 hs ▸ h

theorem SlabsInv.handOut (h : SlabsInv s) {a : ℕ} (hs : handOut p debug s a = some s') :
    SlabsInv s' := by
  rw [SlabAllocator.handOut] at hs
  split_ifs at hs
  obtain rfl := Option.some_inj.1 hs
  exact h.congr State.poison_slabList State.poison_pages State.poison_slabs

theorem SlabsInv.allocateFromFreeList (h : SlabsInv s) {a : ℕ}
    (hs : allocateFromFreeList debug s = some (a, s')) : SlabsInv s' := by
  rw [SlabAllocator.allocateFromFreeList] at hs
  split_ifs at hs
  obtain ⟨rfl, rfl⟩ := Prod.mk.inj (Option.some_inj.1 hs)
  exact h.congr State.poison_slabList State.poison_pages State.poison_slabs

theorem SlabsInv.allocate (h : SlabsInv s) (hs : allocate p debug s = some s') :
    SlabsInv s' := by
  rw [SlabAllocator.allocate] at hs
  split at hs
  · exact (h.allocateFromFreeList (by assumption)).handOut hs
  · obtain ⟨t, ht, hs⟩ := Option.bind_eq_some_iff.1 hs
    have hoffset : SlabsInv { t with offset := (t.offset + p.kAlignedSize) % wordSize } :=
      (h.slabForAllocation ht).congr rfl rfl rfl
    exact hoffset.handOut hs

theorem SlabsInv.step (h : SlabsInv s) {action : Action}
    (hs : step p debug s action = some s') : SlabsInv s' := by
  cases action with
  | allocate => exact h.allocate hs
  | free address =>
    rw [SlabAllocator.step, free] at hs
    split_ifs at hs
    obtain rfl := Option.some_inj.1 hs
    exact h.congr State.poison_slabList State.poison_pages State.poison_slabs
  | fill address i bytes =>
    rw [SlabAllocator.step, fill] at hs
    split_ifs at hs
    obtain rfl := Option.some_inj.1 hs
    exact h.congr rfl rfl rfl

theorem run_slabsInv (hpages : Pages pages) {actions : List Action}
    (h : run (step p debug) (initial p mem pages) actions = some s) : SlabsInv s := by
  refine run_invariant (fun _ _ _ hI hs ↦ hI.step hs) ⟨rfl, ?_⟩ h
  rw [initial, List.append_nil]
  exact hpages

theorem SlabsInv.nodup (h : SlabsInv s) : s.slabs.Nodup := by
  refine (List.pairwise_append.1 h.pages.apart).2.1.imp fun happart heq ↦ ?_
  rw [heq, Apart, numBytesPerSlab_eq] at happart
  omega

theorem SlabsInv.destroysOnce (h : SlabsInv s) (hlength : s.slabs.length ≤ 1)
    (hnull : ∀ slab ∈ s.slabs, readPointer s.mem slab = 0) : DestroysOnce s := by
  have hhead := h.slabList
  cases hslabs : s.slabs with
  | nil =>
    rw [hslabs] at hhead
    have hpath : Path (next s.mem) (pointee s.slabList) [] none := by
      rw [hhead]
      rfl
    refine ⟨_, _, _, destroy_of_path hpath, ?_⟩
    rw [hslabs]
    exact ⟨List.Perm.refl _, List.Pairwise.nil⟩
  | cons b slabs =>
    rw [hslabs] at hhead hlength hnull
    rw [List.length_cons] at hlength
    obtain rfl := List.eq_nil_of_length_eq_zero (Nat.le_zero.1 (Nat.le_of_succ_le_succ hlength))
    have hpos := h.pages.pos b (by simp [hslabs])
    have hpath : Path (next s.mem) (pointee s.slabList) [b] none := by
      rw [hhead]
      refine ⟨pointee_of_pos hpos, ?_⟩
      rw [next, hnull b List.mem_cons_self]
      rfl
    refine ⟨_, _, _, destroy_of_path hpath, ?_⟩
    rw [hslabs, hhead]
    refine ⟨List.Perm.refl _, ?_⟩
    simp

theorem SlabsInv.of_destroysOnce (h : SlabsInv s) (hdestroys : DestroysOnce s) :
    s.slabs.length ≤ 1 ∧ ∀ slab ∈ s.slabs, readPointer s.mem slab = 0 := by
  obtain ⟨fuel, t, events, hdestroy, hreturned⟩ := hdestroys
  obtain ⟨events, hevents, heq⟩ := Option.map_eq_some_iff.1 hdestroy
  obtain ⟨-, rfl⟩ := Prod.mk.inj heq
  have hhead := h.slabList
  have hpages := h.pages
  have hnodup := h.nodup
  have hfreed := hreturned.freed
  cases hslabs : s.slabs with
  | nil => exact ⟨Nat.zero_le 1, fun slab hslab ↦ absurd hslab List.not_mem_nil⟩
  | cons b slabs =>
    rw [hslabs] at hhead hpages hnodup hfreed
    rw [List.headD_cons] at hhead
    have hpos := hpages.pos b (List.mem_append_right _ List.mem_cons_self)
    have hrest : slabs = [] := by
      apply List.eq_nil_iff_forall_not_mem.2
      intro slab hslab
      have hmem : (slab, kNewAllocatorNumPagesPerSlab) ∈ events.filterMap Event.freed :=
        hfreed.mem_iff.2 (List.mem_map_of_mem (List.mem_cons_of_mem b hslab))
      have heq := (Prod.mk.inj (freed_destroyFrom hevents _ hmem)).1
      rw [hhead] at heq
      exact (List.nodup_cons.1 hnodup).1 (heq ▸ hslab)
    subst hrest
    refine ⟨Nat.le_refl 1, fun slab hslab ↦ ?_⟩
    rw [List.mem_singleton.1 hslab]
    by_contra hne
    rw [hhead] at hevents
    obtain ⟨n, rest, hrest, rfl⟩ := destroyFrom_of_ne hevents hpos.ne'
    obtain ⟨n', rest', -, rfl⟩ := destroyFrom_of_ne hrest hne
    have hlength : (rest'.filterMap Event.freed).length + 2 = 1 := hfreed.length_eq
    omega

/-- In a run of a layout that fits, the destructor takes as many turns as there are slabs. -/
theorem run_destroy (hp : Compiles p) (hf : Fits p) (hpages : Pages pages) {actions : List Action}
    (h : run (step p debug) (initial p mem pages) actions = some s) :
    destroy s s.slabs.length = some ({ s with slabList := 0, freeList := 0 },
      s.slabs.flatMap fun slab ↦
        [.read slab, .freeDataPages s.slabList kNewAllocatorNumPagesPerSlab]) := by
  obtain ⟨free, hinv⟩ := run_inv hp hf hpages h
  exact destroy_of_path hinv.slabChain

/-- The destructor returns the memory of a run if the run took at most one slab, which has no next
slab. -/
theorem run_destroysOnce_iff (hpages : Pages pages) {actions : List Action}
    (h : run (step p debug) (initial p mem pages) actions = some s) :
    (DestroysOnce s ↔ s.slabs.length ≤ 1 ∧ ∀ slab ∈ s.slabs, readPointer s.mem slab = 0) ∧
      (Compiles p → Fits p → (DestroysOnce s ↔ s.slabs.length ≤ 1)) := by
  have hslabs := run_slabsInv hpages h
  refine ⟨⟨hslabs.of_destroysOnce, fun hs ↦ hslabs.destroysOnce hs.1 hs.2⟩, fun hp hf ↦
    ⟨fun hs ↦ (hslabs.of_destroysOnce hs).1, fun hlength ↦ hslabs.destroysOnce hlength ?_⟩⟩
  obtain ⟨free, hinv⟩ := run_inv hp hf hpages h
  exact hinv.readPointer_last hlength

theorem run_destroysOnce_iff_twoPointers : ∃ s, run (step twoPointers true) (oneSlab twoPointers)
    [.allocate] = some s ∧ (DestroysOnce s ↔ s.slabs.length ≤ 1) ∧ DestroysOnce s := by
  obtain ⟨s, hs, -, hslabs, -⟩ := allocate_oneSlab true compiles_twoPointers
  have hrun : run (step twoPointers true) (oneSlab twoPointers) [.allocate] = some s := by
    rw [run, List.foldlM_cons, hs]
    rfl
  have hiff := (run_destroysOnce_iff pages_pageSizeBytes hrun).2 compiles_twoPointers
    fits_twoPointers
  exact ⟨s, hrun, hiff, hiff.2 (by rw [hslabs]; rfl)⟩

def twoPages : Properties :=
  ⟨8192, 1, 8⟩

theorem pages_twoSlabs : Pages [4096, 20480] where
  aligned := by decide
  pos := by decide
  le := by decide
  apart := by simp [Apart, numBytesPerSlab_eq]

theorem run_not_destroysOnce : ∃ s, run (step twoPages false)
    (initial twoPages (fun _ ↦ 0) [4096, 20480]) [.allocate, .allocate] = some s ∧
      s.slabs = [20480, 4096] ∧ ¬DestroysOnce s := by
  obtain ⟨s, hs, hslabs⟩ : ∃ s, run (step twoPages false)
      (initial twoPages (fun _ ↦ 0) [4096, 20480]) [.allocate, .allocate] = some s ∧
        s.slabs = [20480, 4096] := ⟨_, rfl, rfl⟩
  refine ⟨s, hs, hslabs, fun hdestroys ↦ ?_⟩
  have hlength := ((run_slabsInv pages_twoSlabs hs).of_destroysOnce hdestroys).1
  rw [hslabs] at hlength
  exact absurd hlength (by decide)

end Destroy

end Granary.Base.SlabAllocator
