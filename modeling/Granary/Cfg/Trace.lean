import Granary.Base.ListHead

namespace Granary.Cfg

open Granary.Base.ListHead Function

abbrev BlockId := ℕ

/-- A `Block`, without its list head. Its successors are the targets of its
control-flow instructions, in order. -/
structure Block where
  id : ℤ := -1
  generation : ℕ := 0
  isReachable : Bool := false
  successors : List BlockId := []
  isDirect : Bool := false
  materializedBlock : Option BlockId := none
deriving DecidableEq, Repr

/-- A `Trace`, with the list heads of all blocks, the blocks, and the next address
that the allocator hands out. -/
structure Trace where
  links : Memory BlockId := fun _ ↦ {}
  heap : BlockId → Block := fun _ ↦ {}
  next : ℕ := 0
  entryBlock : Option BlockId := none
  blocks : Ends BlockId := {}
  firstNewBlock : Option BlockId := none
  numBasicBlocks : ℕ := 0
  generation : ℕ := 0

namespace Trace

def setBlock (t : Trace) (b : BlockId) (f : Block → Block) : Trace :=
  { t with heap := update t.heap b (f (t.heap b)) }

def createBlock (t : Trace) (block : Block) : Trace :=
  { t with heap := update t.heap t.next block, next := t.next + 1 }

def setList (t : Trace) (r : Memory BlockId × Ends BlockId) : Trace :=
  { t with links := r.1, blocks := r.2 }

/-- The part of `AddBlock` before the recursion. -/
def linkBlock (t : Trace) (b : BlockId) : Trace :=
  let named := if (t.heap b).id = -1 then
      { t.setBlock b ({ · with id := t.numBasicBlocks }) with
        numBasicBlocks := t.numBasicBlocks + 1 }
    else t
  (named.setBlock b ({ · with generation := t.generation })).setList (append t.links t.blocks b)

/-- `AddBlock`, to a depth of at most `fuel` calls. -/
def addBlock : ℕ → Trace → BlockId → Option Trace
  | 0, _, _ => none
  | fuel + 1, t, b =>
    if isLinked t.links b then some t
    else ((t.linkBlock b).heap b).successors.foldlM (addBlock fuel) (t.linkBlock b)

def addEntryBlock (fuel : ℕ) (t : Trace) (b : BlockId) : Option Trace := do
  let t ← addBlock fuel { t with entryBlock := some b } b
  let t := if t.blocks.first = some b then t
    else
      let r := remove t.links t.blocks b
      t.setList (prepend r.1 r.2 b)
  return { t with firstNewBlock := some b, generation := t.generation + 1 }

/-- The blocks of the trace are those of `l`, linked in this order. -/
structure Listed (t : Trace) (l : List BlockId) : Prop where
  rep : Rep t.links t.blocks l
  free : ∀ b ∉ l, t.links b = {}
  lt_next : ∀ b ∈ l, b < t.next
  succ_lt : ∀ b < t.next, ∀ s ∈ (t.heap b).successors, s < t.next
  generation : ∀ b ∈ l, (t.heap b).generation ≤ t.generation

/-- The blocks `new` have been added to `t`, which became `t'`. -/
structure Grown (t t' : Trace) (new : List BlockId) : Prop where
  next : t'.next = t.next
  entryBlock : t'.entryBlock = t.entryBlock
  firstNewBlock : t'.firstNewBlock = t.firstNewBlock
  generation : t'.generation = t.generation
  successors : ∀ b, (t'.heap b).successors = (t.heap b).successors
  materialized : ∀ b, (t'.heap b).materializedBlock = (t.heap b).materializedBlock
  old : ∀ b ∉ new, t'.heap b = t.heap b
  new : ∀ b ∈ new, (t'.heap b).generation = t.generation

theorem Grown.refl (t : Trace) : Grown t t [] :=
  ⟨rfl, rfl, rfl, rfl, fun _ ↦ rfl, fun _ ↦ rfl, fun _ _ ↦ rfl,
    fun _ h ↦ absurd h List.not_mem_nil⟩

theorem Grown.trans {t t' t'' : Trace} {l l' : List BlockId} (h : Grown t t' l)
    (h' : Grown t' t'' l') : Grown t t'' (l ++ l') := by
  refine ⟨h'.next.trans h.next, h'.entryBlock.trans h.entryBlock,
    h'.firstNewBlock.trans h.firstNewBlock, h'.generation.trans h.generation,
    fun b ↦ (h'.successors b).trans (h.successors b),
    fun b ↦ (h'.materialized b).trans (h.materialized b), fun b hb ↦ ?_, fun b hb ↦ ?_⟩
  · rw [List.mem_append, not_or] at hb
    exact (h'.old b hb.2).trans (h.old b hb.1)
  · by_cases hb' : b ∈ l'
    · exact (h'.new b hb').trans h.generation
    · rw [h'.old b hb']
      exact h.new b ((List.mem_append.mp hb).resolve_right hb')

theorem Listed.length_le {t : Trace} {l : List BlockId} (h : t.Listed l) : l.length ≤ t.next := by
  have hsub : l ⊆ List.range t.next := fun b hb ↦ List.mem_range.mpr (h.lt_next b hb)
  simpa using (List.subperm_of_subset h.rep.nodup hsub).length_le

theorem Listed.length_lt {t : Trace} {l : List BlockId} (h : t.Listed l) {b : BlockId}
    (hb : b < t.next) (hbl : b ∉ l) : l.length < t.next := by
  have hsub : b :: l ⊆ List.range t.next := by
    intro c hc
    rw [List.mem_range]
    rcases List.mem_cons.mp hc with rfl | hc
    · exact hb
    · exact h.lt_next c hc
  have hle := (List.subperm_of_subset (List.nodup_cons.mpr ⟨hbl, h.rep.nodup⟩) hsub).length_le
  simp only [List.length_cons, List.length_range] at hle
  omega

theorem linkBlock_grown (t : Trace) (b : BlockId) : Grown t (t.linkBlock b) [b] := by
  unfold linkBlock
  refine ⟨?_, ?_, ?_, ?_, fun c ↦ ?_, fun c ↦ ?_, fun c hc ↦ ?_, fun c hc ↦ ?_⟩
  · split_ifs <;> rfl
  · split_ifs <;> rfl
  · split_ifs <;> rfl
  · split_ifs <;> rfl
  · by_cases hc : c = b
    · subst hc
      split_ifs <;> simp [setBlock, setList]
    · split_ifs <;> simp [setBlock, setList, update_of_ne hc]
  · by_cases hc : c = b
    · subst hc
      split_ifs <;> simp [setBlock, setList]
    · split_ifs <;> simp [setBlock, setList, update_of_ne hc]
  · rw [List.mem_singleton] at hc
    split_ifs <;> simp [setBlock, setList, update_of_ne hc]
  · rw [List.mem_singleton] at hc
    subst hc
    split_ifs <;> simp [setBlock, setList]

theorem Listed.linkBlock {t : Trace} {l : List BlockId} (h : t.Listed l) {b : BlockId}
    (hb : b < t.next) (hbl : b ∉ l) : (t.linkBlock b).Listed (l ++ [b]) := by
  have hg := linkBlock_grown t b
  have hlinks : (t.linkBlock b).links = (append t.links t.blocks b).1 ∧
      (t.linkBlock b).blocks = (append t.links t.blocks b).2 := ⟨rfl, rfl⟩
  obtain ⟨hrep, hframe⟩ := h.rep.append hbl (h.free b hbl)
  refine ⟨?_, fun c hc ↦ ?_, fun c hc ↦ ?_, fun c hc s hs ↦ ?_, fun c hc ↦ ?_⟩
  · rw [hlinks.1, hlinks.2]
    exact hrep
  · simp only [List.mem_append, List.mem_singleton, not_or] at hc
    rw [hlinks.1, hframe c hc.1 hc.2]
    exact h.free c hc.1
  · rw [hg.next]
    rcases List.mem_append.mp hc with hc | hc
    · exact h.lt_next c hc
    · rwa [List.mem_singleton.mp hc]
  · rw [hg.next] at hc ⊢
    rw [hg.successors] at hs
    exact h.succ_lt c hc s hs
  · rw [hg.generation]
    by_cases hcb : c ∈ [b]
    · exact (hg.new c hcb).le
    · rw [hg.old c hcb]
      exact h.generation c ((List.mem_append.mp hc).resolve_right hcb)

structure Added (t t' : Trace) (l : List BlockId) (bs : List BlockId) : Prop where
  spec : ∃ new, t'.Listed (l ++ new) ∧ Grown t t' new ∧ (∀ b ∈ bs, b ∈ l ++ new) ∧
    ∀ b ∈ new, ∀ s ∈ (t.heap b).successors, s ∈ l ++ new

theorem addBlocks_spec (fuel : ℕ) (ih : ∀ (t : Trace) (l : List BlockId) (b : BlockId),
      t.Listed l → b < t.next → l ≠ [] → l ≠ [b] → t.next - l.length < fuel →
      ∃ t', addBlock fuel t b = some t' ∧ Added t t' l [b])
    (bs : List BlockId) {t : Trace} {l : List BlockId} (h : t.Listed l)
    (hbs : ∀ b ∈ bs, b < t.next) (hl : l ≠ []) (hfirst : ∀ a, l = [a] → bs.head? ≠ some a)
    (hfuel : t.next - l.length < fuel) :
    ∃ t', bs.foldlM (addBlock fuel) t = some t' ∧ Added t t' l bs := by
  induction bs generalizing t l with
  | nil =>
    refine ⟨t, rfl, [], ?_, .refl t, fun _ h ↦ absurd h List.not_mem_nil,
      fun _ h ↦ absurd h List.not_mem_nil⟩
    rwa [List.append_nil]
  | cons b bs ihbs =>
    have hne : l ≠ [b] := fun he ↦ hfirst b he rfl
    obtain ⟨t₁, he₁, new₁, hl₁, hg₁, hb₁, hc₁⟩ :=
      ih t l b h (hbs b List.mem_cons_self) hl hne hfuel
    have hlen : ∀ a, l ++ new₁ = [a] → bs.head? ≠ some a := by
      intro a ha
      have hba := hb₁ b (List.mem_singleton_self b)
      rw [ha, List.mem_singleton] at hba
      subst hba
      rcases List.append_eq_singleton_iff.mp ha with ⟨hnil, -⟩ | ⟨hsingle, -⟩
      · exact absurd hnil hl
      · exact absurd hsingle hne
    obtain ⟨t₂, he₂, new₂, hl₂, hg₂, hb₂, hc₂⟩ := ihbs hl₁
      (fun c hc ↦ by rw [hg₁.next]; exact hbs c (List.mem_cons_of_mem b hc))
      (by simp [hl]) hlen (by rw [hg₁.next, List.length_append]; omega)
    refine ⟨t₂, ?_, new₁ ++ new₂, ?_, hg₁.trans hg₂, fun c hc ↦ ?_, fun c hc s hs ↦ ?_⟩
    · rw [List.foldlM_cons, he₁]
      exact he₂
    · rwa [← List.append_assoc]
    · rw [← List.append_assoc]
      rcases List.mem_cons.mp hc with rfl | hc
      · exact List.mem_append_left _ (hb₁ c (List.mem_singleton_self c))
      · exact hb₂ c hc
    · rw [← List.append_assoc]
      rcases List.mem_append.mp hc with hc | hc
      · exact List.mem_append_left _ (hc₁ c hc s hs)
      · exact hc₂ c hc s (by rwa [hg₁.successors])

theorem addBlock_spec (fuel : ℕ) {t : Trace} {l : List BlockId} {b : BlockId} (h : t.Listed l)
    (hb : b < t.next) (hne : l ≠ [b]) (hself : l = [] → (t.heap b).successors.head? ≠ some b)
    (hfuel : t.next - l.length < fuel) :
    ∃ t', addBlock fuel t b = some t' ∧ Added t t' l [b] := by
  induction fuel generalizing t l b with
  | zero => exact absurd hfuel (Nat.not_lt_zero _)
  | succ fuel ih =>
    unfold addBlock
    by_cases hbl : b ∈ l
    · rw [if_pos ((h.rep.isLinked hbl).mpr hne)]
      refine ⟨t, rfl, [], ?_, .refl t, fun c hc ↦ ?_, fun _ h ↦ absurd h List.not_mem_nil⟩
      · rwa [List.append_nil]
      · rw [List.append_nil, List.mem_singleton.mp hc]
        exact hbl
    · have hnot : isLinked t.links b = false := by
        rw [isLinked, h.free b hbl]
        rfl
      rw [hnot, if_neg Bool.false_ne_true]
      have hg := linkBlock_grown t b
      have hl := h.linkBlock hb hbl
      have hlt := h.length_lt hb hbl
      have hfirst (a : BlockId) (ha : l ++ [b] = [a]) : (t.heap b).successors.head? ≠ some a := by
        rcases List.append_eq_singleton_iff.mp ha with ⟨hnil, hsingle⟩ | ⟨-, hnil⟩
        · rw [List.singleton_inj] at hsingle
          rw [← hsingle]
          exact hself hnil
        · simp at hnil
      have hfuel' : (t.linkBlock b).next - (l ++ [b]).length < fuel := by
        rw [hg.next, List.length_append, List.length_singleton]
        omega
      rw [hg.successors]
      obtain ⟨t', he, new, hl', hg', hbs, hclosed⟩ := addBlocks_spec fuel
        (fun t l b ht hb hl hne hf ↦ ih ht hb hne (fun he ↦ absurd he hl) hf)
        (t.heap b).successors hl (fun s hs ↦ by rw [hg.next]; exact h.succ_lt b hb s hs)
        (by simp) hfirst hfuel'
      refine ⟨t', he, [b] ++ new, ?_, hg.trans hg', fun c hc ↦ ?_, fun c hc s hs ↦ ?_⟩
      · rwa [← List.append_assoc]
      · rw [List.mem_singleton.mp hc]
        simp
      · rw [← List.append_assoc]
        rcases List.mem_append.mp hc with hc | hc
        · rw [List.mem_singleton.mp hc] at hs
          exact hbs s hs
        · exact hclosed c hc s (by rwa [hg.successors])

end Trace

end Granary.Cfg
