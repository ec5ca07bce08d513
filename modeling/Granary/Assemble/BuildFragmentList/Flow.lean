import Granary.Assemble.BuildFragmentList.Walk
import Granary.Base.Language

namespace Granary.Assemble.BuildFragmentList

open Function Granary.Base.Language
open Granary.Code (FragmentId Slot)

/-- A native instruction that is put into a fragment. Of an unconditional jump between
blocks only the edge is left. -/
def Instruction.isKept : Instruction → Bool
  | .cfi .jump _ _ => false
  | i => i.isNative

namespace Trace

variable (tr : Trace)

/-- The first instruction of a block. A block without instructions is not in the
trace. -/
def start (t : BlockId) : Option InstrId := (tr.code t).head?

def successors (i : InstrId) : List (Option InstrId) :=
  match tr.instr i with
  | Instruction.annotation .endBlock => []
  | .branch .jump _ l => [some l]
  | .branch _ _ l => [tr.next i, some l]
  | .exceptional _ t => [tr.next i, tr.start t]
  | .cfi .jump ind t => [if ind then none else tr.start t]
  | .cfi .functionCall ind t => [tr.next i, if ind then none else tr.start t]
  | .cfi .conditionalJump _ t => [tr.next i, tr.start t]
  | .cfi .systemReturn _ _ | .cfi .interruptReturn _ _ | .cfi .functionReturn _ _ => []
  | .cfi .systemCall _ _ | .cfi .interruptCall _ _ | .label | Instruction.annotation _
  | .native _ => [tr.next i]

/-- The original code, which says the native instructions that it executes. Outside the
trace nothing is heard. -/
def flow : System (Option InstrId) InstrId
  | none => ([], [])
  | some i => (if (tr.instr i).isKept then [i] else [], tr.successors i)

end Trace

def Item.instr? : Item → Option InstrId
  | .moved i => some i
  | .indirectEdge _ | .generated => none

namespace Fragment

def moved (x : Fragment) : List InstrId := x.instrs.filterMap Item.instr?

def slot (x : Fragment) : Slot → Option FragmentId
  | .fallThrough => x.fallThrough
  | .branch => x.branch

structure Pristine (x : Fragment) : Prop where
  instrs : x.instrs = []
  fallThrough : x.fallThrough = none
  branch : x.branch = none
  kind : x.kind = .invalid

end Fragment

/-- The fragments, which say the native instructions that were moved into them. -/
def Builder.flow (tr : Trace) (b : Builder) : System FragmentId InstrId := fun f ↦
  ((b.heap f).moved.filter fun i ↦ (tr.instr i).isNative, (b.heap f).successors)

/-- Every fragment that was built stands for the code from its start on, but for those of
`os`, which are being built, and those on the work list. Every instruction is moved once.
Blocks of `done` have their fragments. -/
structure Graph (tr : Trace) (done : List BlockId) (start : FragmentId → Option InstrId)
    (rank : FragmentId → ℕ) (b : Builder) (os : List FragmentId) : Prop where
  lt : ∀ f ∈ os, f < b.next
  nodup : (os ++ b.work.map Prod.fst).Nodup
  pending : ∀ f i, (f, i) ∈ b.work →
    f < b.next ∧ start f = i ∧ rank f = 1 ∧ (b.heap f).Pristine
  label : ∀ l f, b.labelFragment l = some f → f < b.next ∧ start f = tr.next l
  block : ∀ t f, b.blockFragment t = some f → f < b.next ∧ start f = tr.start t ∧ rank f ≤ 1
  has : ∀ t ∈ done, tr.HasFragment t → b.blockFragment t ≠ none
  built : ∀ f < b.next, f ∉ os ++ b.work.map Prod.fst →
    (∀ g ∈ (b.heap f).successors, g < b.next) ∧ Folds tr.flow (b.flow tr) start rank f
  erased : ∀ f, ∀ i ∈ (b.heap f).moved, i ∉ b.lists (tr.owner i)
  once : ∀ f, (b.heap f).moved.Nodup
  unique : ∀ f g i, i ∈ (b.heap f).moved → i ∈ (b.heap g).moved → f = g
  gone : ∀ i ∈ tr.code (tr.owner i), i ∉ b.lists (tr.owner i) →
    ∃ f < b.next, i ∈ (b.heap f).moved

/-- What is known of the fragments that were there stays so. -/
structure Extends (n : FragmentId) (start start' : FragmentId → Option InstrId)
    (rank rank' : FragmentId → ℕ) (n' : FragmentId) : Prop where
  le : n ≤ n'
  start : ∀ f < n, start' f = start f
  rank : ∀ f < n, rank' f = rank f

section Graph

variable {tr : Trace} {done : List BlockId} {start start' start'' : FragmentId → Option InstrId}
  {rank rank' rank'' : FragmentId → ℕ} {b b' : Builder} {os : List FragmentId} {f g : FragmentId}
  {i l : InstrId}

theorem Extends.refl (n : FragmentId) : Extends n start start rank rank n :=
  ⟨le_rfl, fun _ _ ↦ rfl, fun _ _ ↦ rfl⟩

theorem Extends.trans {n n' n'' : FragmentId} (h : Extends n start start' rank rank' n')
    (h' : Extends n' start' start'' rank' rank'' n'') :
    Extends n start start'' rank rank'' n'' where
  le := h.le.trans h'.le
  start f hf := (h'.start f (hf.trans_le h.le)).trans (h.start f hf)
  rank f hf := (h'.rank f (hf.trans_le h.le)).trans (h.rank f hf)

theorem mem_successors {x : Fragment} : g ∈ x.successors ↔ ∃ s, x.slot s = some g := by
  unfold Fragment.successors
  rw [List.mem_append, Option.mem_toList, Option.mem_toList]
  constructor
  · intro h
    exact h.elim (fun h ↦ ⟨.fallThrough, h⟩) fun h ↦ ⟨.branch, h⟩
  · intro ⟨s, hs⟩
    cases s with
    | fallThrough => exact .inl hs
    | branch => exact .inr hs

namespace Graph

theorem flow_update (tr : Trace) (b : Builder) (x : Fragment) (hne : g ≠ f) (n : FragmentId) :
    ({ b with heap := update b.heap f x, next := n } : Builder).flow tr g = b.flow tr g := by
  simp only [Builder.flow, update_of_ne hne]

theorem alloc (h : Graph tr done start rank b os) (x : Fragment) (hx : x.moved = [])
    (p : Option InstrId) (k : ℕ) :
    Graph tr done (update start b.next p) (update rank b.next k) (b.alloc x) (b.next :: os) := by
  have hold (f : FragmentId) (hf : f < b.next) :
      update start b.next p f = start f ∧ update rank b.next k f = rank f :=
    ⟨update_of_ne hf.ne _ _, update_of_ne hf.ne _ _⟩
  have hheap (f : FragmentId) (hf : f < b.next) : (b.alloc x).heap f = b.heap f :=
    update_of_ne hf.ne _ _
  have hmoved (f : FragmentId) : ((b.alloc x).heap f).moved =
      if f = b.next then [] else (b.heap f).moved := by
    simp only [Builder.alloc, update_apply]
    split_ifs
    · exact hx
    · rfl
  have hin (f : FragmentId) (i : InstrId) (hi : i ∈ ((b.alloc x).heap f).moved) :
      i ∈ (b.heap f).moved := by
    rw [hmoved] at hi
    split_ifs at hi
    · exact absurd hi List.not_mem_nil
    · exact hi
  refine ⟨fun f hf ↦ ?_, ?_, fun f i hf ↦ ?_, fun l f hl ↦ ?_, fun t f ht ↦ ?_, h.has,
    fun f hf hn ↦ ?_, fun f i hi ↦ h.erased f i (hin f i hi), fun f ↦ ?_,
    fun f g i hi hj ↦ h.unique f g i (hin f i hi) (hin g i hj), fun i hi hl ↦ ?_⟩
  · rcases List.mem_cons.mp hf with rfl | hf
    · exact Nat.lt_succ_self _
    · exact (h.lt f hf).trans (Nat.lt_succ_self _)
  · refine List.nodup_cons.mpr ⟨fun hmem ↦ ?_, h.nodup⟩
    rcases List.mem_append.mp hmem with hmem | hmem
    · exact lt_irrefl _ (h.lt _ hmem)
    · obtain ⟨⟨f, i⟩, hfi, he⟩ := List.mem_map.mp hmem
      exact (h.pending f i hfi).1.ne he
  · obtain ⟨hlt, hs, hr, hp⟩ := h.pending f i hf
    refine ⟨hlt.trans (Nat.lt_succ_self _), ?_, ?_, ?_⟩
    · rw [(hold f hlt).1, hs]
    · rw [(hold f hlt).2, hr]
    · rw [hheap f hlt]
      exact hp
  · obtain ⟨hlt, hs⟩ := h.label l f hl
    exact ⟨hlt.trans (Nat.lt_succ_self _), (hold f hlt).1.trans hs⟩
  · obtain ⟨hlt, hs, hr⟩ := h.block t f ht
    exact ⟨hlt.trans (Nat.lt_succ_self _), (hold f hlt).1.trans hs, (hold f hlt).2 ▸ hr⟩
  · have hne : f ≠ b.next := fun he ↦ hn (he ▸ List.mem_cons_self)
    have hlt : f < b.next := lt_of_le_of_ne (Nat.lt_succ_iff.mp hf) hne
    obtain ⟨hsucc, hfold⟩ := h.built f hlt fun hm ↦ hn (List.mem_cons_of_mem _ hm)
    rw [hheap f hlt]
    refine ⟨fun g hg ↦ (hsucc g hg).trans (Nat.lt_succ_self _), ?_⟩
    refine hfold.congr (flow_update tr b x hne _) fun g hg ↦ hold g ?_
    rcases hg with rfl | hg
    · exact hlt
    · exact hsucc g hg
  · rw [hmoved]
    split_ifs
    · exact List.nodup_nil
    · exact h.once f
  · obtain ⟨f, hf, hm⟩ := h.gone i hi hl
    refine ⟨f, hf.trans (Nat.lt_succ_self _), ?_⟩
    rw [hheap f hf]
    exact hm

theorem modify (h : Graph tr done start rank b os) (hf : f ∈ os) (g : Fragment → Fragment)
    (hg : (g (b.heap f)).moved = (b.heap f).moved) :
    Graph tr done start rank (b.modify f g) os := by
  have hmoved (k : FragmentId) : ((b.modify f g).heap k).moved = (b.heap k).moved := by
    simp only [Builder.modify, update_apply]
    split_ifs with hk
    · rw [hg, hk]
    · rfl
  refine ⟨h.lt, h.nodup, fun k i hk ↦ ?_, h.label, h.block, h.has, fun k hk hn ↦ ?_,
    fun k i hi ↦ h.erased k i (hmoved k ▸ hi), fun k ↦ hmoved k ▸ h.once k,
    fun k k' i hi hj ↦ h.unique k k' i (hmoved k ▸ hi) (hmoved k' ▸ hj), fun i hi hl ↦ ?_⟩
  · obtain ⟨hlt, hs, hr, hp⟩ := h.pending k i hk
    have hne : k ≠ f := by
      rintro rfl
      exact (List.nodup_append.mp h.nodup).2.2 k hf k (List.mem_map_of_mem hk) rfl
    refine ⟨hlt, hs, hr, ?_⟩
    simp only [Builder.modify, update_of_ne hne]
    exact hp
  · have hne : k ≠ f := fun he ↦ hn (List.mem_append_left _ (he.symm ▸ hf))
    obtain ⟨hsucc, hfold⟩ := h.built k hk hn
    refine ⟨?_, hfold.congr (flow_update tr b _ hne _) fun _ _ ↦ ⟨rfl, rfl⟩⟩
    simp only [Builder.modify, update_of_ne hne]
    exact hsucc
  · obtain ⟨k, hk, hm⟩ := h.gone i hi hl
    exact ⟨k, hk, (hmoved k).symm ▸ hm⟩

theorem setSuccessor (h : Graph tr done start rank b os) (hf : f ∈ os) (sel : Slot) :
    Graph tr done start rank (b.setSuccessor f sel g) os := by
  refine h.modify hf _ ?_
  cases sel <;> rfl

theorem insertAfter (h : Graph tr done start rank b os) (f g : FragmentId) :
    Graph tr done start rank (b.insertAfter f g) os := { h with }

theorem append (h : Graph tr done start rank b os) (f : FragmentId) :
    Graph tr done start rank (b.append f) os := { h with }

theorem prepend (h : Graph tr done start rank b os) (f : FragmentId) :
    Graph tr done start rank (b.prepend f) os := { h with }

theorem union (h : Graph tr done start rank b os) (f g : FragmentId) :
    Graph tr done start rank (b.union f g) os := { h with }

theorem perm (h : Graph tr done start rank b os) {os' : List FragmentId} (hp : os'.Perm os) :
    Graph tr done start rank b os' where
  lt f hf := h.lt f (hp.mem_iff.mp hf)
  nodup := (hp.append_right _).nodup_iff.mpr h.nodup
  pending := h.pending
  label := h.label
  block := h.block
  has := h.has
  built f hf hn := h.built f hf fun hm ↦ hn ((hp.append_right _).mem_iff.mpr hm)
  erased := h.erased
  once := h.once
  unique := h.unique
  gone := h.gone

theorem move (h : Graph tr done start rank b os) (hf : f ∈ os) (hi : i ∈ b.lists (tr.owner i))
    (hnodup : (b.lists (tr.owner i)).Nodup) :
    Graph tr done start rank (moveInstr tr b f i) os := by
  have hmoved (k : FragmentId) : ((moveInstr tr b f i).heap k).moved =
      if k = f then (b.heap k).moved ++ [i] else (b.heap k).moved := by
    simp only [moveInstr, Builder.modify, update_apply]
    split_ifs with hk
    · rw [hk, Fragment.moved, List.filterMap_append]
      rfl
    · rfl
  have hnot (k : FragmentId) : i ∉ (b.heap k).moved := fun hk ↦ h.erased k i hk hi
  have hin (k : FragmentId) (j : InstrId) (hj : j ∈ ((moveInstr tr b f i).heap k).moved) :
      j ∈ (b.heap k).moved ∨ j = i ∧ k = f := by
    rw [hmoved] at hj
    split_ifs at hj with hk
    · rcases List.mem_append.mp hj with hj | hj
      · exact .inl hj
      · exact .inr ⟨List.mem_singleton.mp hj, hk⟩
    · exact .inl hj
  refine ⟨h.lt, h.nodup, fun k j hk ↦ ?_, h.label, h.block, h.has, fun k hk hn ↦ ?_,
    fun k j hj hmem ↦ ?_, fun k ↦ ?_, fun k k' j hj hj' ↦ ?_, fun j hj hl ↦ ?_⟩
  · obtain ⟨hlt, hs, hr, hp⟩ := h.pending k j hk
    have hne : k ≠ f := by
      rintro rfl
      exact (List.nodup_append.mp h.nodup).2.2 k hf k (List.mem_map_of_mem hk) rfl
    refine ⟨hlt, hs, hr, ?_⟩
    simp only [moveInstr, Builder.modify, update_of_ne hne]
    exact hp
  · have hne : k ≠ f := fun he ↦ hn (List.mem_append_left _ (he.symm ▸ hf))
    obtain ⟨hsucc, hfold⟩ := h.built k hk hn
    refine ⟨?_, hfold.congr ?_ fun _ _ ↦ ⟨rfl, rfl⟩⟩
    · simp only [moveInstr, Builder.modify, update_of_ne hne]
      exact hsucc
    · simp only [Builder.flow, moveInstr, Builder.modify, update_of_ne hne]
  · simp only [moveInstr, Builder.modify, update_apply] at hmem
    rcases hin k j hj with hj | ⟨rfl, -⟩
    · split_ifs at hmem with ho
      · exact h.erased k j hj (ho ▸ List.mem_of_mem_erase hmem)
      · exact h.erased k j hj hmem
    · rw [if_pos rfl] at hmem
      exact hnodup.not_mem_erase hmem
  · rw [hmoved]
    split_ifs
    · exact (h.once k).append (List.nodup_singleton i) (by simpa using hnot k)
    · exact h.once k
  · rcases hin k j hj with hk | ⟨hji, hk⟩
    · rcases hin k' j hj' with hk' | ⟨hji, -⟩
      · exact h.unique k k' j hk hk'
      · exact absurd (hji ▸ hk) (hnot k)
    · rcases hin k' j hj' with hk' | ⟨-, hk'⟩
      · exact absurd (hji ▸ hk') (hnot k')
      · rw [hk, hk']
  · by_cases hji : j = i
    · refine ⟨f, h.lt f hf, ?_⟩
      rw [hmoved, if_pos rfl, hji]
      exact List.mem_append_right _ List.mem_cons_self
    · have hlist : j ∉ b.lists (tr.owner j) := by
        intro hmem
        refine hl ?_
        simp only [moveInstr, Builder.modify, update_apply]
        split_ifs with ho
        · exact (List.mem_erase_of_ne hji).mpr (ho ▸ hmem)
        · exact hmem
      obtain ⟨k, hk, hm⟩ := h.gone j hj hlist
      refine ⟨k, hk, ?_⟩
      rw [hmoved]
      split_ifs
      · exact List.mem_append_left _ hm
      · exact hm

theorem push (h : Graph tr done start rank b (f :: os)) (hp : (b.heap f).Pristine)
    (hr : rank f = 1) : Graph tr done start rank (b.push f (start f)) os := by
  have hperm : (os ++ ((b.push f (start f)).work.map Prod.fst)).Perm
      (f :: os ++ b.work.map Prod.fst) := by
    simp only [Builder.push, List.map_cons, List.cons_append]
    exact List.perm_middle
  refine ⟨fun k hk ↦ h.lt k (List.mem_cons_of_mem f hk), hperm.nodup_iff.mpr h.nodup,
    fun k j hk ↦ ?_, h.label, h.block, h.has, fun k hk hn ↦ ?_, h.erased, h.once, h.unique,
    h.gone⟩
  · rcases List.mem_cons.mp hk with hk | hk
    · obtain ⟨rfl, rfl⟩ := Prod.mk.inj hk
      exact ⟨h.lt k List.mem_cons_self, rfl, hr, hp⟩
    · exact h.pending k j hk
  · exact h.built k hk fun hm ↦ hn (hperm.mem_iff.mpr hm)

theorem close (h : Graph tr done start rank b (f :: os))
    (hsucc : ∀ s g, (b.heap f).slot s = some g → g < b.next)
    (hfold : Folds tr.flow (b.flow tr) start rank f) : Graph tr done start rank b os := by
  refine ⟨fun k hk ↦ h.lt k (List.mem_cons_of_mem f hk), (List.nodup_cons.mp h.nodup).2,
    h.pending, h.label, h.block, h.has, fun k hk hn ↦ ?_, h.erased, h.once, h.unique, h.gone⟩
  by_cases hkf : k = f
  · subst hkf
    refine ⟨fun g hg ↦ ?_, hfold⟩
    obtain ⟨s, hs⟩ := mem_successors.mp hg
    exact hsucc s g hs
  · refine h.built k hk fun hm ↦ hn ?_
    exact (List.mem_cons.mp hm).resolve_left hkf

theorem setLabel (h : Graph tr done start rank b os) (hf : f < b.next)
    (hs : start f = tr.next l) : Graph tr done start rank
      { b with labelFragment := update b.labelFragment l (some f) } os := by
  refine { h with label := fun l' f' hl' ↦ ?_ }
  simp only [update_apply] at hl'
  split_ifs at hl' with he
  · obtain rfl := Option.some.inj hl'
    exact ⟨hf, he ▸ hs⟩
  · exact h.label l' f' hl'

theorem setBlock (h : Graph tr done start rank b os) {t : BlockId} (hf : f < b.next)
    (hs : start f = tr.start t) (hr : rank f ≤ 1) : Graph tr (t :: done) start rank
      { b with blockFragment := update b.blockFragment t (some f) } os := by
  refine { h with block := fun t' f' ht' ↦ ?_, has := fun t' ht' hfrag ↦ ?_ }
  · simp only [update_apply] at ht'
    split_ifs at ht' with he
    · obtain rfl := Option.some.inj ht'
      exact ⟨hf, he ▸ hs, hr⟩
    · exact h.block t' f' ht'
  · simp only [update_apply]
    split_ifs with he
    · exact Option.some_ne_none f
    · exact h.has t' ((List.mem_cons.mp ht').resolve_left he) hfrag

end Graph

@[simp] theorem slot_setSuccessor (x : Fragment) (sel : Slot) (g : FragmentId) :
    (x.setSuccessor sel g).slot sel = some g := by
  cases sel <;> rfl

theorem slot_setSuccessor_of_ne (x : Fragment) {s sel : Slot} (g : FragmentId) (hs : s ≠ sel) :
    (x.setSuccessor sel g).slot s = x.slot s := by
  cases sel <;> cases s <;> first | rfl | exact absurd rfl hs

@[simp] theorem moved_setSuccessor (x : Fragment) (sel : Slot) (g : FragmentId) :
    (x.setSuccessor sel g).moved = x.moved := by
  cases sel <;> rfl

def Goes (tr : Trace) (start : FragmentId → Option InstrId) (b : Builder) (f : FragmentId)
    (s : Slot) : Option (Option InstrId) → Prop
  | none => (b.heap f).slot s = none
  | some q => ∃ g, (b.heap f).slot s = some g ∧ g < b.next ∧ Leads tr.flow q [] (start g)

/-- A fragment stands for the code up to an instruction and with it. -/
def Ends (tr : Trace) (start : FragmentId → Option InstrId) (b : Builder) (f : FragmentId)
    (i : InstrId) : Prop :=
  ∃ es, Leads tr.flow (start f) es (some i) ∧ (b.flow tr f).1 = es ++ (tr.flow (some i)).1

theorem Graph.finish (h : Graph tr done start rank b (f :: os)) (hends : Ends tr start b f i)
    {a c : Option (Option InstrId)} (hflow : tr.successors i = a.toList ++ c.toList)
    (h₁ : Goes tr start b f .fallThrough a) (h₂ : Goes tr start b f .branch c) :
    Graph tr done start rank b os := by
  have hgoes (s : Slot) : ∃ a, Goes tr start b f s a ∧ ∀ q ∈ a, q ∈ tr.successors i := by
    rw [hflow]
    cases s with
    | fallThrough => exact ⟨a, h₁, fun q hq ↦ List.mem_append_left _ (Option.mem_toList.mpr hq)⟩
    | branch => exact ⟨c, h₂, fun q hq ↦ List.mem_append_right _ (Option.mem_toList.mpr hq)⟩
  have hslot {s : Slot} {g : FragmentId} (hs : (b.heap f).slot s = some g) :
      g < b.next ∧ ∃ q ∈ tr.successors i, Leads tr.flow q [] (start g) := by
    obtain ⟨a, ha, hq⟩ := hgoes s
    cases a with
    | none => exact absurd (hs.symm.trans ha) (Option.some_ne_none g)
    | some q =>
      obtain ⟨g', hg', hlt, hlead'⟩ := ha
      obtain rfl := Option.some.inj (hs.symm.trans hg')
      exact ⟨hlt, q, hq q rfl, hlead'⟩
  obtain ⟨es, hlead, hsaid⟩ := hends
  refine h.close (fun s g hs ↦ (hslot hs).1) (.of_leads hlead hsaid (fun q hq ↦ ?_) fun g hg ↦ ?_)
  · have hto {s : Slot} (hs : Goes tr start b f s (some q)) :
        ∃ g ∈ (b.flow tr f).2, Leads tr.flow q [] (start g) := by
      obtain ⟨g, hg, -, hlead'⟩ := hs
      exact ⟨g, mem_successors.mpr ⟨s, hg⟩, hlead'⟩
    have hq' : q ∈ a.toList ++ c.toList := hflow ▸ hq
    rcases List.mem_append.mp hq' with hq | hq
    · exact hto (Option.mem_toList.mp hq ▸ h₁)
    · exact hto (Option.mem_toList.mp hq ▸ h₂)
  · obtain ⟨s, hs⟩ := mem_successors.mp hg
    exact (hslot hs).2

theorem Graph.handOver (h : Graph tr done start rank b (f :: os)) {g : FragmentId}
    (hlead : Leads tr.flow (start f) (b.flow tr f).1 (start g)) (hrank : rank g < rank f)
    (hlt : g < b.next) (h₁ : (b.heap f).slot .fallThrough = some g)
    (h₂ : (b.heap f).slot .branch = none) : Graph tr done start rank b os := by
  have hsucc : (b.heap f).successors = [g] := by
    have h₁' : (b.heap f).fallThrough = some g := h₁
    have h₂' : (b.heap f).branch = none := h₂
    rw [Fragment.successors, h₁', h₂']
    rfl
  refine h.close (fun s k hs ↦ ?_) (.of_tail hlead (Prod.ext rfl hsucc) hrank)
  have hk : k ∈ (b.heap f).successors := mem_successors.mpr ⟨s, hs⟩
  rw [hsucc, List.mem_singleton] at hk
  rw [hk]
  exact hlt

/-- The builder has given a fragment that it builds one more successor. -/
structure Linked (tr : Trace) (done : List BlockId) (b b' : Builder)
    (start start' : FragmentId → Option InstrId) (rank rank' : FragmentId → ℕ) (f : FragmentId)
    (os : List FragmentId) (sel : Slot) (q : Option InstrId) : Prop where
  graph : Graph tr done start' rank' b' (f :: os)
  ext : Extends b.next start start' rank rank' b'.next
  goes : Goes tr start' b' f sel (some q)
  keeps : ∀ s, s ≠ sel → (b'.heap f).slot s = (b.heap f).slot s
  moved : (b'.heap f).moved = (b.heap f).moved
  lists : b'.lists = b.lists

theorem Linked.other {sel s : Slot} {q : Option InstrId}
    (h : Linked tr done b b' start start' rank rank' f os sel q) (hs : s ≠ sel)
    {a : Option (Option InstrId)} (ha : Goes tr start b f s a) : Goes tr start' b' f s a := by
  cases a with
  | none => exact (h.keeps s hs).trans ha
  | some q =>
    obtain ⟨g, hg, hlt, hlead⟩ := ha
    refine ⟨g, (h.keeps s hs).trans hg, hlt.trans_le h.ext.le, ?_⟩
    rw [h.ext.start g hlt]
    exact hlead

theorem Linked.lt {sel : Slot} {q : Option InstrId}
    (h : Linked tr done b b' start start' rank rank' f os sel q)
    (h₀ : Graph tr done start rank b (f :: os)) : start' f = start f :=
  h.ext.start f (h₀.lt f List.mem_cons_self)

theorem Linked.ends {sel : Slot} {q : Option InstrId}
    (h : Linked tr done b b' start start' rank rank' f os sel q)
    (h₀ : Graph tr done start rank b (f :: os)) (hends : Ends tr start b f i) :
    Ends tr start' b' f i := by
  obtain ⟨es, hlead, hsaid⟩ := hends
  refine ⟨es, ?_, ?_⟩
  · rw [h.lt h₀]
    exact hlead
  · rw [← hsaid]
    simp only [Builder.flow, h.moved]

theorem Linked.of_leads {sel : Slot} {q q' : Option InstrId}
    (h : Linked tr done b b' start start' rank rank' f os sel q) (hq : Leads tr.flow q' [] q) :
    Linked tr done b b' start start' rank rank' f os sel q' := by
  obtain ⟨g, hg, hlt, hlead⟩ := h.goes
  exact { h with goes := ⟨g, hg, hlt, hq.trans hlead⟩ }

theorem Graph.addBlockTail (h : Graph tr done start rank b (f :: os)) {q : Option InstrId}
    (label first : Option InstrId) (sel : Slot)
    (hl : ∀ l, label = some l → b.labelFragment l = none → first = tr.next l)
    (hq : Leads tr.flow q [] (label.elim first tr.next)) :
    ∃ start' rank', Linked tr done b (addBlockTailToWorkList b f label first sel) start start'
      rank rank' f os sel q := by
  have hlt := h.lt f List.mem_cons_self
  unfold addBlockTailToWorkList
  cases hfrag : label.bind b.labelFragment with
  | some tail =>
    obtain ⟨l, rfl, htail⟩ := Option.bind_eq_some_iff.mp hfrag
    obtain ⟨hlt', hs⟩ := h.label l tail htail
    refine ⟨start, rank, h.setSuccessor List.mem_cons_self sel, .refl _, ⟨tail, ?_, hlt', ?_⟩,
      fun s hs ↦ ?_, ?_, rfl⟩
    · simp [Builder.setSuccessor, Builder.modify]
    · rw [hs]
      exact hq
    · simp [Builder.setSuccessor, Builder.modify, slot_setSuccessor_of_ne _ _ hs]
    · simp [Builder.setSuccessor, Builder.modify]
  | none =>
    have hfirst : label.elim first tr.next = first := by
      cases label with
      | none => rfl
      | some l => exact (hl l rfl hfrag).symm
    rw [hfirst] at hq
    have hne : f ≠ b.next := hlt.ne
    have halloc := h.alloc { blockMeta := (b.heap f).blockMeta } rfl first 1
    have hpush := halloc.push (by simp [Builder.alloc]; exact ⟨rfl, rfl, rfl, rfl⟩)
      (update_self b.next 1 rank)
    rw [update_self] at hpush
    refine ⟨update start b.next first, update rank b.next 1, ?_⟩
    have hext : Extends b.next start (update start b.next first) rank (update rank b.next 1)
        (b.next + 1) :=
      ⟨Nat.le_succ _, fun g hg ↦ update_of_ne hg.ne _ _, fun g hg ↦ update_of_ne hg.ne _ _⟩
    have hstart : Leads tr.flow q [] (update start b.next first b.next) := by
      rw [update_self]
      exact hq
    cases label with
    | none =>
      refine ⟨(hpush.insertAfter f b.next).setSuccessor List.mem_cons_self sel, hext,
        ⟨b.next, ?_, Nat.lt_succ_self _, hstart⟩, fun s hs ↦ ?_, ?_, rfl⟩
      · simp [Builder.setSuccessor, Builder.modify]
      · simp [Builder.setSuccessor, Builder.modify, slot_setSuccessor_of_ne _ _ hs,
          Builder.insertAfter, Builder.push, Builder.alloc, hne]
      · simp [Builder.setSuccessor, Builder.modify, Builder.insertAfter, Builder.push,
          Builder.alloc, hne]
    | some l =>
      refine ⟨Graph.setSuccessor ((hpush.insertAfter f b.next).setLabel (l := l)
        (Nat.lt_succ_self _) ?_) List.mem_cons_self sel, hext,
        ⟨b.next, ?_, Nat.lt_succ_self _, hstart⟩, fun s hs ↦ ?_, ?_, rfl⟩
      · rw [update_self, ← hfirst]
        rfl
      · simp [Builder.setSuccessor, Builder.modify]
      · simp [Builder.setSuccessor, Builder.modify, slot_setSuccessor_of_ne _ _ hs,
          Builder.insertAfter, Builder.push, Builder.alloc, hne]
      · simp [Builder.setSuccessor, Builder.modify, Builder.insertAfter, Builder.push,
          Builder.alloc, hne]

structure EdgeFrom (tr : Trace) (done : List BlockId) (b b' : Builder) (e : FragmentId)
    (start start' : FragmentId → Option InstrId) (rank rank' : FragmentId → ℕ)
    (os : List FragmentId) : Prop where
  graph : Graph tr done start' rank' b' os
  ext : Extends b.next start start' rank rank' b'.next
  heap : ∀ k < b.next, b'.heap k = b.heap k
  lists : b'.lists = b.lists
  lt : e < b'.next
  start : start' e = none

structure Opened (tr : Trace) (done : List BlockId) (b b' : Builder) (x : Fragment)
    (start start' : FragmentId → Option InstrId) (rank rank' : FragmentId → ℕ)
    (os : List FragmentId) (p : Option InstrId) (k : ℕ) : Prop where
  graph : Graph tr done start' rank' b' (b.next :: os)
  ext : Extends b.next start start' rank rank' b'.next
  lt : b.next < b'.next
  new : b'.heap b.next = x
  old : ∀ f < b.next, b'.heap f = b.heap f
  lists : b'.lists = b.lists
  start : start' b.next = p
  rank : rank' b.next = k

theorem Graph.opens (h : Graph tr done start rank b os) (x : Fragment) (hx : x.moved = [])
    (p : Option InstrId) (k : ℕ) :
    ∃ start' rank', Opened tr done b (b.alloc x) x start start' rank rank' os p k :=
  ⟨_, _, h.alloc x hx p k, ⟨Nat.le_succ _, fun _ hg ↦ update_of_ne hg.ne _ _,
    fun _ hg ↦ update_of_ne hg.ne _ _⟩, Nat.lt_succ_self _, update_self _ _ _,
    fun _ hg ↦ update_of_ne hg.ne _ _, rfl, update_self _ _ _, update_self _ _ _⟩

/-- A fragment with the contents `x` that is outside the trace. -/
structure Outside (b : Builder) (start : FragmentId → Option InstrId) (f : FragmentId)
    (x : Fragment) : Prop where
  lt : f < b.next
  heap : b.heap f = x
  start : start f = none

theorem Opened.outside {x : Fragment} {k : ℕ}
    (h : Opened tr done b b' x start start' rank rank' os none k) :
    Outside b' start' b.next x :=
  ⟨h.lt, h.new, h.start⟩

theorem Opened.keeps {x y : Fragment} {p : Option InstrId} {k : ℕ}
    (h : Opened tr done b b' x start start' rank rank' os p k) (hf : Outside b start f y) :
    Outside b' start' f y :=
  ⟨hf.lt.trans_le h.ext.le, (h.old f hf.lt).trans hf.heap, (h.ext.start f hf.lt).trans hf.start⟩

theorem Graph.closeOutside (h : Graph tr done start rank b (f :: os)) {x : Fragment}
    (hf : Outside b start f x) (hm : x.moved = [])
    (hsucc : ∀ g ∈ x.successors, ∃ y, Outside b start g y) : Graph tr done start rank b os := by
  rw [← hf.heap] at hm hsucc
  refine h.close (fun s g hg ↦ ?_) (.inr ⟨?_, fun g hg ↦ ?_, .inl ?_⟩)
  · obtain ⟨y, hy⟩ := hsucc g (mem_successors.mpr ⟨s, hg⟩)
    exact hy.lt
  · simp only [Builder.flow, hm, List.filter_nil]
  · obtain ⟨y, hy⟩ := hsucc g hg
    rw [hf.start, hy.start]
  · rw [hf.start]
    rfl

theorem EdgeFrom.append {e : FragmentId} (h : EdgeFrom tr done b b' e start start' rank rank' os)
    (f : FragmentId) : EdgeFrom tr done b (b'.append f) e start start' rank rank' os :=
  ⟨h.graph.append f, h.ext, h.heap, h.lists, h.lt, h.start⟩

theorem EdgeFrom.union {e : FragmentId} (h : EdgeFrom tr done b b' e start start' rank rank' os)
    (f g : FragmentId) : EdgeFrom tr done b (b'.union f g) e start start' rank rank' os :=
  ⟨h.graph.union f g, h.ext, h.heap, h.lists, h.lt, h.start⟩

theorem Graph.addIndirectEdge (h : Graph tr done start rank b os) (pred : FragmentId) (i : InstrId)
    (t : BlockId) : ∃ start' rank', EdgeFrom tr done b (addIndirectEdge tr b pred i t).2
      (addIndirectEdge tr b pred i t).1 start start' rank rank' os := by
  let md := tr.unsafeMetaData t
  let n := b.next
  let inEdge := edgeFragment .hot md [.indirectEdge i] none (some (n + 1))
  let goToGranary := edgeFragment .edge md [.generated] (some (n + 2)) none
  let compareTarget := edgeFragment .edge md [.generated] (some (n + 3)) (some (n + 1))
  let exitToBlock : Fragment :=
    { cls := .exit, cache := .edge, blockMeta := md, instrs := [.generated] }
  obtain ⟨s₁, r₁, h₁⟩ := h.opens inEdge rfl none 0
  obtain ⟨s₂, r₂, h₂⟩ := h₁.graph.opens goToGranary rfl none 0
  obtain ⟨s₃, r₃, h₃⟩ := h₂.graph.opens compareTarget rfl none 0
  obtain ⟨s₄, r₄, h₄⟩ := h₃.graph.opens exitToBlock rfl none 0
  have hedge : BuildFragmentList.addIndirectEdge tr b pred i t = (n,
      (((((((((((b.alloc inEdge).alloc goToGranary).alloc compareTarget).alloc exitToBlock).append
        n).append (n + 1)).append (n + 2)).append (n + 3)).union n pred).union (n + 1) pred).union
          (n + 2) pred)) := rfl
  have hn₁ : (b.alloc inEdge).next = n + 1 := rfl
  have hn₂ : ((b.alloc inEdge).alloc goToGranary).next = n + 2 := rfl
  have hn₃ : (((b.alloc inEdge).alloc goToGranary).alloc compareTarget).next = n + 3 := rfl
  rw [hedge]
  generalize (((b.alloc inEdge).alloc goToGranary).alloc compareTarget).alloc exitToBlock = b₄
    at h₄ ⊢
  generalize ((b.alloc inEdge).alloc goToGranary).alloc compareTarget = b₃ at h₃ h₄ hn₃
  generalize (b.alloc inEdge).alloc goToGranary = b₂ at h₂ h₃ h₄ hn₂
  generalize b.alloc inEdge = b₁ at h₁ h₂ h₃ h₄ hn₁
  have hin := h₄.keeps (h₃.keeps (h₂.keeps h₁.outside))
  have hgo := h₄.keeps (h₃.keeps h₂.outside)
  have hcompare := h₄.keeps h₃.outside
  have hexit := h₄.outside
  have hgraph := h₄.graph
  rw [hn₁] at hgo hgraph
  rw [hn₂] at hcompare hgraph
  rw [hn₃] at hexit hgraph
  have hext := ((h₁.ext.trans h₂.ext).trans h₃.ext).trans h₄.ext
  have hclosed : Graph tr done s₄ r₄ b₄ os := by
    refine (((hgraph.closeOutside hexit rfl ?_).closeOutside hcompare rfl ?_).closeOutside hgo rfl
      ?_).closeOutside hin rfl ?_
    · exact fun g hg ↦ absurd hg List.not_mem_nil
    · intro g hg
      rcases List.mem_cons.mp hg with rfl | hg
      · exact ⟨_, hexit⟩
      · rw [List.mem_singleton.mp hg]
        exact ⟨_, hgo⟩
    · intro g hg
      rw [List.mem_singleton.mp hg]
      exact ⟨_, hcompare⟩
    · intro g hg
      rw [List.mem_singleton.mp hg]
      exact ⟨_, hgo⟩
  have hold (k : FragmentId) (hk : k < b.next) : b₄.heap k = b.heap k := by
    have hk₁ := hk.trans_le h₁.ext.le
    have hk₂ := hk₁.trans_le h₂.ext.le
    have hk₃ := hk₂.trans_le h₃.ext.le
    exact (((h₄.old k hk₃).trans (h₃.old k hk₂)).trans (h₂.old k hk₁)).trans (h₁.old k hk)
  have hlists : b₄.lists = b.lists := ((h₄.lists.trans h₃.lists).trans h₂.lists).trans h₁.lists
  have hfrom : EdgeFrom tr done b b₄ n start s₄ rank r₄ os :=
    ⟨hclosed, hext, hold, hlists, hin.lt, hin.start⟩
  have hlisted := (((hfrom.append n).append (n + 1)).append (n + 2)).append (n + 3)
  exact ⟨s₄, r₄, ((hlisted.union n pred).union (n + 1) pred).union (n + 2) pred⟩

theorem flow_label (hl : tr.instr l = .label) : Leads tr.flow (some l) [] (tr.next l) := by
  have hflow : tr.flow (some l) = ([], [tr.next l]) := by
    simp [Trace.flow, Trace.successors, hl, Instruction.isKept, Instruction.isNative]
  have hlead := Leads.single (S := tr.flow) (p := some l) (q := tr.next l) (by rw [hflow])
  rwa [hflow] at hlead

theorem Graph.processJump (h : Graph tr tr.blocks start rank b (f :: os)) (i : InstrId) {ind : Bool}
    {t : BlockId} (ht : ind = false → tr.HasFragment t) :
    ∃ start' rank', Linked tr tr.blocks b (processJump tr b f i ind t) start start' rank rank' f os
      .fallThrough (if ind then none else tr.start t) := by
  have hlt := h.lt f List.mem_cons_self
  cases ind with
  | true =>
    obtain ⟨start', rank', hedge⟩ := h.addIndirectEdge f i t
    have hjump : BuildFragmentList.processJump tr b f i true t =
        (BuildFragmentList.addIndirectEdge tr b f i t).2.setSuccessor f .fallThrough
          (BuildFragmentList.addIndirectEdge tr b f i t).1 := rfl
    rw [hjump]
    generalize BuildFragmentList.addIndirectEdge tr b f i t = edge at hedge ⊢
    have hheap := hedge.heap f hlt
    refine ⟨start', rank', hedge.graph.setSuccessor List.mem_cons_self .fallThrough, hedge.ext,
      ⟨_, ?_, hedge.lt, ?_⟩, fun s hs ↦ ?_, ?_, hedge.lists⟩
    · simp [Builder.setSuccessor, Builder.modify]
    · rw [hedge.start]
      exact .refl _
    · simp [Builder.setSuccessor, Builder.modify, slot_setSuccessor_of_ne _ _ hs, hheap]
    · simp [Builder.setSuccessor, Builder.modify, hheap]
  | false =>
    obtain ⟨g, hg⟩ := Option.ne_none_iff_exists'.mp (h.has t (ht rfl).1 (ht rfl))
    obtain ⟨hg', hs, -⟩ := h.block t g hg
    have hjump : BuildFragmentList.processJump tr b f i false t = b.modify f fun x ↦
        { x with
          attr.canAddSuccToPartition := x.blockMeta == metaOf b (some g)
          fallThrough := some g } := by
      simp [BuildFragmentList.processJump, hg]
    rw [hjump]
    refine ⟨start, rank, h.modify List.mem_cons_self _ rfl, .refl _, ⟨g, ?_, hg', ?_⟩,
      fun s hs ↦ ?_, ?_, rfl⟩
    · simp [Builder.modify, Fragment.slot]
    · rw [hs]
      exact .refl _
    · cases s with
      | fallThrough => exact absurd rfl hs
      | branch => simp [Builder.modify, Fragment.slot]
    · simp [Builder.modify, Fragment.moved]

theorem Graph.processTwoWayCFITail (h : Graph tr tr.blocks start rank b (f :: os))
    (hjump : ∀ j ind t, tr.next i = some j → tr.instr j = .cfi .jump ind t → ind = false →
      tr.HasFragment t) :
    ∃ start' rank', Linked tr tr.blocks b (processTwoWayCFITail tr b f (tr.next i)) start start'
      rank rank' f os .fallThrough (tr.next i) := by
  unfold BuildFragmentList.processTwoWayCFITail
  split
  · rename_i j ind t hj
    obtain ⟨k, hk, he⟩ := Option.map_eq_some_iff.mp hj
    obtain ⟨rfl, hinstr⟩ := Prod.mk.inj he
    obtain ⟨start', rank', hlink⟩ := h.processJump k (hjump k ind t hk hinstr)
    refine ⟨start', rank', hlink.of_leads ?_⟩
    have hflow : tr.flow (some k) = ([], [if ind then none else tr.start t]) := by
      simp [Trace.flow, Trace.successors, hinstr, Instruction.isKept]
    have hlead := Leads.single (S := tr.flow) (p := some k) (by rw [hflow])
    rw [hflow] at hlead
    rw [hk]
    exact hlead
  · exact h.addBlockTail none _ .fallThrough (fun l hl ↦ absurd hl (Option.some_ne_none l).symm) (.refl _)

theorem Graph.addFallThrough (h : Graph tr done start rank b (f :: os))
    (hn : ∀ l, tr.next i = some l → tr.instr l = .label → b.labelFragment l = none →
      nextInstr tr b l = tr.next l) :
    ∃ start' rank', Linked tr done b (addFallThrough tr b f (tr.next i)) start start' rank rank' f
      os .fallThrough (tr.next i) := by
  unfold BuildFragmentList.addFallThrough asLabel
  split
  · rename_i l hl
    obtain ⟨hnext, hlab⟩ := Option.filter_eq_some_iff.mp hl
    have hlab : tr.instr l = .label := by simpa using hlab
    have hbump : Graph tr done start rank
        { b with data := update b.data l (b.data l + 1) } (f :: os) := { h with }
    obtain ⟨start', rank', hlink⟩ := hbump.addBlockTail (q := some l) (some l) _ .fallThrough
      (fun l' (hl' : some l = some l') hfrag ↦ show nextInstr tr b l = tr.next l' by
        obtain rfl := Option.some.inj hl'
        exact hn l hnext hlab hfrag) (flow_label hlab)
    refine ⟨start', rank', ?_⟩
    rw [hnext]
    exact { hlink with }
  · exact h.addBlockTail none _ .fallThrough (fun l hl ↦ absurd hl (Option.some_ne_none l).symm) (.refl _)

end Graph

end Granary.Assemble.BuildFragmentList
