import Granary.Assemble.BuildFragmentList.Flow

namespace Granary.Assemble.BuildFragmentList

open Function Granary.Base.Language
open Granary.Code (FragmentId Slot)

/-- The fragment that is being built stands for the code up to `p`. -/
structure Partial (tr : Trace) (start : FragmentId → Option InstrId) (rank : FragmentId → ℕ)
    (b : Builder) (f : FragmentId) (p : Option InstrId) : Prop where
  graph : Graph tr tr.blocks start rank b [f]
  path : Leads tr.flow (start f) (b.flow tr f).1 p
  slots : ∀ s, (b.heap f).slot s = none

/-- The same, with the last instruction `i` in the fragment, which may branch. -/
structure Ended (tr : Trace) (start : FragmentId → Option InstrId) (rank : FragmentId → ℕ)
    (b : Builder) (f : FragmentId) (i : InstrId) (a : Option (Option InstrId)) : Prop where
  graph : Graph tr tr.blocks start rank b [f]
  ends : Ends tr start b f i
  fallThrough : (b.heap f).slot .fallThrough = none
  branch : Goes tr start b f .branch a

/-- A change that neither moves an instruction nor sets a successor. -/
structure SameCode (x y : Fragment) : Prop where
  moved : y.moved = x.moved
  slot : ∀ s, y.slot s = x.slot s

section Step

variable {tr : Trace} {start start' : FragmentId → Option InstrId} {rank rank' : FragmentId → ℕ}
  {b b' : Builder} {f k : FragmentId} {i : InstrId} {p : Option InstrId} {s : Slot}
  {a : Option (Option InstrId)} {g : Fragment → Fragment}

theorem slot_eq_none (x : Fragment) (h₁ : x.fallThrough = none) (h₂ : x.branch = none) (s : Slot) :
    x.slot s = none := by
  cases s with
  | fallThrough => exact h₁
  | branch => exact h₂

theorem flow_moveInstr (tr : Trace) (b : Builder) (f : FragmentId) (i : InstrId) :
    ((moveInstr tr b f i).flow tr f).1 =
      (b.flow tr f).1 ++ if (tr.instr i).isNative then [i] else [] := by
  simp only [Builder.flow, moveInstr, Builder.modify, update_self, Fragment.moved,
    List.filterMap_append, List.filter_append]
  congr 1
  cases h : (tr.instr i).isNative <;> simp [Item.instr?, h]

theorem slot_moveInstr (tr : Trace) (b : Builder) (f : FragmentId) (i : InstrId)
    (k : FragmentId) (s : Slot) :
    ((moveInstr tr b f i).heap k).slot s = (b.heap k).slot s := by
  simp only [moveInstr, Builder.modify, update_apply]
  split_ifs with hk
  · subst hk
    cases s <;> rfl
  · rfl

theorem Goes.move (h : Goes tr start b f s a) : Goes tr start (moveInstr tr b f i) f s a := by
  cases a with
  | none => exact (slot_moveInstr tr b f i f s).trans h
  | some q =>
    obtain ⟨k, hk, hlt, hlead⟩ := h
    exact ⟨k, (slot_moveInstr tr b f i f s).trans hk, hlt, hlead⟩

theorem SameCode.of_eq {x y : Fragment} (h₁ : y.instrs = x.instrs)
    (h₂ : y.fallThrough = x.fallThrough) (h₃ : y.branch = x.branch) : SameCode x y where
  moved := congrArg (List.filterMap Item.instr?) h₁
  slot s := by
    cases s with
    | fallThrough => exact h₂
    | branch => exact h₃

theorem SameCode.heap (hg : SameCode (b.heap f) (g (b.heap f))) (k : FragmentId) :
    SameCode (b.heap k) ((b.modify f g).heap k) := by
  simp only [Builder.modify, update_apply]
  split_ifs with hk
  · subst hk
    exact hg
  · exact ⟨rfl, fun _ ↦ rfl⟩

theorem Goes.modify (h : Goes tr start b f s a) (hg : SameCode (b.heap k) (g (b.heap k))) :
    Goes tr start (b.modify k g) f s a := by
  have hslot := (hg.heap f).slot s
  cases a with
  | none => exact hslot.trans h
  | some q =>
    obtain ⟨f', hf, hlt, hlead⟩ := h
    exact ⟨f', hslot.trans hf, hlt, hlead⟩

theorem ends_moveInstr (hpath : Leads tr.flow (start f) (b.flow tr f).1 (some i))
    (hkept : (tr.instr i).isKept = (tr.instr i).isNative) :
    Ends tr start (moveInstr tr b f i) f i := by
  refine ⟨_, hpath, ?_⟩
  rw [flow_moveInstr, Trace.flow, hkept]

namespace Partial

theorem modify (h : Partial tr start rank b f p) (hg : SameCode (b.heap f) (g (b.heap f))) :
    Partial tr start rank (b.modify f g) f p where
  graph := h.graph.modify List.mem_cons_self g hg.moved
  path := by
    simp only [Builder.flow, (hg.heap f).moved]
    exact h.path
  slots s := ((hg.heap f).slot s).trans (h.slots s)

theorem ended (h : Partial tr start rank b f (some i)) (hkept : (tr.instr i).isKept = false) :
    Ended tr start rank b f i none where
  graph := h.graph
  ends := ⟨_, h.path, by simp [Trace.flow, hkept]⟩
  fallThrough := h.slots _
  branch := h.slots _

theorem move (h : Partial tr start rank b f (some i)) (hi : i ∈ b.lists (tr.owner i))
    (hnodup : (b.lists (tr.owner i)).Nodup)
    (hkept : (tr.instr i).isKept = (tr.instr i).isNative) :
    Ended tr start rank (moveInstr tr b f i) f i none where
  graph := h.graph.move List.mem_cons_self hi hnodup
  ends := ends_moveInstr h.path hkept
  fallThrough := (slot_moveInstr tr b f i f _).trans (h.slots _)
  branch := (slot_moveInstr tr b f i f _).trans (h.slots _)

end Partial

namespace Ended

theorem next (h : Ended tr start rank b f i none) (hs : tr.successors i = [p]) :
    Partial tr start rank b f p ∧ Passes tr.flow (start f) (b.flow tr f).1 p := by
  obtain ⟨es, hlead, hsaid⟩ := h.ends
  have hpass : Passes tr.flow (start f) (b.flow tr f).1 p := hsaid ▸ hlead.snoc hs
  refine ⟨⟨h.graph, hpass.leads, fun s ↦ ?_⟩, hpass⟩
  cases s with
  | fallThrough => exact h.fallThrough
  | branch => exact h.branch

theorem modify (h : Ended tr start rank b f i a) (hg : SameCode (b.heap f) (g (b.heap f))) :
    Ended tr start rank (b.modify f g) f i a where
  graph := h.graph.modify List.mem_cons_self g hg.moved
  ends := by
    obtain ⟨es, hlead, hsaid⟩ := h.ends
    refine ⟨es, hlead, ?_⟩
    rw [← hsaid]
    simp only [Builder.flow, (hg.heap f).moved]
  fallThrough := ((hg.heap f).slot _).trans h.fallThrough
  branch := h.branch.modify hg

theorem insertAfter (h : Ended tr start rank b f i a) (k k' : FragmentId) :
    Ended tr start rank (b.insertAfter k k') f i a :=
  ⟨h.graph.insertAfter k k', h.ends, h.fallThrough, by cases a <;> exact h.branch⟩

theorem union (h : Ended tr start rank b f i a) (k k' : FragmentId) :
    Ended tr start rank (b.union k k') f i a :=
  ⟨h.graph.union k k', h.ends, h.fallThrough, by cases a <;> exact h.branch⟩

theorem stop (h : Ended tr start rank b f i none) (hs : tr.successors i = []) :
    Graph tr tr.blocks start rank b [] :=
  h.graph.finish h.ends (a := none) (c := none) hs h.fallThrough h.branch

theorem finish (h : Ended tr start rank b f i a)
    (hlink : Linked tr tr.blocks b b' start start' rank rank' f [] .fallThrough p)
    (hs : tr.successors i = p :: a.toList) : Graph tr tr.blocks start' rank' b' [] :=
  hlink.graph.finish (hlink.ends h.graph h.ends) (a := some p) hs hlink.goes
    (hlink.other (by decide) h.branch)

theorem setBranch (h : Ended tr start rank b f i none) (hk : k < b.next)
    (hlead : Leads tr.flow p [] (start k)) :
    Ended tr start rank (b.setSuccessor f .branch k) f i (some p) := by
  have hself : (b.setSuccessor f .branch k).heap f = (b.heap f).setSuccessor .branch k := by
    simp [Builder.setSuccessor, Builder.modify]
  refine ⟨h.graph.setSuccessor List.mem_cons_self .branch, ?_, ?_, ⟨k, ?_, hk, hlead⟩⟩
  · obtain ⟨es, hlead, hsaid⟩ := h.ends
    refine ⟨es, hlead, ?_⟩
    rw [← hsaid]
    simp only [Builder.flow, hself, moved_setSuccessor]
  · rw [hself, slot_setSuccessor_of_ne _ _ (by decide)]
    exact h.fallThrough
  · rw [hself, slot_setSuccessor]

end Ended

def Builder.follow (b : Builder) (f : FragmentId) (x : Fragment) : Builder :=
  (b.alloc x).setSuccessor f .fallThrough b.next

theorem Partial.follow (h : Partial tr start rank b f p) (hr : rank f = 1) (x : Fragment)
    (hx : x.moved = []) (hslots : ∀ s, x.slot s = none) :
    ∃ start' rank', Partial tr start' rank' (b.follow f x) b.next p := by
  have hlt := h.graph.lt f List.mem_cons_self
  have hne : b.next ≠ f := hlt.ne'
  obtain ⟨start', rank', ho⟩ := h.graph.opens x hx p 0
  have hself : (b.follow f x).heap f = (b.heap f).setSuccessor .fallThrough b.next := by
    simp [Builder.follow, Builder.setSuccessor, Builder.modify, Builder.alloc, hne.symm]
  have hnew : (b.follow f x).heap b.next = x := by
    simp [Builder.follow, Builder.setSuccessor, Builder.modify, Builder.alloc, hne]
  have hgraph : Graph tr tr.blocks start' rank' (b.follow f x) [f, b.next] :=
    (ho.graph.setSuccessor (List.mem_cons_of_mem _ List.mem_cons_self) .fallThrough).perm
      (List.Perm.swap _ _ _)
  have hsaid : ((b.follow f x).flow tr f).1 = (b.flow tr f).1 := by
    simp only [Builder.flow, hself, moved_setSuccessor]
  have hstart : start' f = start f := ho.ext.start f hlt
  refine ⟨start', rank', hgraph.handOver ?_ ?_ ho.lt ?_ ?_, ?_, fun s ↦ ?_⟩
  · rw [hsaid, hstart, ho.start]
    exact h.path
  · rw [ho.ext.rank f hlt, ho.rank, hr]
    exact Nat.zero_lt_one
  · rw [hself, slot_setSuccessor]
  · rw [hself, slot_setSuccessor_of_ne _ _ (by decide)]
    exact h.slots .branch
  · simp only [Builder.flow, hnew, hx, ho.start, List.filter_nil]
    exact .refl p
  · rw [hnew]
    exact hslots s

theorem Partial.insertAfter (h : Partial tr start rank b f p) (k k' : FragmentId) :
    Partial tr start rank (b.insertAfter k k') f p :=
  ⟨h.graph.insertAfter k k', h.path, h.slots⟩

theorem moveInstr_follow (hf : f < b.next) (x : Fragment) :
    moveInstr tr (b.follow f x) b.next i =
      (moveInstr tr (b.alloc x) b.next i).setSuccessor f .fallThrough b.next := by
  have hne : b.next ≠ f := hf.ne'
  simp only [moveInstr, Builder.follow, Builder.setSuccessor, Builder.modify, Builder.alloc,
    update_of_ne hne, update_of_ne hne.symm, update_self, update_idem]
  rw [update_comm hne, update_idem, update_comm hne]

theorem modify_alloc (hf : f < b.next) (x : Fragment) (g : Fragment → Fragment) :
    (b.alloc x).modify f g = (b.modify f g).alloc x := by
  have hne : b.next ≠ f := hf.ne'
  simp only [Builder.modify, Builder.alloc, update_of_ne hne.symm]
  rw [update_comm hne]

/-- What the builder knows of the instruction that it is at. -/
structure At (tr : Trace) (b : Builder) (i : InstrId) : Prop where
  mem : i ∈ b.lists (tr.owner i)
  nodup : (b.lists (tr.owner i)).Nodup
  code : i ∈ tr.code (tr.owner i)

theorem Partial.makeCFIFrag (h : Partial tr start rank b f (some i)) (hr : rank f = 1)
    (hi : At tr b i) (hkept : (tr.instr i).isKept = (tr.instr i).isNative) (call : Bool) :
    ∃ start' rank', Ended tr start' rank' (makeCFIFrag tr b f i call).2
      (makeCFIFrag tr b f i call).1 i none := by
  have hlt := h.graph.lt f List.mem_cons_self
  obtain ⟨start', rank', hp⟩ := (h.modify (g := Fragment.denySuccessors) (.of_eq rfl rfl rfl)).follow hr
    { kind := .app
      blockMeta := (b.heap f).blockMeta
      attr := { hasNativeInstrs := true, branchIsFunctionCall := call,
                canAddSuccToPartition := false, canAddPredToPartition := false } }
    rfl (slot_eq_none _ rfl rfl)
  have hend := (hp.insertAfter f b.next).move hi.mem hi.nodup hkept
  refine ⟨start', rank', ?_⟩
  unfold Builder.follow at hend
  rw [← modify_alloc hlt] at hend
  exact hend

theorem Partial.own (h : Partial tr start rank b f (some i)) (hr : rank f = 1) (hi : At tr b i)
    (hkept : (tr.instr i).isKept = (tr.instr i).isNative) (x : Fragment) (hx : x.moved = [])
    (hslots : ∀ s, x.slot s = none) :
    ∃ start' rank', Ended tr start' rank'
      ((moveInstr tr (b.alloc x) b.next i).setSuccessor f .fallThrough b.next) b.next i none := by
  obtain ⟨start', rank', hp⟩ := h.follow hr x hx hslots
  refine ⟨start', rank', ?_⟩
  rw [← moveInstr_follow (h.graph.lt f List.mem_cons_self)]
  exact hp.move hi.mem hi.nodup hkept

/-- Nothing is being built, and the fragments stand for their code. -/
def Built (tr : Trace) (b : Builder) : Prop := ∃ start rank, Graph tr tr.blocks start rank b []

theorem Ended.twoWay (h : Ended tr start rank b f i a) (ht : tr.WellFormed)
    (hs : tr.successors i = tr.next i :: a.toList) :
    Built tr (processTwoWayCFITail tr b f (tr.next i)) := by
  obtain ⟨start', rank', hlink⟩ := h.graph.processTwoWayCFITail (i := i) fun j ind t hj hinstr hind ↦
    ht.direct _ j (ht.next_mem hj).1 _ _ _ hinstr (.inr ⟨.inl rfl, hind⟩)
  exact ⟨start', rank', h.finish hlink hs⟩

theorem Ended.extend (h : Ended tr start rank b f i none)
    (hgraph : Graph tr tr.blocks start' rank' b' [f])
    (hext : Extends b.next start start' rank rank' b'.next) (hheap : b'.heap f = b.heap f) :
    Ended tr start' rank' b' f i none := by
  refine ⟨hgraph, ?_, ?_, ?_⟩
  · obtain ⟨es, hlead, hsaid⟩ := h.ends
    refine ⟨es, ?_, ?_⟩
    · rw [hext.start f (h.graph.lt f List.mem_cons_self)]
      exact hlead
    · rw [← hsaid]
      simp only [Builder.flow, hheap]
  · rw [hheap]
    exact h.fallThrough
  · have hbranch : (b.heap f).slot .branch = none := h.branch
    have hsame : (b'.heap f).slot .branch = none := hheap.symm ▸ hbranch
    exact hsame

theorem Graph.exists_block {os : List FragmentId} {t : BlockId}
    (h : Graph tr tr.blocks start rank b os) (ht : tr.HasFragment t) :
    ∃ k, b.blockFragment t = some k ∧ k < b.next ∧ start k = tr.start t ∧ rank k ≤ 1 := by
  obtain ⟨k, hk⟩ := Option.ne_none_iff_exists'.mp (h.has t ht.1 ht)
  exact ⟨k, hk, h.block t k hk⟩

theorem Ended.toBlock {t : BlockId} (h : Ended tr start rank b f i none) (ht : tr.WellFormed)
    (hfrag : tr.HasFragment t) (hs : tr.successors i = [tr.next i, tr.start t]) :
    Built tr (processTwoWayCFITail tr (b.modify f fun x ↦ { x with branch := b.blockFragment t }) f
      (tr.next i)) := by
  obtain ⟨k, hk, hlt, hstart, -⟩ := h.graph.exists_block hfrag
  rw [hk]
  exact (h.setBranch hlt (p := tr.start t) (hstart ▸ .refl _)).twoWay ht hs

theorem Partial.processCFI (h : Partial tr start rank b f (some i)) (hr : rank f = 1)
    (hi : At tr b i) (ht : tr.WellFormed) {kind : CFIKind} {ind : Bool} {t : BlockId}
    (hinstr : tr.instr i = .cfi kind ind t) :
    Built tr (processCFI tr b f i kind ind t (tr.next i)) := by
  have hlt := h.graph.lt f List.mem_cons_self
  have hdirect := ht.direct _ i hi.code kind ind t hinstr
  cases kind with
  | jump =>
    obtain ⟨start', rank', hlink⟩ := h.graph.processJump i fun hind ↦
      hdirect (.inr ⟨.inl rfl, hind⟩)
    refine ⟨start', rank', (h.ended (by simp [hinstr, Instruction.isKept])).finish hlink ?_⟩
    simp [Trace.successors, hinstr]
  | functionCall =>
    obtain ⟨s₁, r₁, hend⟩ := h.makeCFIFrag hr hi
      (by simp [hinstr, Instruction.isKept, Instruction.isNative]) true
    simp only [BuildFragmentList.processCFI]
    generalize BuildFragmentList.makeCFIFrag tr b f i true = r at hend ⊢
    cases ind with
    | true =>
      have hedge := (hend.modify (g := fun x ↦ { x with attr.canAddPredToPartition := true })
        (.of_eq rfl rfl rfl)).union f r.1
      obtain ⟨s₂, r₂, he⟩ := hedge.graph.addIndirectEdge r.1 i t
      have hext := hedge.extend he.graph he.ext (he.heap _ (hedge.graph.lt _ List.mem_cons_self))
      have hlast := hext.setBranch he.lt (p := none) (he.start ▸ .refl _)
      exact hlast.twoWay ht (by simp [Trace.successors, hinstr])
    | false =>
      exact hend.toBlock ht (hdirect (.inr ⟨.inr rfl, rfl⟩)) (by simp [Trace.successors, hinstr])
  | conditionalJump =>
    obtain ⟨s₁, r₁, hend⟩ := h.makeCFIFrag hr hi
      (by simp [hinstr, Instruction.isKept, Instruction.isNative]) false
    simp only [BuildFragmentList.processCFI]
    generalize BuildFragmentList.makeCFIFrag tr b f i false = r at hend ⊢
    exact hend.toBlock ht (hdirect (.inl rfl)) (by simp [Trace.successors, hinstr])
  | systemCall | interruptCall =>
    obtain ⟨s₁, r₁, hend⟩ := h.own hr hi
      (by simp [hinstr, Instruction.isKept, Instruction.isNative])
      { attr := { hasNativeInstrs := true, canAddSuccToPartition := false,
                  canAddPredToPartition := false } } rfl (slot_eq_none _ rfl rfl)
    exact (hend.insertAfter f b.next).twoWay ht (by simp [Trace.successors, hinstr])
  | systemReturn | interruptReturn | functionReturn =>
    obtain ⟨s₁, r₁, hend⟩ := h.own hr hi
      (by simp [hinstr, Instruction.isKept, Instruction.isNative])
      { cls := .exit } rfl (slot_eq_none _ rfl rfl)
    exact ⟨s₁, r₁, hend.stop (by simp [Trace.successors, hinstr])⟩

theorem Partial.withBranch (h : Partial tr start rank b f p) (hr : rank f = 1) (isApp : Bool) :
    ∃ start' rank', Partial tr start' rank' (fragmentWithBranch b f isApp).2
      (fragmentWithBranch b f isApp).1 p := by
  unfold fragmentWithBranch
  split_ifs
  · obtain ⟨start', rank', hp⟩ := h.follow hr { blockMeta := (b.heap f).blockMeta } rfl
      (slot_eq_none _ rfl rfl)
    exact ⟨start', rank', hp.insertAfter f b.next⟩
  · exact ⟨start, rank, h⟩

theorem Linked.path {os : List FragmentId} {sel : Slot} {q : Option InstrId} {done : List BlockId}
    (h : Linked tr done b b' start start' rank rank' f os sel q)
    (h₀ : Graph tr done start rank b (f :: os)) (hp : Leads tr.flow (start f) (b.flow tr f).1 p) :
    Leads tr.flow (start' f) (b'.flow tr f).1 p := by
  rw [h.lt h₀]
  simp only [Builder.flow, h.moved]
  exact hp

theorem Graph.moveLast (h : Graph tr tr.blocks start rank b [f])
    (hpath : Leads tr.flow (start f) (b.flow tr f).1 (some i)) (hi : At tr b i)
    (hkept : (tr.instr i).isKept = (tr.instr i).isNative) {c : Option (Option InstrId)}
    (hs : tr.successors i = a.toList ++ c.toList) (h₁ : Goes tr start b f .fallThrough a)
    (h₂ : Goes tr start b f .branch c) :
    Graph tr tr.blocks start rank (moveInstr tr b f i) [] :=
  (h.move List.mem_cons_self hi.mem hi.nodup).finish (ends_moveInstr hpath hkept) hs h₁.move h₂.move

theorem At.congr (h : At tr b i) (hl : b'.lists = b.lists) : At tr b' i :=
  ⟨hl.symm ▸ h.mem, hl.symm ▸ h.nodup, h.code⟩

theorem Partial.processBranch {P : Set InstrId} {kind : BranchKind} {info : NativeInfo}
    {l : InstrId} (h : Partial tr start rank b f (some i)) (hr : rank f = 1) (hi : At tr b i)
    (ht : tr.WellFormed) (hlin : Linear tr b.core P [i]) (hinstr : tr.instr i = .branch kind info l) :
    Built tr (processBranch tr b f i kind info l (tr.next i)) := by
  obtain ⟨hl, hmem, hd⟩ := ht.target _ i hi.code _ _ _ hinstr
  have hkept : (tr.instr i).isKept = (tr.instr i).isNative := by
    simp [hinstr, Instruction.isKept, Instruction.isNative]
  simp only [BuildFragmentList.processBranch]
  generalize (info.isApp && (kind == .conditionalJump || info.writesStackPointer)) = isApp
  obtain ⟨s₀, r₀, hp⟩ := h.withBranch hr isApp
  have hcore : (fragmentWithBranch b f isApp).2.core = b.core := core_fragmentWithBranch isApp
  generalize fragmentWithBranch b f isApp = r at hp hcore ⊢
  replace hp := hp.modify (g := (·.addBranch isApp (kind == .functionCall))) (.of_eq rfl rfl rfl)
  replace hcore : (r.2.modify r.1 (·.addBranch isApp (kind == .functionCall))).core = b.core := hcore
  generalize r.2.modify r.1 (·.addBranch isApp (kind == .functionCall)) = b₀ at hp hcore ⊢
  rw [← hcore] at hlin
  have hi₀ : At tr b₀ i := hi.congr (congrArg Core.lists hcore)
  have hfirst (hn : b₀.labelFragment l = none) : nextInstr tr b₀ l = tr.next l :=
    hlin.next_label ht hl hmem (hlin.data l hd) fun hlab ↦ hlab hn
  obtain ⟨s₁, r₁, hlink⟩ := hp.graph.addBlockTail (q := some l) (some l) _ .branch
    (fun l' hl' hn ↦ by obtain rfl := Option.some.inj hl'; exact hfirst hn) (flow_label hl)
  have hlin₁ := linear_addBlockTail r.1 hlin ht hl hmem (hlin.data l hd) hfirst .branch
  generalize addBlockTailToWorkList b₀ r.1 (some l) (nextInstr tr b₀ l) .branch = b₁
    at hlink hlin₁ ⊢
  have hpath₁ := hlink.path hp.graph hp.path
  have hi₁ := hi₀.congr hlink.lists
  split_ifs with hjump
  · refine ⟨s₁, r₁, hlink.graph.moveLast hpath₁ hi₁ hkept (a := none) (c := some (some l)) ?_
      (hlink.other (a := none) (by decide) (hp.slots _)) hlink.goes⟩
    simp [Trace.successors, hinstr, hjump]
  · obtain ⟨s₂, r₂, hlink₂⟩ := hlink.graph.addFallThrough (i := i) fun m hm hlab hn ↦ by
      have hnot := (hlin₁.next_new (hlin₁.not_passed (.inl (by simp [hinstr]))) hm).1
      have hpassed : ¬ Passed tr b₁.core P m := by
        unfold Passed
        rw [if_pos hlab]
        exact fun hp ↦ hp.elim (fun hfrag ↦ hfrag hn) fun hp ↦ hnot hp.1
      exact hlin₁.next_eq ht hpassed (hlin₁.labels m (ht.next_mem hm).1 hlab)
    refine ⟨s₂, r₂, hlink₂.graph.moveLast (hlink₂.path hlink.graph hpath₁) (hi₁.congr hlink₂.lists)
      hkept (a := some (tr.next i)) (c := some (some l)) ?_ hlink₂.goes
      (hlink₂.other (by decide) hlink.goes)⟩
    cases kind <;> simp_all [Trace.successors]

theorem moved_emulated {x : Fragment} {l : List Item} (hx : x.instrs = l ++ [.moved i])
    (hl : Item.moved i ∉ l) :
    SameCode x { x with instrs := x.instrs.filter (· ≠ .moved i) ++ [.generated, .moved i] } := by
  have hfilter : l.filter (· ≠ .moved i) = l := by
    rw [List.filter_eq_self]
    exact fun y hy ↦ decide_eq_true fun he ↦ hl (he ▸ hy)
  have hself : [Item.moved i].filter (· ≠ .moved i) = [] := by simp
  refine ⟨?_, fun s ↦ by cases s <;> rfl⟩
  simp only [Fragment.moved, hx, List.filter_append, hfilter, hself, List.append_nil,
    List.filterMap_append]
  rfl

theorem Ended.recover {t : BlockId} {l : List Item} (h : Ended tr start rank b f i none)
    (hlast : (b.heap f).instrs = l ++ [.moved i]) (hl : Item.moved i ∉ l)
    (hfrag : tr.HasFragment t) :
    ∃ start' rank', Ended tr start' rank' (archProcessExceptionalCFI b f i t) f i
      (some (tr.start t)) := by
  have hemul := h.modify (g := fun x ↦
    { x with instrs := x.instrs.filter (· ≠ .moved i) ++ [.generated, .moved i] })
    (moved_emulated hlast hl)
  obtain ⟨k, hk, hlt, hstart, hrank⟩ := hemul.graph.exists_block hfrag
  unfold archProcessExceptionalCFI
  generalize b.modify f (fun x ↦
    { x with instrs := x.instrs.filter (· ≠ .moved i) ++ [.generated, .moved i] }) = b₁
    at hemul hk hlt ⊢
  have hf := hemul.graph.lt f List.mem_cons_self
  let recovery : Fragment :=
    { blockMeta := (b₁.heap f).blockMeta
      stackInvalid := (b₁.heap f).stackInvalid
      kind := .inst
      instrs := [.generated]
      fallThrough := b₁.blockFragment t
      attr := { hasNativeInstrs := true, canAddSuccToPartition := false } }
  obtain ⟨s₂, r₂, ho⟩ := hemul.graph.opens recovery rfl (tr.start t) 2
  have hgraph : Graph tr tr.blocks s₂ r₂ (b₁.alloc recovery) [f] := by
    refine ho.graph.handOver (g := k) ?_ ?_ (hlt.trans ho.lt) ?_ ?_
    · rw [ho.start, ho.ext.start k hlt, hstart]
      simp only [Builder.flow, ho.new]
      exact .refl _
    · rw [ho.rank, ho.ext.rank k hlt]
      omega
    · rw [ho.new]
      exact hk
    · rw [ho.new]
      rfl
  have hrecovery := (hemul.extend hgraph ho.ext (ho.old f hf)).union b₁.next f
  have hbranch := hrecovery.setBranch (p := tr.start t) ho.lt (ho.start ▸ .refl _)
  exact ⟨s₂, r₂, hbranch.insertAfter f b₁.next⟩

theorem Partial.processExceptionalCFI {info : NativeInfo} {t : BlockId}
    (h : Partial tr start rank b f (some i)) (hr : rank f = 1) (hi : At tr b i)
    (ht : tr.WellFormed) (hinstr : tr.instr i = .exceptional info t) :
    Built tr (processExceptionalCFI tr b f i info t (tr.next i)) := by
  have hkept : (tr.instr i).isKept = (tr.instr i).isNative := by
    simp [hinstr, Instruction.isKept, Instruction.isNative]
  have hnot (k : FragmentId) : Item.moved i ∉ (b.heap k).instrs := fun hm ↦
    h.graph.erased k i (List.mem_filterMap.mpr ⟨_, hm, rfl⟩) hi.mem
  have hadd : ∃ s₁ r₁ l, Ended tr s₁ r₁ (addExceptionalInstr tr b f i info).2
      (addExceptionalInstr tr b f i info).1 i none ∧
      ((addExceptionalInstr tr b f i info).2.heap (addExceptionalInstr tr b f i info).1).instrs =
        l ++ [.moved i] ∧ Item.moved i ∉ l := by
    rw [addExceptionalInstr_eq (h.graph.lt f List.mem_cons_self)]
    split_ifs
    · obtain ⟨s₁, r₁, hp⟩ := h.follow hr { blockMeta := (b.heap f).blockMeta } rfl
        (slot_eq_none _ rfl rfl)
      have hend := ((hp.insertAfter f b.next).modify (g := (·.addNative info))
        (.of_eq rfl rfl rfl)).move hi.mem hi.nodup hkept
      refine ⟨s₁, r₁, [], hend, ?_, List.not_mem_nil⟩
      have hne : b.next ≠ f := (h.graph.lt f List.mem_cons_self).ne'
      simp [startExceptional, moveInstr, Builder.modify, Builder.setSuccessor, Builder.insertAfter,
        Builder.alloc, Fragment.addNative, hne]
    · have hend := (h.modify (g := (·.addNative info)) (.of_eq rfl rfl rfl)).move hi.mem hi.nodup
        hkept
      refine ⟨start, rank, (b.heap f).instrs, hend, ?_, hnot f⟩
      simp [moveInstr, Builder.modify, Fragment.addNative]
  simp only [BuildFragmentList.processExceptionalCFI]
  generalize addExceptionalInstr tr b f i info = r at hadd ⊢
  obtain ⟨s₁, r₁, l, hend, hlast, hl⟩ := hadd
  obtain ⟨s₂, r₂, hrec⟩ := hend.recover hlast hl (ht.exceptional _ i hi.code _ _ hinstr)
  obtain ⟨s₃, r₃, hlink⟩ := hrec.graph.addBlockTail none (tr.next i) .fallThrough
    (fun l hl ↦ absurd hl (Option.some_ne_none l).symm) (.refl _)
  exact ⟨s₃, r₃, hrec.finish hlink (by simp [Trace.successors, hinstr])⟩

/-- The fragment of a turn of the work list stands for the code up to `p`, and has come past an
instruction if its kind is known. -/
def Builds (tr : Trace) (b : Builder) (f : FragmentId) (p : Option InstrId) : Prop :=
  ∃ start rank, Partial tr start rank b f p ∧ rank f = 1 ∧
    ((b.heap f).kind ≠ .invalid → Passes tr.flow (start f) (b.flow tr f).1 p)

theorem Ended.goesOn (h : Ended tr start rank b f i none) (hr : rank f = 1)
    (hs : tr.successors i = [p]) : Builds tr b f p :=
  ⟨start, rank, (h.next hs).1, hr, fun _ ↦ (h.next hs).2⟩

theorem Ended.leaveRest (h : Ended tr start rank b f i none) (hs : tr.successors i = [tr.next i]) :
    Built tr (addBlockTailToWorkList b f none (tr.next i) .fallThrough) := by
  obtain ⟨start', rank', hlink⟩ := h.graph.addBlockTail none (tr.next i) .fallThrough
    (fun l hl ↦ absurd hl (Option.some_ne_none l).symm) (.refl _)
  exact ⟨start', rank', h.finish hlink hs⟩

/-- A fragment that has come past an instruction leaves the next one to another fragment. -/
theorem Graph.passOn {os : List FragmentId} (h : Graph tr tr.blocks start rank b (f :: os))
    (hpass : Passes tr.flow (start f) (b.flow tr f).1 p)
    (h₁ : Goes tr start b f .fallThrough (some p)) (h₂ : Goes tr start b f .branch none) :
    Graph tr tr.blocks start rank b os := by
  obtain ⟨r, es, hlead, hsaid, hr⟩ := hpass
  cases r with
  | none => exact absurd hr (List.cons_ne_nil _ _).symm
  | some j => exact h.finish (i := j) ⟨es, hlead, hsaid⟩ (a := some p) (c := none) hr h₁ h₂

theorem Builds.processNativeInstr {info : NativeInfo} (h : Builds tr b f (some i)) (hi : At tr b i)
    (hinstr : tr.instr i = .native info) :
    if (processNativeInstr tr b f i info).2
    then Builds tr (processNativeInstr tr b f i info).1 f (tr.next i)
    else Built tr (processNativeInstr tr b f i info).1 := by
  obtain ⟨start, rank, hp, hr, hpass⟩ := h
  unfold BuildFragmentList.processNativeInstr
  by_cases hsplit : (b.heap f).splits info = true
  · simp only [hsplit, if_true, Bool.false_eq_true, if_false]
    obtain ⟨start', rank', hlink⟩ := hp.graph.addBlockTail none (some i) .fallThrough
      (fun l hl ↦ absurd hl (Option.some_ne_none l).symm) (.refl _)
    have hkind : (b.heap f).kind ≠ .invalid := by
      intro hkind
      simp [Fragment.splits, hkind] at hsplit
    refine ⟨start', rank', hlink.graph.passOn ?_ hlink.goes
      (hlink.other (a := none) (by decide) (hp.slots _))⟩
    rw [hlink.lt hp.graph]
    simp only [Builder.flow, hlink.moved]
    exact hpass hkind
  · simp only [hsplit, if_true, Bool.false_eq_true, if_false]
    have hend := (hp.modify (g := (·.addNative info)) (.of_eq rfl rfl rfl)).move hi.mem hi.nodup
      (by simp [hinstr, Instruction.isKept, Instruction.isNative])
    exact hend.goesOn hr (by simp [Trace.successors, hinstr])

theorem Builds.processLabel {nextI : Option InstrId} (h : Builds tr b f (some i))
    (hinstr : tr.instr i = .label) (hn : b.labelFragment i = none → b.data i ≠ 0 →
      nextI = tr.next i) :
    if (processLabel b f i nextI).2 then Builds tr (processLabel b f i nextI).1 f (tr.next i)
    else Built tr (processLabel b f i nextI).1 := by
  obtain ⟨start, rank, hp, hr, -⟩ := h
  have hs : tr.successors i = [tr.next i] := by simp [Trace.successors, hinstr]
  have hkept : (tr.instr i).isKept = false := by
    simp [hinstr, Instruction.isKept, Instruction.isNative]
  unfold BuildFragmentList.processLabel
  by_cases hd : b.data i = 0
  · simp only [hd, if_true]
    exact (hp.ended hkept).goesOn hr hs
  · simp only [hd, if_false, Bool.false_eq_true]
    have hend := (hp.modify (g := Fragment.endAtLabel) ?_).ended hkept
    · obtain ⟨start', rank', hlink⟩ := hend.graph.addBlockTail (q := tr.next i) (some i)
        nextI .fallThrough (fun l hl hlab ↦ by
          obtain rfl := Option.some.inj hl
          exact hn hlab hd) (.refl _)
      exact ⟨start', rank', hend.finish hlink hs⟩
    · unfold Fragment.endAtLabel
      split_ifs
      · exact .of_eq rfl rfl rfl
      · exact .of_eq rfl rfl rfl

theorem Builds.processAnnotation {x : Annotation} (h : Builds tr b f (some i)) (hi : At tr b i)
    (hinstr : tr.instr i = Instruction.annotation x) :
    if ( processAnnotation tr b f i x (tr.next i)).2
    then Builds tr ( processAnnotation tr b f i x (tr.next i)).1 f (tr.next i)
    else Built tr ( processAnnotation tr b f i x (tr.next i)).1 := by
  obtain ⟨start, rank, hp, hr, -⟩ := h
  have hnative : (tr.instr i).isNative = false := by simp [hinstr, Instruction.isNative]
  have hkept : (tr.instr i).isKept = false := by
    simp [hinstr, Instruction.isKept, Instruction.isNative]
  have hs (hx : x ≠ .endBlock) : tr.successors i = [tr.next i] := by
    simp [Trace.successors, hinstr]
  have hmove := hp.move hi.mem hi.nodup (hkept.trans hnative.symm)
  have hskip {g : Fragment → Fragment} (hg : SameCode (b.heap f) (g (b.heap f))) :=
    (hp.modify hg).ended hkept
  cases x with
  | endBlock => exact ⟨start, rank, (hp.ended hkept).stop (by simp [Trace.successors, hinstr])⟩
  | codeCacheKind k =>
    exact (hskip (g := ({ · with cache := k })) (.of_eq rfl rfl rfl)).goesOn hr (hs (by simp))
  | invalidStack =>
    exact (hskip (g := ({ · with stackInvalid := true })) (.of_eq rfl rfl rfl)).goesOn hr
      (hs (by simp))
  | updateAddressWhenEncoded | condLeaveNativeStack | condEnterNativeStack =>
    exact hmove.goesOn hr (hs (by simp))
  | interruptDeliveryStateChange =>
    exact (hskip (.of_eq rfl rfl rfl)).leaveRest (hs (by simp))
  | contextFunctionCall =>
    obtain ⟨s₁, r₁, hcall⟩ := hp.follow hr { instrs := [.generated] } rfl (slot_eq_none _ rfl rfl)
    exact ((hcall.insertAfter f b.next).ended hkept).leaveRest (hs (by simp))
  | inlineFunctionCall =>
    have hcall : SameCode (b.heap f) { b.heap f with
        attr.hasNativeInstrs := true, instrs := (b.heap f).instrs ++ [.generated] } := by
      refine ⟨?_, fun s ↦ by cases s <;> rfl⟩
      simp [Fragment.moved, Item.instr?]
    exact (hskip (g := fun x ↦
      { x with attr.hasNativeInstrs := true, instrs := x.instrs ++ [.generated] }) hcall).goesOn hr
        (hs (by simp))
  | other => exact (hp.ended hkept).goesOn hr (hs (by simp))

/-- What the builder has built stands for its code after an instruction as it did before. -/
theorem Builds.processInstr {P : Set InstrId} {nextI : Option InstrId} (h : Builds tr b f (some i))
    (ht : tr.WellFormed) (hlin : Linear tr b.core P [i]) (hmem : i ∈ b.lists (tr.owner i))
    (hn : ¬ Passed tr b.core P i → nextI = tr.next i) :
    if (processInstr tr b f i nextI).2 then Builds tr (processInstr tr b f i nextI).1 f (tr.next i)
    else Built tr (processInstr tr b f i nextI).1 := by
  have hi : At tr b i :=
    ⟨hmem, (hlin.sub _).nodup (ht.nodup _), hlin.mem i List.mem_cons_self⟩
  have hnext (hl : tr.instr i ≠ .label) : nextI = tr.next i := hn (hlin.not_passed (.inl hl))
  unfold BuildFragmentList.processInstr
  split
  · rename_i hinstr
    refine h.processLabel hinstr fun hlab hd ↦ hn ?_
    exact Linear.not_passed_label hinstr hd fun hl ↦ hl hlab
  · rename_i x hinstr
    rw [hnext (by simp [hinstr])]
    exact h.processAnnotation hi hinstr
  · rename_i kind info l hinstr
    obtain ⟨start, rank, hp, hr, -⟩ := h
    rw [hnext (by simp [hinstr])]
    exact hp.processBranch hr hi ht hlin hinstr
  · rename_i info t hinstr
    obtain ⟨start, rank, hp, hr, -⟩ := h
    rw [hnext (by simp [hinstr])]
    exact hp.processExceptionalCFI hr hi ht hinstr
  · rename_i kind ind t hinstr
    obtain ⟨start, rank, hp, hr, -⟩ := h
    rw [hnext (by simp [hinstr])]
    exact hp.processCFI hr hi ht hinstr
  · rename_i info hinstr
    exact h.processNativeInstr hi hinstr

end Step

end Granary.Assemble.BuildFragmentList
