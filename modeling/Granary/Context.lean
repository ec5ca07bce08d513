import Granary.Base.Chain

namespace Granary

open Function Granary.Base.Chain

/-- Zero is the null pointer. `dest_block_meta` and `next_patchable` are one and the same `word`. -/
structure DirectEdge where
  entryTargetPC : ℕ
  next : ℕ
  word : ℕ
  edgeCodePC : ℕ
  deriving DecidableEq, Repr

/-- The context, and the part of the heap that it is about: the direct edges at their addresses, and
which addresses are those of the meta-data of a block. -/
structure Context where
  edges : ℕ → Option DirectEdge
  metas : ℕ → Bool
  edgeList : ℕ
  unpatchedEdgeList : ℕ
  patchedEdgeList : ℕ

namespace Context

def empty : Context where
  edges := fun _ ↦ none
  metas := fun _ ↦ false
  edgeList := 0
  unpatchedEdgeList := 0
  patchedEdgeList := 0

def ptr (p : ℕ) : Option ℕ :=
  if p = 0 then none else some p

def set (c : Context) (edge : ℕ) (d : DirectEdge) : Context :=
  { c with edges := update c.edges edge (some d) }

/-- `edge` is where `new` finds room. -/
def allocateDirectEdge (c : Context) (destBlockMeta edge : ℕ) : Context :=
  { c.set edge
      { entryTargetPC := 0, next := c.edgeList, word := destBlockMeta, edgeCodePC := 0 } with
    edgeList := edge }

def preparePatchDirectEdge (c : Context) (edge : ℕ) : Option Context :=
  (c.edges edge).map fun d ↦
    { c.set edge { d with word := c.unpatchedEdgeList } with unpatchedEdgeList := edge }

/-- What is not there cannot be deleted. -/
def deleteMeta (c : Context) (m : ℕ) : Option Context :=
  if c.metas m then some { c with metas := update c.metas m false } else none

def deleteDirectEdge (c : Context) (edge : ℕ) : Option Context := do
  let d ← c.edges edge
  let c ← if d.word = 0 then some c else c.deleteMeta d.word
  return { c with edges := update c.edges edge none }

def unlinkEdgeList (fuel edge : ℕ) (c : Context) : Option Context :=
  drain (fun c edge ↦ (c.edges edge).map fun d ↦ ptr d.word)
    (fun c edge ↦ (c.edges edge).map fun d ↦ c.set edge { d with word := 0 }) fuel (ptr edge) c

def freeEdgeList (fuel edge : ℕ) (c : Context) : Option Context :=
  drain (fun c edge ↦ (c.edges edge).map fun d ↦ ptr d.next) deleteDirectEdge fuel
    (ptr edge) c

/-- What `~Context` does about the direct edges. -/
def destroy (fuel : ℕ) (c : Context) : Option Context := do
  let c ← unlinkEdgeList fuel c.unpatchedEdgeList c
  let c ← unlinkEdgeList fuel c.patchedEdgeList c
  freeEdgeList fuel c.edgeList c

def next (c : Context) (edge : ℕ) : Option ℕ :=
  (c.edges edge).bind fun d ↦ ptr d.next

def nextPatchable (c : Context) (edge : ℕ) : Option ℕ :=
  (c.edges edge).bind fun d ↦ ptr d.word

/-- The edges are those of the list `all`, and those of `unpatched` are linked through the word
that was their meta-data. -/
structure Lists (c : Context) (all unpatched : List ℕ) : Prop where
  path : Path c.next (ptr c.edgeList) all none
  nodup : all.Nodup
  mem : ∀ e, e ∈ all ↔ c.edges e ≠ none
  path_unpatched : Path c.nextPatchable (ptr c.unpatchedEdgeList) unpatched none
  nodup_unpatched : unpatched.Nodup
  sub : ∀ e ∈ unpatched, e ∈ all
  patched : c.patchedEdgeList = 0

variable {c c' : Context} {all unpatched : List ℕ} {e : ℕ} {d d' : DirectEdge}

theorem lists_empty : Lists empty [] [] where
  path := rfl
  nodup := List.nodup_nil
  mem := by simp [empty]
  path_unpatched := rfl
  nodup_unpatched := List.nodup_nil
  sub := by simp
  patched := rfl

@[simp] theorem edges_set : (c.set e d).edges = update c.edges e (some d) :=
  rfl

theorem next_set (he : c.edges e = some d) (hnext : d'.next = d.next) (a : ℕ) :
    (c.set e d').next a = c.next a := by
  rcases eq_or_ne a e with rfl | ha
  · simp [next, he, hnext]
  · simp [next, ha]

theorem nextPatchable_set_of_ne {a : ℕ} (ha : a ≠ e) :
    (c.set e d').nextPatchable a = c.nextPatchable a := by
  simp [nextPatchable, ha]

theorem set_ne_none (he : c.edges e = some d) (a : ℕ) :
    (c.set e d').edges a ≠ none ↔ c.edges a ≠ none := by
  rcases eq_or_ne a e with rfl | ha
  · simp [he]
  · simp [ha]

theorem zero_notMem_path {p : ℕ} {l : List ℕ} {o : Option ℕ} (h : Path c.next (ptr p) l o) :
    0 ∉ l := by
  induction l generalizing p with
  | nil => exact List.not_mem_nil
  | cons a l ih =>
    obtain ⟨hp, hl⟩ := h
    have ha : a ≠ 0 := by
      unfold ptr at hp
      split_ifs at hp with hp0
      exact Option.some_inj.mp hp ▸ hp0
    have hnext : ∃ q, c.next a = ptr q := by
      rw [next]
      cases c.edges a with
      | none => exact ⟨0, rfl⟩
      | some d => exact ⟨d.next, rfl⟩
    obtain ⟨q, hq⟩ := hnext
    rw [hq] at hl
    exact List.not_mem_cons_of_ne_of_not_mem ha.symm (ih hl)

namespace Lists

/-- An edge keeps its place in the list of all, and in the other one if it is there. -/
theorem set (h : Lists c all unpatched) (he : c.edges e = some d) (hnext : d'.next = d.next)
    (hword : e ∈ unpatched → d'.word = d.word) : Lists (c.set e d') all unpatched := by
  have hpatchable : ∀ a ∈ unpatched, (c.set e d').nextPatchable a = c.nextPatchable a := by
    intro a ha
    rcases eq_or_ne a e with rfl | hne
    · simp [nextPatchable, he, hword ha]
    · exact nextPatchable_set_of_ne hne
  exact
    { h with
      path := path_congr (fun a _ ↦ next_set he hnext a) h.path
      mem := fun a ↦ (h.mem a).trans (set_ne_none he a).symm
      path_unpatched := path_congr hpatchable h.path_unpatched }

theorem ne_zero (h : Lists c all unpatched) (he : c.edges e = some d) : e ≠ 0 := by
  have hmem : e ∈ all := (h.mem e).mpr (by rw [he]; exact Option.some_ne_none d)
  exact fun heq ↦ zero_notMem_path h.path (heq ▸ hmem)

theorem congr (h : Lists c all unpatched) (hedges : c'.edges = c.edges)
    (hlist : c'.edgeList = c.edgeList) (hunpatched : c'.unpatchedEdgeList = c.unpatchedEdgeList)
    (hpatched : c'.patchedEdgeList = c.patchedEdgeList) : Lists c' all unpatched := by
  have hnext : c'.next = c.next := by
    funext a
    rw [next, next, hedges]
  have hpatchable : c'.nextPatchable = c.nextPatchable := by
    funext a
    rw [nextPatchable, nextPatchable, hedges]
  exact
    { h with
      path := by rw [hnext, hlist]; exact h.path
      mem := by rw [hedges]; exact h.mem
      path_unpatched := by rw [hpatchable, hunpatched]; exact h.path_unpatched
      patched := by rw [hpatched]; exact h.patched }

theorem allocate (h : Lists c all unpatched) (he : e ≠ 0) (hnew : c.edges e = none) (m : ℕ) :
    Lists (c.allocateDirectEdge m e) (e :: all) unpatched := by
  have hall : e ∉ all := fun hmem ↦ (h.mem e).mp hmem hnew
  have hne : ∀ a ∈ all, a ≠ e := fun a ha heq ↦ hall (heq ▸ ha)
  have hother {a : ℕ} (ha : a ≠ e) : (c.allocateDirectEdge m e).edges a = c.edges a :=
    update_of_ne ha _ _
  refine
    { path := ⟨if_neg he, ?_⟩
      nodup := List.nodup_cons.mpr ⟨hall, h.nodup⟩
      mem := fun a ↦ ?_
      path_unpatched := path_congr (fun a ha ↦ ?_) h.path_unpatched
      nodup_unpatched := h.nodup_unpatched
      sub := fun a ha ↦ List.mem_cons_of_mem e (h.sub a ha)
      patched := h.patched }
  · have hself : (c.allocateDirectEdge m e).next e = ptr c.edgeList := by
      simp [next, allocateDirectEdge]
    rw [hself]
    refine path_congr (fun a ha ↦ ?_) h.path
    rw [next, hother (hne a ha), next]
  · rcases eq_or_ne a e with rfl | ha
    · simp [allocateDirectEdge]
    · rw [hother ha, ← h.mem a, List.mem_cons, or_iff_right ha]
  · rw [nextPatchable, hother (hne a (h.sub a ha)), nextPatchable]

theorem prepare (h : Lists c all unpatched) (he0 : e ≠ 0) (he : c.edges e = some d)
    (hnew : e ∉ unpatched) (hc : c.preparePatchDirectEdge e = some c') :
    Lists c' all (e :: unpatched) := by
  rw [preparePatchDirectEdge, he, Option.map_some, Option.some_inj] at hc
  subst hc
  have hset : Lists (c.set e { d with word := c.unpatchedEdgeList }) all unpatched :=
    h.set he rfl fun hmem ↦ absurd hmem hnew
  refine
    { path := hset.path
      nodup := hset.nodup
      mem := hset.mem
      path_unpatched := ⟨if_neg he0, ?_⟩
      nodup_unpatched := List.nodup_cons.mpr ⟨hnew, h.nodup_unpatched⟩
      sub := List.forall_mem_cons.mpr ⟨(h.mem e).mpr (by rw [he]; simp), h.sub⟩
      patched := h.patched }
  have hself : (c.set e { d with word := c.unpatchedEdgeList }).nextPatchable e =
      ptr c.unpatchedEdgeList := by
    simp [nextPatchable]
  change Path (c.set e { d with word := c.unpatchedEdgeList }).nextPatchable
    ((c.set e { d with word := c.unpatchedEdgeList }).nextPatchable e) unpatched none
  rw [hself]
  exact hset.path_unpatched

end Lists

def Owns (c : Context) (unpatched : List ℕ) (e m : ℕ) : Prop :=
  e ∉ unpatched ∧ m ≠ 0 ∧ ∃ d, c.edges e = some d ∧ d.word = m

structure Owned (c : Context) (unpatched : List ℕ) : Prop where
  live (e m : ℕ) : Owns c unpatched e m → c.metas m = true
  alone (e e' m : ℕ) : Owns c unpatched e m → Owns c unpatched e' m → e = e'

def unlinked (c : Context) (l : List ℕ) : Context :=
  { c with edges := fun a ↦ if a ∈ l then (c.edges a).map ({ · with word := 0 }) else c.edges a }

theorem unlinked_concat {l : List ℕ} (he : c.edges e = some d) :
    (c.unlinked l).set e { d with word := 0 } = c.unlinked (l ++ [e]) := by
  have hedges : update (c.unlinked l).edges e (some { d with word := 0 }) =
      (c.unlinked (l ++ [e])).edges := by
    funext a
    rcases eq_or_ne a e with rfl | ha
    · simp [unlinked, he]
    · simp [unlinked, ha]
  rw [set, hedges]
  rfl

/-- `l` is what is behind the loop of `UnlinkEdgeList`. -/
def Unlinking (c : Context) (unpatched rest : List ℕ) (c' : Context) : Prop :=
  ∃ l, unpatched = l ++ rest ∧ c' = c.unlinked l

theorem Unlinking.turn (h : Lists c all unpatched) {a : ℕ} {rest : List ℕ}
    (hc : Unlinking c unpatched (a :: rest) c') :
    ((c'.edges a).map fun d ↦ ptr d.word) = some rest.head? ∧
      ∃ c'', ((c'.edges a).map fun d ↦ c'.set a { d with word := 0 }) = some c'' ∧
        Unlinking c unpatched rest c'' := by
  obtain ⟨l, hl, rfl⟩ := hc
  have ha : a ∉ l := by
    have hnodup := hl ▸ h.nodup_unpatched
    exact fun hmem ↦ (List.disjoint_of_nodup_append hnodup) hmem List.mem_cons_self
  obtain ⟨d, hd⟩ : ∃ d, c.edges a = some d :=
    Option.ne_none_iff_exists'.mp ((h.mem a).mp (h.sub a (by simp [hl])))
  have hcur : (c.unlinked l).edges a = some d := by simp [unlinked, ha, hd]
  have hnext : ptr d.word = rest.head? := by
    have hpath := path_head (path_next (hl ▸ h.path_unpatched))
    rwa [nextPatchable, hd] at hpath
  refine ⟨by simp [hcur, hnext], _, by rw [hcur, Option.map_some], l ++ [a], by simp [hl], ?_⟩
  exact unlinked_concat hd

theorem unlinkEdgeList_eq (h : Lists c all unpatched) {fuel : ℕ} (hfuel : unpatched.length ≤ fuel) :
    unlinkEdgeList fuel c.unpatchedEdgeList c = some (c.unlinked unpatched) := by
  have hstart : Unlinking c unpatched unpatched c := ⟨[], rfl, by simp [unlinked]⟩
  obtain ⟨s, hs, l, hl, rfl⟩ := drain_rule (fun _ _ _ hI ↦ Unlinking.turn h hI) hstart hfuel
  rw [List.append_nil] at hl
  rw [unlinkEdgeList, path_head h.path_unpatched, hs, hl]

theorem deleteDirectEdge_eq (he : c.edges e = some d)
    (hlive : d.word ≠ 0 → c.metas d.word = true) :
    ∃ c', c.deleteDirectEdge e = some c' ∧ c'.edges = update c.edges e none ∧
      ∀ m, c'.metas m = true ↔ c.metas m = true ∧ ¬(m ≠ 0 ∧ d.word = m) := by
  by_cases hword : d.word = 0
  · refine ⟨{ c with edges := update c.edges e none }, ?_, rfl, fun m ↦ ?_⟩
    · simp [deleteDirectEdge, he, hword]
    · rw [hword]
      exact ⟨fun hm ↦ ⟨hm, fun h ↦ h.1 h.2.symm⟩, And.left⟩
  · refine ⟨{ c with edges := update c.edges e none, metas := update c.metas d.word false }, ?_, rfl,
      fun m ↦ ?_⟩
    · simp [deleteDirectEdge, deleteMeta, he, hword, hlive hword]
    · rcases eq_or_ne m d.word with rfl | hm
      · simp [hword]
      · simp [hm, hm.symm]

/-- `l` is what is behind the loop of `FreeEdgeList`. -/
def Freeing (c : Context) (all unpatched rest : List ℕ) (c' : Context) : Prop :=
  ∃ l, all = l ++ rest ∧
    (∀ e, c'.edges e = if e ∈ l then none else (c.unlinked unpatched).edges e) ∧
    ∀ m, c'.metas m = true ↔ c.metas m = true ∧ ∀ e ∈ l, ¬Owns c unpatched e m

theorem unlinked_edge (unpatched : List ℕ) (he : c.edges e = some d) : ∃ d', (c.unlinked unpatched).edges e = some d' ∧
    d'.next = d.next ∧ ∀ m, (m ≠ 0 ∧ d'.word = m) ↔ Owns c unpatched e m := by
  by_cases hmem : e ∈ unpatched
  · refine ⟨{ d with word := 0 }, by simp [unlinked, hmem, he], rfl, fun m ↦ ?_⟩
    exact ⟨fun hm ↦ absurd hm.2.symm hm.1, fun hm ↦ absurd hmem hm.1⟩
  · refine ⟨d, by simp [unlinked, hmem, he], rfl, fun m ↦ ?_⟩
    simp [Owns, hmem, he]

theorem Freeing.turn (h : Lists c all unpatched) (ho : Owned c unpatched) {a : ℕ} {rest : List ℕ}
    (hc : Freeing c all unpatched (a :: rest) c') :
    ((c'.edges a).map fun d ↦ ptr d.next) = some rest.head? ∧
      ∃ c'', c'.deleteDirectEdge a = some c'' ∧ Freeing c all unpatched rest c'' := by
  obtain ⟨l, hl, hedges, hmetas⟩ := hc
  have hal : a ∉ l := by
    have hnodup := hl ▸ h.nodup
    exact fun hmem ↦ (List.disjoint_of_nodup_append hnodup) hmem List.mem_cons_self
  obtain ⟨d, hd⟩ : ∃ d, c.edges a = some d :=
    Option.ne_none_iff_exists'.mp ((h.mem a).mp (by simp [hl]))
  obtain ⟨d', hd', hnext', hword'⟩ := unlinked_edge unpatched hd
  have hcur : c'.edges a = some d' := by rw [hedges, if_neg hal, hd']
  have hnext : ptr d'.next = rest.head? := by
    have hpath := path_head (path_next (hl ▸ h.path))
    rwa [next, hd, Option.bind_some, ← hnext'] at hpath
  have hlive : d'.word ≠ 0 → c'.metas d'.word = true := by
    intro hne
    have howns := (hword' d'.word).mp ⟨hne, rfl⟩
    refine (hmetas _).mpr ⟨ho.live a _ howns, fun e he howns' ↦ hal ?_⟩
    rwa [ho.alone a e _ howns howns']
  obtain ⟨c'', hc'', hedges', hmetas'⟩ := deleteDirectEdge_eq hcur hlive
  refine ⟨by simp [hcur, hnext], c'', hc'', l ++ [a], by simp [hl], fun e ↦ ?_, fun m ↦ ?_⟩
  · rw [hedges']
    rcases eq_or_ne e a with rfl | he
    · simp
    · simp [he, hedges]
  · rw [hmetas', hmetas, hword', and_assoc]
    refine and_congr_right fun _ ↦ ?_
    simp only [List.mem_append, List.mem_singleton, or_imp, forall_and, forall_eq]

theorem freeEdgeList_eq (h : Lists c all unpatched) (ho : Owned c unpatched) {fuel : ℕ}
    (hfuel : all.length ≤ fuel) :
    ∃ c', freeEdgeList fuel c.edgeList (c.unlinked unpatched) = some c' ∧
      (∀ e, c'.edges e = none) ∧
      ∀ m, c'.metas m = true ↔ c.metas m = true ∧ ∀ e, ¬Owns c unpatched e m := by
  have hstart : Freeing c all unpatched all (c.unlinked unpatched) :=
    ⟨[], rfl, by simp, by simp [unlinked]⟩
  obtain ⟨s, hs, l, hl, hedges, hmetas⟩ :=
    drain_rule (fun _ _ _ hI ↦ Freeing.turn h ho hI) hstart hfuel
  rw [List.append_nil] at hl
  subst hl
  refine ⟨s, by rw [freeEdgeList, path_head h.path, hs], fun e ↦ ?_, fun m ↦ ?_⟩
  · rw [hedges]
    split_ifs with he
    · rfl
    · have hnone : c.edges e = none := not_not.mp fun hne ↦ he ((h.mem e).mpr hne)
      simp [unlinked, hnone]
  · rw [hmetas]
    refine and_congr_right fun _ ↦ ⟨fun hall e howns ↦ ?_, fun hall e _ ↦ hall e⟩
    obtain ⟨-, -, d, hd, -⟩ := id howns
    exact hall e ((h.mem e).mpr (by rw [hd]; simp)) howns

/-- The destructor comes to an end, never follows a pointer to what is not there, leaves no edge and
deletes the meta-data that edges have, and no other. -/
theorem destroy_eq (h : Lists c all unpatched) (ho : Owned c unpatched) {fuel : ℕ}
    (hfuel : all.length ≤ fuel) :
    ∃ c', c.destroy fuel = some c' ∧ (∀ e, c'.edges e = none) ∧
      ∀ m, c'.metas m = true ↔ c.metas m = true ∧ ∀ e, ¬Owns c unpatched e m := by
  have hle : unpatched.length ≤ all.length :=
    (h.nodup_unpatched.subperm h.sub).length_le
  obtain ⟨c', hc', hfreed⟩ := freeEdgeList_eq h ho hfuel
  refine ⟨c', ?_, hfreed⟩
  have hpatched : unlinkEdgeList fuel (c.unlinked unpatched).patchedEdgeList
      (c.unlinked unpatched) = some (c.unlinked unpatched) := by
    rw [show (c.unlinked unpatched).patchedEdgeList = 0 from h.patched]
    cases fuel <;> rfl
  simp only [destroy, unlinkEdgeList_eq h (hle.trans hfuel), Option.bind_eq_bind,
    Option.bind_some, hpatched]
  exact hc'

end Context

end Granary
