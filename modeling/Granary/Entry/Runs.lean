import Granary.Entry.Steps

namespace Granary.Entry

open Function Granary.Base.Run Granary.Context

inductive Change (cfg : Config) (s s' : State T) (a : Action T) : Prop where
  | none (hedges : s'.context.edges = s.context.edges) (hcalls : s'.calls = s.calls)
  | call (e : ℕ) (d : DirectEdge) (he : s.context.edges e = some d) (hcalled : ¬s.Called e)
    (hword : d.word ≠ 0) (hedges : s'.context.edges = s.context.edges)
    (hcalls : s'.calls = s.calls ++ [(e, d.word)])
  | write (e : ℕ) (d d' : DirectEdge) (he : s.context.edges e = some d)
    (hedges : s'.context.edges = update s.context.edges e (some d')) (hcalls : s'.calls = s.calls)
    (hword : s.Called e ∨ d'.word = d.word)
    (htarget : edgeHasTranslation cfg d = true →
      d'.entryTargetPC = d.entryTargetPC ∧ d'.edgeCodePC = d.edgeCodePC)
  | allocate (t : T) (e : ℕ) (d : DirectEdge) (ha : a = .allocate t e d.word)
    (he : s.context.edges e = Option.none)
    (hedges : s'.context.edges = update s.context.edges e (some d)) (hcalls : s'.calls = s.calls)

section Change

variable [DecidableEq T] {cfg : Config} {s s' : State T} {a : Action T} {t : T} {e : ℕ}
  {d : DirectEdge} {all unpatched : List ℕ}

theorem change_goOn (hi : Inv cfg s all unpatched) {choice : Bool}
    (h : goOn cfg s t choice = some s') : Change cfg s s' a := by
  rw [goOn] at h
  have hholds {e : ℕ} (hp : (s.phase t).holds = some e) :
      ∃ d, s.context.edges e = some d ∧ Expects cfg s unpatched e d (s.phase t) := by
    obtain ⟨d, he⟩ := hi.exists_edge (holds_spec hp).1
    exact ⟨d, he, hi.expects hp he⟩
  cases ht : s.phase t with
  | jump e | back e =>
    rw [ht] at h
    obtain ⟨d, he, rfl⟩ := Option.map_eq_some_iff.mp h
    exact .none rfl rfl
  | enter e | acquire e =>
    simp only [ht] at h
    split_ifs at h
    obtain rfl := Option.some_inj.mp h
    exact .none rfl rfl
  | check e =>
    obtain ⟨d, he, hexpects⟩ := hholds (by rw [ht]; rfl)
    rw [ht] at h hexpects
    obtain ⟨d', he', h⟩ := Option.map_eq_some_iff.mp h
    obtain rfl := Option.some_inj.mp (he.symm.trans he')
    split_ifs at h with hhas
    · subst h
      exact .none rfl rfl
    · subst h
      have hf := hexpects.resolve_right fun hd ↦ hhas hd.translation
      exact .call e d he hf.called hf.word rfl rfl
  | clear e =>
    obtain ⟨d, he, hexpects⟩ := hholds (by rw [ht]; rfl)
    rw [ht] at h hexpects
    obtain ⟨d', he', rfl⟩ := Option.map_eq_some_iff.mp h
    exact .write e d' _ he' rfl rfl (.inl hexpects.1) fun _ ↦ ⟨rfl, rfl⟩
  | patch e | release e | leave e =>
    rw [ht] at h
    obtain rfl := Option.some_inj.mp h
    exact .none rfl rfl
  | prepare e =>
    obtain ⟨d, he, hexpects⟩ := hholds (by rw [ht]; rfl)
    rw [ht] at h hexpects
    obtain ⟨c, hc, rfl⟩ := Option.map_eq_some_iff.mp h
    rw [preparePatchDirectEdge, he, Option.map_some] at hc
    obtain rfl := Option.some_inj.mp hc
    exact .write e d _ he rfl rfl (.inl hexpects.1) fun _ ↦ ⟨rfl, rfl⟩
  | outside | translating | translatingOther =>
    rw [ht] at h
    exact absurd h (Option.some_ne_none s').symm

theorem change_step (hi : Inv cfg s all unpatched) (h : step cfg s a = some s') :
    Change cfg s s' a := by
  cases a with
  | jump t e =>
    obtain ⟨d, he, h⟩ := Option.bind_eq_some_iff.mp h
    split_ifs at h
    obtain rfl := Option.some_inj.mp h
    exact .none rfl rfl
  | go t choice => exact change_goOn hi h
  | translate t =>
    rw [step] at h
    split_ifs at h
    obtain rfl := Option.some_inj.mp h
    exact .none rfl rfl
  | allocate t e m =>
    rw [step] at h
    split_ifs at h with hguard
    obtain rfl := Option.some_inj.mp h
    exact .allocate t e ⟨0, s.context.edgeList, m, 0⟩ rfl hguard.2.2.1 rfl rfl
  | encode t e pc length =>
    obtain ⟨d, he, h⟩ := Option.bind_eq_some_iff.mp h
    split_ifs at h with hguard
    obtain rfl := Option.some_inj.mp h
    refine .write e d _ he rfl rfl (.inr rfl) fun hhas ↦ ?_
    have hpos : 0 < cfg.directEdgeCodeSizeBytes := directEdgeCodeSizeBytes_pos
    simp only [edgeHasTranslation, Bool.or_eq_true, decide_eq_true_eq] at hhas
    omega
  | finish t pc =>
    rw [step, finish] at h
    cases ht : s.phase t with
    | translating e =>
      rw [ht] at h
      obtain ⟨d, he, h⟩ := Option.bind_eq_some_iff.mp h
      split_ifs at h
      obtain rfl := Option.some_inj.mp h
      have hholds : (s.phase t).holds = some e := by rw [ht]; rfl
      obtain ⟨hcalled, hhas, -⟩ := ht ▸ hi.expects hholds he
      refine .write e d _ he rfl rfl (.inl hcalled) fun hhas' ↦ ?_
      exact absurd (hhas.symm.trans hhas') (by decide)
    | translatingOther =>
      rw [ht] at h
      obtain rfl := Option.some_inj.mp h
      exact .none rfl rfl
    | _ =>
      rw [ht] at h
      exact absurd h (Option.some_ne_none s').symm
  | exit =>
    rw [step] at h
    split_ifs at h
    obtain rfl := Option.some_inj.mp h
    exact .none rfl rfl

omit [DecidableEq T] in
theorem Change.target (hc : Change cfg s s' a) (he : s.context.edges e = some d)
    (hhas : edgeHasTranslation cfg d = true) : ∃ d', s'.context.edges e = some d' ∧
      edgeHasTranslation cfg d' = true ∧ d'.entryTargetPC = d.entryTargetPC := by
  cases hc with
  | none hedges | call _ _ _ _ _ hedges => exact ⟨d, hedges ▸ he, hhas, rfl⟩
  | write e₁ d₁ d' he₁ hedges _ _ htarget =>
    rw [hedges]
    rcases eq_or_ne e e₁ with rfl | hne
    · obtain rfl := Option.some_inj.mp (he.symm.trans he₁)
      obtain ⟨htarget, hcode⟩ := htarget hhas
      refine ⟨d', update_self _ _ _, ?_, htarget⟩
      rwa [edgeHasTranslation, htarget, hcode]
    · exact ⟨d, (update_of_ne hne _ _).trans he, hhas, rfl⟩
  | allocate t e₁ d₁ _ he₁ hedges =>
    rw [hedges]
    have hne : e ≠ e₁ := by
      rintro rfl
      exact absurd (he₁.symm.trans he) (Option.some_ne_none d).symm
    exact ⟨d, (update_of_ne hne _ _).trans he, hhas, rfl⟩

/-- The calls of `Translate`, and the meta-data for those to come, are of edges that were made with
that meta-data. -/
structure Made (past : List (Action T)) (s : State T) : Prop where
  waiting (e : ℕ) (d : DirectEdge) : s.context.edges e = some d → ¬s.Called e →
    ∃ t, .allocate t e d.word ∈ past
  calls (e m : ℕ) : (e, m) ∈ s.calls → m ≠ 0 ∧ ∃ t, .allocate t e m ∈ past

omit [DecidableEq T] in
theorem Made.step {past : List (Action T)} (hm : Made past s) (hc : Change cfg s s' a) :
    Made (past ++ [a]) s' := by
  have hpast {b : Action T} (hb : b ∈ past) : b ∈ past ++ [a] := List.mem_append_left _ hb
  have hold {e m : ℕ} (h : (e, m) ∈ s.calls) : m ≠ 0 ∧ ∃ t, .allocate t e m ∈ past ++ [a] :=
    (hm.calls e m h).imp_right fun ⟨t, ht⟩ ↦ ⟨t, hpast ht⟩
  have hwaiting {e : ℕ} {d : DirectEdge} (he : s.context.edges e = some d) (hn : ¬s.Called e) :
      ∃ t, .allocate t e d.word ∈ past ++ [a] :=
    (hm.waiting e d he hn).imp fun t ht ↦ hpast ht
  have hcalled (h : s'.calls = s.calls) {e : ℕ} (hn : ¬s'.Called e) : ¬s.Called e := by
    rwa [State.Called, ← h]
  cases hc with
  | none hedges hcalls =>
    exact ⟨fun e d he hn ↦ hwaiting (hedges ▸ he) (hcalled hcalls hn),
      fun e m h ↦ hold (hcalls ▸ h)⟩
  | call e₁ d₁ he₁ hn₁ hword hedges hcalls =>
    refine ⟨fun e d he hn ↦ hwaiting (hedges ▸ he) fun h ↦ hn ?_, fun e m h ↦ ?_⟩
    · rw [State.Called, hcalls, List.map_append]
      exact List.mem_append_left _ h
    · rw [hcalls] at h
      rcases List.mem_append.mp h with h | h
      · exact hold h
      · obtain ⟨rfl, rfl⟩ := Prod.mk.inj (List.mem_singleton.mp h)
        exact ⟨hword, hwaiting he₁ hn₁⟩
  | write e₁ d₁ d' he₁ hedges hcalls hword _ =>
    refine ⟨fun e d he hn ↦ ?_, fun e m h ↦ hold (hcalls ▸ h)⟩
    have hn' := hcalled hcalls hn
    rw [hedges] at he
    rcases eq_or_ne e e₁ with rfl | hne
    · rw [update_self, Option.some_inj] at he
      rw [← he, hword.resolve_left hn']
      exact hwaiting he₁ hn'
    · rw [update_of_ne hne] at he
      exact hwaiting he hn'
  | allocate t e₁ d₁ ha he₁ hedges hcalls =>
    refine ⟨fun e d he hn ↦ ?_, fun e m h ↦ hold (hcalls ▸ h)⟩
    rw [hedges] at he
    rcases eq_or_ne e e₁ with rfl | hne
    · rw [update_self, Option.some_inj] at he
      rw [← he]
      exact ⟨t, List.mem_append_right _ (by rw [ha]; exact List.mem_singleton_self _)⟩
    · rw [update_of_ne hne] at he
      exact hwaiting he (hcalled hcalls hn)

end Change

section Runs

variable [DecidableEq T] {cfg : Config} {s s' : State T}

theorem inv_run (actions : List (Action T)) (h : run (step cfg) initial actions = some s) :
    ∃ all unpatched, Inv cfg s all unpatched :=
  run_invariant (I := fun s ↦ ∃ all unpatched, Inv cfg s all unpatched)
    (fun _ _ _ hi hs ↦ inv_step hi hs) ⟨[], [], inv_initial cfg⟩ h

theorem made_run (actions : List (Action T)) (h : run (step cfg) initial actions = some s) :
    Made actions s := by
  refine run_history (fun past a t t' _ hpast hm ht ↦ ?_) ⟨by simp [initial, empty], ?_⟩ h
  · obtain ⟨all, unpatched, hi⟩ := inv_run past hpast
    exact hm.step (change_step hi ht)
  · simp [initial]

/-- However the threads interleave, each edge is translated once at most, with the meta-data that it
was made with. A thread that is back from `granary_enter_direct_edge` finds a translation there, and
a translation that is there stays the same. -/
theorem granary_enter_direct_edge_once (actions : List (Action T))
    (h : run (step cfg) initial actions = some s) :
    (s.calls.map Prod.fst).Nodup ∧
      (∀ e m, (e, m) ∈ s.calls → m ≠ 0 ∧ ∃ t, .allocate t e m ∈ actions) ∧
      (∀ t e, s.phase t = .back e →
        ∃ d, s.context.edges e = some d ∧ edgeHasTranslation cfg d = true) ∧
      ∀ more s', run (step cfg) s more = some s' → ∀ e d, s.context.edges e = some d →
        edgeHasTranslation cfg d = true → ∃ d', s'.context.edges e = some d' ∧
          edgeHasTranslation cfg d' = true ∧ d'.entryTargetPC = d.entryTargetPC := by
  obtain ⟨all, unpatched, hi⟩ := inv_run actions h
  refine ⟨hi.calls, (made_run actions h).calls, fun t e ht ↦ ?_, fun more s' hmore e d he hhas ↦ ?_⟩
  · obtain ⟨d, hd⟩ := hi.exists_edge (t := t) (e := e) (by rw [ht]; rfl)
    exact ⟨d, hd, hi.back t e d (.inr ht) hd⟩
  · have hkept : (∃ all unpatched, Inv cfg s' all unpatched) ∧ ∃ d', s'.context.edges e = some d' ∧
        edgeHasTranslation cfg d' = true ∧ d'.entryTargetPC = d.entryTargetPC := by
      refine run_invariant (I := fun s' : State T ↦ (∃ all unpatched, Inv cfg s' all unpatched) ∧
        ∃ d', s'.context.edges e = some d' ∧ edgeHasTranslation cfg d' = true ∧
          d'.entryTargetPC = d.entryTargetPC) (fun u a u' hu ha ↦ ?_)
        ⟨⟨all, unpatched, hi⟩, d, he, hhas, rfl⟩ hmore
      obtain ⟨⟨all, unpatched, hi⟩, d₁, he₁, hhas₁, htarget₁⟩ := hu
      obtain ⟨d₂, he₂, hhas₂, htarget₂⟩ := (change_step hi ha).target he₁ hhas₁
      exact ⟨inv_step ⟨all, unpatched, hi⟩ ha, d₂, he₂, hhas₂, htarget₂.trans htarget₁⟩
    exact hkept.2

def userConfig : Config where
  kernel := false
  unsafePatchEdges := false

/-- An edge is made at 8, with meta-data at 16. The first thread comes to it, and then the second one,
which waits for its lock. -/
def twoThreads : List (Action Bool) :=
  [.translate true, .allocate true 8 16, .encode true 8 100 6, .allocate true 24 32, .finish true 0,
    .jump true 8, .jump false 8, .go true false, .go false false, .go true false, .go false false,
    .go true false, .go true false]

/-- The first thread translates the edge, and the second one finds it translated. -/
def bothBack : List (Action Bool) :=
  twoThreads ++
    [.finish true 500, .go true false, .go true false, .go true false, .go true false,
      .go false false, .go true false, .go false false, .go false false, .go false false]

theorem granary_enter_direct_edge_once_bothBack :
    ∃ s, run (step userConfig) initial bothBack = some s ∧ s.calls = [(8, 16)] ∧
      ∀ t, s.phase t = .back 8 ∧
        ∃ d, s.context.edges 8 = some d ∧ edgeHasTranslation userConfig d = true := by
  have h : run (step userConfig) initial bothBack = some _ := rfl
  refine ⟨_, h, rfl, fun t ↦ ?_⟩
  have hback := (granary_enter_direct_edge_once bothBack h).2.2.1 t 8
  cases t <;> exact ⟨rfl, hback rfl⟩

theorem Inv.exists_step {all unpatched : List ℕ} {t : T} {e : ℕ} (hi : Inv cfg s all unpatched)
    (ht : (s.phase t).holds = some e) : (∀ choice, (step cfg s (.go t choice)).isSome) ∨
      ∃ pc, (step cfg s (.finish t pc)).isSome := by
  obtain ⟨d, he⟩ := hi.exists_edge (holds_spec ht).1
  cases hp : s.phase t with
  | check a | clear a | patch a | prepare a | release a =>
    obtain rfl : a = e := by simpa [hp, Phase.holds] using ht
    exact .inl fun choice ↦ by simp [step, goOn, hp, he, preparePatchDirectEdge]
  | translating a =>
    obtain rfl : a = e := by simpa [hp, Phase.holds] using ht
    refine .inr ⟨d.edgeCodePC + cfg.directEdgeCodeSizeBytes, ?_⟩
    simp [step, finish, hp, he, edgeHasTranslation]
  | _ => simp [hp, Phase.holds] at ht

/-- Whoever is in `granary_enter_direct_edge` goes on, or waits for a thread that does. -/
theorem granary_enter_direct_edge_progress (actions : List (Action T))
    (h : run (step cfg) initial actions = some s) {t : T} (ht : (s.phase t).inside = true) :
    ∃ u, (u = t ∨ ∃ e, s.phase t = .acquire e ∧ s.lock e = some u) ∧
      ((∀ choice, (step cfg s (.go u choice)).isSome) ∨
        ∃ pc, (step cfg s (.finish u pc)).isSome) := by
  obtain ⟨all, unpatched, hi⟩ := inv_run actions h
  cases hp : s.phase t with
  | acquire e =>
    cases hl : s.lock e with
    | none => exact ⟨t, .inl rfl, .inl fun choice ↦ by simp [step, goOn, hp, hl]⟩
    | some u => exact ⟨u, .inr ⟨e, rfl, hl⟩, hi.exists_step ((hi.lock e u).mp hl)⟩
  | check e | translating e | clear e | patch e | prepare e | release e =>
    exact ⟨t, .inl rfl, hi.exists_step (e := e) (by rw [hp]; rfl)⟩
  | leave e => exact ⟨t, .inl rfl, .inl fun choice ↦ by simp [step, goOn, hp]⟩
  | _ => simp [hp, Phase.inside] at ht

theorem granary_enter_direct_edge_progress_twoThreads :
    ∃ s, run (step userConfig) initial twoThreads = some s ∧ s.phase false = .acquire 8 ∧
      ∃ u, (u = false ∨ ∃ e, s.phase false = .acquire e ∧ s.lock e = some u) ∧
        ((∀ choice, (step userConfig s (.go u choice)).isSome) ∨
          ∃ pc, (step userConfig s (.finish u pc)).isSome) :=
  ⟨_, rfl, rfl, granary_enter_direct_edge_progress twoThreads rfl rfl⟩

omit [DecidableEq T] in
/-- While nobody is in `granary_enter_direct_edge`, the edges with meta-data are those that were
never translated. -/
theorem Inv.owns_iff {all unpatched : List ℕ} (hi : Inv cfg s all unpatched) (hempty : s.readers = ∅)
    {e m : ℕ} : Owns s.context unpatched e m ↔
      ∃ d, s.context.edges e = some d ∧ ¬s.Called e ∧ d.word = m := by
  have hfree : s.lock e = none := by
    by_contra hne
    obtain ⟨u, hu⟩ := Option.ne_none_iff_exists'.mp hne
    have hinside := (hi.readers u).mpr (holds_spec ((hi.lock e u).mp hu)).2.1
    rw [hempty] at hinside
    exact Finset.notMem_empty u hinside
  constructor
  · rintro ⟨hmem, hm, d, he, rfl⟩
    have hedge := hi.edge e d he
    rw [State.user, hfree] at hedge
    rcases hedge with hf | hd
    · exact ⟨d, he, hf.called, rfl⟩
    · exact absurd (hd.word hmem) hm
  · rintro ⟨d, he, hc, rfl⟩
    have hf := hi.fresh he hc
    exact ⟨hf.unlinked, hf.word, d, he, rfl⟩

/-- Once `granary_exit` has its lock, the destructor of the context comes to an end and finds all it
looks for. It leaves no edge, and deletes the meta-data of the edges that were never translated and
no other. -/
theorem destroy_of_exiting (actions : List (Action T))
    (h : run (step cfg) initial actions = some s) (hexit : s.exiting = true) :
    ∃ n, ∀ fuel, n ≤ fuel → ∃ c, s.context.destroy fuel = some c ∧ (∀ e, c.edges e = none) ∧
      ∀ m, c.metas m = true ↔ s.context.metas m = true ∧
        ¬∃ e d, s.context.edges e = some d ∧ ¬s.Called e ∧ d.word = m := by
  obtain ⟨all, unpatched, hi⟩ := inv_run actions h
  have howns {e m : ℕ} := hi.owns_iff (hi.exiting hexit) (e := e) (m := m)
  have howned : Owned s.context unpatched := by
    refine ⟨fun e m hm ↦ ?_, fun e e' m hm hm' ↦ ?_⟩
    · obtain ⟨d, he, hc, rfl⟩ := howns.mp hm
      exact (hi.fresh he hc).live
    · obtain ⟨d, he, hc, rfl⟩ := howns.mp hm
      obtain ⟨d', he', hc', heq⟩ := howns.mp hm'
      exact hi.owner e e' d d' he he' hc hc' heq.symm
  refine ⟨all.length, fun fuel hfuel ↦ ?_⟩
  obtain ⟨c, hc, hedges, hmetas⟩ := destroy_eq hi.lists howned hfuel
  refine ⟨c, hc, hedges, fun m ↦ (hmetas m).trans (and_congr_right fun _ ↦ ?_)⟩
  simp only [howns, not_exists]

theorem destroy_of_exiting_bothBack :
    ∃ s, run (step userConfig) initial (bothBack ++ [.exit]) = some s ∧
      ∃ n, ∀ fuel, n ≤ fuel → ∃ c, s.context.destroy fuel = some c ∧ (∀ e, c.edges e = none) ∧
        ∀ m, c.metas m = true ↔ s.context.metas m = true ∧
          ¬∃ e d, s.context.edges e = some d ∧ ¬s.Called e ∧ d.word = m := by
  have h : run (step userConfig) initial (bothBack ++ [.exit]) = some _ := rfl
  exact ⟨_, h, destroy_of_exiting (bothBack ++ [.exit]) h rfl⟩

end Runs

end Granary.Entry
