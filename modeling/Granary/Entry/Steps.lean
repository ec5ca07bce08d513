import Granary.Entry

namespace Granary.Entry

open Function Granary.Base.Run Granary.Context

section Preserved

variable {cfg : Config} {s s' : State T} {t : T} {e : ℕ} {d d' : DirectEdge} {p : Phase}
  {all all' unpatched unpatched' : List ℕ}

theorem holds_spec (h : p.holds = some e) : p.edge = some e ∧ p.inside = true ∧
    ∀ a, ¬(p = .leave a ∨ p = .back a) := by
  cases p <;> simp_all [Phase.holds, Phase.edge, Phase.inside]

theorem Expects.fresh (h : Expects cfg s unpatched e d p) (hc : ¬s.Called e) :
    Fresh cfg s unpatched e d := by
  cases p with
  | translating | clear | patch | prepare => exact absurd h.1 hc
  | release => exact absurd h.called hc
  | _ => exact h.resolve_right fun hdone ↦ hc hdone.called

theorem Expects.congr (h : Expects cfg s unpatched e d p) (hcalled : s'.Called e ↔ s.Called e)
    (hmem : e ∈ unpatched' ↔ e ∈ unpatched)
    (hhas : edgeHasTranslation cfg d' = edgeHasTranslation cfg d) (hword : d'.word = d.word)
    (hlive : ¬s.Called e → s.context.metas d.word = true → s'.context.metas d.word = true) :
    Expects cfg s' unpatched' e d' p := by
  have hfresh (hf : Fresh cfg s unpatched e d) : Fresh cfg s' unpatched' e d' := by
    refine ⟨fun hc ↦ hf.called (hcalled.mp hc), hhas.trans hf.translation, ?_, ?_,
      fun hm ↦ hf.unlinked (hmem.mp hm)⟩
    · rw [hword]
      exact hf.word
    · rw [hword]
      exact hlive hf.called hf.live
  have hdone (hd : Done cfg s unpatched e d) : Done cfg s' unpatched' e d' :=
    ⟨hcalled.mpr hd.called, hhas.trans hd.translation,
      fun hm ↦ hword.trans (hd.word fun hm' ↦ hm (hmem.mpr hm'))⟩
  cases p with
  | translating | clear => exact ⟨hcalled.mpr h.1, hhas.trans h.2.1, fun hm ↦ h.2.2 (hmem.mp hm)⟩
  | patch | prepare =>
    exact ⟨hcalled.mpr h.1, hhas.trans h.2.1, fun hm ↦ h.2.2.1 (hmem.mp hm), hword.trans h.2.2.2⟩
  | release => exact hdone h
  | _ => exact h.imp hfresh hdone

theorem Inv.fresh (hi : Inv cfg s all unpatched) (he : s.context.edges e = some d)
    (hc : ¬s.Called e) : Fresh cfg s unpatched e d :=
  (hi.edge e d he).fresh hc

theorem Inv.user_eq (hi : Inv cfg s all unpatched) (h : (s.phase t).holds = some e) :
    s.user e = s.phase t := by
  rw [State.user, (hi.lock e t).mpr h]
  rfl

theorem Inv.expects (hi : Inv cfg s all unpatched) (h : (s.phase t).holds = some e)
    (he : s.context.edges e = some d) : Expects cfg s unpatched e d (s.phase t) :=
  hi.user_eq h ▸ hi.edge e d he

theorem Inv.exists_edge (hi : Inv cfg s all unpatched) (h : (s.phase t).edge = some e) :
    ∃ d, s.context.edges e = some d :=
  Option.ne_none_iff_exists'.mp (hi.live t e h)

variable [DecidableEq T]

theorem Inv.work (hi : Inv cfg s all unpatched) (ht : (s.phase t).holds = some e)
    (hp : p.holds = some e) (he : s.context.edges e = some d)
    (hphase : s'.phase = update s.phase t p) (hlock : s'.lock = s.lock)
    (hreaders : s'.readers = s.readers) (hexiting : s'.exiting = s.exiting)
    (hedges : s'.context.edges = update s.context.edges e (some d'))
    (hlists : Lists s'.context all unpatched')
    (hmem : ∀ a, a ≠ e → (a ∈ unpatched' ↔ a ∈ unpatched)) (hcalls : (s'.calls.map Prod.fst).Nodup)
    (hcalled : ∀ a, a ≠ e → (s'.Called a ↔ s.Called a)) (hself : s.Called e → s'.Called e)
    (hlive : ∀ a d₀, a ≠ e → s.context.edges a = some d₀ → ¬s.Called a →
      s.context.metas d₀.word = true → s'.context.metas d₀.word = true)
    (hword : ¬s'.Called e → d'.word = d.word)
    (hhas : edgeHasTranslation cfg d = true → edgeHasTranslation cfg d' = true)
    (hexpects : Expects cfg s' unpatched' e d' p) : Inv cfg s' all unpatched' := by
  obtain ⟨hpedge, hpinside, hpback⟩ := holds_spec hp
  obtain ⟨-, htinside, -⟩ := holds_spec ht
  have hself' : s'.phase t = p := by rw [hphase, update_self]
  have hother {u : T} (hu : u ≠ t) : s'.phase u = s.phase u := by rw [hphase, update_of_ne hu]
  have hedge {a : ℕ} (ha : a ≠ e) : s'.context.edges a = s.context.edges a := by
    rw [hedges, update_of_ne ha]
  have hedge' : s'.context.edges e = some d' := by rw [hedges, update_self]
  have huncalled {a : ℕ} (ha : ¬s'.Called a) : ¬s.Called a := by
    rcases eq_or_ne a e with rfl | hne
    · exact fun h ↦ ha (hself h)
    · exact fun h ↦ ha ((hcalled a hne).mpr h)
  have hwords {a : ℕ} {d₀ : DirectEdge} (ha : ¬s'.Called a) (hd₀ : s'.context.edges a = some d₀) :
      ∃ d₁, s.context.edges a = some d₁ ∧ d₀.word = d₁.word := by
    rcases eq_or_ne a e with rfl | hne
    · rw [hedge', Option.some_inj] at hd₀
      exact ⟨d, he, hd₀ ▸ hword ha⟩
    · exact ⟨d₀, hedge hne ▸ hd₀, rfl⟩
  refine
    { lists := hlists
      calls := hcalls
      allocated := fun a ha ↦ ?_
      edge := fun a d₀ hd₀ ↦ ?_
      owner := fun a b d₀ d₁ ha hb hca hcb heq ↦ ?_
      lock := fun a u ↦ ?_
      live := fun u a hu ↦ ?_
      back := fun u a d₀ hu ha ↦ ?_
      readers := fun u ↦ ?_
      exiting := fun h ↦ by rw [hreaders]; exact hi.exiting (hexiting ▸ h) }
  · rcases eq_or_ne a e with rfl | hne
    · rw [hedge']
      exact Option.some_ne_none d'
    · rw [hedge hne]
      exact hi.allocated a ((hcalled a hne).mp ha)
  · rcases eq_or_ne a e with rfl | hne
    · rw [hedge', Option.some_inj] at hd₀
      have huser : s'.user a = p := by
        rw [State.user, hlock, (hi.lock a t).mpr ht]
        exact hself'
      rw [huser, ← hd₀]
      exact hexpects
    · rw [hedge hne] at hd₀
      have huser : s'.user a = s.user a := by
        rw [State.user, State.user, hlock]
        cases hl : s.lock a with
        | none => rfl
        | some u =>
          have hu : u ≠ t := by
            rintro rfl
            rw [(hi.lock a u).mp hl, Option.some_inj] at ht
            exact hne ht
          exact hother hu
      rw [huser]
      exact (hi.edge a d₀ hd₀).congr (hcalled a hne) (hmem a hne) rfl rfl (hlive a d₀ hne hd₀)
  · obtain ⟨d₂, hd₂, hw₂⟩ := hwords hca ha
    obtain ⟨d₃, hd₃, hw₃⟩ := hwords hcb hb
    exact hi.owner a b d₂ d₃ hd₂ hd₃ (huncalled hca) (huncalled hcb) (hw₂ ▸ hw₃ ▸ heq)
  · rw [hlock, hi.lock]
    rcases eq_or_ne u t with rfl | hu
    · rw [ht, hself', hp]
    · rw [hother hu]
  · rcases eq_or_ne a e with rfl | hne
    · rw [hedge']
      exact Option.some_ne_none d'
    · rw [hedge hne]
      rcases eq_or_ne u t with rfl | hut
      · rw [hself', hpedge, Option.some_inj] at hu
        exact absurd hu.symm hne
      · exact hi.live u a (hother hut ▸ hu)
  · rcases eq_or_ne u t with rfl | hut
    · rw [hself'] at hu
      exact absurd hu (hpback a)
    · rw [hother hut] at hu
      rcases eq_or_ne a e with rfl | hne
      · rw [hedge', Option.some_inj] at ha
        exact ha ▸ hhas (hi.back u a d hu he)
      · exact hi.back u a d₀ hu (hedge hne ▸ ha)
  · rw [hreaders, hi.readers]
    rcases eq_or_ne u t with rfl | hu
    · rw [htinside, hself', hpinside]
    · rw [hother hu]

theorem Inv.pass (hi : Inv cfg s all unpatched) (ht : (s.phase t).holds = none)
    (hp : p.holds = none) (hlive : ∀ e, p.edge = some e → s.context.edges e ≠ none)
    (hback : ∀ e d, p = .leave e ∨ p = .back e → s.context.edges e = some d →
      edgeHasTranslation cfg d = true) (hphase : s'.phase = update s.phase t p)
    (hcontext : s'.context = s.context) (hlock : s'.lock = s.lock) (hcalls : s'.calls = s.calls)
    (hreaders : ∀ u, u ∈ s'.readers ↔ (s'.phase u).inside = true)
    (hexiting : s'.exiting = true → s'.readers = ∅) : Inv cfg s' all unpatched := by
  have hself : s'.phase t = p := by rw [hphase, update_self]
  have hother {u : T} (hu : u ≠ t) : s'.phase u = s.phase u := by rw [hphase, update_of_ne hu]
  have hcalled (a : ℕ) : s'.Called a ↔ s.Called a := by rw [State.Called, State.Called, hcalls]
  have huser (a : ℕ) : s'.user a = s.user a := by
    rw [State.user, State.user, hlock]
    cases hl : s.lock a with
    | none => rfl
    | some u =>
      have hu : u ≠ t := by
        rintro rfl
        rw [(hi.lock a u).mp hl] at ht
        exact absurd ht (Option.some_ne_none a)
      exact hother hu
  refine
    { lists := hcontext ▸ hi.lists
      calls := hcalls ▸ hi.calls
      allocated := fun a ha ↦ hcontext ▸ hi.allocated a ((hcalled a).mp ha)
      edge := fun a d ha ↦ ?_
      owner := fun a b d d' ha hb hca hcb ↦ ?_
      lock := fun a u ↦ ?_
      live := fun u a hu ↦ ?_
      back := fun u a d hu ha ↦ ?_
      readers := hreaders
      exiting := hexiting }
  · rw [huser]
    refine (hi.edge a d (hcontext ▸ ha)).congr (hcalled a) Iff.rfl rfl rfl fun _ h ↦ ?_
    rwa [hcontext]
  · rw [hcontext] at ha hb
    rw [hcalled] at hca hcb
    exact hi.owner a b d d' ha hb hca hcb
  · rw [hlock, hi.lock]
    rcases eq_or_ne u t with rfl | hu
    · rw [ht, hself, hp]
    · rw [hother hu]
  · rw [hcontext]
    rcases eq_or_ne u t with rfl | hut
    · exact hlive a (hself ▸ hu)
    · exact hi.live u a (hother hut ▸ hu)
  · rw [hcontext] at ha
    rcases eq_or_ne u t with rfl | hut
    · exact hback a d (hself ▸ hu) ha
    · exact hi.back u a d (hother hut ▸ hu) ha

/-- A step that changes nothing but the phase of a thread and whose the lock of `e` is. -/
theorem Inv.relock (hi : Inv cfg s all unpatched) {o : Option T}
    (hheld : ∀ u, s.lock e = some u → u = t) (ht : ∀ a, (s.phase t).holds = some a → a = e)
    (hp : o = some t ∧ p.holds = some e ∨ o = none ∧ p.holds = none)
    (hexpects : ∀ d, s.context.edges e = some d →
      Expects cfg s unpatched e d (o.elim .outside fun _ ↦ p))
    (hlive : ∀ a, p.edge = some a → s.context.edges a ≠ none)
    (hback : ∀ a d, p = .leave a ∨ p = .back a → s.context.edges a = some d →
      edgeHasTranslation cfg d = true) (hinside : p.inside = (s.phase t).inside)
    (hphase : s'.phase = update s.phase t p) (hlock : s'.lock = update s.lock e o)
    (hcontext : s'.context = s.context) (hcalls : s'.calls = s.calls)
    (hreaders : s'.readers = s.readers) (hexiting : s'.exiting = s.exiting) :
    Inv cfg s' all unpatched := by
  have hself : s'.phase t = p := by rw [hphase, update_self]
  have hother {u : T} (hu : u ≠ t) : s'.phase u = s.phase u := by rw [hphase, update_of_ne hu]
  have hcalled (a : ℕ) : s'.Called a ↔ s.Called a := by rw [State.Called, State.Called, hcalls]
  refine
    { lists := hcontext ▸ hi.lists
      calls := hcalls ▸ hi.calls
      allocated := fun a ha ↦ hcontext ▸ hi.allocated a ((hcalled a).mp ha)
      edge := fun a d ha ↦ ?_
      owner := fun a b d d' ha hb hca hcb ↦ ?_
      lock := fun a u ↦ ?_
      live := fun u a hu ↦ ?_
      back := fun u a d hu ha ↦ ?_
      readers := fun u ↦ ?_
      exiting := fun h ↦ by rw [hreaders]; exact hi.exiting (hexiting ▸ h) }
  · rw [hcontext] at ha
    suffices h : Expects cfg s unpatched a d (s'.user a) by
      refine h.congr (hcalled a) Iff.rfl rfl rfl fun _ h ↦ ?_
      rwa [hcontext]
    rcases eq_or_ne a e with rfl | hne
    · have huser : s'.user a = o.elim .outside fun _ ↦ p := by
        rw [State.user, hlock, update_self]
        rcases hp with ⟨rfl, -⟩ | ⟨rfl, -⟩
        · exact hself
        · rfl
      exact huser ▸ hexpects d ha
    · have huser : s'.user a = s.user a := by
        rw [State.user, State.user, hlock, update_of_ne hne]
        cases hl : s.lock a with
        | none => rfl
        | some u =>
          refine hother ?_
          rintro rfl
          exact hne (ht a ((hi.lock a u).mp hl))
      exact huser ▸ hi.edge a d ha
  · rw [hcontext] at ha hb
    rw [hcalled] at hca hcb
    exact hi.owner a b d d' ha hb hca hcb
  · rw [hlock]
    rcases eq_or_ne a e with rfl | hne
    · rw [update_self]
      rcases eq_or_ne u t with rfl | hu
      · rw [hself]
        rcases hp with ⟨rfl, hp⟩ | ⟨rfl, hp⟩ <;> simp [hp]
      · have hno : ¬(s'.phase u).holds = some a := fun h ↦
          hu (hheld u ((hi.lock a u).mpr (hother hu ▸ h)))
        rcases hp with ⟨rfl, -⟩ | ⟨rfl, -⟩ <;> simp [hno, hu.symm]
    · rw [update_of_ne hne, hi.lock]
      rcases eq_or_ne u t with rfl | hu
      · rw [hself]
        refine ⟨fun h ↦ absurd (ht a h) hne, fun h ↦ ?_⟩
        rcases hp with ⟨-, hp⟩ | ⟨-, hp⟩ <;> rw [hp] at h
        · exact absurd (Option.some_inj.mp h).symm hne
        · exact absurd h.symm (Option.some_ne_none a)
      · rw [hother hu]
  · rw [hcontext]
    rcases eq_or_ne u t with rfl | hut
    · exact hlive a (hself ▸ hu)
    · exact hi.live u a (hother hut ▸ hu)
  · rw [hcontext] at ha
    rcases eq_or_ne u t with rfl | hut
    · exact hback a d (hself ▸ hu) ha
    · exact hi.back u a d (hother hut ▸ hu) ha
  · rw [hreaders, hi.readers]
    rcases eq_or_ne u t with rfl | hu
    · rw [hself, hinside]
    · rw [hother hu]

omit [DecidableEq T] in
theorem Inv.build (hi : Inv cfg s all unpatched) (hlists : Lists s'.context all' unpatched)
    (hold : ∀ a d, s.context.edges a = some d → ∃ d', s'.context.edges a = some d' ∧
      d'.word = d.word ∧ edgeHasTranslation cfg d' = edgeHasTranslation cfg d)
    (hnew : ∀ a d', s'.context.edges a = some d' → s.context.edges a = none →
      a = e ∧ Fresh cfg s' unpatched a d' ∧ s.context.metas d'.word = false)
    (hmetas : ∀ m, s.context.metas m = true → s'.context.metas m = true)
    (hphase : s'.phase = s.phase) (hlock : s'.lock = s.lock) (hcalls : s'.calls = s.calls)
    (hreaders : s'.readers = s.readers) (hexiting : s'.exiting = s.exiting) :
    Inv cfg s' all' unpatched := by
  have hcalled (a : ℕ) : s'.Called a ↔ s.Called a := by rw [State.Called, State.Called, hcalls]
  have huser (a : ℕ) : s'.user a = s.user a := by rw [State.user, State.user, hlock, hphase]
  have hkept {a : ℕ} {d d' : DirectEdge} (hd : s.context.edges a = some d)
      (hd' : s'.context.edges a = some d') :
      d'.word = d.word ∧ edgeHasTranslation cfg d' = edgeHasTranslation cfg d := by
    obtain ⟨d₁, hd₁, h⟩ := hold a d hd
    rw [hd', Option.some_inj] at hd₁
    exact hd₁ ▸ h
  have hkeeps {a : ℕ} (ha : s.context.edges a ≠ none) : s'.context.edges a ≠ none := by
    obtain ⟨d, hd⟩ := Option.ne_none_iff_exists'.mp ha
    obtain ⟨d', hd', -⟩ := hold a d hd
    rw [hd']
    exact Option.some_ne_none d'
  -- an edge that is there already has another word than the new one
  have hfresh {a b : ℕ} {d d' : DirectEdge} (hd : s.context.edges a = some d)
      (hda : s'.context.edges a = some d') (hb : s.context.edges b = none) {d₁ : DirectEdge}
      (hdb : s'.context.edges b = some d₁) (hca : ¬s'.Called a) : d'.word ≠ d₁.word := by
    have hlive := (hi.fresh hd fun h ↦ hca ((hcalled a).mpr h)).live
    rw [(hkept hd hda).1]
    intro heq
    rw [heq, (hnew b d₁ hdb hb).2.2] at hlive
    exact absurd hlive (by decide)
  refine
    { lists := hlists
      calls := hcalls ▸ hi.calls
      allocated := fun a ha ↦ hkeeps (hi.allocated a ((hcalled a).mp ha))
      edge := fun a d' ha ↦ ?_
      owner := fun a b d d' ha hb hca hcb heq ↦ ?_
      lock := fun a u ↦ by rw [hlock, hphase]; exact hi.lock a u
      live := fun u a hu ↦ ?_
      back := fun u a d' hu ha ↦ ?_
      readers := fun u ↦ by rw [hreaders, hphase]; exact hi.readers u
      exiting := fun h ↦ by rw [hreaders]; exact hi.exiting (hexiting ▸ h) }
  · rw [huser]
    cases hd : s.context.edges a with
    | none =>
      have hfree : s.lock a = none := by
        by_contra hne
        obtain ⟨u, hu⟩ := Option.ne_none_iff_exists'.mp hne
        exact hi.live u a (holds_spec ((hi.lock a u).mp hu)).1 hd
      rw [State.user, hfree]
      exact .inl (hnew a d' ha hd).2.1
    | some d =>
      obtain ⟨hword, hhas⟩ := hkept hd ha
      exact (hi.edge a d hd).congr (hcalled a) Iff.rfl hhas hword fun _ ↦ hmetas d.word
  · cases hda : s.context.edges a with
    | none =>
      cases hdb : s.context.edges b with
      | none => exact (hnew a d ha hda).1.trans (hnew b d' hb hdb).1.symm
      | some d₁ => exact absurd heq.symm (hfresh hdb hb hda ha hcb)
    | some d₀ =>
      cases hdb : s.context.edges b with
      | none => exact absurd heq (hfresh hda ha hdb hb hca)
      | some d₁ =>
        refine hi.owner a b d₀ d₁ hda hdb (fun h ↦ hca ((hcalled a).mpr h))
          (fun h ↦ hcb ((hcalled b).mpr h)) ?_
        rw [← (hkept hda ha).1, ← (hkept hdb hb).1, heq]
  · exact hkeeps (hi.live u a (hphase ▸ hu))
  · rw [hphase] at hu
    have hedge : (s.phase u).edge = some a := by
      rcases hu with hu | hu <;> rw [hu] <;> rfl
    obtain ⟨d, hd⟩ := hi.exists_edge hedge
    rw [(hkept hd ha).2]
    exact hi.back u a d hu hd

theorem Inv.readers_update (hi : Inv cfg s all unpatched)
    (hinside : p.inside = (s.phase t).inside) (u : T) :
    u ∈ s.readers ↔ (update s.phase t p u).inside = true := by
  rw [hi.readers]
  rcases eq_or_ne u t with rfl | hu
  · rw [update_self, hinside]
  · rw [update_of_ne hu]

/-- The thread that has the lock of `e` goes on to a phase that expects what is there. -/
theorem Inv.proceed (hi : Inv cfg s all unpatched) (ht : (s.phase t).holds = some e)
    (hp : p.holds = some e) (he : s.context.edges e = some d)
    (hexpects : Expects cfg s unpatched e d p) : Inv cfg (s.goto t p) all unpatched :=
  hi.work ht hp he rfl rfl rfl rfl (update_eq_self_iff.mpr he.symm).symm hi.lists
    (fun _ _ ↦ Iff.rfl) hi.calls (fun _ _ ↦ Iff.rfl) id (fun _ _ _ _ _ h ↦ h) (fun _ ↦ rfl) id
    (hexpects.congr Iff.rfl Iff.rfl rfl rfl fun _ h ↦ h)

theorem inv_jump (hi : Inv cfg s all unpatched) (he : s.context.edges e = some d)
    (ht : (s.phase t).holds = none) (hinside : (s.phase t).inside = false) :
    Inv cfg (s.goto t (if edgeHasTranslation cfg d then .outside else .enter e)) all unpatched := by
  cases edgeHasTranslation cfg d with
  | true =>
    exact hi.pass ht rfl (by simp [Phase.edge]) (by simp) rfl rfl rfl rfl
      (hi.readers_update hinside.symm) hi.exiting
  | false =>
    refine hi.pass ht rfl (fun a ha ↦ ?_) (by simp) rfl rfl rfl rfl
      (hi.readers_update hinside.symm) hi.exiting
    obtain rfl : e = a := Option.some_inj.mp ha
    rw [he]
    exact Option.some_ne_none d

omit [DecidableEq T] in
theorem called_callTranslate {m : ℕ} {keep : Bool} {a : ℕ} :
    (s.callTranslate e m keep).Called a ↔ s.Called a ∨ a = e := by
  simp [State.Called, State.callTranslate]

/-- Only an edge that waits for its translation is translated, with its own meta-data. -/
theorem inv_check (hi : Inv cfg s all unpatched) (ht : s.phase t = .check e)
    (he : s.context.edges e = some d) (keep : Bool) :
    Inv cfg (if edgeHasTranslation cfg d then s.goto t (.release e)
      else (s.callTranslate e d.word keep).goto t (.translating e)) all unpatched := by
  have hholds : (s.phase t).holds = some e := by rw [ht]; rfl
  have hexpects := hi.expects hholds he
  rw [ht] at hexpects
  cases hhas : edgeHasTranslation cfg d with
  | true =>
    refine hi.proceed hholds rfl he (hexpects.resolve_left fun hf ↦ ?_)
    exact absurd (hhas.symm.trans hf.translation) (by decide)
  | false =>
    have hf : Fresh cfg s unpatched e d :=
      hexpects.resolve_right fun hd ↦ absurd (hhas.symm.trans hd.translation) (by decide)
    have hcalled (a : ℕ) : (s.callTranslate e d.word keep).Called a ↔ s.Called a ∨ a = e :=
      called_callTranslate
    refine hi.work (p := .translating e) hholds rfl he rfl rfl rfl rfl
      (update_eq_self_iff.mpr he.symm).symm (hi.lists.congr rfl rfl rfl rfl) (fun _ _ ↦ Iff.rfl)
      ?_ (fun a ha ↦ (hcalled a).trans (or_iff_left ha)) (fun h ↦ (hcalled e).mpr (.inl h))
      (fun a d₀ ha hd₀ hc hlive ↦ ?_) (fun _ ↦ rfl) id
      ⟨(hcalled e).mpr (.inr rfl), hhas, hf.unlinked⟩
    · change ((s.calls ++ [(e, d.word)]).map Prod.fst).Nodup
      rw [List.map_append, List.map_singleton, ← List.concat_eq_append]
      exact hi.calls.concat hf.called
    · change update s.context.metas d.word keep d₀.word = true
      rw [update_of_ne fun heq ↦ ha (hi.owner a e d₀ d hd₀ he hc hf.called heq)]
      exact hlive

theorem Inv.store (hi : Inv cfg s all unpatched) (ht : (s.phase t).holds = some e)
    (hp : p.holds = some e) (he : s.context.edges e = some d) (hcalled : s.Called e)
    (hmem : e ∉ unpatched) (hnext : d'.next = d.next)
    (hhas : edgeHasTranslation cfg d = true → edgeHasTranslation cfg d' = true)
    (hexpects : Expects cfg s unpatched e d' p) :
    Inv cfg { s.goto t p with context := s.context.set e d' } all unpatched :=
  hi.work ht hp he rfl rfl rfl rfl rfl
    (hi.lists.set he hnext fun h ↦ absurd h hmem) (fun _ _ ↦ Iff.rfl) hi.calls
    (fun _ _ ↦ Iff.rfl) id (fun _ _ _ _ _ h ↦ h) (fun h ↦ absurd hcalled h) hhas
    (hexpects.congr Iff.rfl Iff.rfl rfl rfl fun _ h ↦ h)

theorem inv_prepare (hi : Inv cfg s all unpatched) (ht : s.phase t = .prepare e) {c : Context}
    (hc : s.context.preparePatchDirectEdge e = some c) :
    Inv cfg { s.goto t (.release e) with context := c } all (e :: unpatched) := by
  have hholds : (s.phase t).holds = some e := by rw [ht]; rfl
  obtain ⟨d, he⟩ := hi.exists_edge (holds_spec hholds).1
  have hexpects := hi.expects hholds he
  rw [ht] at hexpects
  obtain ⟨hcalled, hhas, hmem, -⟩ := hexpects
  have hne : e ≠ 0 := hi.lists.ne_zero he
  have hlists := hi.lists.prepare hne he hmem hc
  rw [preparePatchDirectEdge, he, Option.map_some, Option.some_inj] at hc
  subst hc
  refine hi.work (p := .release e) hholds rfl he rfl rfl rfl rfl rfl hlists
    (fun a ha ↦ List.mem_cons.trans (or_iff_right ha)) hi.calls (fun _ _ ↦ Iff.rfl) id
    (fun _ _ _ _ _ h ↦ h) (fun h ↦ absurd hcalled h) id ?_
  exact ⟨hcalled, hhas, fun h ↦ absurd List.mem_cons_self h⟩

theorem inv_goOn (hi : Inv cfg s all unpatched) {choice : Bool}
    (h : goOn cfg s t choice = some s') : ∃ unpatched', Inv cfg s' all unpatched' := by
  rw [goOn] at h
  cases ht : s.phase t with
  | jump e | back e =>
    rw [ht] at h
    obtain ⟨d, he, rfl⟩ := Option.map_eq_some_iff.mp h
    exact ⟨unpatched, inv_jump hi he (by rw [ht]; rfl) (by rw [ht]; rfl)⟩
  | enter e =>
    simp only [ht] at h
    split_ifs at h with hexit
    obtain rfl := Option.some_inj.mp h
    refine ⟨unpatched, hi.pass (p := .acquire e) (by rw [ht]; rfl) rfl (fun a ha ↦ ?_) (by simp) rfl
      rfl rfl rfl (fun u ↦ ?_) fun h ↦ absurd h hexit⟩
    · exact hi.live t a (by rw [ht]; exact ha)
    · change u ∈ insert t s.readers ↔ (update s.phase t (.acquire e) u).inside = true
      rw [Finset.mem_insert, hi.readers]
      rcases eq_or_ne u t with rfl | hu
      · simp [Phase.inside]
      · rw [update_of_ne hu, or_iff_right hu]
  | acquire e =>
    simp only [ht] at h
    split_ifs at h with hfree
    obtain rfl := Option.some_inj.mp h
    refine ⟨unpatched, hi.relock (e := e) (p := .check e) (o := some t)
      (fun u hu ↦ absurd (hfree.symm.trans hu) (Option.some_ne_none u).symm)
      (by simp [ht, Phase.holds]) (.inl ⟨rfl, rfl⟩) (fun d he ↦ ?_) (fun a ha ↦ ?_) (by simp)
      (by rw [ht]; rfl) rfl rfl rfl rfl rfl rfl⟩
    · have hedge := hi.edge e d he
      rw [State.user, hfree] at hedge
      exact hedge
    · exact hi.live t a (by rw [ht]; exact ha)
  | check e =>
    rw [ht] at h
    obtain ⟨d, he, rfl⟩ := Option.map_eq_some_iff.mp h
    exact ⟨unpatched, inv_check hi ht he choice⟩
  | clear e =>
    rw [ht] at h
    obtain ⟨d, he, rfl⟩ := Option.map_eq_some_iff.mp h
    have hholds : (s.phase t).holds = some e := by rw [ht]; rfl
    obtain ⟨hcalled, hhas, hmem⟩ := ht ▸ hi.expects hholds he
    exact ⟨unpatched, hi.store hholds rfl he hcalled hmem rfl id ⟨hcalled, hhas, hmem, rfl⟩⟩
  | patch e =>
    rw [ht] at h
    obtain rfl := Option.some_inj.mp h
    have hholds : (s.phase t).holds = some e := by rw [ht]; rfl
    obtain ⟨d, he⟩ := hi.exists_edge (holds_spec hholds).1
    have hexpects : Expects cfg s unpatched e d (.patch e) := ht ▸ hi.expects hholds he
    refine ⟨unpatched, ?_⟩
    cases cfg.unsafePatchEdges && choice with
    | true => exact hi.proceed hholds rfl he ⟨hexpects.1, hexpects.2.1, fun _ ↦ hexpects.2.2.2⟩
    | false => exact hi.proceed hholds rfl he hexpects
  | prepare e =>
    rw [ht] at h
    obtain ⟨c, hc, rfl⟩ := Option.map_eq_some_iff.mp h
    exact ⟨e :: unpatched, inv_prepare hi ht hc⟩
  | release e =>
    rw [ht] at h
    obtain rfl := Option.some_inj.mp h
    have hholds : (s.phase t).holds = some e := by rw [ht]; rfl
    have hdone {d : DirectEdge} (he : s.context.edges e = some d) : Done cfg s unpatched e d :=
      (ht ▸ hi.expects hholds he : Expects cfg s unpatched e d (.release e))
    refine ⟨unpatched, hi.relock (e := e) (p := .leave e) (o := none) (fun u hu ↦ ?_)
      (by simp [ht, Phase.holds]) (.inr ⟨rfl, rfl⟩) (fun d he ↦ .inr (hdone he)) (fun a ha ↦ ?_)
      (fun a d ha he ↦ ?_) (by rw [ht]; rfl) rfl rfl rfl rfl rfl rfl⟩
    · rw [(hi.lock e t).mpr hholds] at hu
      exact (Option.some_inj.mp hu).symm
    · exact hi.live t a (by rw [ht]; exact ha)
    · obtain rfl : e = a := by simpa using ha
      exact (hdone he).translation
  | leave e =>
    rw [ht] at h
    obtain rfl := Option.some_inj.mp h
    refine ⟨unpatched, hi.pass (p := .back e) (by rw [ht]; rfl) rfl (fun a ha ↦ ?_)
      (fun a d ha he ↦ ?_) rfl rfl rfl rfl (fun u ↦ ?_) fun h ↦ ?_⟩
    · exact hi.live t a (by rw [ht]; exact ha)
    · obtain rfl : e = a := by simpa using ha
      exact hi.back t e d (.inl ht) he
    · change u ∈ s.readers.erase t ↔ (update s.phase t (.back e) u).inside = true
      rw [Finset.mem_erase, hi.readers]
      rcases eq_or_ne u t with rfl | hu
      · simp [Phase.inside]
      · rw [update_of_ne hu, and_iff_right hu]
    · change s.readers.erase t = ∅
      rw [hi.exiting h, Finset.erase_empty]
  | outside | translating | translatingOther =>
    rw [ht] at h
    exact absurd h (Option.some_ne_none s').symm

theorem inv_finish (hi : Inv cfg s all unpatched) {pc : ℕ} (h : finish cfg s t pc = some s') :
    Inv cfg s' all unpatched := by
  rw [finish] at h
  cases ht : s.phase t with
  | translating e =>
    rw [ht] at h
    obtain ⟨d, he, h⟩ := Option.bind_eq_some_iff.mp h
    split_ifs at h with hhas
    obtain rfl := Option.some_inj.mp h
    have hholds : (s.phase t).holds = some e := by rw [ht]; rfl
    obtain ⟨hcalled, -, hmem⟩ := ht ▸ hi.expects hholds he
    exact hi.store hholds rfl he hcalled hmem rfl (fun _ ↦ hhas) ⟨hcalled, hhas, hmem⟩
  | translatingOther =>
    rw [ht] at h
    obtain rfl := Option.some_inj.mp h
    exact hi.pass (by rw [ht]; rfl) rfl (by simp [Phase.edge]) (by simp) rfl rfl rfl rfl
      (hi.readers_update (by rw [ht]; rfl)) hi.exiting
  | _ =>
    rw [ht] at h
    exact absurd h (Option.some_ne_none s').symm

theorem directEdgeCodeSizeBytes_pos : 0 < cfg.directEdgeCodeSizeBytes := by
  rw [Config.directEdgeCodeSizeBytes]
  split_ifs <;> decide

/-- Before the edge is encoded, and until it is translated, the jump leads into the edge. -/
theorem edgeHasTranslation_encoded {length : ℕ} (hlength : length < cfg.directEdgeCodeSizeBytes)
    (d : DirectEdge) (pc : ℕ) :
    edgeHasTranslation cfg { d with edgeCodePC := pc, entryTargetPC := pc + length } = false := by
  simp only [edgeHasTranslation, Bool.or_eq_false_iff, decide_eq_false_iff_not]
  omega

omit [DecidableEq T] in
theorem inv_allocate (hi : Inv cfg s all unpatched) {m : ℕ} (he : e ≠ 0)
    (hnew : s.context.edges e = none) (hm : m ≠ 0) (hfree : s.context.metas m = false) :
    Inv cfg { s with
      context := { s.context with metas := update s.context.metas m true }.allocateDirectEdge m e }
      (e :: all) unpatched := by
  have hlists : Lists { s.context with metas := update s.context.metas m true } all unpatched :=
    hi.lists.congr rfl rfl rfl rfl
  have hall : e ∉ all := fun hmem ↦ (hi.lists.mem e).mp hmem hnew
  have hmetas (n : ℕ) (hn : n = m ∨ s.context.metas n = true) :
      update s.context.metas m true n = true := by
    rcases eq_or_ne n m with rfl | hne
    · rw [update_self]
    · rw [update_of_ne hne]
      exact hn.resolve_left hne
  refine hi.build (e := e) (hlists.allocate he hnew m) (fun a d ha ↦ ?_) (fun a d' ha hnone ↦ ?_)
    (fun n hn ↦ ?_) rfl rfl rfl rfl rfl
  · have hne : a ≠ e := by
      rintro rfl
      exact absurd (hnew.symm.trans ha) (Option.some_ne_none d).symm
    exact ⟨d, (update_of_ne hne _ _).trans ha, rfl, rfl⟩
  · obtain rfl : a = e := by
      by_contra hne
      exact absurd (hnone.symm.trans ((update_of_ne hne _ _).symm.trans ha))
        (Option.some_ne_none d').symm
    obtain rfl := Option.some_inj.mp ((update_self a _ _).symm.trans ha)
    refine ⟨rfl, ⟨fun hc ↦ hi.allocated a hc hnew, ?_, hm, hmetas m (.inl rfl),
      fun h ↦ hall (hi.lists.sub a h)⟩, hfree⟩
    exact edgeHasTranslation_encoded directEdgeCodeSizeBytes_pos ⟨0, s.context.edgeList, m, 0⟩ 0
  · exact hmetas n (.inr hn)

omit [DecidableEq T] in
theorem inv_encode (hi : Inv cfg s all unpatched) {pc length : ℕ}
    (he : s.context.edges e = some d) (hcode : d.edgeCodePC = 0) (htarget : d.entryTargetPC = 0)
    (hlength : length < cfg.directEdgeCodeSizeBytes) :
    Inv cfg { s with
      context := s.context.set e { d with edgeCodePC := pc, entryTargetPC := pc + length } }
      all unpatched := by
  have hhas : edgeHasTranslation cfg { d with edgeCodePC := pc, entryTargetPC := pc + length } =
      edgeHasTranslation cfg d := by
    rw [edgeHasTranslation_encoded hlength, edgeHasTranslation, hcode, htarget]
    have hpos : 0 < cfg.directEdgeCodeSizeBytes := directEdgeCodeSizeBytes_pos
    simp only [Bool.false_eq, Bool.or_eq_false_iff, decide_eq_false_iff_not]
    omega
  refine hi.build (e := e) (hi.lists.set he rfl fun _ ↦ rfl) (fun a d₀ ha ↦ ?_)
    (fun a d₀ ha hnone ↦ ?_) (fun _ h ↦ h) rfl rfl rfl rfl rfl
  · rcases eq_or_ne a e with rfl | hne
    · obtain rfl := Option.some_inj.mp (he.symm.trans ha)
      exact ⟨_, update_self a _ _, rfl, hhas⟩
    · exact ⟨d₀, (update_of_ne hne _ _).trans ha, rfl, rfl⟩
  · have hne : a ≠ e := by
      rintro rfl
      exact absurd (hnone.symm.trans he) (Option.some_ne_none d).symm
    exact absurd (hnone.symm.trans ((update_of_ne hne _ _).symm.trans ha))
      (Option.some_ne_none d₀).symm

theorem inv_step (hi : ∃ all unpatched, Inv cfg s all unpatched) {a : Action T}
    (h : step cfg s a = some s') : ∃ all unpatched, Inv cfg s' all unpatched := by
  obtain ⟨all, unpatched, hi⟩ := hi
  cases a with
  | jump t e =>
    obtain ⟨d, he, h⟩ := Option.bind_eq_some_iff.mp h
    split_ifs at h with hguard
    obtain rfl := Option.some_inj.mp h
    refine ⟨all, unpatched, hi.pass (p := .jump e) (by rw [hguard.1]; rfl) rfl (fun a ha ↦ ?_)
      (by simp) rfl rfl rfl rfl (hi.readers_update (by rw [hguard.1]; rfl)) hi.exiting⟩
    obtain rfl : e = a := Option.some_inj.mp ha
    rw [he]
    exact Option.some_ne_none d
  | go t choice => exact ⟨all, inv_goOn hi h⟩
  | translate t =>
    rw [step] at h
    split_ifs at h with hguard
    obtain rfl := Option.some_inj.mp h
    exact ⟨all, unpatched, hi.pass (p := .translatingOther) (by rw [hguard]; rfl) rfl
      (by simp [Phase.edge]) (by simp) rfl rfl rfl rfl (hi.readers_update (by rw [hguard]; rfl))
      hi.exiting⟩
  | allocate t e m =>
    rw [step] at h
    split_ifs at h with hguard
    obtain rfl := Option.some_inj.mp h
    exact ⟨e :: all, unpatched,
      inv_allocate hi hguard.2.1 hguard.2.2.1 hguard.2.2.2.1 hguard.2.2.2.2⟩
  | encode t e pc length =>
    obtain ⟨d, he, h⟩ := Option.bind_eq_some_iff.mp h
    split_ifs at h with hguard
    obtain rfl := Option.some_inj.mp h
    exact ⟨all, unpatched, inv_encode hi he hguard.2.1 hguard.2.2.1 hguard.2.2.2.2⟩
  | finish t pc => exact ⟨all, unpatched, inv_finish hi h⟩
  | exit =>
    rw [step] at h
    split_ifs at h with hguard
    obtain rfl := Option.some_inj.mp h
    exact ⟨all, unpatched,
      { hi with
        edge := fun e d he ↦ (hi.edge e d he).congr Iff.rfl Iff.rfl rfl rfl fun _ h ↦ h
        exiting := fun _ ↦ hguard }⟩

end Preserved

end Granary.Entry
