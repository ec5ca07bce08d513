import Mathlib.Data.List.Basic
import Mathlib.Tactic

namespace Granary.Base.Language

variable {σ τ ε : Type*}

/-- In each state a system says something and then goes to one of several states. -/
abbrev System (σ ε : Type*) := σ → List ε × List σ

inductive Run (S : System σ ε) : σ → List ε → Prop
  | stop {p : σ} {es : List ε} (h : es <+: (S p).1) : Run S p es
  | step {p q : σ} {es : List ε} (hq : q ∈ (S p).2) (h : Run S q es) : Run S p ((S p).1 ++ es)

def RunWithin (S : System σ ε) : ℕ → σ → List ε → Prop
  | 0, p, es => es <+: (S p).1
  | n + 1, p, es => es <+: (S p).1 ∨ ∃ q ∈ (S p).2, ∃ es', RunWithin S n q es' ∧ es = (S p).1 ++ es'

inductive Leads (S : System σ ε) : σ → List ε → σ → Prop
  | refl (p : σ) : Leads S p [] p
  | step {p q r : σ} {es : List ε} (hq : (S p).2 = [q]) (h : Leads S q es r) :
      Leads S p ((S p).1 ++ es) r

variable {S : System σ ε}

theorem Leads.trans {p q r : σ} {es es' : List ε} (h : Leads S p es q) (h' : Leads S q es' r) :
    Leads S p (es ++ es') r := by
  induction h with
  | refl p => exact h'
  | step hq h ih =>
    rw [List.append_assoc]
    exact .step hq (ih h')

theorem Leads.single {p q : σ} (hq : (S p).2 = [q]) : Leads S p (S p).1 q := by
  have h := Leads.step hq (.refl q)
  rwa [List.append_nil] at h

theorem RunWithin.mono {n m : ℕ} (hnm : n ≤ m) {p : σ} {es : List ε} (h : RunWithin S n p es) :
    RunWithin S m p es := by
  induction n generalizing m p es with
  | zero =>
    cases m with
    | zero => exact h
    | succ m => exact .inl h
  | succ n ih =>
    obtain ⟨m, rfl⟩ : ∃ k, m = k + 1 := ⟨m - 1, by omega⟩
    rcases h with h | ⟨q, hq, es', h, rfl⟩
    · exact .inl h
    · exact .inr ⟨q, hq, es', ih (by omega) h, rfl⟩

theorem run_iff_within {p : σ} {es : List ε} : Run S p es ↔ ∃ n, RunWithin S n p es := by
  constructor
  · intro h
    induction h with
    | stop h => exact ⟨0, h⟩
    | step hq _ ih =>
      obtain ⟨n, h⟩ := ih
      exact ⟨n + 1, .inr ⟨_, hq, _, h, rfl⟩⟩
  · rintro ⟨n, h⟩
    induction n generalizing p es with
    | zero => exact .stop h
    | succ n ih =>
      rcases h with h | ⟨q, hq, es', h, rfl⟩
      · exact .stop h
      · exact .step hq (ih h)

theorem Run.nil (p : σ) : Run S p [] := .stop (List.nil_prefix)

theorem Leads.run_prefix {p q : σ} {es es' : List ε} (h : Leads S p es q) (hes : es' <+: es) :
    Run S p es' := by
  induction h generalizing es' with
  | refl p =>
    rw [List.prefix_nil.mp hes]
    exact .nil p
  | @step p q r es hq _ ih =>
    rcases List.prefix_or_prefix_of_prefix hes (List.prefix_append (S p).1 es) with h | ⟨t, rfl⟩
    · exact .stop h
    · refine .step (by simp [hq]) (ih ?_)
      exact (List.prefix_append_right_inj _).mp hes

theorem Leads.run {p q : σ} {es es' : List ε} (h : Leads S p es q) (h' : Run S q es') :
    Run S p (es ++ es') := by
  induction h with
  | refl p => exact h'
  | step hq _ ih =>
    rw [List.append_assoc]
    exact .step (by simp [hq]) (ih h')

theorem Leads.within {p q : σ} {es es' : List ε} (h : Leads S p es q) {n : ℕ}
    (h' : RunWithin S n p es') :
    es' <+: es ∨ ∃ es'', es' = es ++ es'' ∧ RunWithin S n q es'' := by
  induction h generalizing n es' with
  | refl p => exact .inr ⟨es', rfl, h'⟩
  | @step p q r es hq _ ih =>
    cases n with
    | zero => exact .inl (h'.trans (List.prefix_append _ _))
    | succ n =>
      rcases h' with h' | ⟨q', hq', es'', h', rfl⟩
      · exact .inl (h'.trans (List.prefix_append _ _))
      · rw [hq, List.mem_singleton] at hq'
        subst hq'
        rcases ih h' with h | ⟨t, rfl, ht⟩
        · exact .inl ((List.prefix_append_right_inj _).mpr h)
        · exact .inr ⟨t, by rw [List.append_assoc], ht.mono (Nat.le_succ n)⟩

def Passes (S : System σ ε) (p : σ) (es : List ε) (q : σ) : Prop :=
  ∃ r es', Leads S p es' r ∧ es = es' ++ (S r).1 ∧ (S r).2 = [q]

theorem Leads.snoc {p q r : σ} {es : List ε} (h : Leads S p es r) (hr : (S r).2 = [q]) :
    Passes S p (es ++ (S r).1) q :=
  ⟨r, es, h, rfl, hr⟩

theorem Passes.leads {p q : σ} {es : List ε} (h : Passes S p es q) : Leads S p es q := by
  obtain ⟨r, es', hr, rfl, hq⟩ := h
  exact hr.trans (.single hq)

theorem Leads.eq_or_passes {p q : σ} {es : List ε} (h : Leads S p es q) :
    (p = q ∧ es = []) ∨ Passes S p es q := by
  induction h with
  | refl p => exact .inl ⟨rfl, rfl⟩
  | @step p q r es hq _ ih =>
    rcases ih with ⟨rfl, rfl⟩ | ⟨t, es', ht, rfl, hr⟩
    · exact .inr ⟨p, [], .refl p, by simp, hq⟩
    · exact .inr ⟨t, (S p).1 ++ es', .step hq ht, (List.append_assoc _ _ _).symm, hr⟩

/-- From `p` the system says `es` without a choice, and then goes to the states of
`qs`, up to steps in which it says nothing. -/
def Covers (S : System σ ε) (p : σ) (es : List ε) (qs : List σ) : Prop :=
  ∃ r es', Leads S p es' r ∧ es = es' ++ (S r).1 ∧
    (∀ q ∈ (S r).2, ∃ q' ∈ qs, Leads S q [] q') ∧ ∀ q' ∈ qs, ∃ q ∈ (S r).2, Leads S q [] q'

/-- A system `T` is folded into `S`: each of its states covers a path of `S`, or says
nothing and goes to states that stand for the same state of `S`, where `S` stops or they
are lower. -/
def Folds (S : System σ ε) (T : System τ ε) (start : τ → σ) (rank : τ → ℕ) (f : τ) : Prop :=
  Covers S (start f) (T f).1 ((T f).2.map start) ∨
    ((T f).1 = [] ∧ (∀ g ∈ (T f).2, start g = start f) ∧
      (S (start f) = ([], []) ∨ (T f).2 ≠ [] ∧ ∀ g ∈ (T f).2, rank g < rank f))

section Folds

variable {T : System τ ε} {start : τ → σ} {rank : τ → ℕ} {P : τ → Prop} {f : τ} {es : List ε}

theorem Folds.of_leads {p : σ} (hlead : Leads S (start f) es p) (hsaid : (T f).1 = es ++ (S p).1)
    (hto : ∀ q ∈ (S p).2, ∃ g ∈ (T f).2, Leads S q [] (start g))
    (hof : ∀ g ∈ (T f).2, ∃ q ∈ (S p).2, Leads S q [] (start g)) : Folds S T start rank f := by
  refine .inl ⟨p, es, hlead, hsaid, fun q hq ↦ ?_, fun q' hq' ↦ ?_⟩
  · obtain ⟨g, hg, hqg⟩ := hto q hq
    exact ⟨start g, List.mem_map_of_mem hg, hqg⟩
  · obtain ⟨g, hg, rfl⟩ := List.mem_map.mp hq'
    exact hof g hg

theorem Folds.of_passes {g : τ} (h : Passes S (start f) es (start g)) (hT : T f = (es, [g])) :
    Folds S T start rank f := by
  obtain ⟨r, es', hr, rfl, hq⟩ := h
  refine .of_leads hr (by rw [hT]) (fun q hq' ↦ ?_) fun g' hg' ↦ ?_
  · rw [hq, List.mem_singleton] at hq'
    exact ⟨g, by simp [hT], hq' ▸ .refl _⟩
  · rw [hT, List.mem_singleton] at hg'
    exact ⟨start g, by simp [hq], hg' ▸ .refl _⟩

theorem Folds.of_tail {g : τ} (h : Leads S (start f) es (start g)) (hT : T f = (es, [g]))
    (hrank : rank g < rank f) : Folds S T start rank f := by
  rcases h.eq_or_passes with ⟨hp, he⟩ | hpass
  · refine .inr ⟨by rw [hT, he], fun g' hg' ↦ ?_, .inr ⟨by simp [hT], fun g' hg' ↦ ?_⟩⟩
    · rw [hT, List.mem_singleton] at hg'
      rw [hg', hp]
    · rw [hT, List.mem_singleton] at hg'
      rwa [hg']
  · exact .of_passes hpass hT

theorem Folds.congr {T' : System τ ε} {start' : τ → σ} {rank' : τ → ℕ}
    (h : Folds S T start rank f) (hT : T' f = T f)
    (hsame : ∀ g, g = f ∨ g ∈ (T f).2 → start' g = start g ∧ rank' g = rank g) :
    Folds S T' start' rank' f := by
  have hf := hsame f (.inl rfl)
  have hmap : (T f).2.map start' = (T f).2.map start :=
    List.map_congr_left fun g hg ↦ (hsame g (.inr hg)).1
  unfold Folds at h ⊢
  rw [hT, hf.1, hmap]
  refine h.imp_right fun ⟨he, hz, hlow⟩ ↦ ⟨he, fun g hg ↦ ?_, hlow.imp_right fun ⟨hne, hlow⟩ ↦
    ⟨hne, fun g hg ↦ ?_⟩⟩
  · rw [(hsame g (.inr hg)).1]
    exact hz g hg
  · rw [(hsame g (.inr hg)).2, hf.2]
    exact hlow g hg

theorem run_of_folds (hclosed : ∀ f, P f → ∀ g ∈ (T f).2, P g)
    (hf : ∀ f, P f → Folds S T start rank f) (hP : P f) (h : Run T f es) :
    Run S (start f) es := by
  induction h with
  | @stop f es h =>
    rcases hf f hP with ⟨r, es', hr, he, -, -⟩ | ⟨he, -, -⟩
    · rw [he] at h
      rcases List.prefix_or_prefix_of_prefix h (List.prefix_append es' _) with h' | ⟨t, rfl⟩
      · exact hr.run_prefix h'
      · exact hr.run (.stop ((List.prefix_append_right_inj _).mp h))
    · rw [he, List.prefix_nil] at h
      rw [h]
      exact .nil _
  | @step f g es hg h ih =>
    have hrun := ih (hclosed f hP g hg)
    rcases hf f hP with ⟨r, es', hr, he, -, hb⟩ | ⟨he, hz, -⟩
    · obtain ⟨q, hq, hlead⟩ := hb (start g) (List.mem_map_of_mem hg)
      rw [he, List.append_assoc]
      exact hr.run (.step hq (hlead.run hrun))
    · rw [he, List.nil_append, ← hz g hg]
      exact hrun

theorem RunWithin.eq_nil {p : σ} (hp : S p = ([], [])) {n : ℕ} (h : RunWithin S n p es) :
    es = [] := by
  cases n with
  | zero => simpa [RunWithin, hp] using h
  | succ n => simpa [RunWithin, hp] using h

theorem folds_run_within (hclosed : ∀ f, P f → ∀ g ∈ (T f).2, P g)
    (hf : ∀ f, P f → Folds S T start rank f) (n : ℕ) (hP : P f)
    (h : RunWithin S n (start f) es) : Run T f es := by
  induction n using Nat.strong_induction_on generalizing f es with
  | _ n ihn =>
    induction hk : rank f using Nat.strong_induction_on generalizing f es with
    | _ k ihk =>
      rcases hf f hP with ⟨r, es', hr, he, ha, -⟩ | ⟨he, hz, hstop | ⟨hne, hlow⟩⟩
      · rcases hr.within h with h' | ⟨t, rfl, ht⟩
        · exact .stop (h'.trans (he ▸ List.prefix_append _ _))
        · cases n with
          | zero => exact .stop (he ▸ (List.prefix_append_right_inj _).mpr ht)
          | succ n =>
            rcases ht with ht | ⟨q, hq, es'', ht, rfl⟩
            · exact .stop (he ▸ (List.prefix_append_right_inj _).mpr ht)
            · obtain ⟨q', hq', hlead⟩ := ha q hq
              obtain ⟨g, hg, rfl⟩ := List.mem_map.mp hq'
              rw [← List.append_assoc, ← he]
              rcases hlead.within ht with h' | ⟨t, rfl, ht⟩
              · rw [List.prefix_nil.mp h']
                exact .step hg (.nil g)
              · exact .step hg (ihn n (Nat.lt_succ_self n) (hclosed f hP g hg) ht)
      · rw [h.eq_nil hstop]
        exact .nil f
      · obtain ⟨g, hg⟩ := List.exists_mem_of_ne_nil _ hne
        have hrun := ihk (rank g) (hk ▸ hlow g hg) (hclosed f hP g hg) (hz g hg ▸ h) rfl
        have hstep := Run.step hg hrun
        rwa [he, List.nil_append] at hstep

theorem run_iff_of_folds (hclosed : ∀ f, P f → ∀ g ∈ (T f).2, P g)
    (hf : ∀ f, P f → Folds S T start rank f) (hP : P f) : Run T f es ↔ Run S (start f) es := by
  constructor
  · exact run_of_folds hclosed hf hP
  · intro h
    obtain ⟨n, hn⟩ := run_iff_within.mp h
    exact folds_run_within hclosed hf n hP hn

end Folds

theorem run_congr {T : System σ ε} {P : σ → Prop} (hclosed : ∀ p, P p → ∀ q ∈ (S p).2, P q)
    (hT : ∀ p, P p → T p = S p) {p : σ} (hp : P p) {es : List ε} : Run T p es ↔ Run S p es := by
  have hf : ∀ p, P p → Folds S T id (fun _ ↦ 0) p := by
    intro p hp
    refine Folds.of_leads (.refl p) (by rw [hT p hp]; rfl) (fun q hq ↦ ?_) fun q hq ↦ ?_
    · exact ⟨q, by rwa [hT p hp], .refl q⟩
    · exact ⟨q, by rwa [hT p hp] at hq, .refl q⟩
  exact run_iff_of_folds (fun p hp q hq ↦ hclosed p hp q (by rwa [hT p hp] at hq)) hf hp

theorem exists_run {p q : σ} (h : Relation.ReflTransGen (fun p q ↦ q ∈ (S p).2) p q) :
    ∃ es, Run S p (es ++ (S q).1) := by
  induction h using Relation.ReflTransGen.head_induction_on with
  | refl => exact ⟨[], .stop List.prefix_rfl⟩
  | @head p q hq _ ih =>
    obtain ⟨es, hes⟩ := ih
    refine ⟨(S p).1 ++ es, ?_⟩
    rw [List.append_assoc]
    exact .step hq hes

theorem exists_said {P : σ → Prop} (hclosed : ∀ p, P p → ∀ q ∈ (S p).2, P q) {p : σ} (hP : P p)
    {es : List ε} (h : Run S p es) {e : ε} (he : e ∈ es) : ∃ q, P q ∧ e ∈ (S q).1 := by
  induction h with
  | @stop p es hes => exact ⟨p, hP, hes.subset he⟩
  | @step p q es hq _ ih =>
    rcases List.mem_append.mp he with he | he
    · exact ⟨p, hP, he⟩
    · exact ih (hclosed p hP q hq) he

theorem run_iff_of_silent {p q : σ} (hp : S p = ([], [q])) {es : List ε} :
    Run S p es ↔ Run S q es := by
  constructor
  · intro h
    cases h with
    | stop h =>
      rw [hp, List.prefix_nil] at h
      rw [h]
      exact .nil q
    | step hq h =>
      rw [hp, List.mem_singleton] at hq
      rw [hp, List.nil_append, ← hq]
      exact h
  · intro h
    have hstep := Run.step (S := S) (p := p) (q := q) (by rw [hp]; exact List.mem_singleton_self q) h
    rwa [hp] at hstep

end Granary.Base.Language
