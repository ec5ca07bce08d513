import Granary.Base.Chain
import Granary.Base.Run
import Mathlib.Order.Filter.AtTopBot.Basic

namespace Granary.Base.Loop

open Filter Granary.Base.Run

variable {α σ : Type*}

/-- `for (auto a : ...)` with an iterator that may fail to get to the next element, and a body that
may fail. -/
def forEach (next : σ → α → Option (Option α)) (body : σ → α → Option σ) :
    ℕ → Option α → σ → Option σ
  | _, none, s => some s
  | 0, some _, _ => none
  | n + 1, some a, s =>
    (body s a).bind fun s ↦ (next s a).bind fun o ↦ forEach next body n o s

theorem forEach_spec {next : ℕ → σ → α → Option (Option α)} {body : ℕ → σ → α → Option σ}
    {I : List α → σ → Prop} {l : List α} {s : σ}
    (hstep : ∀ done a rest s, l = done ++ a :: rest → I done s → ∃ s', I (done ++ [a]) s' ∧
      ∀ᶠ n in atTop, body n s a = some s' ∧ next n s' a = some rest.head?)
    (h₀ : I [] s) :
    ∃ s', I l s' ∧ ∀ᶠ n in atTop, forEach (next n) (body n) n l.head? s = some s' := by
  have hrest (rest : List α) (done : List α) (s : σ) (hl : l = done ++ rest) (hI : I done s) :
      ∃ s', I l s' ∧ ∀ᶠ n in atTop, ∀ m, rest.length ≤ m →
        forEach (next n) (body n) m rest.head? s = some s' := by
    induction rest generalizing done s with
    | nil =>
      rw [List.append_nil] at hl
      refine ⟨s, hl ▸ hI, Eventually.of_forall fun n m _ ↦ ?_⟩
      cases m <;> rfl
    | cons a rest ih =>
      obtain ⟨s₁, hI₁, hs₁⟩ := hstep done a rest s hl hI
      obtain ⟨s₂, hI₂, hs₂⟩ := ih (done ++ [a]) s₁ (by rw [hl, List.append_assoc]; rfl) hI₁
      refine ⟨s₂, hI₂, ?_⟩
      filter_upwards [hs₁, hs₂] with n hn₁ hn₂ m hm
      rw [List.length_cons] at hm
      obtain ⟨m, rfl⟩ : ∃ k, m = k + 1 := ⟨m - 1, by omega⟩
      rw [List.head?_cons, forEach, hn₁.1, Option.bind_some, hn₁.2, Option.bind_some]
      exact hn₂ m (by omega)
  obtain ⟨s', hI, hs'⟩ := hrest l [] s rfl h₀
  refine ⟨s', hI, ?_⟩
  filter_upwards [hs', eventually_ge_atTop l.length] with n hn hle
  exact hn n hle

theorem forEach_collect {β : Type*} {next : ℕ → α → Option (Option α)} {f : α → β} {l : List α}
    (h : ∀ done a rest, l = done ++ a :: rest →
      ∀ᶠ n in atTop, next n a = some rest.head?) :
    ∀ᶠ n in atTop, forEach (fun _ a ↦ next n a) (fun out a ↦ some (out ++ [f a])) n l.head?
      [] = some (l.map f) := by
  have hstep (done : List α) (a : α) (rest : List α) (out : List β) (hl : l = done ++ a :: rest)
      (hI : out = done.map f) : ∃ out', out' = (done ++ [a]).map f ∧ ∀ᶠ n in atTop,
        some (out ++ [f a]) = some out' ∧ next n a = some rest.head? := by
    refine ⟨out ++ [f a], by simp [hI], ?_⟩
    filter_upwards [h done a rest hl] with n hn
    exact ⟨rfl, hn⟩
  obtain ⟨out, rfl, hout⟩ := forEach_spec hstep rfl
  exact hout

/-- A run of an abstract machine is one of a machine whose steps, with a bound on their loops, keep
up with it. -/
theorem exists_run_of_simulates {τ : Type*} {step : τ → α → Option τ} {t₀ t : τ}
    {step' : ℕ → σ → α → Option σ} {R : σ → τ → Prop} {C : τ → α → Prop} {s₀ : σ}
    {actions : List α}
    (hstep : ∀ s t a t', R s t → C t a → step t a = some t' →
      ∃ s', R s' t' ∧ ∀ᶠ n in atTop, step' n s a = some s')
    (hC : Along step t₀ C actions) (h₀ : R s₀ t₀) (h : run step t₀ actions = some t) :
    ∃ s, R s t ∧ ∀ᶠ n in atTop, run (step' n) s₀ actions = some s := by
  refine run_history (I := fun past t ↦ ∃ s, R s t ∧ ∀ᶠ n in atTop,
    run (step' n) s₀ past = some s) (fun past a t t' hpast ht ⟨s, hR, hs⟩ ha ↦ ?_) ?_ h
  · obtain ⟨s', hR', hs'⟩ := hstep s t a t' hR (hC past a t hpast ht) ha
    refine ⟨s', hR', ?_⟩
    filter_upwards [hs, hs'] with n hn hn'
    rw [run_concat, hn, Option.bind_some, hn']
  · exact ⟨s₀, h₀, Eventually.of_forall fun _ ↦ rfl⟩

end Granary.Base.Loop
