import Mathlib.Data.List.Basic
import Mathlib.Tactic

namespace Granary.Base.Iterate

variable {σ α : Type*}

/-- One pass of a `for` loop that applies `step` to each element and remembers
whether any application reported a change. -/
def sweep (step : σ → α → σ × Bool) : List α → σ → σ × Bool
  | [], s => (s, false)
  | a :: as, s =>
    let r := step s a
    let r' := sweep step as r.1
    (r'.1, r.2 || r'.2)

/-- `for (auto changed = true; changed; ) { ... }`, cut off after `fuel`
passes. -/
def repeatUntil (pass : σ → σ × Bool) : ℕ → σ → Option σ
  | 0, _ => none
  | n + 1, s =>
    match pass s with
    | (s', true) => repeatUntil pass n s'
    | (s', false) => some s'

/-- The loop stops, and every sufficiently large bound on the number of its
passes gives the same final state. -/
def Stops (pass : σ → σ × Bool) (s s' : σ) : Prop :=
  ∃ N, ∀ n, N ≤ n → repeatUntil pass n s = some s'

theorem sweep_append (step : σ → α → σ × Bool) (l m : List α) (s : σ) :
    sweep step (l ++ m) s =
      ((sweep step m (sweep step l s).1).1,
        (sweep step l s).2 || (sweep step m (sweep step l s).1).2) := by
  induction l generalizing s with
  | nil => simp [sweep]
  | cons a l ih => simp only [List.cons_append, sweep, ih, Bool.or_assoc]

theorem sweep_preserves {step : σ → α → σ × Bool} {P : σ → Prop} {l : List α}
    (h : ∀ a ∈ l, ∀ s, P s → P (step s a).1) {s : σ} (hs : P s) : P (sweep step l s).1 := by
  induction l generalizing s with
  | nil => exact hs
  | cons a l ih =>
    exact ih (fun b hb ↦ h b (List.mem_cons_of_mem a hb)) (h a List.mem_cons_self s hs)

theorem sweep_quiet {step : σ → α → σ × Bool} {l m : List α} {a : α} {s : σ}
    (h : (sweep step (l ++ a :: m) s).2 = false) : (step (sweep step l s).1 a).2 = false := by
  rw [sweep_append] at h
  simp only [sweep, Bool.or_eq_false_iff] at h
  exact h.2.1

theorem sweep_fixed {step : σ → α → σ × Bool} {l : List α}
    (h : ∀ a ∈ l, ∀ s, (step s a).2 = false → (step s a).1 = s) {s : σ}
    (hq : (sweep step l s).2 = false) :
    (sweep step l s).1 = s ∧ ∀ a ∈ l, (step s a).2 = false := by
  induction l with
  | nil => exact ⟨rfl, fun a ha ↦ absurd ha List.not_mem_nil⟩
  | cons b l ih =>
    simp only [sweep, Bool.or_eq_false_iff] at hq ⊢
    have hb := h b List.mem_cons_self s hq.1
    rw [hb] at hq ⊢
    obtain ⟨he, hl⟩ := ih (fun a ha ↦ h a (List.mem_cons_of_mem b ha)) hq.2
    refine ⟨he, fun a ha ↦ ?_⟩
    rcases List.mem_cons.mp ha with rfl | ha
    · exact hq.1
    · exact hl a ha

/-- Under the invariant `P`, which it keeps, a step does not lower `μ`, and raises
it when it reports a change. -/
structure Raises (P : σ → Prop) (μ : σ → ℕ) (s : σ) (r : σ × Bool) : Prop where
  keeps : P r.1
  le : μ s ≤ μ r.1
  lt : r.2 = true → μ s < μ r.1

theorem Raises.refl {P : σ → Prop} {μ : σ → ℕ} {s : σ} (hs : P s) : Raises P μ s (s, false) :=
  ⟨hs, le_rfl, fun h ↦ absurd h Bool.false_ne_true⟩

theorem raises_sweep {step : σ → α → σ × Bool} {P : σ → Prop} {μ : σ → ℕ} {l : List α}
    (h : ∀ a ∈ l, ∀ s, P s → Raises P μ s (step s a)) {s : σ} (hs : P s) :
    Raises P μ s (sweep step l s) := by
  induction l generalizing s with
  | nil => exact .refl hs
  | cons a l ih =>
    have ha := h a List.mem_cons_self s hs
    have hl := ih (fun b hb ↦ h b (List.mem_cons_of_mem a hb)) ha.keeps
    refine ⟨hl.keeps, ha.le.trans hl.le, fun hc ↦ ?_⟩
    simp only [sweep, Bool.or_eq_true] at hc ⊢
    rcases hc with hc | hc
    · exact (ha.lt hc).trans_le hl.le
    · exact ha.le.trans_lt (hl.lt hc)

theorem repeatUntil_mono {pass : σ → σ × Bool} {n m : ℕ} {s s' : σ}
    (h : repeatUntil pass n s = some s') (hnm : n ≤ m) : repeatUntil pass m s = some s' := by
  induction n generalizing m s with
  | zero => simp [repeatUntil] at h
  | succ n ih =>
    obtain ⟨m, rfl⟩ : ∃ k, m = k + 1 := ⟨m - 1, by omega⟩
    simp only [repeatUntil] at h ⊢
    split at h
    · exact ih h (by omega)
    · exact h

/-- Under an invariant, a loop whose changing passes raise a bounded quantity
stops, in a state that a pass of the invariant reaches without a change. -/
theorem stops_of_measure {pass : σ → σ × Bool} {P : σ → Prop} {μ : σ → ℕ} {B : ℕ}
    (hr : ∀ s, P s → Raises P μ s (pass s)) (hB : ∀ s, P s → μ s ≤ B) {s : σ} (hs : P s) :
    ∃ t, P t ∧ (pass t).2 = false ∧ Stops pass s (pass t).1 := by
  suffices h : ∀ n s, P s → B - μ s < n →
      ∃ t, P t ∧ (pass t).2 = false ∧ repeatUntil pass n s = some (pass t).1 by
    obtain ⟨t, ht, hq, he⟩ := h (B - μ s + 1) s hs (by omega)
    exact ⟨t, ht, hq, B - μ s + 1, fun n hn ↦ repeatUntil_mono he hn⟩
  intro n
  induction n with
  | zero => intro s _ h; omega
  | succ n ih =>
    intro s hs hn
    rcases hc : pass s with ⟨s', c⟩
    cases c with
    | false =>
      refine ⟨s, hs, by rw [hc], ?_⟩
      simp [repeatUntil, hc]
    | true =>
      have h := hr s hs
      rw [hc] at h
      have hs' : P s' := h.keeps
      have hμ : μ s < μ s' := h.lt rfl
      have hb := hB s' hs'
      obtain ⟨t, ht, hq, he⟩ := ih s' hs' (by omega)
      refine ⟨t, ht, hq, ?_⟩
      simpa [repeatUntil, hc] using he

theorem stops_of_pass {pass : σ → σ × Bool} {s t : σ} (h : Stops pass (pass s).1 t)
    (hq : (pass s).2 = true) : Stops pass s t := by
  obtain ⟨N, hN⟩ := h
  refine ⟨N + 1, fun n hn ↦ ?_⟩
  obtain ⟨n, rfl⟩ : ∃ k, n = k + 1 := ⟨n - 1, by omega⟩
  have hr := hN n (by omega)
  rcases hc : pass s with ⟨s', c⟩
  rw [hc] at hr hq
  simp only at hq hr
  subst hq
  simpa [repeatUntil, hc] using hr

theorem stops_of_quiet {pass : σ → σ × Bool} {s : σ} (hq : (pass s).2 = false) :
    Stops pass s (pass s).1 := by
  refine ⟨1, fun n hn ↦ ?_⟩
  obtain ⟨n, rfl⟩ : ∃ k, n = k + 1 := ⟨n - 1, by omega⟩
  rcases hc : pass s with ⟨s', c⟩
  rw [hc] at hq
  simp only at hq
  subst hq
  simp [repeatUntil, hc]

/-- What a loop returns comes from a pass without a change, of a state with every
property that passes keep. -/
theorem repeatUntil_last {pass : σ → σ × Bool} {P : σ → Prop} (hP : ∀ s, P s → P (pass s).1)
    {n : ℕ} {s s' : σ} (hs : P s) (h : repeatUntil pass n s = some s') :
    ∃ t, P t ∧ (pass t).2 = false ∧ (pass t).1 = s' := by
  induction n generalizing s with
  | zero => simp [repeatUntil] at h
  | succ n ih =>
    have hps := hP s hs
    simp only [repeatUntil] at h
    split at h
    · rename_i t ht
      rw [ht] at hps
      exact ih hps h
    · rename_i t ht
      exact ⟨s, hs, by rw [ht], by rw [ht]; exact Option.some.inj h⟩

theorem sweep_quiet_preserves {step : σ → α → σ × Bool} {P : σ → Prop} {l : List α}
    (h : ∀ a ∈ l, ∀ s, (step s a).2 = false → P s → P (step s a).1) {s : σ} (hs : P s)
    (hq : (sweep step l s).2 = false) : P (sweep step l s).1 := by
  induction l generalizing s with
  | nil => exact hs
  | cons a l ih =>
    simp only [sweep, Bool.or_eq_false_iff] at hq
    exact ih (fun b hb ↦ h b (List.mem_cons_of_mem a hb)) (h a List.mem_cons_self s hq.1 hs) hq.2

theorem repeatUntil_returns_iff {pass : σ → σ × Bool} {s : σ} :
    (∃ n s', repeatUntil pass n s = some s') ↔
      ∃ n, (pass ((fun s ↦ (pass s).1)^[n] s)).2 = false := by
  constructor
  · rintro ⟨n, s', h⟩
    induction n generalizing s with
    | zero => simp [repeatUntil] at h
    | succ n ih =>
      simp only [repeatUntil] at h
      split at h
      · rename_i t ht
        obtain ⟨m, hm⟩ := ih h
        refine ⟨m + 1, ?_⟩
        rw [Function.iterate_succ_apply, ht]
        exact hm
      · rename_i t ht
        exact ⟨0, congrArg Prod.snd ht⟩
  · rintro ⟨n, hn⟩
    induction n generalizing s with
    | zero =>
      obtain ⟨N, hN⟩ := stops_of_quiet hn
      exact ⟨N, _, hN N le_rfl⟩
    | succ n ih =>
      rw [Function.iterate_succ_apply] at hn
      obtain ⟨m, s', hm⟩ := ih hn
      cases hc : (pass s).2 with
      | false =>
        obtain ⟨N, hN⟩ := stops_of_quiet hc
        exact ⟨N, _, hN N le_rfl⟩
      | true =>
        refine ⟨m + 1, s', ?_⟩
        obtain ⟨t, ht⟩ : ∃ t, pass s = (t, true) := ⟨_, Prod.ext rfl hc⟩
        rw [ht] at hm
        rw [repeatUntil, ht]
        exact hm

theorem sweep_filter {step : σ → α → σ × Bool} {P : σ → Prop} (keep : α → Bool)
    (hP : ∀ a s, P s → P (step s a).1) (hskip : ∀ a s, P s → keep a = false → step s a = (s, false))
    (l : List α) {s : σ} (hs : P s) : sweep step l s = sweep step (l.filter keep) s := by
  induction l generalizing s with
  | nil => rfl
  | cons a l ih =>
    cases ha : keep a with
    | false =>
      rw [List.filter_cons_of_neg (by simp [ha]), sweep, hskip a s hs ha, ih hs]
      exact Prod.ext rfl (Bool.false_or _)
    | true => rw [List.filter_cons_of_pos ha, sweep, sweep, ih (hP a s hs)]

end Granary.Base.Iterate
