import Mathlib.Data.List.Basic
import Mathlib.Data.Fintype.Card
import Mathlib.Data.List.Induction
import Mathlib.Tactic

namespace Granary.Base.Run

variable {σ α : Type*} (step : σ → α → Option σ)

/-- The actions of a run one after the other. A run with an action that is not enabled is none. -/
def run (s : σ) (actions : List α) : Option σ :=
  actions.foldlM step s

@[simp] theorem run_nil (s : σ) : run step s [] = some s :=
  rfl

theorem run_append (s : σ) (as bs : List α) :
    run step s (as ++ bs) = (run step s as).bind fun s' ↦ run step s' bs := by
  simp [run, List.foldlM_append, Option.bind_eq_bind]

theorem run_concat (s : σ) (as : List α) (a : α) :
    run step s (as ++ [a]) = (run step s as).bind fun s' ↦ step s' a := by
  simp [run, List.foldlM_append, Option.bind_eq_bind]

variable {step} {s₀ s : σ} {actions : List α}

theorem run_concat_eq_some {a : α} {as : List α} (h : run step s₀ (as ++ [a]) = some s) :
    ∃ s', run step s₀ as = some s' ∧ step s' a = some s := by
  rw [run_concat] at h
  exact Option.bind_eq_some_iff.mp h

theorem run_history {I : List α → σ → Prop}
    (hstep : ∀ past a s s', past ++ [a] <+: actions → run step s₀ past = some s → I past s →
      step s a = some s' → I (past ++ [a]) s')
    (h₀ : I [] s₀) (h : run step s₀ actions = some s) : I actions s := by
  induction actions using List.reverseRecOn generalizing s with
  | nil => exact Option.some_inj.mp h ▸ h₀
  | append_singleton as a ih =>
    obtain ⟨s', has, ha⟩ := run_concat_eq_some h
    refine hstep as a s' s List.prefix_rfl has (ih (fun past b t t' hp ↦ hstep past b t t' ?_) has)
      ha
    exact hp.trans (List.prefix_append as [a])

theorem run_keeps {I : σ → Prop} {C : σ → α → Prop}
    (hstep : ∀ s a s', I s → C s a → step s a = some s' → I s')
    (hC : ∀ past a s, past ++ [a] <+: actions → run step s₀ past = some s → C s a)
    (h₀ : I s₀) (h : run step s₀ actions = some s) : I s := by
  refine run_history (I := fun _ ↦ I) (fun past a t t' hpast ht hI ha ↦ ?_) h₀ h
  exact hstep t a t' hI (hC past a t hpast ht) ha

theorem exists_run {I : List α → σ → Prop}
    (hstep : ∀ past a s, past ++ [a] <+: actions → run step s₀ past = some s → I past s →
      ∃ s', step s a = some s' ∧ I (past ++ [a]) s')
    (h₀ : I [] s₀) : ∃ s, run step s₀ actions = some s ∧ I actions s := by
  induction actions using List.reverseRecOn with
  | nil => exact ⟨s₀, rfl, h₀⟩
  | append_singleton as a ih =>
    obtain ⟨s, has, hI⟩ :=
      ih fun past b t hp ↦ hstep past b t (hp.trans (List.prefix_append as [a]))
    obtain ⟨s', ha, hI'⟩ := hstep as a s List.prefix_rfl has hI
    exact ⟨s', by rw [run_concat, has, Option.bind_some, ha], hI'⟩

def Along (step : σ → α → Option σ) (s₀ : σ) (C : σ → α → Prop) (actions : List α) : Prop :=
  ∀ past a s, past ++ [a] <+: actions → run step s₀ past = some s → C s a

theorem along_nil {C : σ → α → Prop} : Along step s₀ C [] := by
  intro past a s hprefix
  simp at hprefix

theorem along_concat {C : σ → α → Prop} {l : List α} {a : α} (h : run step s₀ l = some s) :
    Along step s₀ C (l ++ [a]) ↔ Along step s₀ C l ∧ C s a := by
  constructor
  · intro halong
    refine ⟨fun past b t hp ↦ halong past b t (hp.trans (List.prefix_append l [a])), ?_⟩
    exact halong l a s List.prefix_rfl h
  · intro ⟨halong, ha⟩ past b t hp ht
    obtain heq | hp := List.prefix_concat_iff.1 hp
    · obtain ⟨rfl, rfl⟩ := List.append_inj' heq rfl |>.imp_right List.singleton_inj.1
      rw [h] at ht
      exact Option.some_inj.1 ht ▸ ha
    · exact halong past b t hp ht

theorem run_invariant {I : σ → Prop} (hstep : ∀ s a s', I s → step s a = some s' → I s')
    (h₀ : I s₀) (h : run step s₀ actions = some s) : I s :=
  run_keeps (fun s a s' hI (_ : True) ha ↦ hstep s a s' hI ha) (fun _ _ _ _ _ ↦ trivial) h₀ h

section Loop

variable {step : σ → α → σ} {R : σ → σ → Prop} {I : σ → Prop} {l : List α}

theorem foldl_rel (hrefl : ∀ s, R s s) (htrans : ∀ s t u, R s t → R t u → R s u)
    (hI : ∀ s t, R s t → I s → I t) (hstep : ∀ s, ∀ a ∈ l, I s → R s (step s a)) {s : σ}
    (hs : I s) : R s (l.foldl step s) := by
  induction l generalizing s with
  | nil => exact hrefl s
  | cons a l ih =>
    have ha := hstep s a List.mem_cons_self hs
    exact htrans _ _ _ ha (ih (fun t b hb ↦ hstep t b (List.mem_cons_of_mem a hb)) (hI _ _ ha hs))

/-- What the step for one element brings about, and no step undoes, holds after the loop. -/
theorem foldl_reaches (hrefl : ∀ s, R s s) (htrans : ∀ s t u, R s t → R t u → R s u)
    (hI : ∀ s t, R s t → I s → I t) (hstep : ∀ s, ∀ a ∈ l, I s → R s (step s a)) {Q : σ → Prop}
    (hQ : ∀ s t, R s t → Q s → Q t) {a : α} (ha : a ∈ l) {s : σ} (hs : I s)
    (hreach : ∀ t, R s t → I t → Q (step t a)) : Q (l.foldl step s) := by
  obtain ⟨as, bs, rfl⟩ := List.append_of_mem ha
  rw [List.foldl_append, List.foldl_cons]
  have hbefore := foldl_rel hrefl htrans hI
    (fun t b hb ↦ hstep t b (List.mem_append_left _ hb)) hs
  have ht := hI _ _ hbefore hs
  have hafter := foldl_rel hrefl htrans hI
    (fun t b hb ↦ hstep t b (List.mem_append_right _ (List.mem_cons_of_mem a hb)))
    (hI _ _ (hstep _ a ha ht) ht)
  exact hQ _ _ hafter (hreach _ hbefore ht)

theorem foldl_view {V : Type*} (view : σ → V) {effect : V → α → V}
    (hview : ∀ s, ∀ a ∈ l, view (step s a) = effect (view s) a) (s : σ) :
    view (l.foldl step s) = l.foldl effect (view s) := by
  induction l generalizing s with
  | nil => rfl
  | cons a l ih =>
    rw [List.foldl_cons, List.foldl_cons, ih fun t b hb ↦ hview t b (List.mem_cons_of_mem a hb),
      hview s a List.mem_cons_self]

end Loop

section Census

variable {ι φ : Type*} [Fintype ι] (p : φ → Prop) [DecidablePred p]

def census (phase : ι → φ) : ℕ :=
  (Finset.univ.filter fun i ↦ p (phase i)).card

variable {p} {phase : ι → φ} {i j : ι}

theorem census_pos (h : p (phase i)) : 0 < census p phase :=
  Finset.card_pos.mpr ⟨i, by simp [h]⟩

theorem census_eq_zero_iff : census p phase = 0 ↔ ∀ i, ¬p (phase i) := by
  simp [census, Finset.filter_eq_empty_iff]

theorem census_le_card : census p phase ≤ Fintype.card ι :=
  Finset.card_le_univ _

theorem one_lt_census (hi : p (phase i)) (hj : p (phase j)) (hij : i ≠ j) :
    1 < census p phase :=
  Finset.one_lt_card.mpr ⟨i, by simp [hi], j, by simp [hj], hij⟩

variable [DecidableEq ι]

theorem census_update (p : φ → Prop) [DecidablePred p] (phase : ι → φ) (i : ι) (x : φ) :
    census p (Function.update phase i x) + (if p (phase i) then 1 else 0) =
      census p phase + if p x then 1 else 0 := by
  have hsplit (f : ι → φ) : census p f =
      (if p (f i) then 1 else 0) + ((Finset.univ.erase i).filter fun j ↦ p (f j)).card := by
    rw [census, ← Finset.insert_erase (Finset.mem_univ i), Finset.filter_insert]
    split_ifs
    · rw [Finset.card_insert_of_notMem (by simp), Finset.erase_insert (by simp), add_comm]
    · rw [Finset.erase_insert (by simp), zero_add]
  have hrest : ((Finset.univ.erase i).filter fun j ↦ p (Function.update phase i x j)) =
      (Finset.univ.erase i).filter fun j ↦ p (phase j) := by
    refine Finset.filter_congr fun j hj ↦ ?_
    rw [Function.update_of_ne (Finset.ne_of_mem_erase hj)]
  rw [hsplit phase, hsplit (Function.update phase i x), hrest, Function.update_self]
  omega

end Census

end Granary.Base.Run
