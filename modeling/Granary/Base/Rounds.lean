import Mathlib.Algebra.Group.Basic
import Mathlib.Data.Finset.Card
import Mathlib.Data.List.Basic
import Mathlib.Logic.Function.Iterate
import Mathlib.Tactic

namespace Granary.Base.Rounds

open Function

variable {ι G : Type*}

section Sources

variable (source : ι → Option ι)

def sources : ℕ → ι → Option ι
  | 0, i => some i
  | n + 1, i => (source i).bind (sources n)

def Recurrent (k : ι) : Prop := ∃ n, sources source (n + 1) k = some k

theorem sources_add (m n : ℕ) (i : ι) :
    sources source (m + n) i = (sources source m i).bind (sources source n) := by
  induction m generalizing i with
  | zero => rw [Nat.zero_add]; rfl
  | succ m ih =>
    rw [Nat.succ_add, sources, sources]
    cases source i with
    | none => rfl
    | some j => exact ih j

variable {source} {i j k : ι}

theorem sources_mul (n m : ℕ) (h : sources source n k = some k) :
    sources source (n * m) k = some k := by
  induction m with
  | zero => rfl
  | succ m ih => rw [Nat.mul_succ, sources_add, ih, Option.bind_some, h]

theorem Recurrent.of_eq {m n : ℕ} (hmn : m < n) (hm : sources source m i = some k)
    (hn : sources source n i = some k) : Recurrent source k := by
  obtain ⟨d, rfl⟩ := Nat.exists_eq_add_of_lt hmn
  refine ⟨d, ?_⟩
  rw [Nat.add_assoc, sources_add, hm, Option.bind_some] at hn
  exact hn

theorem Recurrent.sources {n : ℕ} (hj : Recurrent source j)
    (hk : Rounds.sources source n j = some k) : Recurrent source k := by
  obtain ⟨p, hp⟩ := hj
  refine ⟨p, ?_⟩
  have hjk : Rounds.sources source (p + 1 + n) j = some k := by
    rw [sources_add, hp, Option.bind_some, hk]
  rw [Nat.add_comm, sources_add, hk, Option.bind_some] at hjk
  exact hjk

theorem recurrent_of_le [DecidableEq ι] {l : List ι} (hl : ∀ i ∉ l, source i = some i) {n : ℕ}
    (hn : l.length ≤ n) (hk : sources source n i = some k) : Recurrent source k := by
  have hdefined : ∀ m ≤ n, ∃ j, sources source m i = some j ∧ sources source (n - m) j = some k := by
    intro m hm
    obtain ⟨d, rfl⟩ := Nat.exists_eq_add_of_le hm
    rw [sources_add, Option.bind_eq_some_iff] at hk
    rwa [Nat.add_sub_cancel_left]
  by_cases hleave : ∃ m ≤ n, ∃ j ∉ l, sources source m i = some j
  · obtain ⟨m, hm, j, hj, hij⟩ := hleave
    obtain ⟨j', hij', hjk⟩ := hdefined m hm
    cases Option.some.inj (hij.symm.trans hij')
    have hself : Recurrent source j := ⟨0, by rw [sources, hl j hj]; rfl⟩
    exact hself.sources hjk
  · have hmem : ∀ m ≤ n, ∃ j ∈ l, sources source m i = some j := by
      intro m hm
      obtain ⟨j, hj, -⟩ := hdefined m hm
      refine ⟨j, ?_, hj⟩
      by_contra hout
      exact hleave ⟨m, hm, j, hout, hj⟩
    have hcard : (l.toFinset.image some).card < (Finset.range (n + 1)).card := by
      rw [Finset.card_range]
      have himage := Finset.card_image_le (s := l.toFinset) (f := some)
      have hlen := List.toFinset_card_le l
      omega
    obtain ⟨a, ha, b, hb, hab, hsame⟩ := Finset.exists_ne_map_eq_of_card_lt_of_maps_to hcard
      (f := fun m ↦ sources source m i) fun m hm ↦ by
        obtain ⟨j, hj, hij⟩ := hmem m (Nat.lt_succ_iff.1 (Finset.mem_range.1 hm))
        exact Finset.mem_image.2 ⟨j, List.mem_toFinset.2 hj, hij.symm⟩
    have hrec : ∀ a b, a < b → b ≤ n → sources source a i = sources source b i →
        Recurrent source k := by
      intro a b hlt hbn hsame
      obtain ⟨j, hij, hjk⟩ := hdefined b hbn
      exact (Recurrent.of_eq hlt (hsame.trans hij) hij).sources hjk
    have ha' := Nat.lt_succ_iff.1 (Finset.mem_range.1 ha)
    have hb' := Nat.lt_succ_iff.1 (Finset.mem_range.1 hb)
    rcases lt_or_gt_of_ne hab with hlt | hlt
    · exact hrec a b hlt hb' hsame
    · exact hrec b a hlt ha' hsame.symm

end Sources

section Round

variable [DecidableEq ι] [AddCommGroup G] (pred : ι → Option ι) (s : ι → G)

def relax (x : ι → G) (i : ι) : ι → G := update x i (s i + (pred i).elim 0 x)

def round (l : List ι) (x : ι → G) : ι → G := l.foldl (relax pred s) x

/-- What `relax` does to a value that is a shift of another one, or just a shift. -/
def carryStep (c : ι → G × Option ι) (i : ι) : ι → G × Option ι :=
  update c i ((pred i).elim (s i, none) fun j ↦ (s i + (c j).1, (c j).2))

/-- By how much a round shifts a value, and the value at the start of the round that it
shifts, if any. -/
def carry (l : List ι) : ι → G × Option ι := l.foldl (carryStep pred s) fun i ↦ (0, some i)

def shift (l : List ι) (i : ι) : G := (carry pred s l i).1

def source (l : List ι) (i : ι) : Option ι := (carry pred s l i).2

variable {pred s}

theorem round_eq (l : List ι) (x : ι → G) (i : ι) :
    round pred s l x i = shift pred s l i + (source pred s l i).elim 0 x := by
  have hfold : ∀ (l : List ι) (c : ι → G × Option ι) (y : ι → G),
      (∀ i, y i = (c i).1 + (c i).2.elim 0 x) → ∀ i, l.foldl (relax pred s) y i =
        (l.foldl (carryStep pred s) c i).1 + (l.foldl (carryStep pred s) c i).2.elim 0 x := by
    intro l
    induction l with
    | nil => exact fun c y h ↦ h
    | cons j l ih =>
      intro c y h
      apply ih
      intro i
      unfold relax carryStep
      by_cases hi : i = j
      · subst hi
        rw [update_self, update_self]
        cases pred i with
        | none => simp
        | some k =>
          simp only [Option.elim_some]
          rw [h k, add_assoc]
      · rw [update_of_ne hi, update_of_ne hi, h i]
  exact hfold l _ x (fun i ↦ (zero_add (x i)).symm) i

theorem carry_of_not_mem {l : List ι} {i : ι} (hi : i ∉ l) : carry pred s l i = (0, some i) := by
  have hfold : ∀ (l : List ι) (c : ι → G × Option ι), i ∉ l →
      l.foldl (carryStep pred s) c i = c i := by
    intro l
    induction l with
    | nil => exact fun c _ ↦ rfl
    | cons j l ih =>
      intro c hi
      rw [List.mem_cons, not_or] at hi
      rw [List.foldl_cons, ih _ hi.2]
      exact update_of_ne hi.1 _ _
  exact hfold l _ hi

variable (pred s) in
/-- A round from zero to the next differs by the shift of the value that many rounds
before. -/
theorem iterate_round_sub (l : List ι) (n : ℕ) (i : ι) :
    (round pred s l)^[n + 1] 0 i - (round pred s l)^[n] 0 i =
      (sources (source pred s l) n i).elim 0 (shift pred s l) := by
  induction n generalizing i with
  | zero =>
    have hzero : (source pred s l i).elim 0 (0 : ι → G) = 0 := by cases source pred s l i <;> rfl
    simp only [iterate_succ, iterate_zero, comp_apply, id_eq, round_eq, hzero, sources]
    simp
  | succ n ih =>
    rw [iterate_succ_apply', iterate_succ_apply' _ n, round_eq, round_eq, add_sub_add_left_eq_sub,
      sources]
    cases source pred s l i with
    | none => exact sub_self 0
    | some j =>
      rw [iterate_succ_apply'] at ih
      exact ih j

/-- The rounds from zero settle exactly when every value that is fed back to itself is
shifted by zero in a round. -/
theorem settles_iff (l : List ι) :
    (∃ n, (round pred s l)^[n + 1] 0 = (round pred s l)^[n] 0) ↔
      ∀ k ∈ l, Recurrent (source pred s l) k → shift pred s l k = 0 := by
  constructor
  · rintro ⟨n, hn⟩ k - ⟨p, hp⟩
    have hlater : (round pred s l)^[(p + 1) * n + 1] 0 = (round pred s l)^[(p + 1) * n] 0 := by
      obtain ⟨d, hd⟩ := Nat.exists_eq_add_of_le (Nat.le_mul_of_pos_left n p.succ_pos)
      rw [hd, Nat.add_comm n d, Nat.add_assoc, iterate_add_apply, hn, ← iterate_add_apply]
    have hsub := iterate_round_sub pred s l ((p + 1) * n) k
    rw [hlater, sub_self, sources_mul _ _ hp] at hsub
    exact hsub.symm
  · intro h
    refine ⟨l.length, funext fun i ↦ ?_⟩
    rw [← sub_eq_zero, iterate_round_sub]
    cases hk : sources (source pred s l) l.length i with
    | none => rfl
    | some k =>
      by_cases hmem : k ∈ l
      · refine h k hmem (recurrent_of_le (fun i hi ↦ ?_) le_rfl hk)
        exact congrArg Prod.snd (carry_of_not_mem hi)
      · exact congrArg Prod.fst (carry_of_not_mem hmem)

theorem source_closed (l : List ι) {S : ι → Prop} (hclosed : ∀ i j, S i → pred i = some j → S j)
    {i j : ι} (hi : S i) (hj : source pred s l i = some j) : S j := by
  have hfold : ∀ (l : List ι) (c : ι → G × Option ι),
      (∀ i j, S i → (c i).2 = some j → S j) →
      ∀ i j, S i → (l.foldl (carryStep pred s) c i).2 = some j → S j := by
    intro l
    induction l with
    | nil => exact fun c h ↦ h
    | cons k l ih =>
      intro c h
      apply ih
      intro i j hi hj
      unfold carryStep at hj
      by_cases hik : i = k
      · subst hik
        rw [update_self] at hj
        cases hp : pred i with
        | none =>
          rw [hp] at hj
          cases hj
        | some k =>
          rw [hp] at hj
          exact h k j (hclosed i k hi hp) hj
      · rw [update_of_ne hik] at hj
        exact h i j hi hj
  exact hfold l (fun i ↦ (0, some i)) (fun i j hi hj ↦ Option.some.inj hj ▸ hi) i j hi hj

theorem round_fixed {l : List ι} {S : ι → Prop} (hclosed : ∀ i j, S i → pred i = some j → S j)
    {z : ι → G} (hz : ∀ i ∈ l, S i → z i = s i + (pred i).elim 0 z) {i : ι} (hi : S i) :
    round pred s l z i = z i := by
  have hfold : ∀ (m : List ι) (y : ι → G), (∀ i ∈ m, i ∈ l) → (∀ i, S i → y i = z i) →
      ∀ i, S i → m.foldl (relax pred s) y i = z i := by
    intro m
    induction m with
    | nil => exact fun y _ h ↦ h
    | cons j m ih =>
      intro y hm h
      apply ih _ fun i hi ↦ hm i (List.mem_cons_of_mem j hi)
      intro i hi
      unfold relax
      by_cases hij : i = j
      · subst hij
        rw [update_self, hz i (hm i List.mem_cons_self) hi]
        cases hp : pred i with
        | none => rfl
        | some k => exact congrArg (s i + ·) (h k (hclosed i k hi hp))
      · rw [update_of_ne hij]
        exact h i hi
  exact hfold l z (fun _ h ↦ h) (fun _ _ ↦ rfl) i hi

/-- What is left of fixed values after `n` rounds from zero is the value at the source
`n` rounds before. -/
theorem sub_iterate_round {l : List ι} {S : ι → Prop}
    (hclosed : ∀ i j, S i → pred i = some j → S j) {z : ι → G}
    (hz : ∀ i ∈ l, S i → z i = s i + (pred i).elim 0 z) (n : ℕ) {i : ι} (hi : S i) :
    z i - (round pred s l)^[n] 0 i = (sources (source pred s l) n i).elim 0 z ∧
      ∀ k, sources (source pred s l) n i = some k → S k := by
  induction n generalizing i with
  | zero => exact ⟨sub_zero (z i), fun k hk ↦ Option.some.inj hk ▸ hi⟩
  | succ n ih =>
    have hzi := round_fixed hclosed hz hi
    rw [round_eq] at hzi
    rw [iterate_succ_apply', round_eq, ← hzi, add_sub_add_left_eq_sub, sources]
    cases hj : source pred s l i with
    | none =>
      refine ⟨sub_self 0, fun k hk ↦ ?_⟩
      cases hk
    | some j => exact ih (source_closed l hclosed hi hj)

/-- Values that relaxing keeps, and that are zero where they are fed back to themselves,
are found by enough rounds from zero. -/
theorem iterate_round_eq {l : List ι} {S : ι → Prop}
    (hclosed : ∀ i j, S i → pred i = some j → S j) {z : ι → G}
    (hz : ∀ i ∈ l, S i → z i = s i + (pred i).elim 0 z)
    (hzero : ∀ k, S k → Recurrent (source pred s l) k → z k = 0) {n : ℕ} (hn : l.length ≤ n)
    {i : ι} (hi : S i) : (round pred s l)^[n] 0 i = z i := by
  obtain ⟨hsub, hS⟩ := sub_iterate_round hclosed hz n hi
  symm
  rw [← sub_eq_zero, hsub]
  cases hk : sources (source pred s l) n i with
  | none => rfl
  | some k =>
    refine hzero k (hS k hk) (recurrent_of_le (fun i hi ↦ ?_) hn hk)
    exact congrArg Prod.snd (carry_of_not_mem hi)

theorem round_of_not_mem {l : List ι} {i : ι} (hi : i ∉ l) (x : ι → G) :
    round pred s l x i = x i := by
  rw [round_eq, shift, source, carry_of_not_mem hi, zero_add]
  rfl

theorem relax_of_round_eq {l : List ι} (hl : l.Nodup) {x : ι → G} (hx : round pred s l x = x)
    {i : ι} (hi : i ∈ l) : relax pred s x i = x := by
  induction l with
  | nil => exact absurd hi List.not_mem_nil
  | cons j l ih =>
    obtain ⟨hj, hl⟩ := List.nodup_cons.1 hl
    have hx' : round pred s l (relax pred s x j) = x := hx
    have hrelax : relax pred s x j = x := by
      funext k
      by_cases hk : k = j
      · rw [hk, ← round_of_not_mem hj (relax pred s x j), hx']
      · exact update_of_ne hk _ _
    rcases List.mem_cons.1 hi with rfl | hi
    · exact hrelax
    · rw [hrelax] at hx'
      exact ih hl hx' hi

/-- No value is fed back to itself when each predecessor comes earlier in the round. -/
theorem not_recurrent_of_earlier {l : List ι}
    (hl : ∀ pre i post, l = pre ++ i :: post → ∀ j, pred i = some j → j ∈ pre) {k : ι}
    (hk : k ∈ l) : ¬ Recurrent (source pred s l) k := by
  have hnone : ∀ pre, (∃ post, l = pre ++ post) → ∀ i ∈ pre, (carry pred s pre i).2 = none := by
    intro pre
    induction pre using List.reverseRecOn with
    | nil => exact fun _ i hi ↦ absurd hi List.not_mem_nil
    | append_singleton pre j ih =>
      rintro ⟨post, hpost⟩ i hi
      rw [List.append_assoc] at hpost
      have hstep : carry pred s (pre ++ [j]) = carryStep pred s (carry pred s pre) j := by
        rw [carry, List.foldl_append]
        rfl
      rw [hstep, carryStep]
      by_cases hij : i = j
      · subst hij
        rw [update_self]
        cases hp : pred i with
        | none => rfl
        | some k => exact ih ⟨_, hpost⟩ k (hl pre i post hpost k hp)
      · rw [update_of_ne hij]
        rcases List.mem_append.1 hi with hi | hi
        · exact ih ⟨_, hpost⟩ i hi
        · exact absurd (List.mem_singleton.1 hi) hij
  rintro ⟨n, hn⟩
  rw [sources, source, hnone l ⟨[], (List.append_nil l).symm⟩ k hk] at hn
  cases hn

end Round

end Granary.Base.Rounds
