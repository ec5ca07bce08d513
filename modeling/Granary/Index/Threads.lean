import Granary.Base.Run
import Granary.Index

namespace Granary.Index.Threads

open Function Granary.Base.Run

inductive Phase where
  | idle
  /-- It has the lock. -/
  | locked
  /-- It has read a null entry of `gIndex`. -/
  | missing
  /-- It has read an array, or has put one there. -/
  | present
  /-- It has read the entry again, and refers to a list of the array that it found. -/
  | referring (a : ℕ)
  | pushed
  | finished
  deriving DecidableEq, Repr

variable {μ : Type*}

structure State (μ : Type*) where
  gIndex : ℕ → Option ℕ
  metas : ℕ → ℕ → List μ
  allocated : ℕ
  gSecondLevelLocks : ℕ → Option μ
  phase : μ → Phase

def initial : State μ where
  gIndex := fun _ ↦ none
  metas := fun _ _ ↦ []
  allocated := 0
  gSecondLevelLocks := fun _ ↦ none
  phase := fun _ ↦ .idle

section Step

variable (pc : μ → ℕ)

def first (m : μ) : ℕ := (indexOf (pc m)).first

def second (m : μ) : ℕ := (indexOf (pc m)).second

def step [DecidableEq μ] (s : State μ) (m : μ) : Option (State μ) :=
  match s.phase m with
  | .idle =>
    if s.gSecondLevelLocks (second pc m) = none then
      some { s with
        gSecondLevelLocks := update s.gSecondLevelLocks (second pc m) (some m)
        phase := update s.phase m .locked }
    else none
  | .locked =>
    match s.gIndex (first pc m) with
    | none => some { s with phase := update s.phase m .missing }
    | some _ => some { s with phase := update s.phase m .present }
  | .missing =>
    some { s with
      gIndex := update s.gIndex (first pc m) (some s.allocated)
      metas := update s.metas s.allocated fun _ ↦ []
      allocated := s.allocated + 1
      phase := update s.phase m .present }
  | .present =>
    -- `array` is a reference to the volatile entry, which is read again
    match s.gIndex (first pc m) with
    | none => none
    | some a => some { s with phase := update s.phase m (.referring a) }
  | .referring a =>
    -- who has the lock of the list is alone with it
    some { s with
      metas := update s.metas a
        (update (s.metas a) (second pc m) (m :: s.metas a (second pc m)))
      phase := update s.phase m .pushed }
  | .pushed =>
    some { s with
      gSecondLevelLocks := update s.gSecondLevelLocks (second pc m) none
      phase := update s.phase m .finished }
  | .finished => none

def slot (s : State μ) (i : MetaDataIndex) : List μ :=
  (s.gIndex i.first).elim [] fun a ↦ s.metas a i.second

def Quiet (s : State μ) : Prop :=
  ∀ m, s.phase m = .idle ∨ s.phase m = .finished

/-- Each meta-data that was added is found by its own address, and no meta-data is found twice. -/
structure Complete (s : State μ) : Prop where
  found (m : μ) : s.phase m = .finished → m ∈ slot s (indexOf (pc m))
  nodup (i : MetaDataIndex) : (slot s i).Nodup
  once {m : μ} {i j : MetaDataIndex} : m ∈ slot s i → m ∈ slot s j → i = j

/-- The call of `m`, if it is about to put an array in `gIndex`, puts it over no array with
meta-data in it, or that another call refers to. -/
def Harmless (s : State μ) (m : μ) : Prop :=
  s.phase m = .missing → ∀ a, s.gIndex (first pc m) = some a →
    (∀ k, s.metas a k = []) ∧ ∀ n, s.phase n ≠ .referring a

def Stored (s : State μ) (m : μ) : Prop :=
  s.phase m = .pushed ∨ s.phase m = .finished

/-- What holds in every run, whether or not an array was put over another one. -/
structure Inv (s : State μ) : Prop where
  lt_of_gIndex {f a : ℕ} : s.gIndex f = some a → a < s.allocated
  lt_of_mem {a k : ℕ} {m : μ} : m ∈ s.metas a k → a < s.allocated
  lt_of_referring {a : ℕ} {m : μ} : s.phase m = .referring a → a < s.allocated
  gIndex_inj {f f' a : ℕ} : s.gIndex f = some a → s.gIndex f' = some a → f = f'
  stored {a k : ℕ} {m : μ} : m ∈ s.metas a k → Stored s m
  second_eq {a k : ℕ} {m : μ} : m ∈ s.metas a k → second pc m = k
  nodup (a k : ℕ) : (s.metas a k).Nodup
  array_eq {a a' k k' : ℕ} {m : μ} : m ∈ s.metas a k → m ∈ s.metas a' k' → a = a'

theorem inv_initial : Inv pc (initial : State μ) := by
  constructor <;> simp [initial]

variable {pc} {s s' : State μ} {m n : μ}

theorem mem_push {a b k i : ℕ} {ms : ℕ → ℕ → List μ} :
    n ∈ update ms a (update (ms a) k (m :: ms a k)) b i ↔
      n ∈ ms b i ∨ n = m ∧ b = a ∧ i = k := by
  by_cases hb : b = a
  · subst hb
    by_cases hi : i = k
    · subst hi
      simp [or_comm]
    · simp [hi]
  · simp [hb]

theorem mem_install {a b i : ℕ} {ms : ℕ → ℕ → List μ} :
    n ∈ update ms a (fun _ ↦ []) b i ↔ n ∈ ms b i ∧ b ≠ a := by
  by_cases hb : b = a
  · subst hb
    simp
  · simp [hb]

theorem Inv.not_mem (hi : Inv pc s) (hp : ¬Stored s m) (a k : ℕ) : m ∉ s.metas a k :=
  fun h ↦ hp (hi.stored h)

theorem mem_slot {i : MetaDataIndex} :
    n ∈ slot s i ↔ ∃ a, s.gIndex i.first = some a ∧ n ∈ s.metas a i.second := by
  unfold slot
  cases s.gIndex i.first <;> simp

def Hidden (s : State μ) (a : ℕ) : Prop :=
  a < s.allocated ∧ ∀ f, s.gIndex f ≠ some a

/-- `n` is in a hidden array, or is about to be pushed there. -/
def Lost (s : State μ) (n : μ) : Prop :=
  ∃ a, Hidden s a ∧ (s.phase n = .referring a ∨ ∃ k, n ∈ s.metas a k)

/-- All that was pushed is found, and what is about to be pushed will be. -/
structure Found (pc : μ → ℕ) (s : State μ) : Prop where
  stored (n : μ) : Stored s n → n ∈ slot s (indexOf (pc n))
  referring {n : μ} {a : ℕ} : s.phase n = .referring a → s.gIndex (first pc n) = some a

theorem complete_of_found (hi : Inv pc s) (hf : Found pc s) : Complete pc s := by
  refine ⟨fun n hn ↦ hf.stored n (Or.inr hn), fun i ↦ ?_, fun {n i j} hn hn' ↦ ?_⟩
  · unfold slot
    cases s.gIndex i.first with
    | none => exact List.nodup_nil
    | some a => exact hi.nodup a i.second
  · obtain ⟨a, ha, hn⟩ := mem_slot.mp hn
    obtain ⟨a', ha', hn'⟩ := mem_slot.mp hn'
    obtain rfl := hi.array_eq hn hn'
    have hfirst := hi.gIndex_inj ha ha'
    have hsecond : i.second = j.second := (hi.second_eq hn).symm.trans (hi.second_eq hn')
    cases i
    cases j
    simp_all

variable [DecidableEq μ]

theorem step_cases (h : step pc s m = some s') :
    (∃ locks p, s' = { s with gSecondLevelLocks := locks, phase := update s.phase m p } ∧
      (s.phase m = .idle ∧ p = .locked ∨
        s.phase m = .locked ∧ (p = .missing ∨ p = .present) ∨
        s.phase m = .pushed ∧ p = .finished)) ∨
    (s.phase m = .missing ∧
      s' = { s with
        gIndex := update s.gIndex (first pc m) (some s.allocated)
        metas := update s.metas s.allocated fun _ ↦ []
        allocated := s.allocated + 1
        phase := update s.phase m .present }) ∨
    (∃ a, s.phase m = .present ∧ s.gIndex (first pc m) = some a ∧
      s' = { s with phase := update s.phase m (.referring a) }) ∨
    ∃ a, s.phase m = .referring a ∧
      s' = { s with
        metas := update s.metas a
          (update (s.metas a) (second pc m) (m :: s.metas a (second pc m)))
        phase := update s.phase m .pushed } := by
  unfold step at h
  split at h
  next hp =>
    split_ifs at h
    obtain rfl := Option.some_inj.mp h
    exact Or.inl ⟨_, _, rfl, Or.inl ⟨hp, rfl⟩⟩
  next hp =>
    split at h
    all_goals
      obtain rfl := Option.some_inj.mp h
      exact Or.inl ⟨_, _, rfl, Or.inr (Or.inl ⟨hp, by simp⟩)⟩
  next hp =>
    obtain rfl := Option.some_inj.mp h
    exact Or.inr (Or.inl ⟨hp, rfl⟩)
  next hp =>
    split at h
    next => cases h
    next a ha =>
      obtain rfl := Option.some_inj.mp h
      exact Or.inr (Or.inr (Or.inl ⟨a, hp, ha, rfl⟩))
  next a hp =>
    obtain rfl := Option.some_inj.mp h
    exact Or.inr (Or.inr (Or.inr ⟨a, hp, rfl⟩))
  next hp =>
    obtain rfl := Option.some_inj.mp h
    exact Or.inl ⟨_, _, rfl, Or.inr (Or.inr ⟨hp, rfl⟩)⟩
  next => cases h

theorem Stored.step (hn : Stored s n) (h : step pc s m = some s') : Stored s' n := by
  unfold Stored at hn ⊢
  obtain ⟨locks, p, rfl, hp⟩ | ⟨hp, rfl⟩ | ⟨a, hp, -, rfl⟩ | ⟨a, hp, rfl⟩ := step_cases h
  all_goals
    by_cases hnm : n = m
    · subst hnm
      simp only [update_self]
      grind
    · simpa [hnm] using hn

theorem referring_of_step (h : step pc s m = some s') {a : ℕ} (hn : s'.phase n = .referring a) :
    s.phase n = .referring a ∨
      n = m ∧ s.phase m = .present ∧ s.gIndex (first pc m) = some a ∧ s'.gIndex = s.gIndex := by
  obtain ⟨locks, p, rfl, hp⟩ | ⟨hp, rfl⟩ | ⟨b, hp, hb, rfl⟩ | ⟨b, hp, rfl⟩ := step_cases h
  all_goals
    simp only at hn
    by_cases hnm : n = m
    · subst hnm
      rw [update_self] at hn
      grind
    · rw [update_of_ne hnm] at hn
      exact Or.inl hn

theorem allocated_le (h : step pc s m = some s') : s.allocated ≤ s'.allocated := by
  obtain ⟨locks, p, rfl, -⟩ | ⟨-, rfl⟩ | ⟨a, -, -, rfl⟩ | ⟨a, -, rfl⟩ := step_cases h
  · exact le_rfl
  · exact Nat.le_succ _
  · exact le_rfl
  · exact le_rfl

theorem inv_step (hi : Inv pc s) (h : step pc s m = some s') : Inv pc s' := by
  have hst (n) (hn : Stored s n) : Stored s' n := hn.step h
  have href {a : ℕ} {n : μ} (hn : s'.phase n = .referring a) : a < s'.allocated := by
    have hle := allocated_le h
    obtain hn | ⟨-, -, ha, -⟩ := referring_of_step h hn
    · exact (hi.lt_of_referring hn).trans_le hle
    · exact (hi.lt_of_gIndex ha).trans_le hle
  obtain ⟨locks, p, rfl, -⟩ | ⟨hp, rfl⟩ | ⟨a, hp, -, rfl⟩ | ⟨a, hp, rfl⟩ := step_cases h
  · exact ⟨hi.lt_of_gIndex, hi.lt_of_mem, href, hi.gIndex_inj, fun hn ↦ hst _ (hi.stored hn),
      hi.second_eq, hi.nodup, hi.array_eq⟩
  · refine ⟨fun {f b} hf ↦ ?_, fun {b k n} hn ↦ ?_, href, fun {f f' b} hf hf' ↦ ?_,
      fun {b k n} hn ↦ ?_, fun {b k n} hn ↦ ?_, fun b k ↦ ?_, fun {b b' k k' n} hn hn' ↦ ?_⟩
    · simp only at hf ⊢
      by_cases hfm : f = first pc m
      · subst hfm
        simp only [update_self, Option.some_inj] at hf
        omega
      · rw [update_of_ne hfm] at hf
        have := hi.lt_of_gIndex hf
        omega
    · have := hi.lt_of_mem (mem_install.mp hn).1
      simp only
      omega
    · -- the number of the new array is that of no other
      simp only at hf hf'
      by_cases hfm : f = first pc m <;> by_cases hfm' : f' = first pc m
      · rw [hfm, hfm']
      · subst hfm
        rw [update_self, Option.some_inj] at hf
        rw [update_of_ne hfm'] at hf'
        have := hi.lt_of_gIndex hf'
        omega
      · subst hfm'
        rw [update_self, Option.some_inj] at hf'
        rw [update_of_ne hfm] at hf
        have := hi.lt_of_gIndex hf
        omega
      · rw [update_of_ne hfm] at hf
        rw [update_of_ne hfm'] at hf'
        exact hi.gIndex_inj hf hf'
    · exact hst n (hi.stored (mem_install.mp hn).1)
    · exact hi.second_eq (mem_install.mp hn).1
    · simp only
      by_cases hb : b = s.allocated
      · subst hb
        simp
      · rw [update_of_ne hb]
        exact hi.nodup b k
    · exact hi.array_eq (mem_install.mp hn).1 (mem_install.mp hn').1
  · exact ⟨hi.lt_of_gIndex, hi.lt_of_mem, href, hi.gIndex_inj, fun hn ↦ hst _ (hi.stored hn),
      hi.second_eq, hi.nodup, hi.array_eq⟩
  · have hno (b k : ℕ) : m ∉ s.metas b k := hi.not_mem (by simp [Stored, hp]) b k
    refine ⟨hi.lt_of_gIndex, fun {b k n} hn ↦ ?_, href, hi.gIndex_inj, fun {b k n} hn ↦ ?_,
      fun {b k n} hn ↦ ?_, fun b k ↦ ?_, fun {b b' k k' n} hn hn' ↦ ?_⟩
    · obtain hn | ⟨-, rfl, -⟩ := mem_push.mp hn
      · exact hi.lt_of_mem hn
      · exact hi.lt_of_referring hp
    · obtain hn | ⟨rfl, -, -⟩ := mem_push.mp hn
      · exact hst n (hi.stored hn)
      · exact Or.inl (by simp)
    · obtain hn | ⟨rfl, -, rfl⟩ := mem_push.mp hn
      · exact hi.second_eq hn
      · rfl
    · simp only
      by_cases hb : b = a
      · subst hb
        rw [update_self]
        by_cases hk : k = second pc m
        · subst hk
          rw [update_self]
          exact List.nodup_cons.mpr ⟨hno b _, hi.nodup b _⟩
        · rw [update_of_ne hk]
          exact hi.nodup b k
      · rw [update_of_ne hb]
        exact hi.nodup b k
    · obtain hb | ⟨hnm, hb, -⟩ := mem_push.mp hn
      · obtain hb' | ⟨hnm, -, -⟩ := mem_push.mp hn'
        · exact hi.array_eq hb hb'
        · exact absurd (hnm ▸ hb) (hno b k)
      · obtain hb' | ⟨-, hb', -⟩ := mem_push.mp hn'
        · exact absurd (hnm ▸ hb') (hno b' k')
        · rw [hb, hb']

theorem Hidden.step {a : ℕ} (ha : Hidden s a) (h : step pc s m = some s') : Hidden s' a := by
  refine ⟨ha.1.trans_le (allocated_le h), fun f hf ↦ ?_⟩
  obtain ⟨locks, p, rfl, -⟩ | ⟨-, rfl⟩ | ⟨b, -, -, rfl⟩ | ⟨b, -, rfl⟩ := step_cases h
  · exact ha.2 f hf
  · simp only at hf
    by_cases hfm : f = first pc m
    · subst hfm
      rw [update_self, Option.some_inj] at hf
      exact ha.1.ne' hf
    · rw [update_of_ne hfm] at hf
      exact ha.2 f hf
  · exact ha.2 f hf
  · exact ha.2 f hf

theorem Lost.step (hl : Lost s n) (h : step pc s m = some s') : Lost s' n := by
  obtain ⟨a, ha, hn⟩ := hl
  refine ⟨a, ha.step h, ?_⟩
  obtain ⟨locks, p, rfl, hp⟩ | ⟨hp, rfl⟩ | ⟨b, hp, -, rfl⟩ | ⟨b, hp, rfl⟩ := step_cases h
  · refine hn.imp_left fun hn ↦ ?_
    have hnm : n ≠ m := by
      rintro rfl
      simp [hn] at hp
    simpa [hnm] using hn
  · refine hn.imp (fun hn ↦ ?_) fun ⟨k, hn⟩ ↦ ⟨k, mem_install.mpr ⟨hn, ha.1.ne⟩⟩
    have hnm : n ≠ m := by
      rintro rfl
      simp [hn] at hp
    simpa [hnm] using hn
  · refine hn.imp_left fun hn ↦ ?_
    have hnm : n ≠ m := by
      rintro rfl
      simp [hn] at hp
    simpa [hnm] using hn
  · by_cases hnm : n = m
    · subst hnm
      refine Or.inr ?_
      obtain hn | ⟨k, hn⟩ := hn
      · obtain rfl : a = b := Phase.referring.inj (hn.symm.trans hp)
        exact ⟨second pc n, mem_push.mpr (Or.inr ⟨rfl, rfl, rfl⟩)⟩
      · exact ⟨k, mem_push.mpr (Or.inl hn)⟩
    · refine hn.imp (fun hn ↦ ?_) fun ⟨k, hn⟩ ↦ ⟨k, mem_push.mpr (Or.inl hn)⟩
      simpa [hnm] using hn

theorem hidden_of_install (hi : Inv pc s) (hp : s.phase m = .missing) {a : ℕ}
    (ha : s.gIndex (first pc m) = some a) (h : step pc s m = some s') : Hidden s' a := by
  refine ⟨(hi.lt_of_gIndex ha).trans_le (allocated_le h), fun f hf ↦ ?_⟩
  obtain ⟨locks, p, rfl, hp'⟩ | ⟨-, rfl⟩ | ⟨b, hp', -⟩ | ⟨b, hp', -⟩ := step_cases h
  · simp [hp] at hp'
  · simp only at hf
    by_cases hfm : f = first pc m
    · subst hfm
      rw [update_self, Option.some_inj] at hf
      exact (hi.lt_of_gIndex ha).ne' hf
    · rw [update_of_ne hfm] at hf
      exact hfm (hi.gIndex_inj hf ha)
  · simp [hp] at hp'
  · simp [hp] at hp'

/-- A call that is not harmless loses what is in the array that it hides, or what is about to be
pushed there. -/
theorem lost_of_not_harmless (hi : Inv pc s) (hh : ¬Harmless pc s m) (h : step pc s m = some s') :
    ∃ n, Lost s' n := by
  unfold Harmless at hh
  push Not at hh
  obtain ⟨hp, a, ha, hn⟩ := hh
  have hhidden := hidden_of_install hi hp ha h
  obtain ⟨locks, p, rfl, hp'⟩ | ⟨-, rfl⟩ | ⟨b, hp', -⟩ | ⟨b, hp', -⟩ := step_cases h
  · simp [hp] at hp'
  · by_cases hempty : ∀ k, s.metas a k = []
    · obtain ⟨n, hn⟩ := hn hempty
      have hnm : n ≠ m := by
        rintro rfl
        simp [hp] at hn
      exact ⟨n, a, hhidden, Or.inl (by simpa [hnm] using hn)⟩
    · push Not at hempty
      obtain ⟨k, hk⟩ := hempty
      obtain ⟨n, hn⟩ := List.exists_mem_of_ne_nil _ hk
      exact ⟨n, a, hhidden, Or.inr ⟨k, mem_install.mpr ⟨hn, (hi.lt_of_mem hn).ne⟩⟩⟩
  · simp [hp] at hp'
  · simp [hp] at hp'

omit [DecidableEq μ] in
theorem Lost.not_complete (hi : Inv pc s) (hl : Lost s n) (hq : Quiet s) : ¬Complete pc s := by
  intro hc
  obtain ⟨a, ha, hn⟩ := hl
  have hphase (b : ℕ) : s.phase n ≠ .referring b := by
    intro hn
    obtain hn' | hn' := hq n <;> simp [hn] at hn'
  obtain ⟨k, hn⟩ := hn.resolve_left (hphase a)
  have hfin : s.phase n = .finished := by
    obtain hidle | hfin := hq n
    · have hst := hi.stored hn
      simp [Stored, hidle] at hst
    · exact hfin
  obtain ⟨b, hb, hnb⟩ := mem_slot.mp (hc.found n hfin)
  obtain rfl := hi.array_eq hn hnb
  exact ha.2 _ hb

omit [DecidableEq μ] in
theorem slot_mono {i : MetaDataIndex} (hg : s'.gIndex = s.gIndex)
    (hm : ∀ a k, n ∈ s.metas a k → n ∈ s'.metas a k) (hn : n ∈ slot s i) : n ∈ slot s' i := by
  obtain ⟨a, ha, hn⟩ := mem_slot.mp hn
  exact mem_slot.mpr ⟨a, hg ▸ ha, hm _ _ hn⟩

theorem found_step (hi : Inv pc s) (hf : Found pc s) (hh : Harmless pc s m)
    (h : step pc s m = some s') : Found pc s' := by
  have hother {x : ℕ} (hp : s.phase m = .missing) (hx : s.gIndex x = none ∨
      ∃ a, s.gIndex x = some a ∧ ((∃ k, s.metas a k ≠ []) ∨ ∃ n, s.phase n = .referring a))
      (hsome : s.gIndex x ≠ none) : x ≠ first pc m := by
    rintro rfl
    obtain hx | ⟨a, ha, hk | hn⟩ := hx
    · exact hsome hx
    · exact hk.elim fun k hk ↦ hk ((hh hp a ha).1 k)
    · exact hn.elim fun n hn ↦ (hh hp a ha).2 n hn
  constructor
  · intro n hn
    obtain ⟨locks, p, rfl, hp⟩ | ⟨hp, rfl⟩ | ⟨b, hp, hb, rfl⟩ | ⟨b, hp, rfl⟩ := step_cases h
    · have hn : Stored s n := by
        unfold Stored at hn ⊢
        by_cases hnm : n = m
        · subst hnm
          simp only [update_self] at hn
          grind
        · simpa [hnm] using hn
      exact hf.stored n hn
    · have hnm : n ≠ m := by
        rintro rfl
        simp [Stored] at hn
      have hn : Stored s n := by simpa [Stored, hnm] using hn
      obtain ⟨a, ha, hna⟩ := mem_slot.mp (hf.stored n hn)
      have hlt := hi.lt_of_mem hna
      refine mem_slot.mpr ⟨a, ?_, mem_install.mpr ⟨hna, hlt.ne⟩⟩
      have hne : (indexOf (pc n)).first ≠ first pc m :=
        hother hp (Or.inr ⟨a, ha, Or.inl ⟨_, List.ne_nil_of_mem hna⟩⟩) (by rw [ha]; simp)
      simpa [hne] using ha
    · have hnm : n ≠ m := by
        rintro rfl
        simp [Stored] at hn
      exact hf.stored n (by simpa [Stored, hnm] using hn)
    · by_cases hnm : n = m
      · subst hnm
        exact mem_slot.mpr ⟨b, hf.referring hp, mem_push.mpr (Or.inr ⟨rfl, rfl, rfl⟩)⟩
      · have hn : Stored s n := by simpa [Stored, hnm] using hn
        exact slot_mono (s := s) rfl (fun a k hn ↦ mem_push.mpr (Or.inl hn)) (hf.stored n hn)
  · intro n a hn'
    obtain hn | ⟨rfl, -, ha, hg⟩ := referring_of_step h hn'
    · clear hn'
      have ha := hf.referring hn
      obtain ⟨locks, p, rfl, -⟩ | ⟨hp, rfl⟩ | ⟨b, -, -, rfl⟩ | ⟨b, -, rfl⟩ := step_cases h
      · exact ha
      · have hne : first pc n ≠ first pc m :=
          hother hp (Or.inr ⟨a, ha, Or.inr ⟨n, hn⟩⟩) (by rw [ha]; simp)
        simpa [hne] using ha
      · exact ha
      · exact ha
    · exact hg ▸ ha

theorem inv_run {s₀ : State μ} {calls : List μ} (h₀ : Inv pc s₀)
    (h : run (step pc) s₀ calls = some s) : Inv pc s :=
  run_invariant (fun _ _ _ ↦ inv_step) h₀ h

/-- When all the calls of an interleaving are over, all the meta-data are found and none is found
twice, if and only if no array was put in `gIndex` over one with meta-data in it, or that a call
referred to. -/
theorem complete_iff_harmless (calls : List μ) (h : run (step pc) initial calls = some s)
    (hq : Quiet s) :
    Complete pc s ↔
      ∀ past m s', past ++ [m] <+: calls → run (step pc) initial past = some s' →
        Harmless pc s' m := by
  have h₀ : Inv pc (initial : State μ) := inv_initial pc
  constructor
  · intro hc past m t hp ht
    by_contra hh
    obtain ⟨future, rfl⟩ := hp
    have hs := inv_run h₀ h
    rw [run_append] at h
    obtain ⟨u, hu, hrest⟩ := Option.bind_eq_some_iff.mp h
    obtain ⟨t', ht', hstep⟩ := run_concat_eq_some hu
    obtain rfl := Option.some_inj.mp (ht.symm.trans ht')
    obtain ⟨n, hlost⟩ := lost_of_not_harmless (inv_run h₀ ht) hh hstep
    have hlost : Lost s n := run_invariant (I := fun t ↦ Lost t n) (fun _ _ _ ↦ Lost.step) hlost hrest
    exact hlost.not_complete hs hq hc
  · intro hh
    have hboth : Inv pc s ∧ Found pc s := by
      refine run_keeps (I := fun t ↦ Inv pc t ∧ Found pc t) (C := Harmless pc) ?_ hh
        ⟨h₀, fun n hn ↦ ?_, fun hn ↦ ?_⟩ h
      · intro t m t' hit hm hstep
        exact ⟨inv_step hit.1 hstep, found_step hit.1 hit.2 hm hstep⟩
      · simp [Stored, initial] at hn
      · simp [initial] at hn
    exact complete_of_found hboth.1 hboth.2

end Step

def twoPCs (b : Bool) : ℕ :=
  if b then 4104 else 4096

/-- The second call reads the entry when the first one has put its array there. -/
def inTurn : List Bool :=
  [false, true, false, false, true, true, false, true, false, false, true]

theorem complete_iff_harmless_inTurn :
    ∃ s, run (step twoPCs) initial inTurn = some s ∧ Quiet s ∧ Complete twoPCs s := by
  refine ⟨_, rfl, ?_, (complete_iff_harmless inTurn rfl ?_).mpr ?_⟩
  · intro m
    cases m <;> decide
  · intro m
    cases m <;> decide
  · have hnone : ∀ k < 11, ∀ t ∈ run (step twoPCs) initial (inTurn.take k), ∀ m ∈ inTurn[k]?,
        t.phase m = .missing → t.gIndex (first twoPCs m) = none := by decide +kernel
    intro past m t hp ht hphase a ha
    have hlen : past.length < 11 := by simpa [inTurn] using hp.length_le
    have hpast : past = inTurn.take past.length :=
      List.prefix_iff_eq_take.mp ((List.prefix_append past [m]).trans hp)
    have hm : inTurn[past.length]? = some m := by
      obtain ⟨rest, hrest⟩ := hp
      rw [← hrest]
      simp
    rw [hpast] at ht
    rw [hnone past.length hlen t ht m hm hphase] at ha
    exact nomatch ha

/-- Both of the calls read a null entry, and the second array hides the first one. -/
theorem lost_between_locks :
    ∃ s, run (step twoPCs) initial
        [false, true, false, true, false, false, false, false, true, true, true, true] = some s ∧
      Quiet s ∧ ¬Complete twoPCs s := by
  refine ⟨_, rfl, ?_, ?_⟩
  · intro m
    cases m <;> decide
  · intro h
    have hf := h.found false (by decide)
    exact absurd hf (by decide)

end Granary.Index.Threads
