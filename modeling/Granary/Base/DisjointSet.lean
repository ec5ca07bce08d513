import Granary.Base.Run
import Mathlib.Logic.Relation
import Mathlib.Tactic

namespace Granary.Base.DisjointSet

open Function Relation

structure Node (α T : Type*) where
  parent : α
  value : T

abbrev Heap (α T : Type*) := α → Node α T

section Code

variable {α T : Type*} [LinearOrder α]

def setParent (h : Heap α T) (a b : α) : Heap α T :=
  update h a { h a with parent := b }

/-- `Find`, cut off after `fuel` nested calls. -/
def find : ℕ → Heap α T → α → Option (Heap α T × α)
  | 0, _, _ => none
  | n + 1, h, a =>
    if (h a).parent ≠ a then do
      let (h, root) ← find n h (h a).parent
      some (setParent h a root, root)
    else some (h, a)

variable [BEq T] [Inhabited T]

def union (fuel : ℕ) (h : Heap α T) (a b : α) : Option (Heap α T) := do
  let (h, thisRoot) ← find fuel h a
  let (h, thatRoot) ← find fuel h b
  if thisRoot = thatRoot then some h
  else if default == (h thisRoot).value then some (setParent h thisRoot thatRoot)
  else if default == (h thatRoot).value then some (setParent h thatRoot thisRoot)
  else if thisRoot < thatRoot then some (setParent h thatRoot thisRoot)
  else if thatRoot < thisRoot then some (setParent h thisRoot thatRoot)
  else some h

def value (fuel : ℕ) (h : Heap α T) (a : α) : Option T :=
  (find fuel h a).map fun (h, root) ↦ (h root).value

def assign (fuel : ℕ) (h : Heap α T) (a : α) (v : T) : Option (Heap α T) := do
  let (h, root) ← find fuel h a
  some (update h root { h root with value := v })

/-- Reading a value is a `Find`, and a comparison of two objects is two of them. -/
inductive Op (α T : Type*) where
  | union (a b : α)
  | find (a : α)
  | assign (a : α) (v : T)

def step (fuel : ℕ) (h : Heap α T) : Op α T → Option (Heap α T)
  | .union a b => union fuel h a b
  | .find a => (find fuel h a).map Prod.fst
  | .assign a v => assign fuel h a v

def init (v : α → T) : Heap α T := fun a ↦ ⟨a, v a⟩

end Code

def Op.united? {α T : Type*} : Op α T → Option (α × α)
  | .union a b => some (a, b)
  | _ => none

def Connected {α T : Type*} (ops : List (Op α T)) : α → α → Prop :=
  EqvGen fun a b ↦ (a, b) ∈ ops.filterMap Op.united?

section Forest

variable {α T : Type*} {h h' : Heap α T} {root : α → α} {a b r : α} {d n : ℕ}

/-- `n` parents up from `a` is `r`, which is its own parent. -/
inductive Leads (h : Heap α T) : ℕ → α → α → Prop
  | root (a : α) : (h a).parent = a → Leads h 0 a a
  | up {n : ℕ} {a r : α} : (h a).parent ≠ a → Leads h n (h a).parent r → Leads h (n + 1) a r

theorem Leads.isRoot (hl : Leads h n a r) : (h r).parent = r := by
  induction hl with
  | root a ha => exact ha
  | up _ _ ih => exact ih

theorem Leads.unique {m : ℕ} {s : α} (hl : Leads h n a r) (hm : Leads h m a s) : r = s := by
  induction hl generalizing m with
  | root a ha =>
    cases hm with
    | root _ _ => rfl
    | up hne _ => exact absurd ha hne
  | up hne _ ih =>
    cases hm with
    | root _ ha => exact absurd ha hne
    | up _ hm => exact ih hm

theorem Leads.parent (hl : Leads h n a r) : ∃ m, Leads h m (h a).parent r := by
  cases hl with
  | root _ ha => exact ⟨0, by rw [ha]; exact .root a ha⟩
  | up _ hl => exact ⟨_, hl⟩

def Forest (h : Heap α T) (root : α → α) (d : ℕ) : Prop :=
  ∀ a, ∃ n ≤ d, Leads h n a (root a)

namespace Forest

theorem eq_root (hf : Forest h root d) (hl : Leads h n a r) : r = root a := by
  obtain ⟨m, -, hm⟩ := hf a
  exact hl.unique hm

theorem isRoot (hf : Forest h root d) (a : α) : (h (root a)).parent = root a := by
  obtain ⟨m, -, hm⟩ := hf a
  exact hm.isRoot

theorem root_parent (hf : Forest h root d) (a : α) : root (h a).parent = root a := by
  obtain ⟨m, -, hm⟩ := hf a
  obtain ⟨n, hn⟩ := hm.parent
  exact (hf.eq_root hn).symm

theorem mono {d' : ℕ} (hf : Forest h root d) (hd : d ≤ d') : Forest h root d' := fun a ↦
  (hf a).imp fun _ ↦ And.imp_left fun hn ↦ hn.trans hd

theorem congr (hf : Forest h root d) (hp : ∀ b, (h' b).parent = (h b).parent) :
    Forest h' root d := by
  have hsame {n : ℕ} {b r : α} (hl : Leads h n b r) : Leads h' n b r := by
    induction hl with
    | root b hb => exact .root b ((hp b).trans hb)
    | @up n b r hb _ ih =>
      rw [← hp] at hb ih
      exact .up hb ih
  exact fun b ↦ (hf b).imp fun _ ↦ And.imp_right hsame

variable [LinearOrder α]

theorem compress (hf : Forest h root d) (hne : (h a).parent ≠ a) :
    Forest (setParent h a (root a)) root d := by
  have hroot : root a ≠ a := fun he ↦ hne (he ▸ hf.isRoot a)
  have hshort {n : ℕ} {b r : α} (hl : Leads h n b r) (hr : r = root b) :
      ∃ m ≤ n, Leads (setParent h a (root a)) m b r := by
    induction hl with
    | root b hb =>
      have hba : b ≠ a := fun he ↦ hne (he ▸ hb)
      refine ⟨0, le_rfl, .root b ?_⟩
      rwa [setParent, update_of_ne hba]
    | @up n b r hb hl ih =>
      obtain ⟨m, hm, ih⟩ := ih (hr.trans (hf.root_parent b).symm)
      rcases eq_or_ne b a with rfl | hba
      · refine ⟨1, by omega, .up ?_ ?_⟩
        · rwa [setParent, update_self]
        · rw [setParent, update_self, hr]
          refine .root _ ?_
          rw [update_of_ne hroot]
          exact hf.isRoot b
      · refine ⟨m + 1, by omega, .up ?_ ?_⟩
        · rwa [setParent, update_of_ne hba]
        · rwa [setParent, update_of_ne hba]
  intro b
  obtain ⟨n, hn, hl⟩ := hf b
  obtain ⟨m, hm, hl'⟩ := hshort hl rfl
  exact ⟨m, hm.trans hn, hl'⟩

theorem link {s : α} (hf : Forest h root d) (hr : (h r).parent = r) (hs : (h s).parent = s)
    (hne : r ≠ s) :
    Forest (setParent h r s) (fun x ↦ if root x = r then s else root x) (d + 1) := by
  have hother {n : ℕ} {b t : α} (hl : Leads h n b t) (ht : t ≠ r) : Leads (setParent h r s) n b t := by
    induction hl with
    | root b hb =>
      refine .root b ?_
      rwa [setParent, update_of_ne ht]
    | @up n b t hb _ ih =>
      have hbr : b ≠ r := fun he ↦ hb (he ▸ hr)
      refine .up ?_ ?_
      · rwa [setParent, update_of_ne hbr]
      · rw [setParent, update_of_ne hbr]
        exact ih ht
  have hunder {n : ℕ} {b t : α} (hl : Leads h n b t) (ht : t = r) :
      Leads (setParent h r s) (n + 1) b s := by
    induction hl with
    | root b hb =>
      subst ht
      refine .up ?_ ?_
      · rw [setParent, update_self]
        exact hne.symm
      · rw [setParent, update_self]
        refine .root s ?_
        rwa [update_of_ne hne.symm]
    | @up n b t hb _ ih =>
      have hbr : b ≠ r := fun he ↦ hb (he ▸ hr)
      refine .up ?_ ?_
      · rwa [setParent, update_of_ne hbr]
      · rw [setParent, update_of_ne hbr]
        exact ih ht
  intro b
  obtain ⟨n, hn, hl⟩ := hf b
  by_cases hb : root b = r
  · simp only [if_pos hb]
    exact ⟨n + 1, by omega, hunder hl hb⟩
  · simp only [if_neg hb]
    exact ⟨n, by omega, hother hl hb⟩

variable {fuel : ℕ}

theorem find (hf : Forest h root d) (hfuel : d < fuel) (a : α) :
    ∃ h', find fuel h a = some (h', root a) ∧ Forest h' root d ∧
      ∀ b, (h' b).value = (h b).value := by
  have hrec {n fuel : ℕ} {a r : α} (hl : Leads h n a r) (hn : n < fuel) (hr : r = root a) :
      ∃ h', DisjointSet.find fuel h a = some (h', r) ∧ Forest h' root d ∧
        ∀ b, (h' b).value = (h b).value := by
    induction hl generalizing fuel with
    | root a ha =>
      obtain ⟨fuel, rfl⟩ : ∃ k, fuel = k + 1 := ⟨fuel - 1, by omega⟩
      exact ⟨h, by rw [DisjointSet.find, if_neg (not_not.mpr ha)], hf, fun _ ↦ rfl⟩
    | @up n a r ha hl ih =>
      obtain ⟨fuel, rfl⟩ : ∃ k, fuel = k + 1 := ⟨fuel - 1, by omega⟩
      have hn' : n < fuel := Nat.lt_of_succ_lt_succ hn
      obtain ⟨h₁, hfind, hf₁, hv⟩ := ih hn' (hr.trans (hf.root_parent a).symm)
      have ha₁ : (h₁ a).parent ≠ a := fun he ↦ by
        have hself := hf₁.eq_root (.root a he)
        rw [hself] at ha
        exact ha (hf.isRoot a)
      refine ⟨setParent h₁ a r, ?_, hr ▸ hf₁.compress ha₁, fun b ↦ ?_⟩
      · rw [DisjointSet.find, if_pos ha, hfind]
        rfl
      · rw [setParent]
        rcases eq_or_ne b a with rfl | hb
        · rw [update_self]
          exact hv b
        · rw [update_of_ne hb, hv]
  obtain ⟨n, hn, hl⟩ := hf a
  exact hrec hl (by omega) rfl

theorem value_eq (hf : Forest h root d) (hfuel : d < fuel) (a : α) :
    value fuel h a = some (h (root a)).value := by
  obtain ⟨h', hfind, -, hv⟩ := hf.find hfuel a
  rw [value, hfind, Option.map_some, ← hv]

end Forest

section Union

variable [LinearOrder α] [BEq T] [Inhabited T]

/-- The root of two united classes: one with the default value gives way, and of two others the one
with the higher address. -/
def winner (h : Heap α T) (root : α → α) (a b : α) : α :=
  if default == (h (root a)).value then root b
  else if default == (h (root b)).value then root a
  else min (root a) (root b)

def unite (h : Heap α T) (root : α → α) (a b x : α) : α :=
  if root x = root a ∨ root x = root b then winner h root a b else root x

omit [BEq T] [Inhabited T] in
theorem value_setParent (h : Heap α T) (r s b : α) : (setParent h r s b).value = (h b).value := by
  rw [setParent]
  rcases eq_or_ne b r with rfl | hb
  · rw [update_self]
  · rw [update_of_ne hb]

theorem winner_or (h : Heap α T) (root : α → α) (a b : α) :
    winner h root a b = root a ∨ winner h root a b = root b := by
  rw [winner]
  split_ifs
  · exact Or.inr rfl
  · exact Or.inl rfl
  · exact min_choice _ _

theorem unite_of_eq {a b : α} (hab : root a = root b) : unite h root a b = root := by
  funext x
  have hw : winner h root a b = root b := by
    rcases winner_or h root a b with hw | hw
    · exact hw.trans hab
    · exact hw
  simp only [unite, hw, hab, or_self]
  split_ifs with hx
  · exact hx.symm
  · rfl

theorem Forest.link_winner {h₂ : Heap α T} {r s : α} (hf : Forest h₂ root d) (hne : root a ≠ root b)
    (hrs : r = root a ∧ s = root b ∨ r = root b ∧ s = root a) (hw : winner h root a b = s) :
    Forest (setParent h₂ r s) (unite h root a b) (d + 1) := by
  have hunite : unite h root a b = fun x ↦ if root x = r then s else root x := by
    funext x
    rw [unite, hw]
    rcases hrs with ⟨rfl, rfl⟩ | ⟨rfl, rfl⟩
    · by_cases hx : root x = root a
      · simp [hx]
      · by_cases hx' : root x = root b <;> simp [hx']
    · by_cases hx : root x = root b
      · simp [hx]
      · by_cases hx' : root x = root a <;> simp [hx']
  rw [hunite]
  rcases hrs with ⟨rfl, rfl⟩ | ⟨rfl, rfl⟩
  · exact hf.link (hf.isRoot a) (hf.isRoot b) hne
  · exact hf.link (hf.isRoot b) (hf.isRoot a) hne.symm

theorem Forest.union {fuel : ℕ} (hf : Forest h root d) (hfuel : d < fuel) (a b : α) :
    ∃ h', union fuel h a b = some h' ∧ Forest h' (unite h root a b) (d + 1) ∧
      ∀ c, (h' c).value = (h c).value := by
  obtain ⟨h₁, ha, hf₁, hv₁⟩ := hf.find hfuel a
  obtain ⟨h₂, hb, hf₂, hv₂⟩ := hf₁.find hfuel b
  have hv (c : α) : (h₂ c).value = (h c).value := (hv₂ c).trans (hv₁ c)
  have hset (r s c : α) : (setParent h₂ r s c).value = (h c).value :=
    (value_setParent h₂ r s c).trans (hv c)
  simp only [DisjointSet.union, ha, hb, Option.bind_eq_bind, Option.bind_some, hv]
  by_cases hab : root a = root b
  · rw [if_pos hab]
    refine ⟨h₂, rfl, fun c ↦ ?_, hv⟩
    obtain ⟨n, hn, hl⟩ := hf₂ c
    rw [unite_of_eq hab]
    exact ⟨n, by omega, hl⟩
  · rw [if_neg hab]
    by_cases hda : (default == (h (root a)).value) = true
    · have hw : winner h root a b = root b := if_pos hda
      rw [if_pos hda]
      exact ⟨_, rfl, hf₂.link_winner hab (Or.inl ⟨rfl, rfl⟩) hw, hset _ _⟩
    · rw [if_neg hda]
      by_cases hdb : (default == (h (root b)).value) = true
      · have hw : winner h root a b = root a := (if_neg hda).trans (if_pos hdb)
        rw [if_pos hdb]
        exact ⟨_, rfl, hf₂.link_winner hab (Or.inr ⟨rfl, rfl⟩) hw, hset _ _⟩
      · have hw : winner h root a b = min (root a) (root b) := (if_neg hda).trans (if_neg hdb)
        rw [if_neg hdb]
        rcases lt_or_gt_of_ne hab with hlt | hgt
        · rw [if_pos hlt]
          rw [min_eq_left hlt.le] at hw
          exact ⟨_, rfl, hf₂.link_winner hab (Or.inr ⟨rfl, rfl⟩) hw, hset _ _⟩
        · rw [if_neg hgt.not_gt, if_pos hgt]
          rw [min_eq_right hgt.le] at hw
          exact ⟨_, rfl, hf₂.link_winner hab (Or.inl ⟨rfl, rfl⟩) hw, hset _ _⟩

theorem unite_eq_iff {a b x y : α} : unite h root a b x = unite h root a b y ↔
    root x = root y ∨
      (root x = root a ∨ root x = root b) ∧ (root y = root a ∨ root y = root b) := by
  have hw := winner_or h root a b
  simp only [unite]
  split_ifs with hx hy hy
  · simp [hx, hy]
  · refine ⟨fun he ↦ absurd (he ▸ hw) hy, fun hor ↦ ?_⟩
    rcases hor with he | ⟨-, hy'⟩
    · exact absurd (he ▸ hx) hy
    · exact absurd hy' hy
  · refine ⟨fun he ↦ absurd (he.symm ▸ hw) hx, fun hor ↦ ?_⟩
    rcases hor with he | ⟨hx', -⟩
    · exact absurd (he.symm ▸ hy) hx
    · exact absurd hx' hx
  · simp [hx]

end Union

def Tracks (ops : List (Op α T)) (root : α → α) : Prop :=
  ∀ x y, root x = root y ↔ Connected ops x y

theorem tracks_nil : Tracks ([] : List (Op α T)) (id : α → α) := by
  intro x y
  refine ⟨fun (he : x = y) ↦ he ▸ .refl x, fun hc ↦ ?_⟩
  induction hc with
  | rel x y hxy => exact absurd hxy List.not_mem_nil
  | refl x => rfl
  | symm x y _ ih => exact ih.symm
  | trans x y z _ _ ih ih' => exact ih.trans ih'

theorem Tracks.concat {ops : List (Op α T)} {op : Op α T} (ht : Tracks ops root)
    (hop : op.united? = none) : Tracks (ops ++ [op]) root := by
  intro x y
  rw [ht x y, Connected, Connected, List.filterMap_append, List.filterMap_cons_none hop,
    List.filterMap_nil, List.append_nil]

theorem mem_united_concat {ops : List (Op α T)} {a b x y : α} :
    (x, y) ∈ (ops ++ [Op.union a b]).filterMap Op.united? ↔
      (x, y) ∈ ops.filterMap Op.united? ∨ x = a ∧ y = b := by
  simp [Op.united?]

theorem Tracks.union [LinearOrder α] [BEq T] [Inhabited T] {ops : List (Op α T)}
    (ht : Tracks ops root) (h : Heap α T) (a b : α) :
    Tracks (ops ++ [Op.union a b]) (unite h root a b) := by
  intro x y
  have hold {x y : α} (he : root x = root y) : Connected (ops ++ [Op.union a b]) x y :=
    ((ht x y).mp he).mono fun _ _ hxy ↦ mem_united_concat.mpr (Or.inl hxy)
  have hnew : Connected (ops ++ [Op.union a b]) b a :=
    (EqvGen.rel a b (mem_united_concat.mpr (Or.inr ⟨rfl, rfl⟩))).symm
  have hside {z : α} (hz : root z = root a ∨ root z = root b) :
      Connected (ops ++ [Op.union a b]) z a :=
    hz.elim hold fun hz ↦ (hold hz).trans _ _ _ hnew
  constructor
  · intro he
    rcases unite_eq_iff.mp he with he | ⟨hx, hy⟩
    · exact hold he
    · exact (hside hx).trans _ _ _ (hside hy).symm
  · intro hc
    induction hc with
    | rel x y hxy =>
      rw [unite_eq_iff]
      rcases mem_united_concat.mp hxy with hxy | ⟨rfl, rfl⟩
      · exact Or.inl ((ht x y).mpr (.rel x y hxy))
      · exact Or.inr ⟨Or.inl rfl, Or.inr rfl⟩
    | refl x => rfl
    | symm x y _ ih => exact ih.symm
    | trans x y z _ _ ih ih' => exact ih.trans ih'

section Values

variable [BEq T] [Inhabited T]

/-- The value of a class is one that a member had before, and the default one only if all had it. -/
structure Carried (v : α → T) (root : α → α) (h : Heap α T) : Prop where
  exists_eq : ∀ x, ∃ y, root y = root x ∧ (h (root x)).value = v y
  isDefault : ∀ x, default == (h (root x)).value → ∀ y, root y = root x → default == v y

theorem carried_refl (root : α → α) (h : Heap α T) :
    Carried (fun x ↦ (h (root x)).value) root h := by
  refine ⟨fun x ↦ ⟨x, rfl, rfl⟩, fun x hx y hy ↦ ?_⟩
  simp only [hy]
  exact hx

theorem Carried.congr {v : α → T} (hc : Carried v root h) (hv : ∀ b, (h' b).value = (h b).value) :
    Carried v root h' := by
  refine ⟨fun x ↦ ?_, fun x ↦ ?_⟩
  · rw [hv]
    exact hc.exists_eq x
  · rw [hv]
    exact hc.isDefault x

theorem default_of_winner [LinearOrder α] {a b : α}
    (hw : default == (h (winner h root a b)).value) :
    default == (h (root a)).value ∧ default == (h (root b)).value := by
  rw [winner] at hw
  split_ifs at hw with ha hb
  · exact ⟨ha, hw⟩
  · exact absurd hw ha
  · rcases min_choice (root a) (root b) with he | he
    · rw [he] at hw
      exact absurd hw ha
    · rw [he] at hw
      exact absurd hw hb

theorem Carried.union [LinearOrder α] {v : α → T} (hc : Carried v root h) (a b : α)
    (hv : ∀ b, (h' b).value = (h b).value) : Carried v (unite h root a b) h' := by
  have hself (x : α) (hx : root x = root a ∨ root x = root b) :
      unite h root a b x = winner h root a b := if_pos hx
  constructor
  · intro x
    rw [hv]
    by_cases hx : root x = root a ∨ root x = root b
    · -- The value is that of the root that won.
      obtain ⟨c, hcab, hw⟩ : ∃ c, (c = a ∨ c = b) ∧ winner h root a b = root c :=
        (winner_or h root a b).elim (fun hw ↦ ⟨a, Or.inl rfl, hw⟩) fun hw ↦ ⟨b, Or.inr rfl, hw⟩
      obtain ⟨y, hy, hval⟩ := hc.exists_eq c
      refine ⟨y, ?_, by rw [hself x hx, hw, hval]⟩
      have hyab : root y = root a ∨ root y = root b := by
        rcases hcab with rfl | rfl
        · exact Or.inl hy
        · exact Or.inr hy
      rw [hself x hx, hself y hyab]
    · obtain ⟨y, hy, hval⟩ := hc.exists_eq x
      refine ⟨y, unite_eq_iff.mpr (Or.inl hy), ?_⟩
      rw [unite, if_neg hx, hval]
  · intro x hdef y hy
    rw [hv] at hdef
    by_cases hx : root x = root a ∨ root x = root b
    · rw [hself x hx] at hdef
      have hyab : root y = root a ∨ root y = root b := by
        rcases unite_eq_iff.mp hy with he | ⟨hy', -⟩
        · rwa [he]
        · exact hy'
      obtain ⟨ha, hb⟩ := default_of_winner hdef
      exact hyab.elim (hc.isDefault a ha y) (hc.isDefault b hb y)
    · rw [unite, if_neg hx] at hdef
      refine hc.isDefault x hdef y ?_
      rcases unite_eq_iff.mp hy with he | ⟨-, hx'⟩
      · exact he
      · exact absurd hx' hx

end Values

section Run

variable [LinearOrder α] [BEq T] [Inhabited T] {fuel : ℕ}

omit [LinearOrder α] [BEq T] [Inhabited T] in
theorem forest_init (v : α → T) : Forest (init v) id 0 := fun a ↦ ⟨0, le_rfl, .root a rfl⟩

omit [BEq T] [Inhabited T] in
/-- An assignment is read by the members of the class that it is made to, and by no others. -/
theorem Forest.assign (hf : Forest h root d) (hfuel : d < fuel) (a : α) (v : T) :
    ∃ h', assign fuel h a v = some h' ∧ Forest h' root d ∧
      ∀ b, (h' (root b)).value = if root b = root a then v else (h (root b)).value := by
  obtain ⟨h₁, hfind, hf₁, hv⟩ := hf.find hfuel a
  refine ⟨update h₁ (root a) { h₁ (root a) with value := v }, ?_, hf₁.congr fun b ↦ ?_, fun b ↦ ?_⟩
  · rw [DisjointSet.assign, hfind]
    rfl
  · rcases eq_or_ne b (root a) with rfl | hb
    · rw [update_self]
    · rw [update_of_ne hb]
  · split_ifs with hb
    · rw [hb, update_self]
    · rw [update_of_ne hb, hv]

/-- What an operation does to the forest, to the connections and, unless it assigns, to the
values. -/
theorem step_spec (hf : Forest h root d) (hfuel : d < fuel) (op : Op α T) :
    ∃ h' root', step fuel h op = some h' ∧ Forest h' root' (d + 1) ∧
      (∀ ops, Tracks ops root → Tracks (ops ++ [op]) root') ∧
      ∀ v, (∀ a x, op ≠ .assign a x) → Carried v root h → Carried v root' h' := by
  cases op with
  | union a b =>
    obtain ⟨h', hdo, hf', hv⟩ := hf.union hfuel a b
    exact ⟨h', _, hdo, hf', fun ops ht ↦ ht.union h a b, fun v _ hc ↦ hc.union a b hv⟩
  | find a =>
    obtain ⟨h', hdo, hf', hv⟩ := hf.find hfuel a
    refine ⟨h', root, ?_, hf'.mono (Nat.le_succ d), fun ops ht ↦ ht.concat rfl, fun v _ hc ↦ hc.congr hv⟩
    rw [step, hdo, Option.map_some]
  | assign a x =>
    obtain ⟨h', hdo, hf', -⟩ := hf.assign hfuel a x
    exact ⟨h', root, hdo, hf'.mono (Nat.le_succ d), fun ops ht ↦ ht.concat rfl,
      fun v hop _ ↦ absurd rfl (hop a x)⟩

theorem run_spec {ops : List (Op α T)} (hf : Forest h root d) (hfuel : d + ops.length ≤ fuel)
    {past : List (Op α T)} (ht : Tracks past root) :
    ∃ h' root', Run.run (step fuel) h ops = some h' ∧ Forest h' root' (d + ops.length) ∧
      Tracks (past ++ ops) root' ∧
      ∀ v, (∀ a x, Op.assign a x ∉ ops) → Carried v root h → Carried v root' h' := by
  induction ops generalizing h root d past with
  | nil =>
    refine ⟨h, root, rfl, hf, ?_, fun v _ hc ↦ hc⟩
    rwa [List.append_nil]
  | cons op ops ih =>
    rw [List.length_cons] at hfuel
    have hd : d < fuel := by omega
    obtain ⟨h₁, root₁, hstep, hf₁, ht₁, hc₁⟩ := step_spec hf hd op
    obtain ⟨h', root', hrun, hf', ht', hc'⟩ := ih hf₁ (by omega) (ht₁ past ht)
    refine ⟨h', root', ?_, hf'.mono (by rw [List.length_cons]; omega), ?_, fun v hops hc ↦ ?_⟩
    · rw [Run.run, List.foldlM_cons, hstep]
      exact hrun
    · rwa [List.append_assoc] at ht'
    · have hop (a : α) (x : T) : op ≠ .assign a x ∧ Op.assign a x ∉ ops := by
        have hmem := hops a x
        rw [List.mem_cons, not_or] at hmem
        exact ⟨fun he ↦ hmem.1 he.symm, hmem.2⟩
      exact hc' v (fun a x ↦ (hop a x).2) (hc₁ v (fun a x ↦ (hop a x).1) hc)

/-- After any run `Find` returns, the representatives tell apart what the unions do not connect, and
`Value` reads the value of the class. If the last part of the run assigns nothing, then what it makes of
classes of which one has another value than the default one has that value. -/
theorem disjointSet_runs {ops ops' : List (Op α T)} (v : α → T)
    (hops' : ∀ a x, Op.assign a x ∉ ops') (hfuel : (ops ++ ops').length < fuel) :
    ∃ (s s' : Heap α T) (root : α → α) (val val' : α → T),
      Run.run (step fuel) (init v) ops = some s ∧ Run.run (step fuel) s ops' = some s' ∧
      (∀ a, ∃ h, find fuel s' a = some (h, root a)) ∧
      (∀ a b, root a = root b ↔ Connected (ops ++ ops') a b) ∧
      (∀ a, value fuel s a = some (val a)) ∧ (∀ a, value fuel s' a = some (val' a)) ∧
      (∀ a, (∀ b, Connected (ops ++ ops') a b → default == val b) → default == val' a) ∧
      ∀ a b, Connected (ops ++ ops') a b → ¬(default == val b) →
        (∀ c, Connected (ops ++ ops') a c → ¬(default == val c) → Connected ops b c) →
        val' a = val b := by
  rw [List.length_append] at hfuel
  have hd : 0 + ops.length ≤ fuel := by omega
  have hd' : 0 + ops.length + ops'.length ≤ fuel := by omega
  obtain ⟨s, root, hrun, hf, ht, -⟩ := run_spec (forest_init v) hd tracks_nil
  obtain ⟨s', root', hrun', hf', ht', hc⟩ := run_spec hf hd' ht
  rw [List.nil_append] at ht'
  have hval := hc _ hops' (carried_refl root s)
  refine ⟨s, s', root', fun a ↦ (s (root a)).value, fun a ↦ (s' (root' a)).value, hrun, hrun',
    fun a ↦ ?_, ht', hf.value_eq (by omega), hf'.value_eq (by omega), fun a hall ↦ ?_,
    fun a b hab hb hone ↦ ?_⟩
  · have hlt : 0 + ops.length + ops'.length < fuel := by omega
    obtain ⟨h, hfind, -⟩ := hf'.find hlt a
    exact ⟨h, hfind⟩
  · obtain ⟨y, hy, he⟩ := hval.exists_eq a
    simp only [he]
    exact hall y ((ht' a y).mp hy.symm)
  · obtain ⟨y, hy, he⟩ := hval.exists_eq a
    have hy' : ¬(default == (s (root y)).value) = true := fun hdef ↦
      hb (hval.isDefault a (by rwa [he]) b ((ht' a b).mpr hab).symm)
    have hby : root b = root y := (ht b y).mpr (hone y ((ht' a y).mp hy.symm) hy')
    simp only [he, hby]

theorem disjointSet_runs_three :
    ∃ (s s' : Heap ℕ ℕ) (root : ℕ → ℕ),
      Run.run (step 5) (init fun _ ↦ 0) [.union 0 1, .assign 0 7] = some s ∧
      Run.run (step 5) s [.union 2 1, .find 2] = some s' ∧
      (∀ a, ∃ h, find 5 s' a = some (h, root a)) ∧ root 0 = root 2 := by
  have hlen : ([.union 0 1, .assign 0 7] ++ [.union 2 1, .find 2] : List (Op ℕ ℕ)).length < 5 := by
    decide
  obtain ⟨s, s', root, val, val', hrun, hrun', hfind, hroot, -⟩ :=
    disjointSet_runs (fun _ ↦ 0) (by simp) hlen
  refine ⟨s, s', root, hrun, hrun', hfind, (hroot 0 2).mpr ?_⟩
  have h01 : Connected [Op.union 0 1, .assign 0 7, .union 2 1, .find 2] 0 1 :=
    .rel _ _ List.mem_cons_self
  have h21 : Connected [Op.union 0 1, .assign 0 7, .union 2 1, .find 2] 2 1 :=
    .rel _ _ (List.mem_cons_of_mem _ List.mem_cons_self)
  exact h01.trans _ _ _ h21.symm

end Run

end Forest

end Granary.Base.DisjointSet
