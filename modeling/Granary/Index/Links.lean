import Granary.Base.Chain
import Granary.Index

namespace Granary.Index.Links

open Function Granary.Base.Chain

variable {M V : Type*}

/-- The meta-data in memory, each with the `next` of its `IndexMetaData`, and the two tables that
they are linked into. -/
structure State (M V : Type*) where
  metaData : M → BlockMetaData V
  next : M → Option M
  gIndex : ℕ → Option (ℕ → Option M)
  gUnindexedMeta : ℕ → Option M

structure IndexFindResponse (M : Type*) where
  status : UnificationStatus
  metaData : Option M

def State.slot (s : State M V) (i : MetaDataIndex) : Option M :=
  (s.gIndex i.first).bind fun array ↦ array i.second

section Find

variable (g : Manager V) (s : State M V)

/-- The loop of `MatchMetaData`, over at most `fuel` meta-data. -/
def matchFrom (ls search : BlockMetaData V) :
    ℕ → IndexFindResponse M → Option M → Option (IndexFindResponse M)
  | _, response, none => some response
  | 0, _, some _ => none
  | fuel + 1, response, some m =>
    if g.equals search (s.metaData m) then
      match g.canUnifyWith search ls with
      | .accept => some ⟨.accept, some m⟩
      | .adapt =>
        if response.status ≠ .adapt then matchFrom ls search fuel ⟨.adapt, some m⟩ (s.next m)
        else matchFrom ls search fuel response (s.next m)
      | .reject => matchFrom ls search fuel response (s.next m)
    else matchFrom ls search fuel response (s.next m)

def findMetaDataInIndex (fuel : ℕ) (search : Option (BlockMetaData V)) :
    Option (IndexFindResponse M) :=
  match search with
  | none => some ⟨.reject, none⟩
  | some search =>
    let indices := indexOf (g.appPCOf search)
    match s.gIndex indices.first with
    | none => some ⟨.reject, none⟩
    | some array =>
      match array indices.second with
      | none => some ⟨.reject, none⟩
      | some metas =>
        matchFrom g s (s.metaData metas) search fuel ⟨.reject, none⟩ (some metas)

end Find

section Add

variable [DecidableEq M] (g : Manager V) (s : State M V)

def addMetaDataToIndex (m : M) : State M V :=
  let indices := indexOf (g.appPCOf (s.metaData m))
  let array := (s.gIndex indices.first).getD fun _ ↦ none
  { s with
    next := update s.next m (array indices.second)
    gIndex := update s.gIndex indices.first (some (update array indices.second (some m))) }

def addMetaDataToLog (m : M) : State M V :=
  let indices := indexOf (g.appPCOf (s.metaData m))
  { s with
    next := update s.next m (s.gUnindexedMeta indices.first)
    gUnindexedMeta := update s.gUnindexedMeta indices.first (some m) }

end Add

structure Contents (M : Type*) where
  indexed : MetaDataIndex → List M
  logged : ℕ → List M

namespace Contents

def Indexed (c : Contents M) (m : M) : Prop :=
  ∃ i, m ∈ c.indexed i

def Logged (c : Contents M) (m : M) : Prop :=
  ∃ f, m ∈ c.logged f

def Fresh (c : Contents M) (m : M) : Prop :=
  ¬c.Indexed m ∧ ¬c.Logged m

def pushIndexed (c : Contents M) (i : MetaDataIndex) (m : M) : Contents M :=
  { c with indexed := update c.indexed i (m :: c.indexed i) }

def pushLogged (c : Contents M) (f : ℕ) (m : M) : Contents M :=
  { c with logged := update c.logged f (m :: c.logged f) }

variable {c : Contents M} {m n : M}

theorem Fresh.not_mem_indexed (h : c.Fresh m) (i : MetaDataIndex) : m ∉ c.indexed i :=
  fun hm ↦ h.1 ⟨i, hm⟩

theorem Fresh.not_mem_logged (h : c.Fresh m) (f : ℕ) : m ∉ c.logged f :=
  fun hm ↦ h.2 ⟨f, hm⟩

theorem indexed_pushIndexed {i : MetaDataIndex} :
    (c.pushIndexed i m).Indexed n ↔ n = m ∨ c.Indexed n := by
  simp only [Indexed, pushIndexed, mem_update_cons, exists_or, exists_and_left, exists_eq,
    and_true]

theorem logged_pushLogged {f : ℕ} : (c.pushLogged f m).Logged n ↔ n = m ∨ c.Logged n := by
  simp only [Logged, pushLogged, mem_update_cons, exists_or, exists_and_left, exists_eq, and_true]

end Contents

section Holds

variable (g : Manager V)

/-- Each bucket of the index and of the log is a list that ends, of meta-data that belong there,
and no meta-data is in two places, or in one place twice. -/
structure Holds (s : State M V) (c : Contents M) : Prop where
  index : Heads s.next s.slot c.indexed
  log : Heads s.next s.gUnindexedMeta c.logged
  indexOf_eq {i : MetaDataIndex} {m : M} : m ∈ c.indexed i →
    indexOf (g.appPCOf (s.metaData m)) = i
  first_eq {f : ℕ} {m : M} : m ∈ c.logged f → (indexOf (g.appPCOf (s.metaData m))).first = f
  nodup_indexed (i : MetaDataIndex) : (c.indexed i).Nodup
  nodup_logged (f : ℕ) : (c.logged f).Nodup
  not_logged {m : M} : c.Indexed m → ¬c.Logged m

def initial (metaData : M → BlockMetaData V) : State M V where
  metaData := metaData
  next := fun _ ↦ none
  gIndex := fun _ ↦ none
  gUnindexedMeta := fun _ ↦ none

theorem holds_initial (metaData : M → BlockMetaData V) :
    Holds g (initial metaData) ⟨fun _ ↦ [], fun _ ↦ []⟩ where
  index _ := rfl
  log _ := rfl
  indexOf_eq h := absurd h List.not_mem_nil
  first_eq h := absurd h List.not_mem_nil
  nodup_indexed _ := List.nodup_nil
  nodup_logged _ := List.nodup_nil
  not_logged h := absurd h.choose_spec List.not_mem_nil

variable {g} {s : State M V} {c c' : Contents M} {m : M}

theorem Holds.unique (h : Holds g s c) (h' : Holds g s c') : c = c' := by
  have hindexed := h.index.unique h'.index
  have hlogged := h.log.unique h'.log
  cases c
  cases c'
  congr

variable [DecidableEq M]

theorem slot_addMetaDataToIndex (s : State M V) (m : M) :
    (addMetaDataToIndex g s m).slot =
      update s.slot (indexOf (g.appPCOf (s.metaData m))) (some m) := by
  funext ⟨first, second⟩
  simp only [State.slot, addMetaDataToIndex]
  generalize indexOf (g.appPCOf (s.metaData m)) = j
  obtain ⟨first', second'⟩ := j
  rcases eq_or_ne first first' with rfl | hf
  · rcases eq_or_ne second second' with rfl | hs
    · simp
    · cases h : s.gIndex first <;> simp [State.slot, h, hs]
  · simp [State.slot, hf]

theorem next_addMetaDataToIndex (s : State M V) (m : M) :
    (addMetaDataToIndex g s m).next =
      update s.next m (s.slot (indexOf (g.appPCOf (s.metaData m)))) := by
  simp only [addMetaDataToIndex, State.slot]
  cases s.gIndex (indexOf (g.appPCOf (s.metaData m))).first <;> rfl

theorem Holds.addMetaDataToIndex (h : Holds g s c) (hm : c.Fresh m) :
    Holds g (addMetaDataToIndex g s m)
      (c.pushIndexed (indexOf (g.appPCOf (s.metaData m))) m) where
  index := by
    rw [slot_addMetaDataToIndex, next_addMetaDataToIndex]
    exact h.index.push hm.not_mem_indexed _
  log := by
    rw [next_addMetaDataToIndex]
    exact h.log.frame hm.not_mem_logged _
  indexOf_eq hn := by
    rcases mem_update_cons.mp hn with ⟨rfl, rfl⟩ | hn
    · rfl
    · exact h.indexOf_eq hn
  first_eq := h.first_eq
  nodup_indexed := nodup_update_cons h.nodup_indexed hm.not_mem_indexed
  nodup_logged := h.nodup_logged
  not_logged hn := by
    rcases Contents.indexed_pushIndexed.mp hn with rfl | hn
    · exact hm.2
    · exact h.not_logged hn

theorem Holds.addMetaDataToLog (h : Holds g s c) (hm : c.Fresh m) :
    Holds g (addMetaDataToLog g s m)
      (c.pushLogged (indexOf (g.appPCOf (s.metaData m))).first m) where
  index := h.index.frame hm.not_mem_indexed _
  log := h.log.push hm.not_mem_logged _
  indexOf_eq := h.indexOf_eq
  first_eq hn := by
    rcases mem_update_cons.mp hn with ⟨rfl, rfl⟩ | hn
    · rfl
    · exact h.first_eq hn
  nodup_indexed := h.nodup_indexed
  nodup_logged := nodup_update_cons h.nodup_logged hm.not_mem_logged
  not_logged hn hlog := by
    rcases Contents.logged_pushLogged.mp hlog with rfl | hlog
    · exact hm.1 hn
    · exact h.not_logged hn hlog

end Holds

section Answer

variable {g : Manager V} {s : State M V}

def respond (status : UnificationStatus) (m : M) : IndexFindResponse M :=
  match status with
  | .accept => ⟨.accept, some m⟩
  | .adapt => ⟨.adapt, some m⟩
  | .reject => ⟨.reject, none⟩

def fits (g : Manager V) (s : State M V) (search : BlockMetaData V) (m : M) : Bool :=
  g.equals search (s.metaData m)

def answer (g : Manager V) (s : State M V) (l : List M) (search : BlockMetaData V) :
    IndexFindResponse M :=
  (l.find? (fits g s search)).elim ⟨.reject, none⟩ fun m ↦
    l.head?.elim ⟨.reject, none⟩ fun h ↦ respond (g.canUnifyWith search (s.metaData h)) m

theorem matchFrom_of_adapt {ls search : BlockMetaData V}
    (hs : g.canUnifyWith search ls = .adapt) {response : IndexFindResponse M}
    (hr : response.status = .adapt) {o : Option M} {l : List M} (h : Path s.next o l none)
    {fuel : ℕ} (hf : l.length ≤ fuel) : matchFrom g s ls search fuel response o = some response := by
  induction l generalizing o fuel with
  | nil =>
    obtain rfl : o = none := h
    cases fuel <;> rfl
  | cons m l ih =>
    obtain ⟨rfl, h⟩ := h
    cases fuel with
    | zero => exact absurd hf (by simp)
    | succ fuel =>
      have hrest := ih h (Nat.le_of_succ_le_succ hf)
      simp [matchFrom, hs, hr, hrest]

theorem matchFrom_eq (ls search : BlockMetaData V) {o : Option M} {l : List M}
    (h : Path s.next o l none) {fuel : ℕ} (hf : l.length ≤ fuel) :
    matchFrom g s ls search fuel ⟨.reject, none⟩ o =
      some ((l.find? (fits g s search)).elim ⟨.reject, none⟩
        (respond (g.canUnifyWith search ls))) := by
  induction l generalizing o fuel with
  | nil =>
    obtain rfl : o = none := h
    cases fuel <;> rfl
  | cons m l ih =>
    obtain ⟨rfl, h⟩ := h
    cases fuel with
    | zero => exact absurd hf (by simp)
    | succ fuel =>
      have hf := Nat.le_of_succ_le_succ hf
      by_cases he : g.equals search (s.metaData m)
      · rw [matchFrom, if_pos he, List.find?_cons_of_pos (p := fits g s search) he]
        cases hs : g.canUnifyWith search ls with
        | accept => rfl
        | adapt =>
          have hrest : matchFrom g s ls search fuel ⟨.adapt, some m⟩ (s.next m) =
              some ⟨.adapt, some m⟩ := matchFrom_of_adapt hs rfl h hf
          simp [hrest, respond]
        | reject =>
          simp only [ih h hf, hs, Option.elim]
          cases l.find? (fits g s search) <;> rfl
      · rw [matchFrom, if_neg he, List.find?_cons_of_neg (p := fits g s search) he, ih h hf]

theorem findMetaDataInIndex_eq {c : Contents M} (h : Holds g s c) (search : BlockMetaData V)
    {fuel : ℕ} (hf : (c.indexed (indexOf (g.appPCOf search))).length ≤ fuel) :
    findMetaDataInIndex g s fuel (some search) =
      some (answer g s (c.indexed (indexOf (g.appPCOf search))) search) := by
  have hp := h.index (indexOf (g.appPCOf search))
  revert hp hf
  generalize c.indexed (indexOf (g.appPCOf search)) = l
  intro hf hp
  simp only [State.slot] at hp
  cases ha : s.gIndex (indexOf (g.appPCOf search)).first with
  | none =>
    rw [ha] at hp
    obtain rfl : l = [] := path_unique hp rfl
    simp [findMetaDataInIndex, ha, answer]
  | some array =>
    rw [ha, Option.bind_some] at hp
    cases l with
    | nil =>
      have hnone : array (indexOf (g.appPCOf search)).second = none := hp
      simp [findMetaDataInIndex, ha, hnone, answer]
    | cons m l =>
      have hm : array (indexOf (g.appPCOf search)).second = some m := hp.1
      have hl : Path s.next (some m) (m :: l) none := ⟨rfl, hp.2⟩
      have hrest := matchFrom_eq (g := g) (s.metaData m) search hl hf
      simp only [findMetaDataInIndex, ha, hm, hrest]
      rfl

end Answer

end Granary.Index.Links
