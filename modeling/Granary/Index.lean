import Mathlib.Data.List.Basic
import Mathlib.Logic.Function.Basic
import Mathlib.Order.Basic
import Mathlib.Tactic

namespace Granary.Index

open Function

/-- The values are significant: the status of many descriptions is their maximum. -/
inductive UnificationStatus where
  | accept
  | adapt
  | reject
  deriving DecidableEq, Repr

namespace UnificationStatus

def value : UnificationStatus → ℕ
  | accept => 0
  | adapt => 1
  | reject => 2

theorem value_injective : Injective value := by
  intro a b h
  cases a <;> cases b <;> simp_all [value]

instance : LinearOrder UnificationStatus :=
  LinearOrder.lift' value value_injective

theorem accept_le (s : UnificationStatus) : accept ≤ s :=
  Nat.zero_le s.value

theorem adapt_le_iff {s : UnificationStatus} : adapt ≤ s ↔ s ≠ accept := by
  cases s <;> decide

theorem reject_le_iff {s : UnificationStatus} : reject ≤ s ↔ s ≠ accept ∧ s ≠ adapt := by
  cases s <;> decide

end UnificationStatus

/-- How the meta-data of one tool, at its offset of the block's meta-data, is compared. -/
structure MetaDataDescription (V : Type*) where
  offset : ℕ
  compareEquals : Option (V → V → Bool)
  canUnify : Option (V → V → UnificationStatus)

abbrev BlockMetaData (V : Type*) := ℕ → V

variable {V : Type*}

def equalsAll (this that : BlockMetaData V) : List (MetaDataDescription V) → Bool
  | [] => true
  | desc :: descs =>
    match desc.compareEquals with
    | none => equalsAll this that descs
    | some compareEquals =>
      if compareEquals (this desc.offset) (that desc.offset) then equalsAll this that descs
      else false

def canUnifyAll (this that : BlockMetaData V) (descs : List (MetaDataDescription V)) :
    UnificationStatus :=
  descs.foldl
    (fun status desc ↦
      match desc.canUnify with
      | none => status
      | some canUnify => max status (canUnify (this desc.offset) (that desc.offset)))
    .accept

/-- The descriptions of `gDescriptions`: `InitMetaData` registers `AppMetaData` first. -/
structure Manager (V : Type*) where
  startPC : V → ℕ
  appOffset : ℕ
  others : List (MetaDataDescription V)

namespace Manager

variable (g : Manager V)

def appMetaData : MetaDataDescription V where
  offset := g.appOffset
  compareEquals := some fun a b ↦ g.startPC a == g.startPC b
  canUnify := none

def descriptions : List (MetaDataDescription V) :=
  g.appMetaData :: g.others

def equals (this that : BlockMetaData V) : Bool :=
  equalsAll this that g.descriptions

def canUnifyWith (this that : BlockMetaData V) : UnificationStatus :=
  canUnifyAll this that g.descriptions

def appPCOf (m : BlockMetaData V) : ℕ :=
  g.startPC (m g.appOffset)

end Manager

def kNumIgnoredBits : ℕ := 3

def kMaxFirstIndex : ℕ := 4096

def kMaxSecondIndex : ℕ := 512

def kNumBitsSecondIndex : ℕ := 9

structure MetaDataIndex where
  first : ℕ
  second : ℕ
  deriving DecidableEq, Repr

def indexOf (pc : ℕ) : MetaDataIndex where
  first := (pc >>> (kNumIgnoredBits + kNumBitsSecondIndex)) % kMaxFirstIndex
  second := (pc >>> kNumIgnoredBits) % kMaxSecondIndex

/-- A bucket lists what was pushed onto it, the newest first. -/
abbrev MetaDataArray (V : Type*) := ℕ → List (BlockMetaData V)

abbrev CodeCacheIndex (V : Type*) := ℕ → Option (MetaDataArray V)

structure IndexFindResponse (V : Type*) where
  status : UnificationStatus
  metaData : Option (BlockMetaData V)

section Lookup

variable (g : Manager V)

/-- One turn of the loop of `MatchMetaData`, for each of the meta-data still to come. The status is
that of the head `ls` of the list, and not of `m`. -/
def matchFrom (ls search : BlockMetaData V) :
    IndexFindResponse V → List (BlockMetaData V) → IndexFindResponse V
  | response, [] => response
  | response, m :: metas =>
    if g.equals search m then
      match g.canUnifyWith search ls with
      | .accept => ⟨.accept, some m⟩
      | .adapt =>
        if response.status ≠ .adapt then matchFrom ls search ⟨.adapt, some m⟩ metas
        else matchFrom ls search response metas
      | .reject => matchFrom ls search response metas
    else matchFrom ls search response metas

def matchMetaData (metas : List (BlockMetaData V)) (search : BlockMetaData V) :
    IndexFindResponse V :=
  match metas with
  | [] => ⟨.reject, none⟩
  | ls :: rest => matchFrom g ls search ⟨.reject, none⟩ (ls :: rest)

def findMetaDataInIndex (index : CodeCacheIndex V) (search : Option (BlockMetaData V)) :
    IndexFindResponse V :=
  match search with
  | none => ⟨.reject, none⟩
  | some search =>
    let indices := indexOf (g.appPCOf search)
    match index indices.first with
    | none => ⟨.reject, none⟩
    | some array => matchMetaData g (array indices.second) search

def addMetaDataToIndex (index : CodeCacheIndex V) (m : BlockMetaData V) : CodeCacheIndex V :=
  let indices := indexOf (g.appPCOf m)
  let array := (index indices.first).getD fun _ ↦ []
  update index indices.first
    (some (update array indices.second (m :: array indices.second)))

def indexAfter (history : List (BlockMetaData V)) : CodeCacheIndex V :=
  history.foldl (addMetaDataToIndex g) fun _ ↦ none

/-- `m` is for the search, with this status. -/
def Offers (search : BlockMetaData V) (status : UnificationStatus) (m : BlockMetaData V) : Prop :=
  g.equals search m ∧ g.canUnifyWith search m = status

/-- The answer accepts an indexed meta-data if there is one to accept, else adapts one if there is
one to adapt, else rejects. -/
def Answers (indexed : List (BlockMetaData V)) (search : BlockMetaData V)
    (response : IndexFindResponse V) : Prop :=
  (∃ m ∈ indexed, Offers g search .accept m ∧ response = ⟨.accept, some m⟩) ∨
  (∀ m ∈ indexed, ¬Offers g search .accept m) ∧
    ((∃ m ∈ indexed, Offers g search .adapt m ∧ response = ⟨.adapt, some m⟩) ∨
      (∀ m ∈ indexed, ¬Offers g search .adapt m) ∧ response = ⟨.reject, none⟩)

def newest (p : BlockMetaData V → Bool) (history : List (BlockMetaData V)) :
    Option (BlockMetaData V) :=
  history.reverse.find? p

def sameSlot (search m : BlockMetaData V) : Bool :=
  indexOf (g.appPCOf m) = indexOf (g.appPCOf search)

def samePC (search m : BlockMetaData V) : Bool :=
  g.appPCOf m = g.appPCOf search

/-- The newest meta-data that equals the search has the best status of those that do, and it is also
the status of the newest meta-data of the slot and of the newest one of the address. -/
def HeadDecides (history : List (BlockMetaData V)) (search : BlockMetaData V) : Prop :=
  ∀ m, newest (g.equals search) history = some m →
    (∀ x ∈ history, g.equals search x → g.canUnifyWith search m ≤ g.canUnifyWith search x) ∧
    (∀ h, newest (sameSlot g search) history = some h →
      g.canUnifyWith search h = g.canUnifyWith search m) ∧
    ∀ h, newest (samePC g search) history = some h →
      g.canUnifyWith search h = g.canUnifyWith search m

end Lookup

section Bucket

variable (g : Manager V) {search m ls : BlockMetaData V} {metas : List (BlockMetaData V)}

def respond (status : UnificationStatus) (m : BlockMetaData V) : IndexFindResponse V :=
  match status with
  | .accept => ⟨.accept, some m⟩
  | .adapt => ⟨.adapt, some m⟩
  | .reject => ⟨.reject, none⟩

theorem respond_injective {a b : UnificationStatus} (h : respond a m = respond b m) : a = b := by
  cases a <;> cases b <;> simp_all [respond]

theorem matchFrom_of_adapt (hs : g.canUnifyWith search ls = .adapt) {response : IndexFindResponse V}
    (hr : response.status = .adapt) : matchFrom g ls search response metas = response := by
  induction metas with
  | nil => rfl
  | cons m metas ih => simp [matchFrom, hs, hr, ih]

theorem matchFrom_eq (ls search : BlockMetaData V) (metas : List (BlockMetaData V)) :
    matchFrom g ls search ⟨.reject, none⟩ metas =
      (metas.find? (g.equals search)).elim ⟨.reject, none⟩ (respond (g.canUnifyWith search ls)) := by
  induction metas with
  | nil => rfl
  | cons m metas ih =>
    by_cases he : g.equals search m
    · rw [matchFrom, if_pos he, List.find?_cons_of_pos he]
      cases hs : g.canUnifyWith search ls with
      | accept => rfl
      | adapt => simp [matchFrom_of_adapt g hs, respond]
      | reject =>
        simp only [ih, hs, Option.elim]
        cases metas.find? (g.equals search) <;> rfl
    · rw [matchFrom, if_neg he, List.find?_cons_of_neg he, ih]

theorem matchMetaData_eq (metas : List (BlockMetaData V)) (search : BlockMetaData V) :
    matchMetaData g metas search = (metas.find? (g.equals search)).elim ⟨.reject, none⟩ fun m ↦
      metas.head?.elim ⟨.reject, none⟩ fun ls ↦ respond (g.canUnifyWith search ls) m := by
  cases metas with
  | nil => rfl
  | cons ls rest => exact matchFrom_eq g ls search (ls :: rest)

end Bucket

section History

variable (g : Manager V) {search m : BlockMetaData V} {history : List (BlockMetaData V)}

def bucket (index : CodeCacheIndex V) (i : MetaDataIndex) : List (BlockMetaData V) :=
  (index i.first).elim [] fun array ↦ array i.second

theorem bucket_addMetaDataToIndex (index : CodeCacheIndex V) (m : BlockMetaData V)
    (i : MetaDataIndex) :
    bucket (addMetaDataToIndex g index m) i =
      if indexOf (g.appPCOf m) = i then m :: bucket index i else bucket index i := by
  obtain ⟨first, second⟩ := i
  simp only [bucket, addMetaDataToIndex]
  generalize indexOf (g.appPCOf m) = j
  obtain ⟨first', second'⟩ := j
  by_cases hf : first = first'
  · subst hf
    by_cases hs : second = second'
    · subst hs
      cases index first <;> simp
    · have hs' : second' ≠ second := Ne.symm hs
      cases index first <;> simp [hs, hs']
  · have hf' : first' ≠ first := Ne.symm hf
    simp [hf, hf']

theorem bucket_indexAfter (history : List (BlockMetaData V)) (i : MetaDataIndex) :
    bucket (indexAfter g history) i = history.reverse.filter fun m ↦ indexOf (g.appPCOf m) = i := by
  induction history using List.reverseRecOn with
  | nil => rfl
  | append_singleton history m ih =>
    rw [indexAfter, List.foldl_append, List.foldl_cons, List.foldl_nil,
      bucket_addMetaDataToIndex, List.reverse_append, List.reverse_singleton,
      List.singleton_append, List.filter_cons]
    simp only [decide_eq_true_eq]
    rw [← ih]
    rfl

theorem samePC_of_equals (h : g.equals search m) : samePC g search m := by
  have hpc : g.startPC (search g.appOffset) = g.startPC (m g.appOffset) := by
    simp only [Manager.equals, Manager.descriptions, equalsAll, Manager.appMetaData] at h
    split_ifs at h with he
    exact beq_iff_eq.mp he
  exact decide_eq_true hpc.symm

theorem sameSlot_of_samePC (h : samePC g search m) : sameSlot g search m :=
  decide_eq_true (congrArg indexOf (of_decide_eq_true h))

theorem findMetaDataInIndex_eq (history : List (BlockMetaData V)) (search : BlockMetaData V) :
    findMetaDataInIndex g (indexAfter g history) (some search) =
      (newest (g.equals search) history).elim ⟨.reject, none⟩ fun m ↦
        (newest (sameSlot g search) history).elim ⟨.reject, none⟩ fun h ↦
          respond (g.canUnifyWith search h) m := by
  have hb : findMetaDataInIndex g (indexAfter g history) (some search) =
      matchMetaData g (bucket (indexAfter g history) (indexOf (g.appPCOf search))) search := by
    simp only [findMetaDataInIndex, bucket]
    cases indexAfter g history (indexOf (g.appPCOf search)).first <;> rfl
  have hfind : (history.reverse.filter (sameSlot g search)).find? (g.equals search) =
      newest (g.equals search) history := by
    rw [List.find?_filter, newest]
    congr 1
    funext x
    by_cases hx : g.equals search x
    · simp [hx, sameSlot_of_samePC g (samePC_of_equals g hx)]
    · simp [hx]
  rw [hb, bucket_indexAfter, matchMetaData_eq]
  change ((history.reverse.filter (sameSlot g search)).find? _).elim _ _ = _
  rw [hfind]
  congr 1
  funext m
  change ((history.reverse.filter (sameSlot g search)).head?).elim _ _ = _
  rw [List.head?_filter]
  rfl

theorem mem_of_newest {p : BlockMetaData V → Bool} (h : newest p history = some m) :
    m ∈ history ∧ p m :=
  ⟨List.mem_reverse.mp (List.mem_of_find?_eq_some h), List.find?_some h⟩

theorem newest_eq_none {p : BlockMetaData V → Bool} :
    newest p history = none ↔ ∀ m ∈ history, ¬p m := by
  simp [newest]

theorem exists_newest {p q : BlockMetaData V → Bool} (hpq : ∀ m, p m → q m)
    (h : newest p history = some m) : ∃ m', newest q history = some m' := by
  rw [← Option.isSome_iff_exists, newest, List.find?_isSome]
  have hm := mem_of_newest h
  exact ⟨m, List.mem_reverse.mpr hm.1, hpq m hm.2⟩

/-- Where the newest `m` for the search is answered with a status, the answer is right if and only
if that is the status of `m`, and the best one. -/
theorem answers_respond_iff (hm : m ∈ history) (he : g.equals search m)
    (status : UnificationStatus) :
    Answers g history search (respond status m) ↔ status = g.canUnifyWith search m ∧
      ∀ x ∈ history, g.equals search x → g.canUnifyWith search m ≤ g.canUnifyWith search x := by
  cases status with
  | accept =>
    constructor
    · rintro (⟨x, -, ⟨-, hx⟩, hr⟩ | ⟨-, ⟨x, -, -, hr⟩ | ⟨-, hr⟩⟩)
      · obtain rfl : m = x := by simpa [respond] using hr
        exact ⟨hx.symm, fun y _ _ ↦ hx ▸ UnificationStatus.accept_le _⟩
      · simp [respond] at hr
      · simp [respond] at hr
    · rintro ⟨hs, -⟩
      exact Or.inl ⟨m, hm, ⟨he, hs.symm⟩, rfl⟩
  | adapt =>
    constructor
    · rintro (⟨x, -, -, hr⟩ | ⟨hno, ⟨x, -, ⟨-, hx⟩, hr⟩ | ⟨-, hr⟩⟩)
      · simp [respond] at hr
      · obtain rfl : m = x := by simpa [respond] using hr
        refine ⟨hx.symm, fun y hy hey ↦ ?_⟩
        rw [hx, UnificationStatus.adapt_le_iff]
        exact fun hacc ↦ hno y hy ⟨hey, hacc⟩
      · simp [respond] at hr
    · rintro ⟨hs, hbest⟩
      refine Or.inr ⟨fun x hx hox ↦ ?_, Or.inl ⟨m, hm, ⟨he, hs.symm⟩, rfl⟩⟩
      have hle := hbest x hx hox.1
      rw [← hs, UnificationStatus.adapt_le_iff] at hle
      exact hle hox.2
  | reject =>
    constructor
    · rintro (⟨x, -, -, hr⟩ | ⟨hno, ⟨x, -, -, hr⟩ | ⟨hno', -⟩⟩)
      · simp [respond] at hr
      · simp [respond] at hr
      · have hrej (x) (hx : x ∈ history) (hex : g.equals search x) :
            .reject ≤ g.canUnifyWith search x :=
          UnificationStatus.reject_le_iff.mpr
            ⟨fun h ↦ hno x hx ⟨hex, h⟩, fun h ↦ hno' x hx ⟨hex, h⟩⟩
        have hs : .reject = g.canUnifyWith search m :=
          le_antisymm (hrej m hm he) (by cases g.canUnifyWith search m <;> decide)
        exact ⟨hs, fun x hx hex ↦ hs ▸ hrej x hx hex⟩
    · rintro ⟨hs, hbest⟩
      have hrej (x) (hx : x ∈ history) (hex : g.equals search x) :=
        UnificationStatus.reject_le_iff.mp (hs ▸ hbest x hx hex)
      exact Or.inr ⟨fun x hx hox ↦ (hrej x hx hox.1).1 hox.2,
        Or.inr ⟨fun x hx hox ↦ (hrej x hx hox.1).2 hox.2, rfl⟩⟩

theorem answers_reject (h : newest (g.equals search) history = none) :
    Answers g history search ⟨.reject, none⟩ := by
  have hno := newest_eq_none.mp h
  exact Or.inr ⟨fun x hx hox ↦ hno x hx hox.1, Or.inr ⟨fun x hx hox ↦ hno x hx hox.1, rfl⟩⟩

theorem newest_filter {p q : BlockMetaData V → Bool} (hpq : ∀ m, p m → q m) :
    newest p (history.filter q) = newest p history := by
  rw [newest, newest, ← List.filter_reverse, List.find?_filter]
  congr 1
  funext x
  by_cases hx : p x
  · simp [hx, hpq x hx]
  · simp [hx]

theorem newest_sameSlot_filter_samePC :
    newest (sameSlot g search) (history.filter (samePC g search)) =
      newest (samePC g search) history := by
  rw [newest, newest, ← List.filter_reverse, List.find?_filter]
  congr 1
  funext x
  by_cases hx : samePC g search x
  · simp [hx, sameSlot_of_samePC g hx]
  · simp [hx]

/-- A lookup after any history of insertions answers right, and as if nothing had been inserted
under another address, if and only if the head of the list decides as the newest match does. -/
theorem findMetaDataInIndex_answers_iff (history : List (BlockMetaData V))
    (search : BlockMetaData V) :
    (Answers g history search (findMetaDataInIndex g (indexAfter g history) (some search)) ∧
      findMetaDataInIndex g (indexAfter g history) (some search) =
        findMetaDataInIndex g (indexAfter g (history.filter (samePC g search))) (some search)) ↔
      HeadDecides g history search := by
  rw [findMetaDataInIndex_eq, findMetaDataInIndex_eq, newest_sameSlot_filter_samePC,
    newest_filter fun _ ↦ samePC_of_equals g]
  unfold HeadDecides
  cases hm : newest (g.equals search) history with
  | none => simpa using answers_reject g hm
  | some m =>
    obtain ⟨hmem, he⟩ := mem_of_newest hm
    obtain ⟨h', hh'⟩ := exists_newest (fun _ ↦ samePC_of_equals g) hm
    obtain ⟨h, hh⟩ := exists_newest (fun _ hx ↦ sameSlot_of_samePC g (samePC_of_equals g hx)) hm
    simp only [hh, hh', Option.elim, Option.some.injEq, forall_eq', answers_respond_iff g hmem he]
    constructor
    · rintro ⟨⟨hs, hbest⟩, hr⟩
      exact ⟨hbest, hs, (respond_injective hr).symm.trans hs⟩
    · rintro ⟨hbest, hs, hs'⟩
      exact ⟨⟨hs, hbest⟩, by rw [hs, hs']⟩

/-- Of two meta-data of one block the older one fits the search, and the newer one does not. -/
theorem findMetaDataInIndex_rejects_older :
    let g : Manager ℕ := ⟨id, 0, [⟨8, none, some fun a b ↦ if a = b then .accept else .reject⟩]⟩
    let older : BlockMetaData ℕ := fun offset ↦ if offset = 0 then 4096 else 1
    let newer : BlockMetaData ℕ := fun offset ↦ if offset = 0 then 4096 else 2
    Offers g older .accept older ∧
      findMetaDataInIndex g (indexAfter g [older, newer]) (some older) = ⟨.reject, none⟩ ∧
      ¬Answers g [older, newer] older
        (findMetaDataInIndex g (indexAfter g [older, newer]) (some older)) := by
  intro g older newer
  have hoff : Offers g older .accept older := by
    constructor <;> decide
  have hfind : findMetaDataInIndex g (indexAfter g [older, newer]) (some older) =
      ⟨.reject, none⟩ := by
    have he : g.equals older newer = true := by decide
    have hslot : sameSlot g older newer = true := by decide
    have hrej : g.canUnifyWith older newer = .reject := by decide
    rw [findMetaDataInIndex_eq]
    simp [newest, he, hslot, hrej, respond]
  refine ⟨hoff, hfind, ?_⟩
  rw [hfind]
  rintro (⟨x, -, -, hr⟩ | ⟨hno, -⟩)
  · simp at hr
  · exact hno older (by simp) hoff

end History

end Granary.Index
