import Granary.Base.Run
import Granary.Tool.Names
import Mathlib.Data.Finset.Card
import Mathlib.Data.List.Forall2

namespace Granary.Tool.Sessions

open Function Granary.Base.Run

/-- The fields of a `ToolDescription` that registering it writes. Its name is a slot of
`gToolNames`. -/
structure Description where
  id : ℕ
  nextDependencyOffset : ℕ
  isActive : Bool
  name : Option ℕ
  allocationOffset : ℕ
  deriving DecidableEq, Repr

structure Add (δ : Type*) where
  desc : δ
  name : Name
  requiredTools : List Name
  deriving DecidableEq, Repr

inductive Action (δ : Type*) where
  | addInstrumentationTool (a : Add δ)
  | exitToolManager
  deriving DecidableEq, Repr

/-- The tables that names, identifiers and dependencies are in, and the descriptions that were
registered, ever. -/
structure Manager (δ : Type*) extends NameTable where
  gRegisteredTools : ℕ → Option δ
  gToolDependencies : ℕ → ℕ → ℕ
  description : δ → Description

variable {δ : Type*}

namespace Manager

def initial (description : δ → Description) : Manager δ where
  toNameTable := .empty
  gRegisteredTools := fun _ ↦ none
  gToolDependencies := fun _ _ ↦ 0
  description := description

def idForName (m : Manager δ) (name : Name) : Option (ℕ × Manager δ) :=
  (m.toNameTable.idForName name).map fun (id, names) ↦ (id, { m with toNameTable := names })

def descForName (m : Manager δ) (name : Name) : Option δ :=
  m.toNameTable.descForName m.gRegisteredTools name

/-- The dependencies that are recorded for a tool, the first of which is on itself. -/
def dependencies (m : Manager δ) (d : δ) : List ℕ :=
  (List.range (m.description d).nextDependencyOffset).map
    (m.gToolDependencies (m.description d).id)

def exitToolManager (m : Manager δ) : Manager δ :=
  { m with
    gNextToolId := 0
    gRegisteredTools := fun _ ↦ none
    gToolDependencies := fun _ _ ↦ 0 }

variable [DecidableEq δ]

/-- What `AddInstrumentationTool` does before the dependencies. -/
def register (m : Manager δ) (id : ℕ) (desc : δ) : Manager δ :=
  { m with
    gRegisteredTools := update m.gRegisteredTools id (some desc)
    gToolDependencies := update m.gToolDependencies id (update (m.gToolDependencies id) 0 id)
    description := update m.description desc
      { id := id
        nextDependencyOffset := 1
        isActive := false
        name := some id
        allocationOffset := 0 } }

/-- One turn of the loop over the dependencies. A write past the end of a row is undefined. -/
def addDependency (id : ℕ) (desc : δ) (m : Manager δ) (depName : Name) : Option (Manager δ) :=
  (m.idForName depName).bind fun (depId, m) ↦
    let offset := (m.description desc).nextDependencyOffset
    if offset < kMaxNumTools then
      some { m with
        gToolDependencies :=
          update m.gToolDependencies id (update (m.gToolDependencies id) offset depId)
        description := update m.description desc
          { m.description desc with nextDependencyOffset := offset + 1 } }
    else none

def addInstrumentationTool (m : Manager δ) (a : Add δ) : Option (Manager δ) :=
  (m.idForName a.name).bind fun (id, m) ↦
    a.requiredTools.foldlM (addDependency id a.desc) (m.register id a.desc)

end Manager

open Manager

def step [DecidableEq δ] (m : Manager δ) : Action δ → Option (Manager δ)
  | .addInstrumentationTool a => m.addInstrumentationTool a
  | .exitToolManager => some m.exitToolManager

def session (actions : List (Action δ)) : List (Add δ) :=
  actions.foldl (fun adds action ↦
    match action with
    | .addInstrumentationTool a => adds ++ [a]
    | .exitToolManager => []) []

section Session

variable [DecidableEq δ]

def lastUnder (adds : List (Add δ)) (name : Name) : Option (Add δ) :=
  adds.reverse.find? (·.name = name)

def lastOf (adds : List (Add δ)) (desc : δ) : Option (Add δ) :=
  adds.reverse.find? (·.desc = desc)

/-- The registration is the last under its name and of its description. -/
structure Current (adds : List (Add δ)) (a : Add δ) : Prop where
  under : lastUnder adds a.name = some a
  of : lastOf adds a.desc = some a

/-- An identifier is that of the name, and of the tool that has the name, if one has. -/
structure Denotes (adds : List (Add δ)) (m : Manager δ) (name : Name) (id : ℕ) : Prop where
  slot : m.gToolNames id = name
  tool : m.gRegisteredTools id = (lastUnder adds name).map (·.desc)
  same (a : Add δ) : Current adds a → a.name = name → (m.description a.desc).id = id

structure Identities (adds : List (Add δ)) (m : Manager δ) : Prop where
  unique (a b : Add δ) : lastOf adds a.desc = some a → lastOf adds b.desc = some b →
    a.name ≠ b.name → (m.description a.desc).id ≠ (m.description b.desc).id
  found (name : Name) : name ≠ [] → m.descForName name = (lastUnder adds name).map (·.desc)
  depends (a : Add δ) : Current adds a →
    List.Forall₂ (Denotes adds m) (a.name :: a.requiredTools) (m.dependencies a.desc)

end Session

def InUse (m : Manager δ) (tools : δ → Prop) (id : ℕ) : Prop :=
  (m.gRegisteredTools id).isSome ∨
    ∃ e, tools e ∧ m.gRegisteredTools (m.description e).id = some e ∧ id ∈ m.dependencies e

/-- The name has a slot, or gets one that is not in use. -/
def Free (m : Manager δ) (tools : δ → Prop) (name : Name) : Prop :=
  m.slotOf name = none → ¬InUse m tools m.gNextToolId

/-- Each of the dependencies has a slot, or gets one that is not in use. -/
def FreeAll [DecidableEq δ] (id : ℕ) (desc : δ) : Manager δ → List Name → Prop
  | _, [] => True
  | m, depName :: depNames => Free m (fun _ ↦ True) depName ∧
      ∀ m', addDependency id desc m depName = some m' → FreeAll id desc m' depNames

/-- No name that the registration is the first to use gets a slot that is in use, and the
dependencies fit a row. -/
structure ClearAdd [DecidableEq δ] (m : Manager δ) (a : Add δ) : Prop where
  name : Free m (· ≠ a.desc) a.name
  depends : ∀ id m', m.idForName a.name = some (id, m') →
    FreeAll id a.desc (m'.register id a.desc) a.requiredTools
  room : a.requiredTools.length < kMaxNumTools

def Clear [DecidableEq δ] (m : Manager δ) : Action δ → Prop
  | .addInstrumentationTool a => ClearAdd m a
  | .exitToolManager => True

section Last

variable {adds : List (Add δ)} {a b : Add δ}

theorem lastUnder_concat (adds : List (Add δ)) (a : Add δ) (name : Name) :
    lastUnder (adds ++ [a]) name = if a.name = name then some a else lastUnder adds name := by
  simp only [lastUnder, List.reverse_concat, List.find?_cons]
  by_cases h : a.name = name <;> simp [h]

theorem lastUnder_eq_none_iff {name : Name} :
    lastUnder adds name = none ↔ ∀ a ∈ adds, a.name ≠ name := by
  simp [lastUnder]

variable [DecidableEq δ]

theorem lastOf_concat (adds : List (Add δ)) (a : Add δ) (desc : δ) :
    lastOf (adds ++ [a]) desc = if a.desc = desc then some a else lastOf adds desc := by
  simp only [lastOf, List.reverse_concat, List.find?_cons]
  by_cases h : a.desc = desc <;> simp [h]

theorem mem_of_lastOf {desc : δ} (h : lastOf adds desc = some a) : a ∈ adds ∧ a.desc = desc := by
  refine ⟨List.mem_reverse.1 (List.mem_of_find?_eq_some h), ?_⟩
  simpa using List.find?_some h

/-- The last registration is current, and those of other tools under other names are as before. -/
theorem current_concat (h : Current (adds ++ [a]) b) :
    b = a ∨ Current adds b ∧ b.desc ≠ a.desc ∧ b.name ≠ a.name := by
  have hunder := h.under
  have hof := h.of
  rw [lastUnder_concat] at hunder
  rw [lastOf_concat] at hof
  by_cases hname : a.name = b.name
  · rw [if_pos hname, Option.some_inj] at hunder
    exact Or.inl hunder.symm
  by_cases hdesc : a.desc = b.desc
  · rw [if_pos hdesc, Option.some_inj] at hof
    exact Or.inl hof.symm
  · rw [if_neg hname] at hunder
    rw [if_neg hdesc] at hof
    exact Or.inr ⟨⟨hunder, hof⟩, Ne.symm hdesc, Ne.symm hname⟩

theorem current_concat_self (adds : List (Add δ)) (a : Add δ) : Current (adds ++ [a]) a :=
  ⟨by rw [lastUnder_concat, if_pos rfl], by rw [lastOf_concat, if_pos rfl]⟩

end Last

section Invariant

variable [DecidableEq δ] {used : Finset Name} {tools : δ → Prop} {adds : List (Add δ)}
  {m : Manager δ} {name : Name} {a : Add δ} {d : δ}

/-- The names are not empty and fit the buffer, and there are slots to spare. -/
structure Names (used : Finset Name) : Prop where
  ne_nil (name : Name) : name ∈ used → name ≠ []
  length_lt (name : Name) : name ∈ used → name.length < kMaxToolNameLength
  card_lt : used.card < kMaxNumTools

/-- The rows are those of the current registrations of some tools. -/
structure Inv (used : Finset Name) (tools : δ → Prop) (adds : List (Add δ)) (m : Manager δ) :
    Prop where
  distinct (i j : ℕ) : m.gToolNames i = m.gToolNames j → m.gToolNames i ≠ [] → i = j
  lt_max (i : ℕ) : m.gToolNames i ≠ [] → i < kMaxNumTools
  new (i : ℕ) : i < m.gNextToolId → m.gToolNames i ∈ used
  mem_used (a : Add δ) : a ∈ adds → a.name ∈ used
  named (a : Add δ) : a ∈ adds → ∃ i, m.gToolNames i = a.name
  registered (i : ℕ) : m.gRegisteredTools i = (lastUnder adds (m.gToolNames i)).map (·.desc)
  slot (d : δ) (a : Add δ) : lastOf adds d = some a →
    m.gToolNames (m.description d).id = a.name
  row (a : Add δ) : Current adds a → tools a.desc →
    (m.dependencies a.desc).map m.gToolNames = a.name :: a.requiredTools

theorem inv_initial (description : δ → Description) :
    Inv used tools [] (initial description : Manager δ) where
  distinct := fun _ _ _ h ↦ absurd rfl h
  lt_max := fun _ h ↦ absurd rfl h
  new := fun _ h ↦ absurd h (Nat.not_lt_zero _)
  mem_used := by simp
  named := by simp
  registered := fun _ ↦ rfl
  slot := by simp [lastOf]
  row := fun _ h ↦ by simpa [lastOf] using h.of

theorem Inv.exitToolManager (h : Inv used tools adds m) :
    Inv used tools [] m.exitToolManager where
  distinct := h.distinct
  lt_max := h.lt_max
  new := fun _ h ↦ absurd h (Nat.not_lt_zero _)
  mem_used := by simp
  named := by simp
  registered := fun _ ↦ rfl
  slot := by simp [lastOf]
  row := fun _ h ↦ by simpa [lastOf] using h.of

theorem Inv.slotOf_eq_some_iff (h : Inv used tools adds m) (hname : name ≠ []) {i : ℕ} :
    m.slotOf name = some i ↔ m.gToolNames i = name := by
  constructor
  · intro hslot
    simpa [eq_comm] using List.find?_some hslot
  · intro hi
    cases hslot : m.slotOf name with
    | none =>
      have hlt := h.lt_max i (hi ▸ hname)
      have hne := List.find?_eq_none.1 hslot i (List.mem_range.2 hlt)
      simp [hi] at hne
    | some j =>
      have hj : m.gToolNames j = name := by simpa [eq_comm] using List.find?_some hslot
      rw [h.distinct j i (hj.trans hi.symm) (hj ▸ hname)]

theorem Inv.slotOf_eq_none_iff (h : Inv used tools adds m) (hname : name ≠ []) :
    m.slotOf name = none ↔ ∀ i, m.gToolNames i ≠ name := by
  rw [Option.eq_none_iff_forall_ne_some]
  apply forall_congr'
  intro i
  rw [Ne, h.slotOf_eq_some_iff hname]

theorem Inv.gNextToolId_lt (h : Inv used tools adds m) (hnames : Names used) :
    m.gNextToolId < kMaxNumTools := by
  have hcard : (Finset.range m.gNextToolId).card ≤ used.card := by
    apply Finset.card_le_card_of_injOn m.gToolNames
    · intro i hi
      exact h.new i (Finset.mem_range.1 hi)
    · intro i hi j hj hij
      have hmem := h.new i (Finset.mem_range.1 hi)
      exact h.distinct i j hij (hnames.ne_nil _ hmem)
  rw [Finset.card_range] at hcard
  exact hcard.trans_lt hnames.card_lt

theorem Inv.registered_of_current (h : Inv used tools adds m) (ha : Current adds a) :
    m.gRegisteredTools (m.description a.desc).id = some a.desc := by
  rw [h.registered, h.slot _ _ ha.of, ha.under]
  rfl

theorem Inv.ne_of_not_inUse (h : Inv used tools adds m) {i : ℕ} (hfree : ¬InUse m tools i)
    (ha : a ∈ adds) : m.gToolNames i ≠ a.name := by
  intro hi
  apply hfree
  rw [InUse, h.registered, hi, Option.isSome_map, Option.isSome_iff_ne_none, Ne,
    lastUnder_eq_none_iff]
  exact Or.inl fun hnone ↦ hnone a ha rfl

theorem Inv.allocate (h : Inv used tools adds m) (hlt : m.gNextToolId < kMaxNumTools)
    (hname : name ∈ used) (hfresh : ∀ i, m.gToolNames i ≠ name)
    (hfree : ¬InUse m tools m.gNextToolId) :
    Inv used tools adds
      { m with
        gNextToolId := m.gNextToolId + 1
        gToolNames := update m.gToolNames m.gNextToolId name } := by
  have hkeep {i : ℕ} {a : Add δ} (ha : a ∈ adds) (hi : m.gToolNames i = a.name) :
      i ≠ m.gNextToolId := by
    rintro rfl
    exact h.ne_of_not_inUse hfree ha hi
  constructor <;> try dsimp only
  case distinct =>
    intro i j hij hi
    by_cases hi' : i = m.gNextToolId <;> by_cases hj' : j = m.gNextToolId
    · exact hi'.trans hj'.symm
    · rw [hi', update_self, update_of_ne hj'] at hij
      exact absurd hij.symm (hfresh j)
    · rw [hj', update_self, update_of_ne hi'] at hij
      exact absurd hij (hfresh i)
    · rw [update_of_ne hi', update_of_ne hj'] at hij
      rw [update_of_ne hi'] at hi
      exact h.distinct i j hij hi
  case lt_max =>
    intro i hi
    by_cases hi' : i = m.gNextToolId
    · exact hi' ▸ hlt
    · rw [update_of_ne hi'] at hi
      exact h.lt_max i hi
  case new =>
    intro i hi
    by_cases hi' : i = m.gNextToolId
    · rwa [hi', update_self]
    · rw [update_of_ne hi']
      exact h.new i (by omega)
  case mem_used => exact h.mem_used
  case named =>
    intro a ha
    obtain ⟨i, hi⟩ := h.named a ha
    exact ⟨i, by rw [update_of_ne (hkeep ha hi), hi]⟩
  case registered =>
    intro i
    by_cases hi' : i = m.gNextToolId
    · have hnone : lastUnder adds name = none := by
        rw [lastUnder_eq_none_iff]
        intro a ha heq
        obtain ⟨i, hi⟩ := h.named a ha
        exact hfresh i (hi.trans heq)
      rw [hi', update_self, hnone, Option.map_none, ← Option.not_isSome_iff_eq_none]
      exact fun hsome ↦ hfree (Or.inl hsome)
    · rw [update_of_ne hi']
      exact h.registered i
  case slot =>
    intro d a ha
    have hslot := h.slot d a ha
    rw [update_of_ne (hkeep (mem_of_lastOf ha).1 hslot), hslot]
  case row =>
    intro a ha htool
    rw [← h.row a ha htool]
    apply List.map_congr_left
    intro id hid
    apply update_of_ne
    rintro rfl
    exact hfree (Or.inr ⟨a.desc, htool, h.registered_of_current ha, hid⟩)

theorem Inv.idForName (h : Inv used tools adds m) (hnames : Names used) (hname : name ∈ used)
    (hfree : Free m tools name) :
    ∃ id m', m.idForName name = some (id, m') ∧ Inv used tools adds m' ∧
      m'.gToolNames id = name ∧ m'.description = m.description := by
  have hne := hnames.ne_nil name hname
  rw [Manager.idForName, NameTable.idForName]
  cases hslot : m.slotOf name with
  | some i => exact ⟨i, m, rfl, h, (h.slotOf_eq_some_iff hne).1 hslot, rfl⟩
  | none =>
    have hlt := h.gNextToolId_lt hnames
    have htake : name.take (kMaxToolNameLength - 1) = name :=
      List.take_of_length_le (Nat.le_sub_one_of_lt (hnames.length_lt name hname))
    have hfresh := (h.slotOf_eq_none_iff hne).1 hslot
    dsimp only
    rw [if_pos hlt, htake]
    exact ⟨_, _, rfl, h.allocate hlt hname hfresh (hfree hslot), update_self .., rfl⟩

theorem Inv.register (h : Inv used (· ≠ a.desc) adds m) (hnames : Names used)
    (hname : a.name ∈ used) {id : ℕ} (hid : m.gToolNames id = a.name) :
    Inv used (fun _ ↦ True) (adds ++ [{ a with requiredTools := [] }]) (m.register id a.desc) := by
  have hother {i : ℕ} (hi : m.gToolNames i ≠ a.name) : i ≠ id := fun heq ↦ hi (heq ▸ hid)
  constructor <;> try dsimp only [Manager.register]
  case distinct => exact h.distinct
  case lt_max => exact h.lt_max
  case new => exact h.new
  case mem_used =>
    intro b hb
    obtain hb | hb := List.mem_append.1 hb
    · exact h.mem_used b hb
    · rw [List.mem_singleton.1 hb]
      exact hname
  case named =>
    intro b hb
    obtain hb | hb := List.mem_append.1 hb
    · exact h.named b hb
    · exact ⟨id, by rw [List.mem_singleton.1 hb, hid]⟩
  case registered =>
    intro i
    by_cases hi : m.gToolNames i = a.name
    · have hne := hnames.ne_nil a.name hname
      have hsame : i = id := h.distinct i id (hi.trans hid.symm) (hi ▸ hne)
      rw [hsame, update_self, hid, lastUnder_concat, if_pos rfl]
      rfl
    · rw [update_of_ne (hother hi), lastUnder_concat, if_neg (Ne.symm hi)]
      exact h.registered i
  case slot =>
    intro d b hb
    rw [lastOf_concat] at hb
    by_cases hd : a.desc = d
    · rw [if_pos hd, Option.some_inj] at hb
      rw [← hd, update_self, ← hb]
      exact hid
    · rw [if_neg hd] at hb
      rw [update_of_ne (Ne.symm hd)]
      exact h.slot d b hb
  case row =>
    intro b hb _
    obtain rfl | ⟨hb, hdesc, hname'⟩ := current_concat hb
    · simp [dependencies, hid]
    · have hslot := h.slot _ _ hb.of
      rw [← h.row b hb hdesc]
      dsimp only [dependencies]
      rw [update_of_ne hdesc, update_of_ne (hother (hslot ▸ hname'))]

theorem Inv.withDependencies {b : Add δ} (h : Inv used (fun _ ↦ True) (adds ++ [a]) m)
    (hname : b.name = a.name) (hdesc : b.desc = a.desc) {rows : ℕ → ℕ → ℕ}
    {description : δ → Description} (hid : ∀ d, (description d).id = (m.description d).id)
    (hrow : ∀ c, Current (adds ++ [b]) c →
      (Manager.dependencies { m with gToolDependencies := rows, description := description }
        c.desc).map m.gToolNames = c.name :: c.requiredTools) :
    Inv used (fun _ ↦ True) (adds ++ [b])
      { m with gToolDependencies := rows, description := description } where
  distinct := h.distinct
  lt_max := h.lt_max
  new := h.new
  mem_used c hc := by
    obtain hc | hc := List.mem_append.1 hc
    · exact h.mem_used c (List.mem_append_left _ hc)
    · rw [List.mem_singleton.1 hc, hname]
      exact h.mem_used a (by simp)
  named c hc := by
    obtain hc | hc := List.mem_append.1 hc
    · exact h.named c (List.mem_append_left _ hc)
    · rw [List.mem_singleton.1 hc, hname]
      exact h.named a (by simp)
  registered i := by
    dsimp only
    rw [h.registered, lastUnder_concat, lastUnder_concat, hname]
    split_ifs
    · rw [Option.map_some, Option.map_some, hdesc]
    · rfl
  slot d c hc := by
    dsimp only
    rw [hid]
    rw [lastOf_concat, hdesc] at hc
    by_cases hd : a.desc = d
    · rw [if_pos hd, Option.some_inj] at hc
      rw [← hc, hname]
      exact h.slot d a (by rw [lastOf_concat, if_pos hd])
    · rw [if_neg hd] at hc
      exact h.slot d c (by rw [lastOf_concat, if_neg hd, hc])
  row c hc _ := hrow c hc

theorem Inv.addDependency {before : List Name}
    (h : Inv used (fun _ ↦ True) (adds ++ [{ a with requiredTools := before }]) m)
    (hnames : Names used) (hname : name ∈ used) (hfree : Free m (fun _ ↦ True) name)
    (hroom : before.length + 1 < kMaxNumTools) :
    ∃ m', addDependency (m.description a.desc).id a.desc m name = some m' ∧
      (m'.description a.desc).id = (m.description a.desc).id ∧
      Inv used (fun _ ↦ True) (adds ++ [{ a with requiredTools := before ++ [name] }]) m' := by
  obtain ⟨depId, m', hid, h', hdep, hdesc⟩ := h.idForName hnames hname hfree
  have hself := current_concat_self adds { a with requiredTools := before }
  have hrow := h'.row _ hself trivial
  have hoffset : (m'.description a.desc).nextDependencyOffset = before.length + 1 := by
    simpa [dependencies] using congrArg List.length hrow
  rw [Manager.addDependency, hid, Option.bind_some, ← hdesc]
  dsimp only
  rw [if_pos (by omega)]
  refine ⟨_, rfl, by simp, h'.withDependencies (b := { a with requiredTools := before ++ [name] })
    rfl rfl (fun d ↦ ?_) fun b hb ↦ ?_⟩
  · by_cases hd : d = a.desc
    · rw [hd, update_self]
    · rw [update_of_ne hd]
  · obtain rfl | ⟨hb, hdesc', hname'⟩ := current_concat hb
    · dsimp only [dependencies] at hrow ⊢
      rw [update_self, update_self, List.range_succ, List.map_append, List.map_append]
      have hold : (List.range (m'.description a.desc).nextDependencyOffset).map
          (update (m'.gToolDependencies (m'.description a.desc).id)
            (m'.description a.desc).nextDependencyOffset depId) =
          (List.range (m'.description a.desc).nextDependencyOffset).map
            (m'.gToolDependencies (m'.description a.desc).id) := by
        apply List.map_congr_left
        intro k hk
        exact update_of_ne (List.mem_range.1 hk).ne ..
      rw [hold, hrow]
      simp [hdep]
    · have hcurrent : Current (adds ++ [{ a with requiredTools := before }]) b :=
        ⟨by rw [lastUnder_concat, if_neg (Ne.symm hname'), hb.under],
          by rw [lastOf_concat, if_neg (Ne.symm hdesc'), hb.of]⟩
      have hslot := h'.slot _ _ hcurrent.of
      have hslot' := h'.slot _ _ hself.of
      have hne : (m'.description b.desc).id ≠ (m'.description a.desc).id := by
        intro heq
        rw [heq, hslot'] at hslot
        exact hname' hslot.symm
      rw [← h'.row b hcurrent trivial]
      dsimp only [dependencies]
      rw [update_of_ne hdesc', update_of_ne hne]

theorem Inv.addDependencies {before names : List Name}
    (h : Inv used (fun _ ↦ True) (adds ++ [{ a with requiredTools := before }]) m)
    (hnames : Names used) (hmem : ∀ name ∈ names, name ∈ used) {id : ℕ}
    (hid : (m.description a.desc).id = id) (hfree : FreeAll id a.desc m names)
    (hroom : before.length + names.length < kMaxNumTools) :
    ∃ m', names.foldlM (Manager.addDependency id a.desc) m = some m' ∧
      Inv used (fun _ ↦ True) (adds ++ [{ a with requiredTools := before ++ names }]) m' := by
  induction names generalizing before m with
  | nil => exact ⟨m, rfl, by rwa [List.append_nil]⟩
  | cons name names ih =>
    obtain ⟨hname, hnames'⟩ := List.forall_mem_cons.1 hmem
    rw [List.length_cons] at hroom
    obtain ⟨m', hadd, hid', h'⟩ := h.addDependency hnames hname hfree.1 (by omega)
    rw [hid] at hadd hid'
    obtain ⟨m'', hfold, h''⟩ :=
      ih h' hnames' hid' (hfree.2 m' hadd) (by rw [List.length_append, List.length_singleton]; omega)
    refine ⟨m'', ?_, ?_⟩
    · rw [List.foldlM_cons, hadd]
      exact hfold
    · rwa [List.append_assoc, List.singleton_append] at h''

theorem Inv.addInstrumentationTool (h : Inv used (fun _ ↦ True) adds m) (hnames : Names used)
    (hmem : ∀ name ∈ a.name :: a.requiredTools, name ∈ used) (hclear : ClearAdd m a) :
    ∃ m', m.addInstrumentationTool a = some m' ∧ Inv used (fun _ ↦ True) (adds ++ [a]) m' := by
  obtain ⟨hname, hrequired⟩ := List.forall_mem_cons.1 hmem
  have hothers : Inv used (· ≠ a.desc) adds m :=
    { h with row := fun b hb _ ↦ h.row b hb trivial }
  obtain ⟨id, m', hid, h', hslot, -⟩ := hothers.idForName hnames hname hclear.name
  have hregister := h'.register hnames hname hslot
  obtain ⟨m'', hfold, h''⟩ := hregister.addDependencies hnames hrequired (by simp [Manager.register])
    (hclear.depends id m' hid) (by simpa using hclear.room)
  exact ⟨m'', by rw [Manager.addInstrumentationTool, hid]; exact hfold, h''⟩

theorem Inv.identities (h : Inv used (fun _ ↦ True) adds m) (hnames : Names used) :
    Identities adds m where
  unique a b ha hb hne heq := by
    have hslot := h.slot _ _ ha
    rw [heq, h.slot _ _ hb] at hslot
    exact hne hslot.symm
  found name hname := by
    rw [descForName, NameTable.descForName]
    cases hslot : m.slotOf name with
    | some i =>
      have hi := (h.slotOf_eq_some_iff hname).1 hslot
      rw [Option.bind_some, h.registered, hi]
    | none =>
      have hnone : lastUnder adds name = none := by
        rw [lastUnder_eq_none_iff]
        intro a ha heq
        obtain ⟨i, hi⟩ := h.named a ha
        exact (h.slotOf_eq_none_iff hname).1 hslot i (hi.trans heq)
      rw [hnone]
      rfl
  depends a ha := by
    have hrow : List.Forall₂ (fun name id ↦ name = m.gToolNames id) (a.name :: a.requiredTools)
        (m.dependencies a.desc) := by
      rw [← List.forall₂_map_right_iff, List.forall₂_eq_eq_eq]
      exact (h.row a ha trivial).symm
    refine hrow.imp fun name id hid ↦ ⟨hid.symm, ?_, fun b hb hname ↦ ?_⟩
    · rw [h.registered, hid]
    · have hslot := h.slot _ _ hb.of
      have hne := hnames.ne_nil _ (h.mem_used b (mem_of_lastOf hb.of).1)
      exact h.distinct _ _ (by rw [hslot, hname, hid]) (by rwa [hslot])

end Invariant

section Runs

def actionNames : Action δ → List Name
  | .addInstrumentationTool a => a.name :: a.requiredTools
  | .exitToolManager => []

theorem session_concat_add (actions : List (Action δ)) (a : Add δ) :
    session (actions ++ [.addInstrumentationTool a]) = session actions ++ [a] := by
  simp [session]

theorem session_concat_exit (actions : List (Action δ)) :
    session (actions ++ [.exitToolManager]) = [] := by
  simp [session]

variable [DecidableEq δ]

/-- At every moment of a run the identifiers are unique and denote the tools of the session, if no
new name of the run gets a slot that is in use. -/
theorem identities_of_clear (used : Finset Name) (description : δ → Description)
    (actions : List (Action δ)) (hnames : Names used)
    (hmem : ∀ action ∈ actions, ∀ name ∈ actionNames action, name ∈ used)
    (hclear : Along step (initial description) Clear actions) (past : List (Action δ))
    (hpast : past <+: actions) :
    ∃ m, run step (initial description) past = some m ∧ Identities (session past) m := by
  have hinv : ∃ m, run step (initial description) past = some m ∧
      Inv used (fun _ ↦ True) (session past) m := by
    apply exists_run (I := fun past m ↦ Inv used (fun _ ↦ True) (session past) m)
    · intro before action m hbefore hm hinv
      have hpre := hbefore.trans hpast
      have hclear' := hclear before action m hpre hm
      cases action with
      | addInstrumentationTool a =>
        have ha := hmem (.addInstrumentationTool a) (hpre.subset (by simp))
        obtain ⟨m', hadd, hinv'⟩ := hinv.addInstrumentationTool hnames ha hclear'
        exact ⟨m', hadd, by rwa [session_concat_add]⟩
      | exitToolManager =>
        exact ⟨m.exitToolManager, rfl, by rw [session_concat_exit]; exact hinv.exitToolManager⟩
    · exact inv_initial description
  obtain ⟨m, hrun, hinv⟩ := hinv
  exact ⟨m, hrun, hinv.identities hnames⟩

end Runs

def unregistered (_ : ℕ) : Description where
  id := 0
  nextDependencyOffset := 1
  isActive := false
  name := none
  allocationOffset := 0

def twoSessions : List (Action ℕ) :=
  [.addInstrumentationTool ⟨0, ['a'], []⟩, .exitToolManager,
    .addInstrumentationTool ⟨0, ['a'], []⟩]

theorem identities_of_clear_twoSessions :
    Names {['a']} ∧ Along step (initial unregistered) Clear twoSessions ∧
      ∃ m, run step (initial unregistered) twoSessions = some m ∧ m.descForName ['a'] = some 0 := by
  have hnames : Names {['a']} := by
    constructor
    · simp
    · simp [kMaxToolNameLength]
    · decide
  have hfirst : ClearAdd (initial unregistered) ⟨0, ['a'], []⟩ := by
    refine ⟨fun _ h ↦ ?_, fun _ _ _ ↦ trivial, by decide⟩
    obtain h | ⟨e, -, h, -⟩ := h <;> cases h
  have hone : Along step (initial unregistered) Clear (twoSessions.take 1) :=
    (along_concat (run_nil step _)).2 ⟨along_nil, hfirst⟩
  have htwo : Along step (initial unregistered) Clear (twoSessions.take 2) :=
    (along_concat (l := twoSessions.take 1) rfl).2 ⟨hone, trivial⟩
  have hclear : Along step (initial unregistered) Clear twoSessions :=
    (along_concat (l := twoSessions.take 2) rfl).2
      ⟨htwo, fun hnone ↦ absurd hnone (by decide), fun _ _ _ ↦ trivial, by decide⟩
  obtain ⟨m, hrun, h⟩ := identities_of_clear {['a']} unregistered twoSessions hnames
    (by decide) hclear twoSessions List.prefix_rfl
  exact ⟨hnames, hclear, m, hrun, h.found ['a'] (by decide)⟩

def staleName : List (Action ℕ) :=
  [.addInstrumentationTool ⟨0, ['a'], []⟩, .addInstrumentationTool ⟨1, ['b'], []⟩,
    .exitToolManager, .addInstrumentationTool ⟨1, ['b'], []⟩,
    .addInstrumentationTool ⟨2, ['x'], []⟩, .addInstrumentationTool ⟨3, ['y'], []⟩]

/-- The last tool gets the identifier of the one that was registered again. -/
theorem staleName_not_identities :
    ∃ m, run step (initial unregistered) staleName = some m ∧
      (m.description 1).id = 1 ∧ (m.description 3).id = 1 ∧ m.descForName ['b'] = none ∧
      ¬Identities (session staleName) m := by
  refine ⟨_, rfl, rfl, rfl, rfl, fun h ↦ ?_⟩
  exact h.unique ⟨1, ['b'], []⟩ ⟨3, ['y'], []⟩ rfl rfl (by decide) rfl

end Granary.Tool.Sessions
