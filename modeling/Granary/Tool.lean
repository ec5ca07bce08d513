import Granary.Base.DepthFirst
import Granary.Tool.Names

namespace Granary.Tool

open Function Relation Granary.Base.DepthFirst

def isSeparator (ch : Char) : Bool :=
  ch = ' ' ∨ ch = ','

theorem length_dropWhile_lt {str : List Char}
    (h : (str.dropWhile isSeparator).dropWhile (· ≠ ',') ≠ []) :
    ((str.dropWhile isSeparator).dropWhile (· ≠ ',')).length < str.length := by
  refine lt_of_lt_of_le ?_ (List.dropWhile_suffix isSeparator).length_le
  cases hs : str.dropWhile isSeparator with
  | nil => simp [hs] at h
  | cons ch rest =>
    have hch : isSeparator ch = false := by
      have := List.head?_dropWhile_not isSeparator str
      simpa [hs] using this
    have hne : ch ≠ ',' := by
      rintro rfl
      simp [isSeparator] at hch
    rw [List.dropWhile_cons_of_pos (by simpa using hne)]
    exact Nat.lt_succ_of_le (List.dropWhile_suffix _).length_le

/-- The leading spaces of each string and one trailing space go, and so do the characters for which
there is no room. -/
def forEachCommaSeparatedString (bufferLen : ℕ) (str : List Char) : List Name :=
  let token := (str.dropWhile isSeparator).takeWhile (· ≠ ',')
  let rest := (str.dropWhile isSeparator).dropWhile (· ≠ ',')
  let buff := token.take (bufferLen - 1)
  let buff := if buff.getLast? = some ' ' then buff.dropLast else buff
  let strings := if token = [] then [] else [buff]
  if _h : rest = [] then strings else strings ++ forEachCommaSeparatedString bufferLen rest
termination_by str.length
decreasing_by exact length_dropWhile_lt _h

structure Registration where
  name : Name
  requiredTools : List Name
  size : ℕ
  align : ℕ
  deriving DecidableEq, Repr

structure ToolDescription where
  size : ℕ
  align : ℕ
  deriving DecidableEq, Repr

/-- A row of `gToolDependencies` has as many entries as `next_dependency_offset` says. A tool that
is registered is known by its identifier. -/
structure Tools extends NameTable where
  gRegisteredTools : ℕ → Option ToolDescription
  gToolDependencies : ℕ → List ℕ
  gPrevRequestedTool : Option ℕ

namespace Tools

def empty : Tools where
  toNameTable := .empty
  gRegisteredTools := fun _ ↦ none
  gToolDependencies := fun _ ↦ []
  gPrevRequestedTool := none

def descForName (t : Tools) (name : Name) : Option ℕ :=
  t.toNameTable.descForName (fun id ↦ (t.gRegisteredTools id).map fun _ ↦ id) name

/-- A write past the end of a row is undefined. -/
def addDependency (id : ℕ) (t : Tools) (depName : Name) : Option Tools :=
  (t.idForName depName).bind fun (depId, names) ↦
    if (t.gToolDependencies id).length < kMaxNumTools then
      some { t with
        toNameTable := names
        gToolDependencies := update t.gToolDependencies id (t.gToolDependencies id ++ [depId]) }
    else none

def addInstrumentationTool (t : Tools) (r : Registration) : Option Tools :=
  (t.idForName r.name).bind fun (id, names) ↦
    r.requiredTools.foldlM (addDependency id)
      { t with
        toNameTable := names
        gRegisteredTools := update t.gRegisteredTools id (some ⟨r.size, r.align⟩)
        gToolDependencies := update t.gToolDependencies id [id] }

def requestTool (t : Tools) (name : Name) : Tools :=
  match t.descForName name with
  | none => t
  | some id =>
    { t with
      gToolDependencies :=
        match t.gPrevRequestedTool with
        | none => t.gToolDependencies
        | some prev => update t.gToolDependencies id ((t.gToolDependencies id).set 0 prev)
      gPrevRequestedTool := some id }

/-- `builtin` is the tool that is always requested, `kernel` or `user`. -/
def requestTools (t : Tools) (builtin : Name) (flagTools : Option (List Char)) : Tools :=
  let t := t.requestTool builtin
  match flagTools with
  | none => t
  | some tools => (forEachCommaSeparatedString kMaxToolNameLength tools).foldl requestTool t

end Tools

structure Activation where
  isActive : ℕ → Bool
  gActiveTools : List ℕ
  allocationOffset : ℕ → ℕ
  gAllocationSize : ℕ
  gAllocationAlign : ℕ

namespace Activation

def empty : Activation where
  isActive := fun _ ↦ false
  gActiveTools := []
  allocationOffset := fun _ ↦ 0
  gAllocationSize := 0
  gAllocationAlign := 0

def alignFactor (x align : ℕ) : ℕ :=
  if x % align ≠ 0 then align - x % align else 0

def allocate (s : Activation) (id : ℕ) (desc : ToolDescription) : Activation :=
  let offset := (s.gAllocationSize + alignFactor s.gAllocationSize desc.align) % 2 ^ 64
  { s with
    allocationOffset := update s.allocationOffset id offset
    gAllocationSize := (offset + desc.size) % 2 ^ 64
    gAllocationAlign := max desc.align s.gAllocationAlign
    gActiveTools := s.gActiveTools ++ [id] }

end Activation

/-- Each call marks one more tool, so that the calls are never nested deeper than there are
identifiers. -/
def activateTool (t : Tools) : ℕ → ℕ → Activation → Option Activation
  | 0, _, _ => none
  | n + 1, id, s =>
    if s.isActive id then some s
    else
      ((t.gToolDependencies id).foldlM
        (fun s dep ↦
          if (t.gRegisteredTools dep).isSome then activateTool t n dep s else some s)
        { s with isActive := update s.isActive id true }).map
        fun s ↦ s.allocate id ((t.gRegisteredTools id).getD ⟨0, 1⟩)

/-- With no tool requested, `ActivateTool` follows a null pointer. -/
def initToolManager (t : Tools) (builtin : Name) (flagTools : Option (List Char)) :
    Option Activation :=
  let t := t.requestTools builtin flagTools
  match t.gPrevRequestedTool with
  | none => none
  | some id => activateTool t (kMaxNumTools + 1) id .empty

def activeTools (t : Tools) (s : Activation) : List Name :=
  s.gActiveTools.map t.gToolNames

/-- The tables when all tools are registered, if there is room for them. -/
def toolsAfter (regs : List Registration) : Option Tools :=
  regs.foldlM Tools.addInstrumentationTool .empty

/-- The names of the tools that are active when those are registered and then these requested. -/
def activeAfter (regs : List Registration) (builtin : Name) (flagTools : Option (List Char)) :
    Option (List Name) := do
  let t ← toolsAfter regs
  let s ← initToolManager t builtin flagTools
  return activeTools t s

/-- A name that fits the buffer, with no comma and no space around it. -/
structure ValidName (n : Name) : Prop where
  length_lt : n.length < kMaxToolNameLength
  no_comma : ',' ∉ n
  head_ne : ∃ ch rest, n = ch :: rest ∧ ch ≠ ' '
  last_ne : n.getLast? ≠ some ' '

theorem ValidName.ne_nil {n : Name} (hn : ValidName n) : n ≠ [] := by
  obtain ⟨ch, rest, rfl, -⟩ := hn.head_ne
  simp

theorem dropWhile_isSeparator_of_valid {n : Name} (hn : ValidName n) (str : List Char) :
    (n ++ str).dropWhile isSeparator = n ++ str := by
  obtain ⟨ch, rest, rfl, hch⟩ := hn.head_ne
  have hcomma : ch ≠ ',' := fun h ↦ hn.no_comma (by simp [h])
  rw [List.cons_append, List.dropWhile_cons_of_neg (by simp [isSeparator, hch, hcomma])]

theorem forEachCommaSeparatedString_comma (len : ℕ) (str : List Char) :
    forEachCommaSeparatedString len (',' :: str) = forEachCommaSeparatedString len str := by
  have hcomma := forEachCommaSeparatedString.eq_1 len (',' :: str)
  rw [List.dropWhile_cons_of_pos (by simp [isSeparator])] at hcomma
  exact hcomma.trans (forEachCommaSeparatedString.eq_1 len str).symm

theorem forEachCommaSeparatedString_name {n : Name} (hn : ValidName n) :
    forEachCommaSeparatedString kMaxToolNameLength n = [n] := by
  have hne := hn.ne_nil
  have hdrop := dropWhile_isSeparator_of_valid hn []
  rw [List.append_nil] at hdrop
  have hall : ∀ ch ∈ n, (decide (ch ≠ ',')) = true :=
    fun ch hch ↦ decide_eq_true fun h ↦ hn.no_comma (h ▸ hch)
  have htake : n.takeWhile (· ≠ ',') = n := by
    have happ : (n ++ []).takeWhile (· ≠ ',') = n ++ [].takeWhile (· ≠ ',') :=
      List.takeWhile_append_of_pos hall
    simpa using happ
  have hrest : n.dropWhile (· ≠ ',') = [] := by
    have happ : (n ++ []).dropWhile (· ≠ ',') = [].dropWhile (· ≠ ',') :=
      List.dropWhile_append_of_pos hall
    simpa using happ
  have hfit : n.take (kMaxToolNameLength - 1) = n :=
    List.take_of_length_le (Nat.le_sub_one_of_lt hn.length_lt)
  rw [forEachCommaSeparatedString]
  simp only [hdrop, htake, hrest, hfit, hn.last_ne, hne, if_false, dite_true]

theorem forEachCommaSeparatedString_cons {n : Name} (hn : ValidName n) (str : List Char) :
    forEachCommaSeparatedString kMaxToolNameLength (n ++ ',' :: str) =
      n :: forEachCommaSeparatedString kMaxToolNameLength str := by
  have hne := hn.ne_nil
  have hdrop := dropWhile_isSeparator_of_valid hn (',' :: str)
  have hall : ∀ ch ∈ n, (decide (ch ≠ ',')) = true :=
    fun ch hch ↦ decide_eq_true fun h ↦ hn.no_comma (h ▸ hch)
  have htake : (n ++ ',' :: str).takeWhile (· ≠ ',') = n := by
    rw [List.takeWhile_append_of_pos hall]
    simp
  have hrest : (n ++ ',' :: str).dropWhile (· ≠ ',') = ',' :: str := by
    rw [List.dropWhile_append_of_pos hall]
    simp
  have hfit : n.take (kMaxToolNameLength - 1) = n :=
    List.take_of_length_le (Nat.le_sub_one_of_lt hn.length_lt)
  rw [forEachCommaSeparatedString]
  simp only [hdrop, htake, hrest, hfit, hn.last_ne, hne, if_false, reduceCtorEq, dite_false,
    forEachCommaSeparatedString_comma, List.singleton_append]

def commaSeparated (names : List Name) : List Char :=
  [','].intercalate names

theorem forEachCommaSeparatedString_commaSeparated {names : List Name}
    (h : ∀ n ∈ names, ValidName n) :
    forEachCommaSeparatedString kMaxToolNameLength (commaSeparated names) = names := by
  induction names with
  | nil =>
    rw [forEachCommaSeparatedString]
    simp [commaSeparated]
  | cons n names ih =>
    have hn := h n List.mem_cons_self
    have ih := ih fun m hm ↦ h m (List.mem_cons_of_mem n hm)
    cases names with
    | nil => simpa [commaSeparated] using forEachCommaSeparatedString_name hn
    | cons m names =>
      have hsplit : commaSeparated (n :: m :: names) = n ++ ',' :: commaSeparated (m :: names) := by
        simp [commaSeparated, List.intercalate]
      rw [hsplit, forEachCommaSeparatedString_cons hn, ih]

section Register

def usedNames (regs : List Registration) : List Name :=
  regs.flatMap fun r ↦ r.name :: r.requiredTools

/-- The tables have room for the names and for the requirements of each tool. -/
structure Fits (regs : List Registration) : Prop where
  names : (usedNames regs).toFinset.card ≤ kMaxNumTools
  row {r : Registration} : r ∈ regs → r.requiredTools.length < kMaxNumTools

/-- What the tables hold of the tools registered so far. -/
structure Represents (regs : List Registration) (known : List Name) (t : Tools) : Prop where
  table : NameTable.Holds known t.toNameTable
  mem_known {n : Name} : n ∈ usedNames regs → n ∈ known
  registered_iff {n : Name} : n ∈ known →
    ((t.gRegisteredTools (known.idxOf n)).isSome ↔ n ∈ regs.map (·.name))
  lt_length {i : ℕ} : (t.gRegisteredTools i).isSome → i < known.length
  row {r : Registration} : r ∈ regs → t.gToolDependencies (known.idxOf r.name) =
    (r.name :: r.requiredTools).map known.idxOf
  prev : t.gPrevRequestedTool = none

theorem represents_empty : Represents [] [] .empty := by
  refine ⟨NameTable.holds_empty, ?_, ?_, ?_, ?_, rfl⟩ <;> simp [Tools.empty, usedNames]

/-- The tables hold the tools, and no names but theirs, or else there was no room. -/
def Outcome (regs : List Registration) : Option Tools → Prop
  | none => ¬Fits regs
  | some t => Fits regs ∧ ∃ known, Represents regs known t ∧ ∀ n ∈ known, n ∈ usedNames regs

variable {regs : List Registration} {known : List Name} {t : Tools} {n : Name}

theorem mem_usedNames : n ∈ usedNames regs ↔ ∃ r ∈ regs, n = r.name ∨ n ∈ r.requiredTools := by
  simp [usedNames]

theorem usedNames_append (regs regs' : List Registration) :
    usedNames (regs ++ regs') = usedNames regs ++ usedNames regs' :=
  List.flatMap_append

theorem Fits.of_append {regs' : List Registration} (h : Fits (regs ++ regs')) : Fits regs := by
  refine ⟨le_trans (Finset.card_le_card ?_) h.names, fun hr ↦ h.row (List.mem_append_left _ hr)⟩
  intro n hn
  rw [usedNames_append, List.mem_toFinset]
  exact List.mem_append_left _ (List.mem_toFinset.mp hn)

theorem card_usedNames (hnd : known.Nodup) (h : ∀ n, n ∈ usedNames regs ↔ n ∈ known) :
    (usedNames regs).toFinset.card = known.length := by
  have heq : (usedNames regs).toFinset = known.toFinset := by
    ext n
    rw [List.mem_toFinset, List.mem_toFinset, h]
  rw [heq, List.toFinset_card_of_nodup hnd]

theorem not_fits (hnd : known.Nodup) (hsub : ∀ m ∈ known, m ∈ usedNames regs)
    (hn : n ∈ usedNames regs) (hnot : n ∉ known) (hle : kMaxNumTools ≤ known.length) :
    ¬Fits regs := by
  intro h
  have hcard : (n :: known).toFinset.card ≤ (usedNames regs).toFinset.card := by
    refine Finset.card_le_card fun m hm ↦ ?_
    obtain rfl | hm := List.mem_cons.mp (List.mem_toFinset.mp hm)
    · exact List.mem_toFinset.mpr hn
    · exact List.mem_toFinset.mpr (hsub m hm)
  rw [List.toFinset_card_of_nodup (List.nodup_cons.mpr ⟨hnot, hnd⟩), List.length_cons] at hcard
  have hnames := h.names
  omega

theorem Represents.mem_name (h : Represents regs known t) {r : Registration} (hr : r ∈ regs) :
    r.name ∈ known :=
  h.mem_known (mem_usedNames.mpr ⟨r, hr, Or.inl rfl⟩)

theorem Represents.mem_required (h : Represents regs known t) {r : Registration} {d : Name}
    (hr : r ∈ regs) (hd : d ∈ r.requiredTools) : d ∈ known :=
  h.mem_known (mem_usedNames.mpr ⟨r, hr, Or.inr hd⟩)

theorem idxOf_of_append {known' : List Name} (hpre : known <+: known') (hn : n ∈ known) :
    known'.idxOf n = known.idxOf n := by
  obtain ⟨names, rfl⟩ := hpre
  exact List.idxOf_append_of_mem hn

theorem Represents.idForName (h : Represents regs known t) (hn : ValidName n) :
    (n ∉ known ∧ kMaxNumTools ≤ known.length ∧ t.idForName n = none) ∨
      ∃ known' names, t.idForName n = some (known'.idxOf n, names) ∧ known <+: known' ∧
        (∀ m, m ∈ known' ↔ m ∈ known ∨ m = n) ∧
        Represents regs known' { t with toNameTable := names } := by
  by_cases hmem : n ∈ known
  · refine Or.inr ⟨known, t.toNameTable, h.table.idForName_of_mem hmem, List.prefix_rfl,
      fun m ↦ ?_, h⟩
    constructor
    · exact Or.inl
    · rintro (hm | rfl)
      · exact hm
      · exact hmem
  · obtain ⟨hle, hnone⟩ | ⟨-, names, hsome, hholds⟩ :=
      h.table.idForName_of_notMem hn.ne_nil hn.length_lt hmem
    · exact Or.inl ⟨hmem, hle, hnone⟩
    have hpre : known <+: known ++ [n] := List.prefix_append known [n]
    have hlen : (known ++ [n]).idxOf n = known.length := by
      rw [List.idxOf_append_of_notMem hmem]
      simp
    refine Or.inr ⟨known ++ [n], names, by rw [hsome, hlen], hpre, by simp,
      ⟨hholds, ?_, ?_, ?_, ?_, h.prev⟩⟩
    · exact fun hm ↦ List.mem_append_left [n] (h.mem_known hm)
    · intro m hm
      by_cases hm' : m ∈ known
      · rw [idxOf_of_append hpre hm']
        exact h.registered_iff hm'
      · obtain rfl : m = n := by simpa [hm'] using hm
        rw [hlen]
        refine iff_of_false (fun hs ↦ (h.lt_length hs).false) fun hr ↦ hm' ?_
        obtain ⟨r, hmem', rfl⟩ := List.mem_map.mp hr
        exact h.mem_name hmem'
    · intro i hi
      have := h.lt_length hi
      simp only [List.length_append, List.length_singleton]
      omega
    · intro r hr
      rw [idxOf_of_append hpre (h.mem_name hr)]
      refine (h.row hr).trans (List.map_congr_left fun d hd ↦ (idxOf_of_append hpre ?_).symm)
      obtain rfl | hd := List.mem_cons.mp hd
      · exact h.mem_name hr
      · exact h.mem_required hr hd

theorem Represents.addDependency {r : Registration} {d : Name} (ds : List Name)
    (h : Represents (regs ++ [r]) known t)
    (hsub : ∀ n ∈ known, n ∈ usedNames (regs ++ [r])) (hfresh : r.name ∉ regs.map (·.name))
    (hd : ValidName d) :
    (t.addDependency (known.idxOf r.name) d = none ∧
        ¬Fits (regs ++ [{ r with requiredTools := r.requiredTools ++ d :: ds }])) ∨
      ∃ t' known', t.addDependency (known.idxOf r.name) d = some t' ∧ known <+: known' ∧
        r.requiredTools.length + 1 < kMaxNumTools ∧
        (∀ n ∈ known', n ∈ known ∨ n = d) ∧
        Represents (regs ++ [{ r with requiredTools := r.requiredTools ++ [d] }]) known' t' := by
  have hlength : (t.gToolDependencies (known.idxOf r.name)).length = r.requiredTools.length + 1 := by
    rw [h.row (r := r) (by simp)]
    simp
  have hr : r.name ∈ known := h.mem_name (r := r) (by simp)
  obtain ⟨hnot, hle, hnone⟩ | ⟨known', names, hsome, hpre, hmem, h'⟩ := h.idForName hd
  · refine Or.inl ⟨by rw [Tools.addDependency, hnone]; rfl, ?_⟩
    refine not_fits h.table.nodup (fun n hn ↦ ?_) ?_ hnot hle
    · have hn := hsub n hn
      rw [usedNames_append, List.mem_append] at hn ⊢
      refine hn.imp_right fun hn ↦ ?_
      simp only [usedNames, List.flatMap_cons, List.flatMap_nil, List.append_nil] at hn ⊢
      rw [← List.cons_append]
      exact List.mem_append_left _ hn
    · exact mem_usedNames.mpr ⟨_, List.mem_append_right _ (List.mem_singleton_self _), by simp⟩
  rw [Tools.addDependency, hsome, Option.bind_some]
  by_cases hroom : r.requiredTools.length + 1 < kMaxNumTools
  · rw [← idxOf_of_append hpre hr] at hlength ⊢
    refine Or.inr ⟨_, known', if_pos (hlength ▸ hroom), hpre, hroom, fun n ↦ (hmem n).mp,
      h'.table, fun {n} hn ↦ ?_, fun hn ↦ ?_, h'.lt_length, fun {q} hq ↦ ?_, h'.prev⟩
    · rw [usedNames_append] at hn
      rw [hmem]
      obtain hn | hn := List.mem_append.mp hn
      · exact Or.inl (h.mem_known (by rw [usedNames_append]; exact List.mem_append_left _ hn))
      · simp only [usedNames, List.flatMap_cons, List.flatMap_nil, List.append_nil,
          ← List.cons_append, List.mem_append, List.mem_singleton] at hn
        refine hn.imp_left fun hn ↦ h.mem_known ?_
        rw [usedNames_append]
        exact List.mem_append_right _ (by simpa [usedNames] using hn)
    · simpa using h'.registered_iff hn
    · obtain hq | rfl := by simpa using hq
      · have hne : known'.idxOf q.name ≠ known'.idxOf r.name := by
          intro heq
          have hqm := h'.mem_name (List.mem_append_left [r] hq)
          exact hfresh (List.mem_map.mpr ⟨q, hq, (List.idxOf_inj hqm).mp heq⟩)
        dsimp only
        rw [update_of_ne hne]
        exact h'.row (List.mem_append_left [r] hq)
      · dsimp only
        rw [update_self, h'.row (r := r) (by simp)]
        simp
  · refine Or.inl ⟨if_neg (hlength ▸ hroom), fun hfits ↦ hroom ?_⟩
    have hrow := hfits.row (List.mem_append_right regs (List.mem_singleton_self _))
    simp only [List.length_append, List.length_cons] at hrow
    omega

theorem Represents.addDependencies {r : Registration} {before : List Name} (ds : List Name)
    (h : Represents (regs ++ [{ r with requiredTools := before }]) known t)
    (hsub : ∀ n ∈ known, n ∈ usedNames (regs ++ [{ r with requiredTools := before }]))
    (hregs : Fits regs) (hbefore : before.length < kMaxNumTools)
    (hfresh : r.name ∉ regs.map (·.name)) (hds : ∀ d ∈ ds, ValidName d) :
    Outcome (regs ++ [{ r with requiredTools := before ++ ds }])
      (ds.foldlM (Tools.addDependency (known.idxOf r.name)) t) := by
  induction ds generalizing before known t with
  | nil =>
    rw [List.append_nil]
    refine ⟨⟨?_, fun {q} hq ↦ ?_⟩, known, h, hsub⟩
    · rw [card_usedNames h.table.nodup fun n ↦ ⟨h.mem_known, hsub n⟩]
      exact h.table.le_max
    · obtain hq | hq := List.mem_append.mp hq
      · exact hregs.row hq
      · rw [List.mem_singleton.mp hq]
        exact hbefore
  | cons d ds ih =>
    have hr : r.name ∈ known := h.mem_name (r := { r with requiredTools := before }) (by simp)
    rw [List.foldlM_cons]
    obtain ⟨hnone, hfits⟩ | ⟨t', known', hsome, hpre, hroom, hmem, h'⟩ :=
      h.addDependency ds hsub hfresh (hds d List.mem_cons_self)
    · have hnone : t.addDependency (known.idxOf r.name) d = none := hnone
      rw [hnone]
      exact hfits
    · have hsome : t.addDependency (known.idxOf r.name) d = some t' := hsome
      rw [hsome, ← idxOf_of_append hpre hr]
      have hsub' : ∀ n ∈ known', n ∈ usedNames
          (regs ++ [{ r with requiredTools := before ++ [d] }]) := by
        intro n hn
        obtain hn | rfl := hmem n hn
        · have hn := hsub n hn
          rw [usedNames_append, List.mem_append] at hn ⊢
          refine hn.imp_right fun hn ↦ ?_
          simp only [usedNames, List.flatMap_cons, List.flatMap_nil, List.append_nil] at hn ⊢
          rw [← List.cons_append]
          exact List.mem_append_left _ hn
        · exact mem_usedNames.mpr ⟨_, List.mem_append_right _ (List.mem_singleton_self _), by simp⟩
      have ih := ih h' hsub' (by simpa using hroom) fun e he ↦ hds e (List.mem_cons_of_mem d he)
      rw [List.append_assoc, List.singleton_append] at ih
      exact ih

theorem Represents.addInstrumentationTool {r : Registration} (h : Represents regs known t)
    (hsub : ∀ n ∈ known, n ∈ usedNames regs) (hregs : Fits regs)
    (hfresh : r.name ∉ regs.map (·.name)) (hn : ValidName r.name)
    (hd : ∀ d ∈ r.requiredTools, ValidName d) :
    Outcome (regs ++ [r]) (t.addInstrumentationTool r) := by
  have hname : r.name ∈ usedNames (regs ++ [r]) :=
    mem_usedNames.mpr ⟨r, List.mem_append_right _ (List.mem_singleton_self r), Or.inl rfl⟩
  obtain ⟨hnot, hle, hnone⟩ | ⟨known', names, hsome, hpre, hmem, h'⟩ := h.idForName hn
  · rw [Tools.addInstrumentationTool, hnone]
    refine not_fits h.table.nodup (fun n hn ↦ ?_) hname hnot hle
    rw [usedNames_append]
    exact List.mem_append_left _ (hsub n hn)
  rw [Tools.addInstrumentationTool, hsome, Option.bind_some]
  have hr : r.name ∈ known' := (hmem _).mpr (Or.inr rfl)
  have hother {q : Registration} (hq : q ∈ regs) : known'.idxOf q.name ≠ known'.idxOf r.name := by
    intro heq
    exact hfresh (List.mem_map.mpr ⟨q, hq, (List.idxOf_inj (h'.mem_name hq)).mp heq⟩)
  have hstart : Represents (regs ++ [{ r with requiredTools := [] }]) known'
      { t with
        toNameTable := names
        gRegisteredTools := update t.gRegisteredTools (known'.idxOf r.name) (some ⟨r.size, r.align⟩)
        gToolDependencies :=
          update t.gToolDependencies (known'.idxOf r.name) [known'.idxOf r.name] } := by
    refine ⟨h'.table, fun {m} hm ↦ ?_, fun {m} hm ↦ ?_, fun {i} hi ↦ ?_, fun {q} hq ↦ ?_, h'.prev⟩
    · rw [usedNames_append] at hm
      obtain hm | hm := List.mem_append.mp hm
      · exact h'.mem_known hm
      · obtain rfl : m = r.name := by simpa [usedNames] using hm
        exact hr
    · by_cases hmr : m = r.name
      · subst hmr
        simp
      · have hne : known'.idxOf m ≠ known'.idxOf r.name :=
          fun heq ↦ hmr ((List.idxOf_inj hm).mp heq)
        have hiff := h'.registered_iff hm
        simp only [update_of_ne hne, List.map_append, List.mem_append]
        rw [hiff]
        simp [hmr]
    · by_cases hir : i = known'.idxOf r.name
      · exact hir ▸ List.idxOf_lt_length_of_mem hr
      · simp only [update_of_ne hir] at hi
        exact h'.lt_length hi
    · obtain hq | rfl := by simpa using hq
      · simp only [update_of_ne (hother hq)]
        exact h'.row hq
      · simp
  have hsub' : ∀ n ∈ known', n ∈ usedNames (regs ++ [{ r with requiredTools := [] }]) := by
    intro n hn
    rw [usedNames_append, List.mem_append]
    obtain hn | rfl := (hmem n).mp hn
    · exact Or.inl (hsub n hn)
    · exact Or.inr (by simp [usedNames])
  have hkMax : ([] : List Name).length < kMaxNumTools := by decide
  exact hstart.addDependencies r.requiredTools hsub' hregs hkMax hfresh hd

structure ValidRegistrations (regs : List Registration) : Prop where
  nodup : (regs.map (·.name)).Nodup
  name {r : Registration} : r ∈ regs → ValidName r.name
  required {r : Registration} {d : Name} : r ∈ regs → d ∈ r.requiredTools → ValidName d

theorem outcome_toolsAfter (h : ValidRegistrations regs) : Outcome regs (toolsAfter regs) := by
  induction regs using List.reverseRecOn with
  | nil =>
    exact ⟨⟨by simp [usedNames], by simp⟩, [], represents_empty, by simp⟩
  | append_singleton regs r ih =>
    have hnd := h.nodup
    rw [List.map_append, List.nodup_append] at hnd
    have hregs : ValidRegistrations regs :=
      ⟨hnd.1, fun hr ↦ h.name (List.mem_append_left [r] hr),
        fun hr ↦ h.required (List.mem_append_left [r] hr)⟩
    have ih := ih hregs
    have hstep : toolsAfter (regs ++ [r]) = (toolsAfter regs).bind (·.addInstrumentationTool r) := by
      rw [toolsAfter, List.foldlM_append]
      simp only [List.foldlM_cons, List.foldlM_nil, Option.bind_eq_bind, bind_pure]
      rfl
    rw [hstep]
    cases htools : toolsAfter regs with
    | none =>
      rw [htools] at ih
      exact fun hfits ↦ ih hfits.of_append
    | some t =>
      rw [htools] at ih
      obtain ⟨hfits, known, hrep, hsub⟩ := ih
      have hfresh : r.name ∉ regs.map (·.name) := fun hmem ↦
        hnd.2.2 _ hmem r.name (by simp) rfl
      exact hrep.addInstrumentationTool hsub hfits hfresh (h.name (by simp))
        fun d ↦ h.required (by simp)

theorem toolsAfter_cases (h : ValidRegistrations regs) :
    (¬Fits regs ∧ toolsAfter regs = none) ∨
      Fits regs ∧ ∃ t known, toolsAfter regs = some t ∧ Represents regs known t := by
  have hout := outcome_toolsAfter h
  cases htools : toolsAfter regs with
  | none =>
    rw [htools] at hout
    exact Or.inl ⟨hout, rfl⟩
  | some t =>
    rw [htools] at hout
    obtain ⟨hfits, known, hrep, -⟩ := hout
    exact Or.inr ⟨hfits, t, known, rfl, hrep⟩

end Register

/-- The tool requested just before the last request of `n`, or `n` itself if there is none. -/
def pred : List Name → Name → Name
  | a :: b :: asked, n => if n = b ∧ n ∉ asked then a else pred (b :: asked) n
  | _, n => n

section Request

variable {asked : List Name} {n m : Name}

theorem pred_concat {a : Name} (h : asked.getLast? = some a) :
    pred (asked ++ [n]) m = if m = n then a else pred asked m := by
  induction asked with
  | nil => simp at h
  | cons b asked ih =>
    cases asked with
    | nil =>
      obtain rfl : b = a := by simpa using h
      simp [pred]
    | cons c asked =>
      have ih := ih (by simpa using h)
      simp only [List.cons_append, pred] at ih ⊢
      rw [ih]
      by_cases hmn : m = n
      · simp [hmn]
      · simp [hmn]

theorem pred_of_notMem_tail (h : n ∉ asked.tail) : pred asked n = n := by
  induction asked with
  | nil => rfl
  | cons a asked ih =>
    cases asked with
    | nil => rfl
    | cons b asked =>
      have hnb : n ≠ b := fun hb ↦ h (by simp [hb])
      rw [pred, if_neg fun hc ↦ hnb hc.1]
      exact ih fun hmem ↦ h (List.mem_cons_of_mem b hmem)

theorem pred_getElem (hnd : asked.Nodup) {i : ℕ} (hi : i + 1 < asked.length) :
    pred asked asked[i + 1] = asked[i] := by
  induction asked generalizing i with
  | nil => simp at hi
  | cons a asked ih =>
    cases asked with
    | nil => simp at hi
    | cons b asked =>
      have hnd' := (List.nodup_cons.mp hnd).2
      cases i with
      | zero =>
        have hb : b ∉ asked := (List.nodup_cons.mp hnd').1
        simp [pred, hb]
      | succ i =>
        have hi' : i + 1 < (b :: asked).length := by simpa using hi
        have hne : (b :: asked)[i + 1] ≠ b := by
          intro heq
          have h0 : (b :: asked)[i + 1] = (b :: asked)[0] := heq
          have := (List.Nodup.getElem_inj_iff hnd').mp h0
          omega
        change pred (a :: b :: asked) (b :: asked)[i + 1] = (b :: asked)[i]
        rw [pred, if_neg fun hc ↦ hne hc.1]
        exact ih hnd' hi'

theorem pred_eq_or_mem (asked : List Name) (n : Name) :
    pred asked n = n ∨ n ∈ asked ∧ pred asked n ∈ asked := by
  induction asked with
  | nil => exact Or.inl rfl
  | cons a asked ih =>
    cases asked with
    | nil => exact Or.inl rfl
    | cons b asked =>
      rw [pred]
      split_ifs with hb
      · exact Or.inr (by simp [hb.1])
      · obtain heq | ⟨hn, hp⟩ := ih
        · exact Or.inl heq
        · exact Or.inr ⟨List.mem_cons_of_mem a hn, List.mem_cons_of_mem a hp⟩

/-- What the tables hold once the tools of `asked` are requested. -/
structure Requests (regs : List Registration) (known : List Name) (t₀ : Tools) (asked : List Name)
    (t : Tools) : Prop where
  names : t.toNameTable = t₀.toNameTable
  registered : t.gRegisteredTools = t₀.gRegisteredTools
  prev : t.gPrevRequestedTool = asked.getLast?.map known.idxOf
  row {r : Registration} : r ∈ regs → t.gToolDependencies (known.idxOf r.name) =
    (pred asked r.name :: r.requiredTools).map known.idxOf

variable {regs : List Registration} {known : List Name} {t₀ t : Tools}

def isRegistered (regs : List Registration) (n : Name) : Bool :=
  n ∈ regs.map (·.name)

theorem isRegistered_iff : isRegistered regs n ↔ ∃ r ∈ regs, r.name = n := by
  simp [isRegistered]

theorem Represents.mem_of_isRegistered (h₀ : Represents regs known t₀) (hn : isRegistered regs n) :
    n ∈ known := by
  obtain ⟨r, hr, rfl⟩ := isRegistered_iff.mp hn
  exact h₀.mem_name hr

theorem Represents.requests (h : Represents regs known t) : Requests regs known t [] t :=
  ⟨rfl, rfl, h.prev, h.row⟩

theorem Represents.descForName (h : Represents regs known t) (n : Name) :
    t.descForName n = if isRegistered regs n then some (known.idxOf n) else none := by
  by_cases hn : n = []
  · subst hn
    have hreg : ¬isRegistered regs [] := fun hreg ↦ h.table.ne_nil (h.mem_of_isRegistered hreg)
    rw [if_neg hreg, Tools.descForName, NameTable.descForName]
    cases hslot : t.slotOf [] with
    | none => rfl
    | some i =>
      have hlen := h.table.length_le_of_slotOf_nil hslot
      have hnone : t.gRegisteredTools i = none := by
        rw [← Option.not_isSome_iff_eq_none]
        exact fun hsome ↦ hlen.not_gt (h.lt_length hsome)
      rw [Option.bind_some, hnone]
      rfl
  rw [Tools.descForName, h.table.descForName hn]
  by_cases hmem : n ∈ known
  · rw [if_pos hmem]
    have hiff := h.registered_iff hmem
    cases hreg : t.gRegisteredTools (known.idxOf n) with
    | none =>
      have hnot : ¬isRegistered regs n := by simpa [hreg, isRegistered] using hiff
      rw [if_neg hnot]
      rfl
    | some desc =>
      have hreg : isRegistered regs n := by simpa [hreg, isRegistered] using hiff
      rw [if_pos hreg]
      rfl
  · rw [if_neg hmem, if_neg fun hreg ↦ hmem (h.mem_of_isRegistered hreg)]

theorem Requests.descForName (h₀ : Represents regs known t₀) (h : Requests regs known t₀ asked t)
    (n : Name) :
    t.descForName n = if isRegistered regs n then some (known.idxOf n) else none := by
  rw [← h₀.descForName n, Tools.descForName, Tools.descForName, h.names, h.registered]

theorem Requests.requestTool (h₀ : Represents regs known t₀) (h : Requests regs known t₀ asked t)
    (hreg : isRegistered regs n) :
    Requests regs known t₀ (asked ++ [n]) (t.requestTool n) := by
  rw [Tools.requestTool, h.descForName h₀ n, if_pos hreg]
  refine ⟨h.names, h.registered, by simp, fun {r} hr ↦ ?_⟩
  simp only
  cases hlast : asked.getLast? with
  | none =>
    obtain rfl := List.getLast?_eq_none_iff.mp hlast
    rw [h.prev]
    exact h.row hr
  | some a =>
    rw [h.prev, hlast, pred_concat hlast]
    simp only [Option.map_some]
    by_cases hrn : r.name = n
    · subst hrn
      rw [update_self, if_pos rfl, h.row hr]
      simp
    · have hne : known.idxOf r.name ≠ known.idxOf n :=
        fun heq ↦ hrn ((List.idxOf_inj (h₀.mem_name hr)).mp heq)
      rw [update_of_ne hne, if_neg hrn, h.row hr]

theorem Requests.requestTool_of_not_registered (h₀ : Represents regs known t₀)
    (h : Requests regs known t₀ asked t) (hreg : ¬isRegistered regs n) :
    t.requestTool n = t := by
  rw [Tools.requestTool, h.descForName h₀ n, if_neg hreg]

theorem Requests.foldl_requestTool (h₀ : Represents regs known t₀) (requested : List Name) :
    Requests regs known t₀ (requested.filter (isRegistered regs))
      (requested.foldl Tools.requestTool t₀) := by
  induction requested using List.reverseRecOn with
  | nil => exact h₀.requests
  | append_singleton requested n ih =>
    rw [List.filter_append, List.foldl_append, List.foldl_cons, List.foldl_nil]
    by_cases hreg : isRegistered regs n
    · rw [List.filter_cons_of_pos hreg, List.filter_nil]
      exact ih.requestTool h₀ hreg
    · rw [List.filter_cons_of_neg hreg, List.filter_nil, List.append_nil,
        ih.requestTool_of_not_registered h₀ hreg]
      exact ih

end Request

section Activate

def Activation.marks (s : Activation) : Marks ℕ :=
  ⟨s.isActive, s.gActiveTools⟩

/-- Dependencies that are not registered are passed by. -/
def successors (t : Tools) (id : ℕ) : List ℕ :=
  (t.gToolDependencies id).filter fun dep ↦ (t.gRegisteredTools dep).isSome

theorem foldlM_filter {σ β : Type*} (p : β → Bool) (f : σ → β → Option σ) (l : List β) (s : σ) :
    l.foldlM (fun s b ↦ if p b then f s b else some s) s = (l.filter p).foldlM f s := by
  induction l generalizing s with
  | nil => rfl
  | cons b l ih =>
    rw [List.foldlM_cons]
    by_cases hp : p b
    · rw [if_pos hp, List.filter_cons_of_pos hp, List.foldlM_cons]
      congr 1
      funext s
      exact ih s
    · rw [if_neg hp, List.filter_cons_of_neg hp]
      exact ih s

theorem marks_activateTool (t : Tools) (n id : ℕ) (s : Activation) :
    (activateTool t n id s).map Activation.marks = visit (successors t) n id s.marks := by
  induction n generalizing id s with
  | zero => rfl
  | succ n ih =>
    rw [activateTool, visit, foldlM_filter (fun dep ↦ (t.gRegisteredTools dep).isSome)
      (fun s dep ↦ activateTool t n dep s)]
    by_cases hm : s.isActive id
    · have hm' : s.marks.marked id := hm
      rw [if_pos hm, if_pos hm']
      rfl
    · have hm' : ¬s.marks.marked id := hm
      rw [if_neg hm, if_neg hm']
      have hfold (l : List ℕ) (s : Activation) :
          (l.foldlM (fun s dep ↦ activateTool t n dep s) s).map Activation.marks =
            l.foldlM (fun s b ↦ visit (successors t) n b s) s.marks := by
        induction l generalizing s with
        | nil => rfl
        | cons b l ihl =>
          rw [List.foldlM_cons, List.foldlM_cons, ← ih b s]
          cases activateTool t n b s with
          | none => rfl
          | some u => exact ihl u
      have hmark : Activation.marks { s with isActive := update s.isActive id true } =
          s.marks.mark id := rfl
      rw [← hmark, ← hfold, Option.map_map, Option.map_map]
      rfl

variable {regs : List Registration} {known : List Name} {t₀ t : Tools} {asked : List Name}
  {n d : Name}

/-- `n` declares that it needs `d`, and `d` is registered. -/
def Requires (regs : List Registration) (n d : Name) : Prop :=
  ∃ r ∈ regs, r.name = n ∧ d ∈ r.requiredTools ∧ isRegistered regs d

def requiredOf (regs : List Registration) (n : Name) : List Name :=
  ((regs.find? (·.name = n)).map (·.requiredTools)).getD []

/-- The dependencies of a tool by name, that on the tool requested before it first. -/
def successorsOf (regs : List Registration) (asked : List Name) (n : Name) : List Name :=
  (pred asked n :: requiredOf regs n).filter (isRegistered regs)

theorem requiredOf_eq (hnd : (regs.map (·.name)).Nodup) {r : Registration} (hr : r ∈ regs) :
    requiredOf regs r.name = r.requiredTools := by
  have hfind : regs.find? (·.name = r.name) = some r := by
    induction regs with
    | nil => simp at hr
    | cons q regs ih =>
      have hnd' := List.nodup_cons.mp hnd
      obtain rfl | hr' := List.mem_cons.mp hr
      · simp
      · have hne : q.name ≠ r.name := fun heq ↦ hnd'.1 (List.mem_map.mpr ⟨r, hr', heq.symm⟩)
        rw [List.find?_cons_of_neg (by simpa using hne)]
        exact ih hnd'.2 hr'
  rw [requiredOf, hfind]
  rfl

theorem requires_iff (hnd : (regs.map (·.name)).Nodup) :
    Requires regs n d ↔ d ∈ requiredOf regs n ∧ isRegistered regs d := by
  constructor
  · rintro ⟨r, hr, rfl, hd, hreg⟩
    exact ⟨(requiredOf_eq hnd hr).symm ▸ hd, hreg⟩
  · rintro ⟨hd, hreg⟩
    cases hfind : regs.find? (·.name = n) with
    | none => simp [requiredOf, hfind] at hd
    | some r =>
      have hr := List.mem_of_find?_eq_some hfind
      have hrn : r.name = n := by simpa using List.find?_some hfind
      refine ⟨r, hr, hrn, ?_, hreg⟩
      rwa [← hrn, requiredOf_eq hnd hr] at hd

theorem edge_iff (hnd : (regs.map (·.name)).Nodup) :
    Edge (successorsOf regs asked) n d ↔
      d = pred asked n ∧ isRegistered regs d ∨ Requires regs n d := by
  rw [Edge, successorsOf, List.mem_filter, List.mem_cons, requires_iff hnd]
  tauto

theorem successors_idxOf (hv : ValidRegistrations regs) (h₀ : Represents regs known t₀)
    (h : Requests regs known t₀ asked t) (hasked : ∀ m ∈ asked, isRegistered regs m)
    (hn : isRegistered regs n) :
    successors t (known.idxOf n) = (successorsOf regs asked n).map known.idxOf := by
  obtain ⟨r, hr, rfl⟩ := isRegistered_iff.mp hn
  rw [successors, h.row hr, List.filter_map, successorsOf, requiredOf_eq hv.nodup hr]
  congr 1
  refine List.filter_congr fun d hd ↦ ?_
  have hmem : d ∈ known := by
    obtain rfl | hd := List.mem_cons.mp hd
    · obtain heq | ⟨-, hp⟩ := pred_eq_or_mem asked r.name
      · exact heq.symm ▸ h₀.mem_name hr
      · exact h₀.mem_of_isRegistered (hasked _ hp)
    · exact h₀.mem_required hr hd
  have hiff := h₀.registered_iff hmem
  rw [Function.comp_apply, h.registered, Bool.eq_iff_iff, hiff, isRegistered, decide_eq_true_eq]

def askedFor (regs : List Registration) (requested : List Name) : List Name :=
  requested.filter (isRegistered regs)

theorem requests_requestTools (h₀ : Represents regs known t₀) (builtin : Name)
    {names : List Name} (hnames : ∀ n ∈ names, ValidName n) :
    Requests regs known t₀ (askedFor regs (builtin :: names))
      (t₀.requestTools builtin (some (commaSeparated names))) := by
  rw [Tools.requestTools]
  simp only [forEachCommaSeparatedString_commaSeparated hnames]
  exact Requests.foldl_requestTool h₀ (builtin :: names)

theorem initToolManager_eq (hv : ValidRegistrations regs) (h₀ : Represents regs known t₀)
    {builtin : Name} {names : List Name} (hnames : ∀ n ∈ names, ValidName n) {a : Name}
    (ha : (askedFor regs (builtin :: names)).getLast? = some a) :
    ∃ s fuel s', initToolManager t₀ builtin (some (commaSeparated names)) = some s ∧
      visit (successorsOf regs (askedFor regs (builtin :: names))) fuel a .empty = some s' ∧
      activeTools t₀ s = s'.done := by
  have hreq := requests_requestTools h₀ builtin hnames
  have hasked : ∀ m ∈ askedFor regs (builtin :: names), isRegistered regs m :=
    fun m hm ↦ (List.mem_filter.mp hm).2
  have hareg : isRegistered regs a := hasked a (List.mem_of_getLast? ha)
  rw [initToolManager]
  generalize t₀.requestTools builtin (some (commaSeparated names)) = t at hreq
  generalize askedFor regs (builtin :: names) = asked at ha hreq hasked
  simp only [hreq.prev, ha, Option.map_some]
  have hclosed : ∀ n ∈ {n | isRegistered regs n}, ∀ d ∈ successorsOf regs asked n,
      d ∈ {n | isRegistered regs n} := fun n _ d hd ↦ (List.mem_filter.mp hd).2
  have hinj : Set.InjOn known.idxOf {n | isRegistered regs n} :=
    fun n hn d _ heq ↦ (List.idxOf_inj (h₀.mem_of_isRegistered hn)).mp heq
  have hrel : Renames known.idxOf {n | isRegistered regs n} .empty Activation.empty.marks :=
    ⟨fun _ ↦ rfl, rfl⟩
  have hfuel : unmarked (regs.map (·.name)).toFinset (.empty : Marks Name) < kMaxNumTools + 1 := by
    have hsub : (regs.map (·.name)).toFinset ⊆ known.toFinset := by
      intro n hn
      exact List.mem_toFinset.mpr (h₀.mem_of_isRegistered (by simpa [isRegistered] using hn))
    calc unmarked (regs.map (·.name)).toFinset (.empty : Marks Name)
        ≤ (regs.map (·.name)).toFinset.card := Finset.card_filter_le _ _
      _ ≤ known.toFinset.card := Finset.card_le_card hsub
      _ ≤ known.length := List.toFinset_card_le _
      _ ≤ kMaxNumTools := h₀.table.le_max
      _ < kMaxNumTools + 1 := Nat.lt_succ_self _
  have hex : ∃ s', visitAll (successorsOf regs asked) (kMaxNumTools + 1) [a] .empty = some s' :=
    exists_visitAll (fun n _ d hd ↦ by simpa [isRegistered] using (List.mem_filter.mp hd).2)
      (by simpa [isRegistered] using hareg) hfuel
  obtain ⟨s', hs'⟩ := hex
  have hmap := visitAll_map (n := kMaxNumTools + 1) (l := [a]) hinj
    (fun n hn ↦ successors_idxOf hv h₀ hreq hasked hn) hclosed hrel (by simpa using hareg)
  rw [hs'] at hmap
  obtain ⟨u, hu, hrename⟩ := hmap
  have hact := marks_activateTool t (kMaxNumTools + 1) (known.idxOf a) .empty
  rw [List.map_singleton, ← visit_eq_visitAll] at hu
  rw [hu] at hact
  obtain ⟨s, hs, rfl⟩ := Option.map_eq_some_iff.mp hact
  rw [← visit_eq_visitAll] at hs'
  refine ⟨s, _, s', hs, hs', ?_⟩
  have hdone : s.gActiveTools = s'.done.map known.idxOf := hrename.done_eq
  have hreg (n) (hn : n ∈ s'.done) : isRegistered regs n := by
    have hreach := ((visit_empty hs').2 n).mp hn
    induction hreach with
    | refl => exact hareg
    | tail _ hedge _ => exact (List.mem_filter.mp hedge).2
  rw [activeTools, hdone, List.map_map]
  refine (List.map_congr_left fun n hn ↦ ?_).trans (List.map_id s'.done)
  have hmem := h₀.mem_of_isRegistered (hreg n hn)
  have hne : n ≠ [] := fun hnil ↦ h₀.table.ne_nil (hnil ▸ hmem)
  exact ((h₀.table.slot_eq_iff hne).mpr ⟨hmem, rfl⟩).symm

theorem initToolManager_of_nil (h₀ : Represents regs known t₀) {builtin : Name}
    {names : List Name} (hnames : ∀ n ∈ names, ValidName n)
    (h : askedFor regs (builtin :: names) = []) :
    initToolManager t₀ builtin (some (commaSeparated names)) = none := by
  have hreq := requests_requestTools h₀ builtin hnames
  rw [initToolManager]
  simp only [hreq.prev, h, List.getLast?_nil, Option.map_none]

end Activate

def Related (regs : List Registration) (n m : Name) : Prop :=
  ReflTransGen (Requires regs) n m ∨ ReflTransGen (Requires regs) m n

/-- The active tools are those requested and those that they need, each once, each after those it
needs, and otherwise in the order in which they were first requested. -/
structure Activated (regs : List Registration) (requested active : List Name) : Prop where
  mem_iff (n : Name) : n ∈ active ↔
    ∃ q ∈ requested, isRegistered regs q ∧ ReflTransGen (Requires regs) q n
  nodup : active.Nodup
  after_required {n d : Name} : n ∈ active → Requires regs n d →
    active.idxOf d < active.idxOf n
  as_requested {n m : Name} : isRegistered regs n → isRegistered regs m → m ∈ requested →
    ¬Related regs n m → requested.idxOf n < requested.idxOf m →
    active.idxOf n < active.idxOf m

/-- The tools that the list asks for, in the order in which they are first requested. -/
def firstRequested (regs : List Registration) (requested : List Name) : List Name :=
  (askedFor regs requested).eraseDups

/-- Requests made again leave the order as it is: the last request is for the tool that is first
requested last, and that before the last request of any other for the one first requested before. -/
structure KeepsOrder (regs : List Registration) (requested : List Name) : Prop where
  last : (askedFor regs requested).getLast? = (firstRequested regs requested).getLast?
  before : (firstRequested regs requested).IsChain fun n m ↦ pred (askedFor regs requested) m = n

/-- No tool is first requested after one that needs it. -/
def Consistent (regs : List Registration) (requested : List Name) : Prop :=
  (firstRequested regs requested).Pairwise fun n m ↦ ¬ReflTransGen (Requires regs) n m

def Apart (regs : List Registration) (requested : List Name) : Prop :=
  ∀ n ∈ askedFor regs requested, ∀ m ∈ askedFor regs requested,
    ReflTransGen (Requires regs) n m → n = m

section FirstRequested

variable {regs : List Registration} {requested : List Name} {n m : Name}

theorem mem_firstRequested :
    n ∈ firstRequested regs requested ↔ n ∈ requested ∧ isRegistered regs n := by
  rw [firstRequested, List.mem_eraseDups, askedFor, List.mem_filter]

theorem nodup_eraseDups (l : List Name) : l.eraseDups.Nodup := by
  induction h : l.length using Nat.strongRecOn generalizing l with
  | ind k ih =>
    cases l with
    | nil => exact List.nodup_nil
    | cons a l =>
      rw [List.eraseDups_cons, List.nodup_cons]
      have hle := List.length_filter_le (fun b ↦ !b == a) l
      rw [List.length_cons] at h
      exact ⟨by simp, ih _ (by omega) _ rfl⟩

theorem mem_firstRequested_iff_mem_askedFor :
    n ∈ firstRequested regs requested ↔ n ∈ askedFor regs requested :=
  List.mem_eraseDups

theorem nodup_firstRequested : (firstRequested regs requested).Nodup :=
  nodup_eraseDups _

theorem idxOf_filter_lt {p : Name → Bool} {l : List Name} (hn : p n) (hm : p m)
    (hlt : l.idxOf n < l.idxOf m) : (l.filter p).idxOf n < (l.filter p).idxOf m := by
  induction l with
  | nil => simp at hlt
  | cons x l ih =>
    by_cases hxn : x = n
    · subst hxn
      have hxm : x ≠ m := by
        rintro rfl
        exact hlt.false
      rw [List.filter_cons_of_pos hn, List.idxOf_cons_self, List.idxOf_cons_ne _ hxm]
      exact Nat.succ_pos _
    · by_cases hxm : x = m
      · subst hxm
        simp at hlt
      · rw [List.idxOf_cons_ne _ hxn, List.idxOf_cons_ne _ hxm] at hlt
        have ih := ih (Nat.lt_of_succ_lt_succ hlt)
        by_cases hx : p x
        · rw [List.filter_cons_of_pos hx, List.idxOf_cons_ne _ hxn, List.idxOf_cons_ne _ hxm]
          exact Nat.succ_lt_succ ih
        · rw [List.filter_cons_of_neg hx]
          exact ih

theorem idxOf_eraseDups_lt {l : List Name} (hlt : l.idxOf n < l.idxOf m) :
    l.eraseDups.idxOf n < l.eraseDups.idxOf m := by
  induction h : l.length using Nat.strongRecOn generalizing l with
  | ind k ih =>
    cases l with
    | nil => simp at hlt
    | cons a l =>
      rw [List.eraseDups_cons]
      have ham : a ≠ m := by
        rintro rfl
        simp at hlt
      by_cases han : a = n
      · subst han
        rw [List.idxOf_cons_self, List.idxOf_cons_ne _ ham]
        exact Nat.succ_pos _
      · rw [List.idxOf_cons_ne _ han, List.idxOf_cons_ne _ ham] at hlt ⊢
        have hle := List.length_filter_le (fun b ↦ !b == a) l
        rw [List.length_cons] at h
        have hlt := idxOf_filter_lt (p := fun b ↦ !b == a) (by simpa using Ne.symm han)
          (by simpa using Ne.symm ham) (Nat.lt_of_succ_lt_succ hlt)
        exact Nat.succ_lt_succ (ih _ (by omega) hlt rfl)

theorem idxOf_firstRequested_lt (hn : isRegistered regs n) (hm : isRegistered regs m)
    (hlt : requested.idxOf n < requested.idxOf m) :
    (firstRequested regs requested).idxOf n < (firstRequested regs requested).idxOf m :=
  idxOf_eraseDups_lt (idxOf_filter_lt hn hm hlt)

theorem idxOf_requested_lt {i j : ℕ} (hij : i < j)
    (hj : j < (firstRequested regs requested).length) :
    requested.idxOf (firstRequested regs requested)[i] <
      requested.idxOf (firstRequested regs requested)[j] := by
  have hnd : (firstRequested regs requested).Nodup := nodup_firstRequested
  obtain ⟨himem, hireg⟩ := mem_firstRequested.mp
    (List.getElem_mem (hij.trans hj : i < (firstRequested regs requested).length))
  obtain ⟨-, hjreg⟩ := mem_firstRequested.mp (List.getElem_mem hj)
  obtain hlt | heq | hgt := Nat.lt_trichotomy (requested.idxOf (firstRequested regs requested)[i])
    (requested.idxOf (firstRequested regs requested)[j])
  · exact hlt
  · have := hnd.getElem_inj_iff.mp ((List.idxOf_inj himem).mp heq)
    omega
  · have hlt := idxOf_firstRequested_lt hjreg hireg hgt
    rw [hnd.idxOf_getElem, hnd.idxOf_getElem] at hlt
    omega

theorem Apart.consistent (h : Apart regs requested) : Consistent regs requested := by
  have hnd : (firstRequested regs requested).Nodup := nodup_firstRequested
  refine List.Pairwise.imp_of_mem (fun {n m} hn hm hne hpath ↦ hne ?_) hnd
  exact h n (mem_firstRequested_iff_mem_askedFor.mp hn) m
    (mem_firstRequested_iff_mem_askedFor.mp hm) hpath

theorem eraseDups_of_nodup {l : List Name} (h : l.Nodup) : l.eraseDups = l := by
  induction l with
  | nil => rfl
  | cons a l ih =>
    obtain ⟨ha, hl⟩ := List.nodup_cons.mp h
    have hfilter : l.filter (fun b ↦ !b == a) = l := by
      rw [List.filter_eq_self]
      intro b hb
      simpa using ne_of_mem_of_not_mem hb ha
    rw [List.eraseDups_cons, hfilter, ih hl]

theorem keepsOrder_of_nodup (h : (askedFor regs requested).Nodup) : KeepsOrder regs requested := by
  have hfirst : firstRequested regs requested = askedFor regs requested := eraseDups_of_nodup h
  refine ⟨by rw [hfirst], ?_⟩
  rw [hfirst, List.isChain_iff_getElem]
  exact fun i hi ↦ pred_getElem h hi

end FirstRequested

section Order

variable {regs : List Registration} {asked requested : List Name} {n m d a : Name}

theorem pred_of_ne (hnd : asked.Nodup) (h : pred asked n ≠ n) :
    n ∈ asked ∧ pred asked n ∈ asked ∧ asked.idxOf (pred asked n) < asked.idxOf n := by
  obtain heq | ⟨hn, hp⟩ := pred_eq_or_mem asked n
  · exact absurd heq h
  · refine ⟨hn, hp, ?_⟩
    obtain ⟨i, hi, rfl⟩ := List.getElem_of_mem hn
    cases i with
    | zero =>
      refine absurd (pred_of_notMem_tail ?_) h
      cases asked with
      | nil => simp at hi
      | cons b asked => exact (List.nodup_cons.mp hnd).1
    | succ i =>
      rw [pred_getElem hnd hi, hnd.idxOf_getElem, hnd.idxOf_getElem]
      exact Nat.lt_succ_self i

theorem not_requires_of_lt (hc : asked.Pairwise fun n m ↦ ¬ReflTransGen (Requires regs) n m)
    (hn : n ∈ asked) (hm : m ∈ asked) (hlt : asked.idxOf n < asked.idxOf m) :
    ¬ReflTransGen (Requires regs) n m := by
  have hpair := List.pairwise_iff_getElem.mp hc _ _ (List.idxOf_lt_length_of_mem hn)
    (List.idxOf_lt_length_of_mem hm) hlt
  simpa using hpair

/-- A path of dependencies is one of requirements, or goes back in the list on its way. -/
theorem requires_or_back (hreg : (regs.map (·.name)).Nodup) (hnd : asked.Nodup)
    (hc : asked.Pairwise fun n m ↦ ¬ReflTransGen (Requires regs) n m)
    (h : TransGen (ProperEdge (successorsOf regs asked)) n m) :
    TransGen (Requires regs) n m ∨ ∃ p ∈ asked, ∃ q ∈ asked, asked.idxOf p < asked.idxOf q ∧
      ReflTransGen (Requires regs) n q ∧ ReflTransGen (Requires regs) p m := by
  have hedge {x y : Name} (hxy : ProperEdge (successorsOf regs asked) x y) :
      Requires regs x y ∨ x ∈ asked ∧ y ∈ asked ∧ asked.idxOf y < asked.idxOf x := by
    obtain ⟨heq, -⟩ | hreq := (edge_iff hreg).mp hxy.1
    · exact Or.inr (heq ▸ pred_of_ne hnd (heq ▸ hxy.2))
    · exact Or.inl hreq
  induction h with
  | single hxy =>
    obtain hreq | ⟨hx, hy, hlt⟩ := hedge hxy
    · exact Or.inl (TransGen.single hreq)
    · exact Or.inr ⟨_, hy, _, hx, hlt, ReflTransGen.refl, ReflTransGen.refl⟩
  | tail _ hxy ih =>
    obtain hreq | ⟨hx, hy, hlt⟩ := hedge hxy
    · obtain hpath | ⟨p, hp, q, hq, hpq, hnq, hpx⟩ := ih
      · exact Or.inl (hpath.tail hreq)
      · exact Or.inr ⟨p, hp, q, hq, hpq, hnq, hpx.tail hreq⟩
    · obtain hpath | ⟨p, hp, q, hq, hpq, hnq, hpx⟩ := ih
      · exact Or.inr ⟨_, hy, _, hx, hlt, hpath.to_reflTransGen, ReflTransGen.refl⟩
      · have hle := not_lt.mp fun hlt' ↦ not_requires_of_lt hc hp hx hlt' hpx
        exact Or.inr ⟨_, hy, q, hq, by omega, hnq, ReflTransGen.refl⟩

theorem acyclic_successorsOf (hreg : (regs.map (·.name)).Nodup)
    (hac : ∀ n, ¬TransGen (Requires regs) n n) (hnd : asked.Nodup)
    (hc : asked.Pairwise fun n m ↦ ¬ReflTransGen (Requires regs) n m) (n : Name) :
    ¬TransGen (ProperEdge (successorsOf regs asked)) n n := by
  intro h
  obtain hpath | ⟨p, hp, q, hq, hpq, hnq, hpn⟩ := requires_or_back hreg hnd hc h
  · exact hac n hpath
  · exact not_requires_of_lt hc hp hq hpq (hpn.trans hnq)

theorem edge_getElem (hreg : (regs.map (·.name)).Nodup) (hnd : asked.Nodup)
    (hasked : ∀ m ∈ asked, isRegistered regs m) {i : ℕ} (hi : i + 1 < asked.length) :
    Edge (successorsOf regs asked) asked[i + 1] asked[i] :=
  (edge_iff hreg).mpr (Or.inl ⟨(pred_getElem hnd hi).symm, hasked _ (List.getElem_mem _)⟩)

theorem reaches_iff (hreg : (regs.map (·.name)).Nodup) (hnd : asked.Nodup)
    (hasked : ∀ m ∈ asked, isRegistered regs m) (ha : asked.getLast? = some a) :
    ReflTransGen (Edge (successorsOf regs asked)) a n ↔
      ∃ q ∈ asked, ReflTransGen (Requires regs) q n := by
  constructor
  · intro h
    induction h with
    | refl => exact ⟨a, List.mem_of_getLast? ha, ReflTransGen.refl⟩
    | @tail b c _ hbc ih =>
      obtain ⟨q, hq, hqb⟩ := ih
      obtain ⟨rfl, -⟩ | hreq := (edge_iff hreg).mp hbc
      · obtain heq | ⟨-, hp⟩ := pred_eq_or_mem asked b
        · exact ⟨q, hq, heq.symm ▸ hqb⟩
        · exact ⟨_, hp, ReflTransGen.refl⟩
      · exact ⟨q, hq, hqb.tail hreq⟩
  · rintro ⟨q, hq, hqn⟩
    have hdown (k : ℕ) (hk : k < asked.length) :
        ReflTransGen (Edge (successorsOf regs asked)) a asked[asked.length - 1 - k] := by
      induction k with
      | zero =>
        have hlast : a = asked[asked.length - 1] := by
          rw [List.getLast?_eq_getElem?, List.getElem?_eq_getElem (by omega)] at ha
          exact (Option.some_inj.mp ha).symm
        simp only [Nat.sub_zero]
        exact hlast ▸ ReflTransGen.refl
      | succ k ih =>
        have hi : asked.length - 1 - (k + 1) + 1 < asked.length := by omega
        have hedge := edge_getElem hreg hnd hasked hi
        have heq : asked.length - 1 - (k + 1) + 1 = asked.length - 1 - k := by omega
        simp only [heq] at hedge
        exact (ih (by omega)).tail hedge
    obtain ⟨i, hi, rfl⟩ := List.getElem_of_mem hq
    have hi' := hdown (asked.length - 1 - i) (by omega)
    have heq : asked.length - 1 - (asked.length - 1 - i) = i := by omega
    simp only [heq] at hi'
    exact hi'.trans (hqn.lift id fun x y hxy ↦ (edge_iff hreg).mpr (Or.inr hxy))

theorem idxOf_lt_of_ordered (hreg : (regs.map (·.name)).Nodup) (hnd : asked.Nodup)
    (hasked : ∀ m ∈ asked, isRegistered regs m) {done : List Name}
    (ho : Ordered (successorsOf regs asked) done) (hdone : done.Nodup) (hmem : ∀ m ∈ asked, m ∈ done)
    {i j : ℕ} (hij : i < j) (hj : j < asked.length) :
    done.idxOf asked[i] < done.idxOf asked[j] := by
  induction j with
  | zero => omega
  | succ j ih =>
    have hne : asked[j] ≠ asked[j + 1] := by
      intro heq
      have := hnd.getElem_inj_iff.mp heq
      omega
    have hstep : done.idxOf asked[j] < done.idxOf asked[j + 1] :=
      ho.idxOf_lt hdone (hmem _ (List.getElem_mem _)) ⟨edge_getElem hreg hnd hasked hj, hne⟩
    obtain hlt | rfl := Nat.lt_succ_iff_lt_or_eq.mp hij
    · exact (ih hlt (by omega)).trans hstep
    · exact hstep

theorem activated_of_consistent (hreg : (regs.map (·.name)).Nodup)
    (hac : ∀ n, ¬TransGen (Requires regs) n n) (hc : Consistent regs requested)
    (ha : (firstRequested regs requested).getLast? = some a) {fuel : ℕ} {s : Marks Name}
    (hs : visit (successorsOf regs (firstRequested regs requested)) fuel a .empty = some s) :
    Activated regs requested s.done := by
  have hfirst : ∀ m ∈ firstRequested regs requested, isRegistered regs m :=
    fun m hm ↦ (mem_firstRequested.mp hm).2
  have hndf : (firstRequested regs requested).Nodup := nodup_firstRequested
  obtain ⟨hnd, hmem⟩ := visit_empty hs
  have ho := visit_empty_ordered (acyclic_successorsOf hreg hac hndf hc) hs
  have hmem (n : Name) : n ∈ s.done ↔
      ∃ q ∈ firstRequested regs requested, ReflTransGen (Requires regs) q n :=
    (hmem n).trans (reaches_iff hreg hndf hfirst ha)
  refine ⟨fun n ↦ ?_, hnd, fun {n d} hn hd ↦ ?_, fun {n m} hn hm hm' _ hlt ↦ ?_⟩
  · rw [hmem]
    simp only [mem_firstRequested, and_assoc]
  · refine ho.idxOf_lt hnd hn ⟨(edge_iff hreg).mpr (Or.inr hd), ?_⟩
    rintro rfl
    exact hac d (TransGen.single hd)
  · have hlt' := idxOf_firstRequested_lt hn hm hlt
    have hma : m ∈ firstRequested regs requested := mem_firstRequested.mpr ⟨hm', hm⟩
    have hjlt := List.idxOf_lt_length_of_mem hma
    have hmain := idxOf_lt_of_ordered hreg hndf hfirst ho hnd
      (fun m hm ↦ (hmem m).mpr ⟨m, hm, ReflTransGen.refl⟩) hlt' hjlt
    rwa [List.getElem_idxOf, List.getElem_idxOf] at hmain

theorem head_successorsOf (hnd : asked.Nodup) (hasked : ∀ m ∈ asked, isRegistered regs m) {i : ℕ}
    (hi : i + 1 < asked.length) : (successorsOf regs asked asked[i + 1]).head? = some asked[i] := by
  rw [successorsOf, pred_getElem hnd hi,
    List.filter_cons_of_pos (hasked _ (List.getElem_mem _)), List.head?_cons]

theorem isChain_reverse (hnd : asked.Nodup) (hasked : ∀ m ∈ asked, isRegistered regs m) :
    asked.reverse.IsChain fun x y ↦ (successorsOf regs asked x).head? = some y := by
  rw [List.isChain_reverse]
  exact List.isChain_iff_getElem.mpr fun i hi ↦ head_successorsOf hnd hasked hi

theorem KeepsOrder.visit_eq (h : KeepsOrder regs requested)
    (ha : (firstRequested regs requested).getLast? = some a) (fuel : ℕ) :
    visit (successorsOf regs (askedFor regs requested)) fuel a .empty =
      visit (successorsOf regs (firstRequested regs requested)) fuel a .empty := by
  have hnd : (firstRequested regs requested).Nodup := nodup_firstRequested
  have hfirst : ∀ m ∈ firstRequested regs requested, isRegistered regs m :=
    fun m hm ↦ (mem_firstRequested.mp hm).2
  have hbefore := List.isChain_iff_getElem.mp h.before
  have hpath := isChain_reverse hnd hfirst
  have hmem (x : Name) : x ∈ askedFor regs requested ↔ x ∈ firstRequested regs requested :=
    mem_firstRequested_iff_mem_askedFor.symm
  generalize firstRequested regs requested = first at *
  generalize askedFor regs requested = asked at *
  cases first with
  | nil => simp at ha
  | cons b first =>
    have hhead : (first.reverse ++ [b]).head (by simp) = a := by
      have hlast : (b :: first).reverse.head? = some a := by rw [List.head?_reverse, ha]
      rw [List.reverse_cons, List.head?_eq_some_head (by simp)] at hlast
      exact Option.some_inj.mp hlast
    have hpred : pred (b :: first) b = b := pred_of_notMem_tail (List.nodup_cons.mp hnd).1
    -- only the tool that is first requested first may have another dependency
    have hagree (x : Name) (hx : x ≠ b) :
        successorsOf regs (b :: first) x = successorsOf regs asked x := by
      have heq : pred (b :: first) x = pred asked x := by
        obtain hxa | ⟨hxa, -⟩ := pred_eq_or_mem asked x
        · obtain hxf | ⟨hxf, -⟩ := pred_eq_or_mem (b :: first) x
          · rw [hxa, hxf]
          · obtain ⟨i, hi, rfl⟩ := List.getElem_of_mem hxf
            cases i with
            | zero => exact absurd rfl hx
            | succ i => rw [pred_getElem hnd hi, hbefore i hi]
        · obtain ⟨i, hi, rfl⟩ := List.getElem_of_mem ((hmem x).mp hxa)
          cases i with
          | zero => exact absurd rfl hx
          | succ i => rw [pred_getElem hnd hi, hbefore i hi]
      rw [successorsOf, successorsOf, heq]
    have hback : pred asked b ∈ b :: first := by
      obtain hb | ⟨-, hb⟩ := pred_eq_or_mem asked b
      · rw [hb]
        exact List.mem_cons_self
      · exact (hmem _).mp hb
    have hb := hfirst b List.mem_cons_self
    have hc : successorsOf regs (b :: first) b =
        b :: (requiredOf regs b).filter (isRegistered regs) := by
      rw [successorsOf, hpred, List.filter_cons_of_pos hb]
    have hc' : successorsOf regs asked b =
        pred asked b :: (requiredOf regs b).filter (isRegistered regs) := by
      rw [successorsOf, List.filter_cons_of_pos (hfirst _ hback)]
    have hnd' : (first.reverse ++ [b]).Nodup := by
      rw [← List.reverse_cons]
      exact List.nodup_reverse.mpr hnd
    rw [List.reverse_cons] at hpath
    have hcongr := (visit_path_congr (n := fuel) (s := .empty) hagree hc hc' (Or.inl (by simp))
      (Or.inl (by simpa [or_comm] using hback)) hnd' (by simp [Marks.empty])
      hpath).1
    rw [hhead] at hcongr
    exact hcongr.symm

/-- All the tools from `asked[j]` on are in progress when the one before is visited. -/
theorem visit_below (hnd : asked.Nodup) (hasked : ∀ m ∈ asked, isRegistered regs m)
    (ha : asked.getLast? = some a) {fuel : ℕ} {s : Marks Name}
    (hs : visit (successorsOf regs asked) fuel a .empty = some s) {j : ℕ}
    (hj : j + 1 < asked.length) :
    ∃ k t, visit (successorsOf regs asked) k asked[j]
      (markAll (asked.drop (j + 1)).reverse .empty) = some t ∧ t.done <+: s.done := by
  have hpath : (asked.drop (j + 1)).reverse ++ [asked[j]] = (asked.drop j).reverse := by
    rw [List.drop_eq_getElem_cons (by omega : j < asked.length), List.reverse_cons]
  have hhead : ((asked.drop (j + 1)).reverse ++ [asked[j]]).head (by simp) = a := by
    have hlast : (asked.drop j).reverse.head? = some a := by
      rw [List.head?_reverse, List.getLast?_drop, if_neg (by omega), ha]
    rw [← hpath, List.head?_eq_some_head (by simp)] at hlast
    exact Option.some_inj.mp hlast
  have hchain : ((asked.drop (j + 1)).reverse ++ [asked[j]]).IsChain
      fun x y ↦ (successorsOf regs asked x).head? = some y := by
    rw [hpath, List.isChain_reverse]
    refine List.isChain_iff_getElem.mpr fun i hi ↦ ?_
    rw [List.length_drop] at hi
    simp only [List.getElem_drop, ← Nat.add_assoc]
    exact head_successorsOf hnd hasked (by omega)
  have hnd' : (asked.drop (j + 1)).reverse.Nodup :=
    List.nodup_reverse.mpr (hnd.sublist (List.drop_sublist _ _))
  exact visit_along hnd' (by simp [Marks.empty]) hchain (hhead.symm ▸ hs)

theorem exists_leaving {P : Name → Prop} (h : ReflTransGen (Requires regs) n m) (hn : P n)
    (hm : ¬P m) : ∃ u v, Requires regs u v ∧ P u ∧ ¬P v := by
  induction h with
  | refl => exact absurd hn hm
  | @tail u v _ huv ih =>
    by_cases hu : P u
    · exact ⟨u, v, huv, hu, hm⟩
    · exact ih hu

theorem consistent_of_activated (hreg : (regs.map (·.name)).Nodup)
    (ha : (firstRequested regs requested).getLast? = some a) {fuel : ℕ} {s : Marks Name}
    (hs : visit (successorsOf regs (firstRequested regs requested)) fuel a .empty = some s)
    (hact : Activated regs requested s.done) : Consistent regs requested := by
  have hasked : ∀ m ∈ firstRequested regs requested, isRegistered regs m :=
    fun m hm ↦ (mem_firstRequested.mp hm).2
  have hnd : (firstRequested regs requested).Nodup := nodup_firstRequested
  refine List.pairwise_iff_getElem.mpr fun i j hi hj hij hpath ↦ ?_
  generalize firstRequested regs requested = asked at *
  obtain ⟨j, rfl⟩ : ∃ k, j = k + 1 := ⟨j - 1, by omega⟩
  obtain ⟨k, t, ht, hpre⟩ := visit_below hnd hasked ha hs hj
  have hv := visit_visits ht
  have hmarked (x : Name) : (markAll (asked.drop (j + 1)).reverse .empty).marked x ↔
      x ∈ asked.drop (j + 1) := by
    simp [marked_markAll, Marks.empty]
  have hdone (x : Name) : x ∈ t.done ↔ t.marked x ∧ x ∉ asked.drop (j + 1) := by
    obtain ⟨new, hd, -, hmem⟩ := hv.done_eq
    rw [hd, done_markAll, ← hmarked]
    exact hmem x
  have hnot (l : ℕ) (hl : l ≤ j) (hlt : l < asked.length) : asked[l] ∉ asked.drop (j + 1) := by
    intro hmem
    obtain ⟨q, hq, heq⟩ := List.getElem_of_mem hmem
    rw [List.getElem_drop] at heq
    have := hnd.getElem_inj_iff.mp heq
    omega
  -- the visit goes down to all the tools requested before
  have hbelow (l : ℕ) (hl : l ≤ j) : t.marked asked[j - l] := by
    induction l with
    | zero => exact hv.started (by simp)
    | succ l ih =>
      have hlt : j - (l + 1) + 1 < asked.length := by omega
      have hedge := edge_getElem hreg hnd hasked hlt
      have heq : j - (l + 1) + 1 = j - l := by omega
      simp only [heq] at hedge
      refine hv.closed (ih (by omega)) (fun hm ↦ ?_) hedge
      exact hnot (j - l) (by omega) (by omega) ((hmarked _).mp hm)
  have hstart : t.marked asked[i] := by
    have h := hbelow (j - i) (by omega)
    have heq : j - (j - i) = i := by omega
    simpa only [heq] using h
  -- and from there along the path up to the first tool that is in progress
  obtain ⟨u, v, huv, ⟨hu, hu'⟩, hv'⟩ := exists_leaving
    (P := fun x ↦ t.marked x ∧ x ∉ asked.drop (j + 1)) hpath ⟨hstart, hnot i (by omega) hi⟩
    (fun hc ↦ hc.2 (List.mem_iff_getElem.mpr ⟨0, by simp; omega, by simp⟩))
  have hvm : t.marked v :=
    hv.closed hu (fun hm ↦ hu' ((hmarked u).mp hm)) ((edge_iff hreg).mpr (Or.inr huv))
  have hudone : u ∈ t.done := (hdone u).mpr ⟨hu, hu'⟩
  have hvdone : v ∉ t.done := fun hc ↦ hv' ((hdone v).mp hc)
  obtain ⟨rest, hrest⟩ := hpre
  have hlt := hact.after_required (hrest ▸ List.mem_append_left rest hudone) huv
  rw [← hrest, List.idxOf_append_of_mem hudone, List.idxOf_append_of_notMem hvdone] at hlt
  have := List.idxOf_lt_length_of_mem hudone
  omega

/-- Where no requested tool needs another, each is visited from one requested right after it. -/
theorem exists_pred_eq (hreg : (regs.map (·.name)).Nodup) (hapart : Apart regs requested) {fuel : ℕ}
    {s : Marks Name} {n : Name} (ha : a ∈ askedFor regs requested)
    (hs : visit (successorsOf regs (askedFor regs requested)) fuel a .empty = some s)
    (hd : d ∈ askedFor regs requested) (hda : d ≠ a) (hn : n ∈ s.done)
    (hnd : ReflTransGen (Requires regs) n d) :
    ∃ z ∈ askedFor regs requested, pred (askedFor regs requested) z = d ∧
      s.done.idxOf n < s.done.idxOf z := by
  have hne : n ∉ [a] := by
    intro hmem
    obtain rfl := List.mem_singleton.mp hmem
    exact hda (hapart n ha d hd hnd).symm
  obtain ⟨z, hz, hzn, hlt⟩ := (visit_empty_led hs).idxOf_lt (visit_empty hs).1 hn hne
  obtain ⟨heq, -⟩ | hreq := (edge_iff hreg).mp hzn
  · obtain hself | ⟨hzmem, hnmem⟩ := pred_eq_or_mem (askedFor regs requested) z
    · rw [heq, hself] at hlt
      exact absurd hlt (lt_irrefl _)
    · rw [← heq] at hnmem
      exact ⟨z, hzmem, heq.symm.trans (hapart n hnmem d hd hnd), hlt⟩
  · have hlen := List.idxOf_lt_length_of_mem hz
    obtain ⟨y, hy, hyd, hlt'⟩ :=
      exists_pred_eq hreg hapart ha hs hd hda hz (ReflTransGen.head hreq hnd)
    exact ⟨y, hy, hyd, hlt.trans hlt'⟩
termination_by s.done.length - s.done.idxOf n

theorem keepsOrder_of_activated (hreg : (regs.map (·.name)).Nodup) (hapart : Apart regs requested)
    {fuel : ℕ} {s : Marks Name} (ha : (askedFor regs requested).getLast? = some a)
    (hs : visit (successorsOf regs (askedFor regs requested)) fuel a .empty = some s)
    (hact : Activated regs requested s.done) : KeepsOrder regs requested := by
  have hnd : (firstRequested regs requested).Nodup := nodup_firstRequested
  have hamem := List.mem_of_getLast? ha
  have hdone {i : ℕ} (hi : i < (firstRequested regs requested).length) :
      (firstRequested regs requested)[i] ∈ s.done := by
    obtain ⟨hmem, hreg⟩ := mem_firstRequested.mp (List.getElem_mem hi)
    exact (hact.mem_iff _).mpr ⟨_, hmem, hreg, ReflTransGen.refl⟩
  have horder {i j : ℕ} (hij : i < j) (hj : j < (firstRequested regs requested).length) :
      s.done.idxOf (firstRequested regs requested)[i] <
        s.done.idxOf (firstRequested regs requested)[j] := by
    have hi := hij.trans hj
    obtain ⟨-, hireg⟩ := mem_firstRequested.mp (List.getElem_mem hi)
    obtain ⟨hjmem, hjreg⟩ := mem_firstRequested.mp (List.getElem_mem hj)
    have hne : (firstRequested regs requested)[i] ≠ (firstRequested regs requested)[j] := by
      intro heq
      have := hnd.getElem_inj_iff.mp heq
      omega
    refine hact.as_requested hireg hjreg hjmem ?_ (idxOf_requested_lt hij hj)
    have himem' := mem_firstRequested_iff_mem_askedFor.mp (List.getElem_mem hi)
    have hjmem' := mem_firstRequested_iff_mem_askedFor.mp (List.getElem_mem hj)
    rintro (hpath | hpath)
    · exact hne (hapart _ himem' _ hjmem' hpath)
    · exact hne (hapart _ hjmem' _ himem' hpath).symm
  -- the last request is the root of the search, which is done last
  have hroot {n : Name} (hn : n ∈ s.done) (hna : n ≠ a) : s.done.idxOf n < s.done.idxOf a := by
    obtain ⟨hm, -⟩ | ⟨-, m, t, -, ht, rfl⟩ := visit_cases hs
    · simp [Marks.empty] at hm
    · rw [Marks.finish] at hn ⊢
      have hnt : n ∈ t.done := by simpa [hna] using hn
      have hat : a ∉ t.done := by
        have hnodup := (visit_empty hs).1
        rw [Marks.finish, List.nodup_append] at hnodup
        exact fun hc ↦ hnodup.2.2 a hc a (List.mem_singleton_self a) rfl
      dsimp only
      rw [List.idxOf_append_of_mem hnt, List.idxOf_append_of_notMem hat]
      exact (List.idxOf_lt_length_of_mem hnt).trans_le (Nat.le_add_right _ _)
  obtain ⟨l, hl, hla⟩ := List.getElem_of_mem (mem_firstRequested_iff_mem_askedFor.mpr hamem)
  have hlast : l + 1 = (firstRequested regs requested).length := by
    by_contra hne
    have hl' : l + 1 < (firstRequested regs requested).length := by omega
    have hlt := horder (Nat.lt_succ_self l) hl'
    rw [hla] at hlt
    have hna : (firstRequested regs requested)[l + 1] ≠ a := by
      intro heq
      rw [heq] at hlt
      exact hlt.false
    exact hlt.asymm (hroot (hdone hl') hna)
  -- each of the others is requested right before a later one, which must be the next
  have hnext (i : ℕ) (hi : i + 1 < (firstRequested regs requested).length) :
      ∃ j, ∃ hj : j < (firstRequested regs requested).length, i < j ∧
        pred (askedFor regs requested) (firstRequested regs requested)[j] =
          (firstRequested regs requested)[i] := by
    have hi' : i < (firstRequested regs requested).length := by omega
    have hne : (firstRequested regs requested)[i] ≠ a := by
      intro heq
      have := hnd.getElem_inj_iff.mp (heq.trans hla.symm)
      omega
    obtain ⟨z, hz, hpred, hlt⟩ := exists_pred_eq hreg hapart hamem hs
      (mem_firstRequested_iff_mem_askedFor.mp (List.getElem_mem hi')) hne (hdone hi')
      ReflTransGen.refl
    obtain ⟨j, hj, rfl⟩ := List.getElem_of_mem (mem_firstRequested_iff_mem_askedFor.mpr hz)
    refine ⟨j, hj, ?_, hpred⟩
    by_contra hle
    obtain hji | rfl := (not_lt.mp hle).lt_or_eq
    · exact hlt.asymm (horder hji hi')
    · exact hlt.false
  refine ⟨?_, List.isChain_iff_getElem.mpr fun i hi ↦ ?_⟩
  · rw [ha, List.getLast?_eq_getElem?, ← hlast, Nat.add_sub_cancel,
      List.getElem?_eq_getElem (by omega), hla]
  · induction h : (firstRequested regs requested).length - i using Nat.strongRecOn generalizing i with
    | ind k ih =>
      obtain ⟨j, hj, hij, hpred⟩ := hnext i hi
      obtain hgt | rfl := Nat.lt_or_eq_of_le (Nat.succ_le_of_lt hij)
      · obtain ⟨j, rfl⟩ : ∃ q, j = q + 1 := ⟨j - 1, by omega⟩
        have hprev := ih _ (by omega) j hj rfl
        have := hnd.getElem_inj_iff.mp (hprev.symm.trans hpred)
        omega
      · exact hpred

/-- The active tools are as they should be if the tables have room, some tool is requested, the
order of the requests is kept, and none is requested after one that needs it. There is no other case
where the order is kept, or where no requested tool needs another. -/
theorem initToolManager_activates (regs : List Registration) (builtin : Name) (names : List Name)
    (hv : ValidRegistrations regs) (hnames : ∀ n ∈ names, ValidName n)
    (hac : ∀ n, ¬TransGen (Requires regs) n n) :
    (Fits regs ∧ askedFor regs (builtin :: names) ≠ [] ∧ KeepsOrder regs (builtin :: names) ∧
        Consistent regs (builtin :: names) →
      ∃ active, activeAfter regs builtin (some (commaSeparated names)) = some active ∧
        Activated regs (builtin :: names) active) ∧
    ((∃ active, activeAfter regs builtin (some (commaSeparated names)) = some active ∧
        Activated regs (builtin :: names) active) →
      Fits regs ∧ askedFor regs (builtin :: names) ≠ [] ∧
        (KeepsOrder regs (builtin :: names) ∨ Apart regs (builtin :: names) →
          KeepsOrder regs (builtin :: names) ∧ Consistent regs (builtin :: names))) := by
  obtain ⟨hfits, hnone⟩ | ⟨hfits, t, known, htools, hrep⟩ := toolsAfter_cases hv
  · refine ⟨fun h ↦ absurd h.1 hfits, ?_⟩
    rintro ⟨active, hactive, -⟩
    rw [activeAfter, hnone] at hactive
    cases hactive
  have hafter : activeAfter regs builtin (some (commaSeparated names)) =
      (initToolManager t builtin (some (commaSeparated names))).map (activeTools t) := by
    rw [activeAfter, htools]
    simp only [Option.bind_eq_bind, Option.bind_some]
    exact Option.map_eq_bind.symm
  rw [hafter]
  constructor
  · rintro ⟨-, hne, hkeeps, hc⟩
    have ha := List.getLast?_eq_some_getLast hne
    obtain ⟨s, fuel, s', hs, hs', hdone⟩ := initToolManager_eq hv hrep hnames ha
    rw [hkeeps.last] at ha
    rw [hkeeps.visit_eq ha] at hs'
    exact ⟨_, by rw [hs]; rfl, hdone ▸ activated_of_consistent hv.nodup hac hc ha hs'⟩
  · rintro ⟨active, hactive, hact⟩
    obtain ⟨s, hs, rfl⟩ := Option.map_eq_some_iff.mp hactive
    have hne : askedFor regs (builtin :: names) ≠ [] := by
      intro hnil
      rw [initToolManager_of_nil hrep hnames hnil] at hs
      cases hs
    have ha := List.getLast?_eq_some_getLast hne
    obtain ⟨u, fuel, s', hu, hs', hdone⟩ := initToolManager_eq hv hrep hnames ha
    obtain rfl := Option.some_inj.mp (hs.symm.trans hu)
    rw [hdone] at hact
    refine ⟨hfits, hne, ?_⟩
    rintro (hkeeps | hapart)
    · rw [hkeeps.last] at ha
      rw [hkeeps.visit_eq ha] at hs'
      exact ⟨hkeeps, consistent_of_activated hv.nodup ha hs' hact⟩
    · exact ⟨keepsOrder_of_activated hv.nodup hapart ha hs' hact, hapart.consistent⟩

end Order

section Example

def fourTools : List Registration :=
  [⟨['u', 's', 'e', 'r'], [], 8, 8⟩, ⟨['a'], [], 8, 8⟩, ⟨['b'], [['c']], 16, 16⟩, ⟨['c'], [], 8, 8⟩]

theorem validName_letter {ch : Char} (h : ch ≠ ' ' ∧ ch ≠ ',') : ValidName [ch] :=
  ⟨by simp [kMaxToolNameLength], by simpa using h.2.symm, ⟨ch, [], rfl, h.1⟩, by simpa using h.1⟩

theorem validName_user : ValidName ['u', 's', 'e', 'r'] :=
  ⟨by decide, by decide, ⟨'u', _, rfl, by decide⟩, by decide⟩

theorem valid_fourTools : ValidRegistrations fourTools := by
  refine ⟨by decide, fun {r} hr ↦ ?_, fun {r d} hr hd ↦ ?_⟩
  · simp only [fourTools, List.mem_cons, List.not_mem_nil, or_false] at hr
    obtain rfl | rfl | rfl | rfl := hr
    · exact validName_user
    · exact validName_letter (by decide)
    · exact validName_letter (by decide)
    · exact validName_letter (by decide)
  · simp only [fourTools, List.mem_cons, List.not_mem_nil, or_false] at hr
    obtain rfl | rfl | rfl | rfl := hr
    · simp at hd
    · simp at hd
    · rw [List.mem_singleton.mp hd]
      exact validName_letter (by decide)
    · simp at hd

theorem requires_fourTools {n d : Name} (h : Requires fourTools n d) : n = ['b'] ∧ d = ['c'] := by
  obtain ⟨r, hr, rfl, hd, -⟩ := h
  simp only [fourTools, List.mem_cons, List.not_mem_nil, or_false] at hr
  obtain rfl | rfl | rfl | rfl := hr
  · simp at hd
  · simp at hd
  · exact ⟨rfl, List.mem_singleton.mp hd⟩
  · simp at hd

theorem acyclic_fourTools (n : Name) : ¬TransGen (Requires fourTools) n n := by
  intro h
  obtain ⟨d, hnd, -⟩ := TransGen.head'_iff.mp h
  obtain ⟨e, -, hen⟩ := TransGen.tail'_iff.mp h
  have heq := (requires_fourTools hnd).1.symm.trans (requires_fourTools hen).2
  exact absurd heq (by decide)

theorem initToolManager_activates_fourTools :
    ∃ active, activeAfter fourTools ['u', 's', 'e', 'r']
        (some (commaSeparated [['u', 's', 'e', 'r'], ['a'], ['b']])) = some active ∧
      Activated fourTools [['u', 's', 'e', 'r'], ['u', 's', 'e', 'r'], ['a'], ['b']] active := by
  have hnames : ∀ n ∈ [['u', 's', 'e', 'r'], ['a'], ['b']], ValidName n := by
    intro n hn
    simp only [List.mem_cons, List.not_mem_nil, or_false] at hn
    obtain rfl | rfl | rfl := hn
    · exact validName_user
    · exact validName_letter (by decide)
    · exact validName_letter (by decide)
  have hfits : Fits fourTools := by
    refine ⟨by decide, fun {r} hr ↦ ?_⟩
    revert r
    decide
  have hfirst : firstRequested fourTools
      [['u', 's', 'e', 'r'], ['u', 's', 'e', 'r'], ['a'], ['b']] =
        [['u', 's', 'e', 'r'], ['a'], ['b']] := by decide
  have hkeeps : KeepsOrder fourTools [['u', 's', 'e', 'r'], ['u', 's', 'e', 'r'], ['a'], ['b']] := by
    refine ⟨by decide, ?_⟩
    rw [hfirst]
    decide
  have hne {n m : Name} (hn : n ≠ ['b']) (hnm : n ≠ m) :
      ¬ReflTransGen (Requires fourTools) n m := by
    intro h
    obtain rfl | ⟨d, hd, -⟩ := h.cases_head
    · exact hnm rfl
    · exact hn (requires_fourTools hd).1
  refine (initToolManager_activates fourTools ['u', 's', 'e', 'r'] _ valid_fourTools hnames
    acyclic_fourTools).1 ⟨hfits, by decide, hkeeps, ?_⟩
  rw [Consistent, hfirst]
  refine List.pairwise_cons.mpr ⟨fun m hm ↦ hne (by decide) ?_, List.pairwise_cons.mpr
    ⟨fun m hm ↦ hne (by decide) ?_, List.pairwise_singleton _ _⟩⟩
  · rintro rfl
    exact absurd hm (by decide)
  · rintro rfl
    exact absurd hm (by decide)

/-- A tool requested twice hides all the tools requested before its second request. -/
theorem initToolManager_loses_user :
    activeAfter fourTools ['u', 's', 'e', 'r'] (some (commaSeparated [['a'], ['b'], ['a']])) =
        some [['c'], ['b'], ['a']] ∧
      ¬Activated fourTools [['u', 's', 'e', 'r'], ['a'], ['b'], ['a']] [['c'], ['b'], ['a']] := by
  have hnames : ∀ n ∈ [['a'], ['b'], ['a']], ValidName n := by
    intro n hn
    simp only [List.mem_cons, List.not_mem_nil, or_false] at hn
    obtain rfl | rfl | rfl := hn <;> exact validName_letter (by decide)
  refine ⟨?_, fun h ↦ ?_⟩
  · rw [activeAfter]
    simp only [initToolManager, Tools.requestTools,
      forEachCommaSeparatedString_commaSeparated hnames]
    decide
  · have huser := (h.mem_iff ['u', 's', 'e', 'r']).mpr
      ⟨_, List.mem_cons_self, by decide, ReflTransGen.refl⟩
    exact absurd huser (by decide)

end Example

end Granary.Tool
