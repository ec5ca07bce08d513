import Granary.Base.Format.Buffer
import Granary.Base.Options
import Granary.Base.Run
import Mathlib.Data.List.ReduceOption

namespace Granary.Base.Options

open Function Granary.Base.Bytes Granary.Base.Run
open Granary.Base.Format (cString nul_notMem_cString)

/-- Names and values are positions in the option string. A name may be null, and a value may be null
or the constant empty string, which has no position. -/
structure Globals where
  optionString : ℕ → Char
  optionStringLength : ℕ
  optionNames : ℕ → Option ℕ
  optionValues : ℕ → Option (Option ℕ)
  optionsInitialized : Bool

namespace Globals

def initial : Globals where
  optionString := fun _ ↦ '\x00'
  optionStringLength := 0
  optionNames := fun _ ↦ none
  optionValues := fun _ ↦ none
  optionsInitialized := false

def copyStringIntoOptions (g : Globals) (offset : ℕ) : List Char → Globals × ℕ
  | [] => (g, offset)
  | ch :: string =>
    if offset < maxOptionsLength ∧ ch ≠ '\x00' then
      copyStringIntoOptions { g with optionString := update g.optionString offset ch } (offset + 1)
        string
    else (g, offset)

def terminateOptionString (g : Globals) (length : ℕ) : Option Globals :=
  if maxOptionsLength > length then
    some { g with
      optionString := update g.optionString length '\x00'
      optionStringLength := length }
  else none

/-- The C string at a position. The array is one longer than the longest option string. -/
def textAt (g : Globals) (position : ℕ) : List Char :=
  cString (load g.optionString position (maxOptionsLength + 1 - position))

def valueText (g : Globals) (i : ℕ) : Option (List Char) :=
  (g.optionValues i).map fun value ↦
    match value with
    | none => []
    | some position => g.textAt position

/-- The loop of `FindValueForName` with `n` turns to go. -/
def findFrom (g : Globals) (name : List Char) : (n : ℕ) → (i : ℕ) → Option (List Char)
  | 0, _ => none
  | n + 1, i =>
    match g.optionNames i with
    | none => none
    | some position => if g.textAt position = name then g.valueText i else findFrom g name n (i + 1)

def findValueForName (g : Globals) (name : List Char) : Option (List Char) :=
  g.findFrom name maxNumOptions 0

end Globals

structure Scan where
  globals : Globals
  state : State
  numOptions : ℕ

namespace Scan

def goto (s : Scan) (state : State) : Scan :=
  { s with state := state }

def erase (s : Scan) (i : ℕ) (state : State) : Scan :=
  { s with
    globals := { s.globals with optionString := update s.globals.optionString i '\x00' }
    state := state }

def setValue (s : Scan) (position : ℕ) : Scan :=
  { s with
    globals := { s.globals with
      optionValues := update s.globals.optionValues (s.numOptions - 1) (some (some position)) } }

def addName (s : Scan) (position : ℕ) : Scan :=
  { s with
    globals := { s.globals with
      optionValues := update s.globals.optionValues s.numOptions (some none)
      optionNames := update s.globals.optionNames s.numOptions (some position) }
    numOptions := s.numOptions + 1 }

def step (s : Scan) (i : ℕ) : Option Scan :=
  let ch := s.globals.optionString i
  match s.state with
  | .inOption =>
    if isValidOptionChar ch then some s
    else if ch = '=' then some (s.erase i .seenEqual)
    else some (s.erase i .elsewhere)
  | .inValue => if isValidValueChar ch then some s else some (s.erase i .elsewhere)
  | .inLiteralValue =>
    if ch = ']' then some (s.erase i .elsewhere)
    else if ch ≠ ' ' ∧ ¬isValidValueChar ch then none
    else some s
  | .seenEqual =>
    if ch = '[' then some ((s.setValue (i + 1)).erase i .inLiteralValue)
    else if isValidValueChar ch then some ((s.setValue i).goto .inValue)
    else some (s.goto .elsewhere)
  | .seenDash =>
    if ch = '-' then
      if maxNumOptions > s.numOptions then some ((s.addName (i + 1)).erase i .inOption) else none
    else some (s.erase i .elsewhere)
  | .elsewhere => if ch = '-' then some (s.erase i .seenDash) else some (s.erase i .elsewhere)

end Scan

namespace Globals

def processOptionString (g : Globals) : Option Globals :=
  ((List.range g.optionStringLength).foldlM Scan.step ⟨g, .elsewhere, 0⟩).map (·.globals)

/-- `InitOptions` of a string, up to the call-backs of the options that are registered. -/
def initOptions (g : Globals) (rawOptions : List Char) : Option Globals := do
  let (g, length) := g.copyStringIntoOptions 0 rawOptions
  let g ← g.terminateOptionString length
  let g ← g.processOptionString
  return { g with optionsInitialized := true }

end Globals

section Scanning

variable {g : Globals} {o o' : OptionTable}

structure OptionTable.Wf (o : OptionTable) : Prop where
  length_eq : o.names.length = o.values.length
  named : o.state = .inOption ∨ o.state = .seenEqual → 0 < o.names.length
  names_le (position : ℕ) : position ∈ o.names → position ≤ o.string.length
  values_le (position : ℕ) : some position ∈ o.values → position ≤ o.string.length
  length_le : o.names.length ≤ maxNumOptions

theorem wf_fresh : fresh.Wf := by
  constructor <;> simp [fresh]

theorem OptionTable.length_step {ch : Char} (h : o.step ch = some o') :
    o'.string.length = o.string.length + 1 := by
  have hkeep (o : OptionTable) (ch : Char) (state : State) :
      (o.keep ch state).string.length = o.string.length + 1 := by simp [OptionTable.keep]
  cases hstate : o.state <;> simp only [OptionTable.step, hstate] at h <;> split_ifs at h <;>
    cases h <;> exact hkeep ..

theorem OptionTable.Wf.keep (h : o.Wf) (ch : Char) {state : State}
    (hnamed : state = .inOption ∨ state = .seenEqual → 0 < o.names.length) :
    (o.keep ch state).Wf where
  length_eq := h.length_eq
  named := hnamed
  names_le position hp := (h.names_le position hp).trans (by simp [OptionTable.keep])
  values_le position hp := (h.values_le position hp).trans (by simp [OptionTable.keep])
  length_le := h.length_le

theorem OptionTable.Wf.setValue_keep (h : o.Wf) {position : ℕ}
    (hposition : position ≤ o.string.length + 1) (ch : Char) {state : State}
    (hnamed : state ≠ .inOption ∧ state ≠ .seenEqual) :
    ((o.setValue position).keep ch state).Wf where
  length_eq := by simpa [OptionTable.keep, OptionTable.setValue] using h.length_eq
  named hstate := (hstate.elim hnamed.1 hnamed.2).elim
  names_le p hp := (h.names_le p hp).trans (by simp [OptionTable.keep, OptionTable.setValue])
  values_le p hp := by
    have hlength : ((o.setValue position).keep ch state).string.length = o.string.length + 1 := by
      simp [OptionTable.keep, OptionTable.setValue]
    rw [hlength]
    obtain hmem | heq := List.mem_or_eq_of_mem_set hp
    · exact (h.values_le p hmem).trans (Nat.le_succ _)
    · rw [Option.some_inj] at heq
      exact heq ▸ hposition
  length_le := h.length_le

def OptionTable.addName (o : OptionTable) : OptionTable :=
  { o with names := o.names ++ [o.string.length + 1], values := o.values ++ [none] }

theorem OptionTable.Wf.addName_erase (h : o.Wf) (hroom : o.names.length < maxNumOptions) :
    (o.addName.erase .inOption).Wf where
  length_eq := by simp [OptionTable.erase, OptionTable.keep, OptionTable.addName, h.length_eq]
  named _ := by simp [OptionTable.erase, OptionTable.keep, OptionTable.addName]
  names_le p hp := by
    have hmem : p ∈ o.names ∨ p = o.string.length + 1 := by
      simpa [OptionTable.erase, OptionTable.keep, OptionTable.addName] using hp
    have hlength : (o.addName.erase .inOption).string.length = o.string.length + 1 := by
      simp [OptionTable.erase, OptionTable.keep, OptionTable.addName]
    rw [hlength]
    rcases hmem with hmem | rfl
    · exact (h.names_le p hmem).trans (Nat.le_succ _)
    · exact le_rfl
  values_le p hp := by
    have hmem : some p ∈ o.values := by
      simpa [OptionTable.erase, OptionTable.keep, OptionTable.addName] using hp
    exact (h.values_le p hmem).trans
      (by simp [OptionTable.erase, OptionTable.keep, OptionTable.addName])
  length_le := by
    simpa [OptionTable.erase, OptionTable.keep, OptionTable.addName] using hroom

theorem OptionTable.Wf.step (h : o.Wf) {ch : Char} (hstep : o.step ch = some o') : o'.Wf := by
  have helse (state : State) (hstate : state ≠ .inOption ∧ state ≠ .seenEqual) :
      state = .inOption ∨ state = .seenEqual → 0 < o.names.length :=
    fun heq ↦ (heq.elim hstate.1 hstate.2).elim
  cases hstate : o.state <;> simp only [OptionTable.step, hstate] at hstep
  case inOption =>
    have hpos := h.named (Or.inl hstate)
    split_ifs at hstep <;> cases hstep <;> exact h.keep _ fun _ ↦ hpos
  case inValue =>
    split_ifs at hstep <;> cases hstep <;> exact h.keep _ (helse _ (by decide))
  case inLiteralValue =>
    split_ifs at hstep <;> cases hstep <;> exact h.keep _ (helse _ (by decide))
  case seenEqual =>
    split_ifs at hstep <;> cases hstep
    · exact h.setValue_keep le_rfl _ (by decide)
    · exact h.setValue_keep (Nat.le_succ _) _ (by decide)
    · exact h.keep _ (helse _ (by decide))
  case seenDash =>
    split_ifs at hstep with hdash hroom <;> cases hstep
    · exact h.addName_erase hroom
    · exact h.keep _ (helse _ (by decide))
  case elsewhere =>
    split_ifs at hstep <;> cases hstep <;> exact h.keep _ (helse _ (by decide))

/-- The variables when the table was read, over what was in the globals before. -/
def scanOf (g : Globals) (o : OptionTable) : Scan where
  globals := { g with
    optionString := store g.optionString 0 o.string
    optionNames := store g.optionNames 0 (o.names.map some)
    optionValues := store g.optionValues 0 (o.values.map some) }
  state := o.state
  numOptions := o.names.length

theorem scanOf_keep (state : State) :
    scanOf g (o.keep (g.optionString o.string.length) state) = (scanOf g o).goto state := by
  have hsame : store g.optionString 0 (o.string ++ [g.optionString o.string.length]) =
      store g.optionString 0 o.string := by
    have hold : store g.optionString 0 o.string o.string.length =
        g.optionString o.string.length := store_of_ge (by omega)
    rw [store_append, store_singleton, Nat.zero_add, ← hold, update_eq_self]
  rw [scanOf, scanOf, Scan.goto, OptionTable.keep]
  dsimp only
  rw [hsame]

theorem scanOf_erase (state : State) :
    scanOf g (o.erase state) = (scanOf g o).erase o.string.length state := by
  rw [scanOf, scanOf, Scan.erase, OptionTable.erase, OptionTable.keep]
  dsimp only
  rw [store_append, store_singleton, Nat.zero_add]

theorem scanOf_setValue (h : o.Wf) (hpos : 0 < o.names.length) (position : ℕ) :
    scanOf g (o.setValue position) = (scanOf g o).setValue position := by
  have hlt : o.names.length - 1 < (o.values.map some).length := by
    rw [List.length_map, ← h.length_eq]
    omega
  rw [scanOf, scanOf, Scan.setValue, OptionTable.setValue]
  dsimp only
  rw [List.map_set, store_set hlt, Nat.zero_add]

theorem scanOf_addName (h : o.Wf) :
    scanOf g o.addName = (scanOf g o).addName (o.string.length + 1) := by
  rw [scanOf, scanOf, Scan.addName, OptionTable.addName]
  dsimp only
  rw [List.map_append, List.map_append, store_append, store_append, List.map_singleton,
    List.map_singleton, store_singleton, store_singleton, List.length_map, List.length_map,
    ← h.length_eq, Nat.zero_add, List.length_append, List.length_singleton]

theorem step_scanOf (h : o.Wf) :
    (scanOf g o).step o.string.length =
      (o.step (g.optionString o.string.length)).map (scanOf g) := by
  have hch : (scanOf g o).globals.optionString o.string.length =
      g.optionString o.string.length := by
    dsimp only [scanOf]
    exact store_of_ge (by omega)
  have hgoto : (scanOf g o).goto o.state = scanOf g o := rfl
  have hnum : (scanOf g o).numOptions = o.names.length := rfl
  have hstate' : (scanOf g o).state = o.state := rfl
  cases hstate : o.state <;>
    simp only [Scan.step, OptionTable.step, hstate', hstate, hch]
  case inOption =>
    split_ifs
    · rw [Option.map_some, scanOf_keep, ← hstate, hgoto]
    · rw [Option.map_some, scanOf_erase]
    · rw [Option.map_some, scanOf_erase]
  case inValue =>
    split_ifs
    · rw [Option.map_some, scanOf_keep, ← hstate, hgoto]
    · rw [Option.map_some, scanOf_erase]
  case inLiteralValue =>
    split_ifs
    · rw [Option.map_some, scanOf_erase]
    · rfl
    · rw [Option.map_some, scanOf_keep, ← hstate, hgoto]
  case seenEqual =>
    have hpos := h.named (Or.inr hstate)
    split_ifs
    · rw [Option.map_some, scanOf_erase, scanOf_setValue h hpos]
      rfl
    · rw [Option.map_some, ← scanOf_setValue h hpos, ← scanOf_keep]
      rfl
    · rw [Option.map_some, scanOf_keep]
  case seenDash =>
    rw [hnum]
    split_ifs
    · rw [Option.map_some, ← scanOf_addName h]
      exact congrArg some (scanOf_erase (o := o.addName) .inOption).symm
    · rfl
    · rw [Option.map_some, scanOf_erase]
  case elsewhere =>
    split_ifs
    · rw [Option.map_some, scanOf_erase]
    · rw [Option.map_some, scanOf_erase]

theorem processOptionString_concat (options : List Char) (ch : Char) :
    Options.processOptionString (options ++ [ch]) =
      (Options.processOptionString options).bind (·.step ch) := by
  simp [Options.processOptionString, List.foldlM_append, Option.bind_eq_bind]

theorem length_processOptionString {options : List Char}
    (h : Options.processOptionString options = some o) : o.string.length = options.length ∧ o.Wf := by
  induction options using List.reverseRecOn generalizing o with
  | nil =>
    obtain rfl := Option.some_inj.1 h
    exact ⟨rfl, wf_fresh⟩
  | append_singleton options ch ih =>
    rw [processOptionString_concat, Option.bind_eq_some_iff] at h
    obtain ⟨o', ho', hlast⟩ := h
    obtain ⟨hlength, hwf⟩ := ih ho'
    rw [OptionTable.length_step hlast, hlength, List.length_append, List.length_singleton]
    exact ⟨rfl, hwf.step hlast⟩

theorem foldlM_scanOf (g : Globals) (n : ℕ) :
    (List.range n).foldlM Scan.step (scanOf g fresh) =
      (Options.processOptionString (load g.optionString 0 n)).map (scanOf g) := by
  induction n with
  | zero => rfl
  | succ n ih =>
    have hload : load g.optionString 0 (n + 1) = load g.optionString 0 n ++ [g.optionString n] := by
      simp [load, List.range_succ]
    rw [List.range_succ, List.foldlM_append, ih, hload, processOptionString_concat]
    cases hprocess : Options.processOptionString (load g.optionString 0 n) with
    | none => rfl
    | some o =>
      obtain ⟨hlength, hwf⟩ := length_processOptionString hprocess
      rw [length_load] at hlength
      have hstep := step_scanOf (g := g) hwf
      rw [hlength] at hstep
      simpa using hstep

def Globals.after (g : Globals) (o : OptionTable) : Globals where
  optionString := store g.optionString 0 (o.string ++ ['\x00'])
  optionStringLength := o.string.length
  optionNames := store g.optionNames 0 (o.names.map some)
  optionValues := store g.optionValues 0 (o.values.map some)
  optionsInitialized := true

theorem copyStringIntoOptions_eq (g : Globals) (offset : ℕ) (string : List Char) :
    g.copyStringIntoOptions offset string =
      ({ g with
        optionString :=
          store g.optionString offset ((cString string).take (maxOptionsLength - offset)) },
        offset + ((cString string).take (maxOptionsLength - offset)).length) := by
  induction string generalizing g offset with
  | nil => simp [Globals.copyStringIntoOptions, cString]
  | cons ch string ih =>
    rw [Globals.copyStringIntoOptions]
    by_cases hnul : ch = '\x00'
    · simp [hnul, cString]
    · have hcons : cString (ch :: string) = ch :: cString string :=
        List.takeWhile_cons_of_pos (decide_eq_true hnul)
      by_cases hroom : offset < maxOptionsLength
      · have hone : maxOptionsLength - offset = maxOptionsLength - (offset + 1) + 1 := by omega
        rw [if_pos ⟨hroom, hnul⟩, ih, hcons, hone, List.take_succ_cons, store_cons,
          List.length_cons, Nat.add_assoc, Nat.add_comm 1]
      · have hfull : maxOptionsLength - offset = 0 := by omega
        rw [if_neg (by simp [hroom]), hfull]
        simp

theorem initOptions_eq (g : Globals) (rawOptions : List Char) :
    g.initOptions rawOptions = (Options.initOptions (cString rawOptions)).map g.after := by
  have hcopy : Options.copyStringIntoOptions [] (cString rawOptions) =
      (cString rawOptions).take maxOptionsLength := by
    simp [Options.copyStringIntoOptions]
  rw [Globals.initOptions, copyStringIntoOptions_eq, Options.initOptions, hcopy, Nat.zero_add,
    Nat.sub_zero]
  generalize (cString rawOptions).take maxOptionsLength = options
  simp only [Globals.terminateOptionString, Options.terminateOptionString]
  split_ifs with hlen
  · simp only [Option.bind_eq_bind, Option.bind_some, Globals.processOptionString]
    have hscan : (⟨{ g with
        optionString := update (store g.optionString 0 options) options.length '\x00'
        optionStringLength := options.length }, .elsewhere, 0⟩ : Scan) =
        scanOf { g with
          optionString := update (store g.optionString 0 options) options.length '\x00'
          optionStringLength := options.length } fresh := by
      simp [scanOf, fresh]
    have hload : load (update (store g.optionString 0 options) options.length '\x00') 0
        options.length = options := by
      refine Eq.trans (load_congr fun i _ hlt ↦ ?_) (load_store g.optionString _ _)
      exact update_of_ne (by omega) ..
    rw [hscan, foldlM_scanOf, hload]
    cases hprocess : Options.processOptionString options with
    | none => rfl
    | some o =>
      have hlength := (length_processOptionString hprocess).1
      have hstring : store (update (store g.optionString 0 options) options.length '\x00') 0
          o.string = store g.optionString 0 (o.string ++ ['\x00']) := by
        rw [← store_singleton, store_comm (by omega), store_store (by omega), store_append, hlength,
          Nat.zero_add]
      simp only [Option.map_some, Option.bind_some, scanOf, Globals.after, hstring, hlength]
      rfl
  · rfl

end Scanning

section Entries

variable {g : Globals} {o : OptionTable} {K : ℕ}

def Globals.entry (g : Globals) (i : ℕ) : List Char × Option (List Char) :=
  (((g.optionNames i).map g.textAt).getD [], g.valueText i)

/-- The first `K` names are there, with values, and no others. -/
structure Filled (g : Globals) (K : ℕ) : Prop where
  le_max : K ≤ maxNumOptions
  names (i : ℕ) : (g.optionNames i).isSome ↔ i < K
  values (i : ℕ) : i < K → (g.optionValues i).isSome

theorem filled_initial : Filled .initial 0 where
  le_max := Nat.zero_le _
  names := by simp [Globals.initial]
  values := by simp

theorem isSome_store {β : Type*} (mem : ℕ → Option β) (xs : List β) (i : ℕ) :
    (store mem 0 (xs.map some) i).isSome ↔ i < xs.length ∨ (mem i).isSome := by
  by_cases hi : i < xs.length
  · have hget := store_add mem 0 (show i < (xs.map some).length by simpa using hi)
    rw [Nat.zero_add] at hget
    simp [hget, hi]
  · rw [store_of_ge (by rw [List.length_map]; omega)]
    simp [hi]

theorem Filled.after (h : Filled g K) (ho : o.Wf) : Filled (g.after o) (max K o.names.length) where
  le_max := max_le h.le_max ho.length_le
  names i := by
    rw [Globals.after, isSome_store, h.names, lt_max_iff, or_comm]
  values i hi := by
    rw [Globals.after, isSome_store, ← ho.length_eq]
    exact (lt_max_iff.1 hi).symm.imp_right (h.values i)

theorem Filled.findFrom_eq (h : Filled g K) (name : List Char) {n i : ℕ} (hi : i ≤ K)
    (hn : K ≤ i + n) : g.findFrom name n i =
      (((List.range' i (K - i)).map g.entry).find? (·.1 = name)).bind (·.2) := by
  induction n generalizing i with
  | zero =>
    have hnone : K - i = 0 := by omega
    rw [Globals.findFrom, hnone]
    rfl
  | succ n ih =>
    rw [Globals.findFrom]
    cases hname : g.optionNames i with
    | none =>
      have hlast : ¬i < K := by simp [← h.names, hname]
      have hnone : K - i = 0 := by omega
      rw [hnone]
      rfl
    | some position =>
      have hlt : i < K := by simp [← h.names, hname]
      have hone : K - i = K - (i + 1) + 1 := by omega
      have hentry : g.entry i = (g.textAt position, g.valueText i) := by
        rw [Globals.entry, hname]
        rfl
      rw [hone, List.range'_succ, List.map_cons, List.find?_cons, hentry]
      by_cases hmatch : g.textAt position = name
      · simp [hmatch]
      · simp only [hmatch, if_false, decide_false]
        exact ih (by omega) (by omega)

theorem Filled.findValueForName_eq (h : Filled g K) (name : List Char) :
    g.findValueForName name = (((List.range K).map g.entry).find? (·.1 = name)).bind (·.2) := by
  have hle := h.le_max
  rw [Globals.findValueForName, h.findFrom_eq name (Nat.zero_le K) (by omega), Nat.sub_zero,
    List.range_eq_range']

def OptionTable.entries (o : OptionTable) : List (List Char × Option (List Char)) :=
  (o.names.zip o.values).map fun e ↦ (o.stringAt e.1, some (o.valueString e.2))

theorem OptionTable.Wf.findValueForName_eq (h : o.Wf) (name : List Char) :
    Options.findValueForName o name = (o.entries.find? (·.1 = name)).bind (·.2) := by
  have htake : (o.names.zip o.values).take maxNumOptions = o.names.zip o.values := by
    apply List.take_of_length_le
    rw [List.length_zip, ← h.length_eq, min_self]
    exact h.length_le
  rw [Options.findValueForName, htake, OptionTable.entries, List.find?_map, Option.bind_map,
    Option.map_eq_bind]
  rfl

theorem textAt_after (hlen : o.string.length < maxOptionsLength) {position : ℕ}
    (hposition : position ≤ o.string.length) :
    (g.after o).textAt position = o.stringAt position := by
  have hdrop := load_store_drop g.optionString 0
    (show position ≤ (o.string ++ ['\x00']).length by rw [List.length_append]; omega)
  have hsplit : maxOptionsLength + 1 - position = (o.string ++ ['\x00']).length - position +
      (maxOptionsLength - o.string.length) := by
    rw [List.length_append, List.length_singleton]
    omega
  rw [Nat.zero_add] at hdrop
  rw [Globals.textAt, Globals.after, hsplit, load_add, hdrop, cString, OptionTable.stringAt,
    List.drop_append_of_le_length hposition, takeWhile_append_of_mem (by simp)]
  by_cases hnul : '\x00' ∈ o.string.drop position
  · exact takeWhile_append_of_mem hnul _
  · rw [takeWhile_eq_self hnul (by simp)]
    have hself : (o.string.drop position ++ []).takeWhile (· ≠ '\x00') = o.string.drop position :=
      takeWhile_eq_self hnul (by simp)
    rw [List.append_nil] at hself
    exact hself.symm

theorem entry_after_lt (ho : o.Wf) (hlen : o.string.length < maxOptionsLength) :
    (List.range o.names.length).map (g.after o).entry = o.entries := by
  have hlength := ho.length_eq
  apply List.ext_getElem
  · simp [OptionTable.entries, hlength]
  · intro i hi hi'
    rw [List.length_map, List.length_range] at hi
    have hvalues : i < o.values.length := hlength ▸ hi
    have hname : (g.after o).optionNames i = some o.names[i] := by
      have hget := store_add g.optionNames 0 (show i < (o.names.map some).length by simpa using hi)
      rwa [Nat.zero_add, List.getElem_map] at hget
    have hvalue : (g.after o).optionValues i = some o.values[i] := by
      have hget := store_add g.optionValues 0
        (show i < (o.values.map some).length by simpa using hvalues)
      rwa [Nat.zero_add, List.getElem_map] at hget
    have htext := textAt_after (g := g) hlen (ho.names_le _ (List.getElem_mem hi))
    simp only [OptionTable.entries, List.getElem_map, List.getElem_range, List.getElem_zip,
      Globals.entry, Globals.valueText, hname, hvalue, Option.map_some, Option.getD_some, htext]
    cases hposition : o.values[i] with
    | none => rfl
    | some position =>
      have hmem : some position ∈ o.values := hposition ▸ List.getElem_mem _
      have hvalue := textAt_after (g := g) hlen (ho.values_le _ hmem)
      exact congrArg (fun text ↦ (o.stringAt o.names[i], some text)) hvalue

def State.next (state : State) (ch : Char) : State :=
  match state with
  | .inOption =>
    if isValidOptionChar ch then .inOption else if ch = '=' then .seenEqual else .elsewhere
  | .inValue => if isValidValueChar ch then .inValue else .elsewhere
  | .inLiteralValue => if ch = ']' then .elsewhere else .inLiteralValue
  | .seenEqual =>
    if ch = '[' then .inLiteralValue else if isValidValueChar ch then .inValue else .elsewhere
  | .seenDash => if ch = '-' then .inOption else .elsewhere
  | .elsewhere => if ch = '-' then .seenDash else .elsewhere

/-- A character stands in a name or a value, or right after `=`. -/
def State.reads (state : State) (ch : Char) : Bool :=
  match state with
  | .inOption => isValidOptionChar ch
  | .inValue => isValidValueChar ch
  | .inLiteralValue => ch ≠ ']'
  | .seenEqual => ch ≠ '['
  | .seenDash | .elsewhere => false

/-- An option string without the characters between its names and values. -/
def readText : State → List Char → List (Option Char)
  | _, [] => []
  | state, ch :: text => (if state.reads ch then some ch else none) :: readText (state.next ch) text

/-- The rest of the name or of the value that is at a position. -/
def wordAt (text : List Char) (position : ℕ) : List Char :=
  (((readText .elsewhere text).drop position).takeWhile Option.isSome).reduceOption

def namePositions : State → ℕ → List Char → List ℕ
  | _, _, [] => []
  | state, here, ch :: text =>
    (if state = .seenDash ∧ ch = '-' then [here + 1] else []) ++
      namePositions (state.next ch) (here + 1) text

def optionNames (text : List Char) : List (List Char) :=
  (namePositions .elsewhere 0 text).map (wordAt text)

/-- What is at a position when a text was written over the option string. -/
def Globals.readAt (g : Globals) (text : List Char) (position : ℕ) : List Char :=
  if position ≤ text.length then wordAt text position else g.textAt position

theorem OptionTable.step_eq {o' : OptionTable} {ch : Char} (h : o.step ch = some o') :
    o'.state = o.state.next ch ∧
      o'.string = o.string ++ [if o.state.reads ch then ch else '\x00'] ∧
      o'.names = o.names ++ if o.state = .seenDash ∧ ch = '-' then [o.string.length + 1] else [] := by
  rw [OptionTable.step] at h
  cases hstate : o.state with
  | _ =>
    simp only [hstate] at h
    split_ifs at h
    all_goals
      obtain rfl := Option.some.inj h
      simp_all [State.next, State.reads, OptionTable.keep, OptionTable.erase, OptionTable.setValue]

theorem foldlM_step {o' : OptionTable} {text : List Char}
    (h : text.foldlM OptionTable.step o = some o') :
    o'.string = o.string ++ (readText o.state text).map (·.getD '\x00') ∧
      o'.names = o.names ++ namePositions o.state o.string.length text := by
  induction text generalizing o with
  | nil =>
    obtain rfl := Option.some.inj h
    simp [readText, namePositions]
  | cons ch text ih =>
    rw [List.foldlM_cons] at h
    obtain ⟨o₁, hstep, hrest⟩ := Option.bind_eq_some_iff.mp h
    obtain ⟨hstate, hstring, hnames⟩ := OptionTable.step_eq hstep
    obtain ⟨hstring', hnames'⟩ := ih hrest
    rw [hstring', hnames', hstate, hstring, hnames]
    refine ⟨?_, ?_⟩
    · rw [readText, List.map_cons, List.append_assoc, List.singleton_append]
      congr 2
      split_ifs <;> rfl
    · rw [namePositions, List.append_assoc, List.length_append, List.length_singleton]

theorem nul_notMem_words {state : State} {text : List Char} (hnul : '\x00' ∉ text) :
    some '\x00' ∉ readText state text := by
  induction text generalizing state with
  | nil => exact List.not_mem_nil
  | cons ch text ih =>
    rw [List.mem_cons, not_or] at hnul
    rw [readText, List.mem_cons, not_or]
    refine ⟨fun h ↦ hnul.1 ?_, ih hnul.2⟩
    split_ifs at h
    exact Option.some.inj h

theorem takeWhile_map_getD {ws : List (Option Char)} (hnul : some '\x00' ∉ ws) :
    (ws.map (·.getD '\x00')).takeWhile (· ≠ '\x00') = (ws.takeWhile Option.isSome).reduceOption := by
  induction ws with
  | nil => rfl
  | cons w ws ih =>
    rw [List.mem_cons, not_or] at hnul
    cases w with
    | none => rfl
    | some ch =>
      have hch : ch ≠ '\x00' := fun h ↦ hnul.1 (h ▸ rfl)
      rw [List.map_cons, Option.getD_some, List.takeWhile_cons_of_pos (by simpa using hch),
        List.takeWhile_cons_of_pos rfl, List.reduceOption_cons_of_some, ih hnul.2]

theorem stringAt_eq {text : List Char} (ho : Options.processOptionString text = some o)
    (hnul : '\x00' ∉ text) (position : ℕ) : o.stringAt position = wordAt text position := by
  have hstring : o.string = (readText .elsewhere text).map (·.getD '\x00') := (foldlM_step ho).1
  rw [OptionTable.stringAt, hstring, ← List.map_drop, takeWhile_map_getD, wordAt]
  exact fun h ↦ nul_notMem_words hnul (List.mem_of_mem_drop h)

theorem optionNames_eq {text : List Char} (ho : Options.processOptionString text = some o)
    (hnul : '\x00' ∉ text) : optionNames text = o.names.map o.stringAt := by
  have hnames : o.names = namePositions .elsewhere 0 text := (foldlM_step ho).2
  rw [optionNames, hnames]
  exact List.map_congr_left fun position _ ↦ (stringAt_eq ho hnul position).symm

theorem textAt_after_of_lt {position : ℕ} (hposition : o.string.length < position) :
    (g.after o).textAt position = g.textAt position := by
  refine congrArg cString (load_congr fun i hi _ ↦ ?_)
  have hlength : 0 + (o.string ++ ['\x00']).length ≤ i := by
    rw [List.length_append, List.length_singleton]
    omega
  exact store_of_ge hlength

theorem textAt_after_eq {text : List Char} (ho : Options.processOptionString text = some o)
    (hnul : '\x00' ∉ text) (hlen : text.length < maxOptionsLength) (position : ℕ) :
    (g.after o).textAt position = g.readAt text position := by
  have hlength := (length_processOptionString ho).1
  rw [Globals.readAt]
  split_ifs with hposition
  · rw [textAt_after (hlength ▸ hlen) (hlength ▸ hposition), stringAt_eq ho hnul]
  · exact textAt_after_of_lt (by omega)

/-- The entries of earlier calls that the last call does not reach. -/
def Globals.stale (g : Globals) (o : OptionTable) (K : ℕ) : List (List Char × Option (List Char)) :=
  (List.range' o.names.length (K - o.names.length)).map (g.after o).entry

theorem Filled.findValueForName_after (h : Filled g K) (ho : o.Wf)
    (hlen : o.string.length < maxOptionsLength) (name : List Char) :
    (g.after o).findValueForName name =
      ((o.entries ++ g.stale o K).find? (·.1 = name)).bind (·.2) := by
  have hrange : List.range (max K o.names.length) = List.range o.names.length ++
      List.range' o.names.length (K - o.names.length) := by
    have hmax : max K o.names.length = o.names.length + (K - o.names.length) := by omega
    rw [hmax, List.range_eq_range', List.range_eq_range', ← List.range'_append_1, Nat.zero_add]
  rw [(h.after ho).findValueForName_eq, hrange, List.map_append, entry_after_lt ho hlen]
  rfl

/-- More entries after those of a table change no answer, if and only if their names are in it. -/
theorem find?_append_eq_iff {A B : List (List Char × Option (List Char))}
    (hB : ∀ e ∈ B, e.2.isSome) :
    (∀ name, ((A ++ B).find? (·.1 = name)).bind (·.2) = (A.find? (·.1 = name)).bind (·.2)) ↔
      ∀ e ∈ B, e.1 ∈ A.map (·.1) := by
  have hnone {A : List (List Char × Option (List Char))} {name : List Char} :
      A.find? (·.1 = name) = none ↔ name ∉ A.map (·.1) := by
    simp only [List.find?_eq_none, List.mem_map, not_exists, not_and, decide_eq_true_eq]
  constructor
  · intro h e he
    by_contra hmem
    have hA := hnone.2 hmem
    have heq := h e.1
    rw [List.find?_append, hA, Option.none_or, Option.bind_none] at heq
    cases hfind : B.find? (·.1 = e.1) with
    | none => exact hnone.1 hfind (List.mem_map_of_mem he)
    | some e' =>
      rw [hfind, Option.bind_some] at heq
      have hsome := hB e' (List.mem_of_find?_eq_some hfind)
      rw [heq] at hsome
      cases hsome
  · intro h name
    rw [List.find?_append]
    cases hA : A.find? (·.1 = name) with
    | some e => rfl
    | none =>
      have hBnone : B.find? (·.1 = name) = none := by
        rw [hnone]
        intro hmem
        obtain ⟨e, he, rfl⟩ := List.mem_map.1 hmem
        exact hnone.1 hA (h e he)
      rw [Option.none_or, hBnone]

/-- No name of an earlier call that the last call does not reach is new to it, where it is read at its
old position in the text of the last call, or in what was there before behind that text. -/
def Covered (g : Globals) (text : List Char) : Prop :=
  ∀ i position, (optionNames text).length ≤ i → g.optionNames i = some position →
    g.readAt text position ∈ optionNames text

theorem optionNames_after {i : ℕ} (hi : o.names.length ≤ i) :
    (g.after o).optionNames i = g.optionNames i := by
  have hlength : 0 + (o.names.map some).length ≤ i := by rwa [List.length_map, Nat.zero_add]
  exact store_of_ge hlength

theorem Filled.covered_iff (h : Filled g K) {text : List Char}
    (ho : Options.processOptionString text = some o) (hnul : '\x00' ∉ text)
    (hlen : text.length < maxOptionsLength) :
    Covered g text ↔ ∀ e ∈ g.stale o K, e.1 ∈ o.entries.map (·.1) := by
  have hwf := (length_processOptionString ho).2
  have hentries : o.entries.map (·.1) = optionNames text := by
    rw [optionNames_eq ho hnul, OptionTable.entries, List.map_map]
    have hzip : (o.names.zip o.values).map (·.1) = o.names := List.map_fst_zip hwf.length_eq.le
    conv_rhs => rw [← hzip, List.map_map]
    rfl
  have hcount : (optionNames text).length = o.names.length := by
    rw [optionNames_eq ho hnul, List.length_map]
  rw [hentries]
  constructor
  · intro hcovered e he
    obtain ⟨i, hi, rfl⟩ := List.mem_map.1 he
    rw [List.mem_range'_1] at hi
    obtain ⟨position, hposition⟩ := Option.isSome_iff_exists.1 ((h.names i).2 (by omega))
    have htext := hcovered i position (by omega) hposition
    rwa [Globals.entry, optionNames_after hi.1, hposition, Option.map_some, Option.getD_some,
      textAt_after_eq ho hnul hlen]
  · intro hstale i position hi hposition
    have hlt : i < K := (h.names i).1 (by simp [hposition])
    have he := hstale _ (List.mem_map_of_mem (a := i) (by rw [List.mem_range'_1]; omega))
    rwa [Globals.entry, optionNames_after (by omega), hposition, Option.map_some, Option.getD_some,
      textAt_after_eq ho hnul hlen] at he

theorem Filled.covered_of_le (h : Filled g K) {text : List Char}
    (hle : K ≤ (optionNames text).length) : Covered g text := by
  intro i position hi hposition
  have hlt : i < K := (h.names i).1 (by simp [hposition])
  omega

theorem Filled.isSome_stale (h : Filled g K) (ho : o.Wf) :
    ∀ e ∈ g.stale o K, e.2.isSome := by
  intro e he
  obtain ⟨i, hi, rfl⟩ := List.mem_map.1 he
  rw [List.mem_range'_1] at hi
  have hvalue := (h.after ho).values i (lt_max_of_lt_left (by omega))
  simpa [Globals.entry, Globals.valueText] using hvalue

theorem findValueForName_initial_after (ho : o.Wf) (hlen : o.string.length < maxOptionsLength)
    (name : List Char) :
    (Globals.initial.after o).findValueForName name = Options.findValueForName o name := by
  rw [filled_initial.findValueForName_after ho hlen, Globals.stale, Nat.zero_sub,
    ho.findValueForName_eq]
  simp

end Entries

theorem processOptionString_of_initOptions {o : OptionTable} {text : List Char}
    (h : Options.initOptions text = some o) :
    Options.processOptionString text = some o ∧ text.length < maxOptionsLength := by
  obtain ⟨options, hoptions, hprocess⟩ := Option.bind_eq_some_iff.1 h
  rw [terminateOptionString] at hoptions
  split_ifs at hoptions with hlen
  obtain rfl := Option.some_inj.1 hoptions
  -- all of the text was copied, since the copy is not as long as it may be
  have hcopy : Options.copyStringIntoOptions [] text = text.take maxOptionsLength := by
    simp [Options.copyStringIntoOptions]
  rw [hcopy] at hlen hprocess
  rw [List.length_take, gt_iff_lt, min_lt_iff, or_iff_right (lt_irrefl _)] at hlen
  rw [List.take_of_length_le hlen.le] at hprocess
  exact ⟨hprocess, hlen⟩

theorem wf_of_initOptions {o : OptionTable} {text : List Char}
    (h : Options.initOptions text = some o) : o.Wf ∧ o.string.length < maxOptionsLength := by
  obtain ⟨hprocess, hlen⟩ := processOptionString_of_initOptions h
  obtain ⟨hlength, hwf⟩ := length_processOptionString hprocess
  exact ⟨hwf, hlength ▸ hlen⟩

theorem exists_filled {calls : List (List Char)}
    (h : ∀ raw ∈ calls, (Options.initOptions (cString raw)).isSome) :
    ∃ g, run Globals.initOptions .initial calls = some g ∧ ∃ K, Filled g K := by
  apply exists_run (I := fun _ g ↦ ∃ K, Filled g K)
  · intro past raw g hpast _ ⟨K, hK⟩
    obtain ⟨o, ho⟩ := Option.isSome_iff_exists.1 (h raw (hpast.subset (by simp)))
    refine ⟨g.after o, ?_, _, hK.after (wf_of_initOptions ho).1⟩
    rw [initOptions_eq, ho, Option.map_some]
  · exact ⟨0, filled_initial⟩

/-- After the last of several calls every name is found as in a process with the last call only, if
and only if the names that earlier calls left behind are names of the last call. -/
theorem initOptions_forgets_iff (past : List (List Char)) (last : List Char)
    (h : ∀ raw ∈ past ++ [last], (Options.initOptions (cString raw)).isSome) :
    ∃ g s only, run Globals.initOptions .initial past = some g ∧
      run Globals.initOptions .initial (past ++ [last]) = some s ∧
      run Globals.initOptions .initial [last] = some only ∧
      ((∀ name, s.findValueForName name = only.findValueForName name) ↔
        Covered g (cString last)) := by
  obtain ⟨g, hrun, K, hK⟩ := exists_filled fun raw hraw ↦ h raw (List.mem_append_left _ hraw)
  obtain ⟨o, ho⟩ := Option.isSome_iff_exists.1 (h last (by simp))
  obtain ⟨hwf, hlen⟩ := wf_of_initOptions ho
  obtain ⟨hprocess, htext⟩ := processOptionString_of_initOptions ho
  refine ⟨g, g.after o, Globals.initial.after o, hrun, ?_, ?_, ?_⟩
  · rw [run_concat, hrun, Option.bind_some, initOptions_eq, ho, Option.map_some]
  · rw [← List.nil_append [last], run_concat, run_nil, Option.bind_some, initOptions_eq, ho,
      Option.map_some]
  · rw [hK.covered_iff hprocess (nul_notMem_cString last) htext,
      ← find?_append_eq_iff (hK.isSome_stale hwf)]
    apply forall_congr'
    intro name
    rw [hK.findValueForName_after hwf hlen, findValueForName_initial_after hwf hlen,
      hwf.findValueForName_eq]

theorem initOptions_forgets_iff_tools :
    (∀ raw ∈ ["--tools=a".toList] ++ ["--tools=b".toList],
        (Options.initOptions (cString raw)).isSome) ∧
      ∃ s only, run Globals.initOptions .initial ["--tools=a".toList, "--tools=b".toList] = some s ∧
        run Globals.initOptions .initial ["--tools=b".toList] = some only ∧
        ∀ name, s.findValueForName name = only.findValueForName name := by
  have hcalls : ∀ raw ∈ ["--tools=a".toList] ++ ["--tools=b".toList],
      (Options.initOptions (cString raw)).isSome := by decide +kernel
  refine ⟨hcalls, ?_⟩
  obtain ⟨g, s, only, hg, hs, honly, hiff⟩ :=
    initOptions_forgets_iff ["--tools=a".toList] "--tools=b".toList hcalls
  refine ⟨s, only, hs, honly, hiff.2 ?_⟩
  obtain ⟨o₁, ho₁⟩ := Option.isSome_iff_exists.1 (hcalls "--tools=a".toList (by simp))
  have hg' : g = Globals.initial.after o₁ := by
    rw [← List.nil_append ["--tools=a".toList], run_concat, run_nil, Option.bind_some,
      initOptions_eq, ho₁] at hg
    exact (Option.some_inj.1 hg).symm
  have hfilled := filled_initial.after (wf_of_initOptions ho₁).1
  rw [← hg', Nat.zero_max] at hfilled
  apply hfilled.covered_of_le
  have hone : (Options.initOptions (cString "--tools=a".toList)).map (·.names.length) =
      some (optionNames (cString "--tools=b".toList)).length := by decide +kernel
  rw [ho₁] at hone
  exact (Option.some_inj.1 hone).le

/-- An option of an earlier call is still found after a call without options. -/
theorem initOptions_remembers :
    ∃ s only, run Globals.initOptions .initial ["--tools".toList, []] = some s ∧
      run Globals.initOptions .initial [[]] = some only ∧
      s.findValueForName "tools".toList = some [] ∧
      only.findValueForName "tools".toList = none :=
  ⟨_, _, rfl, rfl, by decide +kernel, by decide +kernel⟩

end Granary.Base.Options
