import Mathlib.Data.List.Basic
import Mathlib.Tactic

namespace Granary.Base.Options

def maxNumOptions : ℕ := 32

def maxOptionsLength : ℕ := 1024 - 1

/-- The characters that fit are copied. -/
def copyStringIntoOptions (options string : List Char) : List Char :=
  options ++ string.take (maxOptionsLength - options.length)

def terminateOptionString (options : List Char) : Option (List Char) :=
  if maxOptionsLength > options.length then some options else none

def isValidOptionChar (ch : Char) : Bool :=
  ('a' ≤ ch ∧ ch ≤ 'z') ∨ ('A' ≤ ch ∧ ch ≤ 'Z') ∨ '_' = ch

def isValidValueChar (ch : Char) : Bool :=
  ' ' < ch ∧ ch ≤ '~' ∧ '[' ≠ ch ∧ ']' ≠ ch

inductive State where
  | inOption
  | inValue
  | inLiteralValue
  | seenEqual
  | seenDash
  | elsewhere
  deriving DecidableEq, Repr

/-- `string` is the option string up to the current character, as it was rewritten. Names and values
are positions in it, where no position stands for the constant empty string. -/
structure OptionTable where
  string : List Char
  state : State
  names : List ℕ
  values : List (Option ℕ)
  deriving DecidableEq, Repr

namespace OptionTable

def keep (o : OptionTable) (ch : Char) (state : State) : OptionTable :=
  { o with string := o.string ++ [ch], state := state }

def erase (o : OptionTable) (state : State) : OptionTable :=
  o.keep '\x00' state

def setValue (o : OptionTable) (position : ℕ) : OptionTable :=
  { o with values := o.values.set (o.names.length - 1) (some position) }

def step (o : OptionTable) (ch : Char) : Option OptionTable :=
  let here := o.string.length
  match o.state with
  | .inOption =>
    if isValidOptionChar ch then some (o.keep ch .inOption)
    else if ch = '=' then some (o.erase .seenEqual)
    else some (o.erase .elsewhere)
  | .inValue => if isValidValueChar ch then some (o.keep ch .inValue) else some (o.erase .elsewhere)
  | .inLiteralValue =>
    if ch = ']' then some (o.erase .elsewhere)
    else if ch ≠ ' ' ∧ ¬isValidValueChar ch then none
    else some (o.keep ch .inLiteralValue)
  | .seenEqual =>
    if ch = '[' then some ((o.setValue (here + 1)).erase .inLiteralValue)
    else if isValidValueChar ch then some ((o.setValue here).keep ch .inValue)
    else some (o.keep ch .elsewhere)
  | .seenDash =>
    if ch = '-' then
      if maxNumOptions > o.names.length then
        some ({ o with names := o.names ++ [here + 1], values := o.values ++ [none] }.erase
          .inOption)
      else none
    else some (o.erase .elsewhere)
  | .elsewhere => if ch = '-' then some (o.erase .seenDash) else some (o.erase .elsewhere)

def stringAt (o : OptionTable) (position : ℕ) : List Char :=
  (o.string.drop position).takeWhile (· ≠ '\x00')

def valueString (o : OptionTable) : Option ℕ → List Char
  | none => []
  | some position => o.stringAt position

end OptionTable

def fresh : OptionTable where
  string := []
  state := .elsewhere
  names := []
  values := []

def processOptionString (options : List Char) : Option OptionTable :=
  options.foldlM OptionTable.step fresh

def initOptions (rawOptions : List Char) : Option OptionTable := do
  let options ← terminateOptionString (copyStringIntoOptions [] rawOptions)
  processOptionString options

def findValueForName (o : OptionTable) (name : List Char) : Option (List Char) :=
  (((o.names.zip o.values).take maxNumOptions).find? fun e ↦ o.stringAt e.1 = name).map fun e ↦
    o.valueString e.2

inductive Value where
  | positional
  | word (text : List Char)
  | literal (text : List Char)
  deriving DecidableEq, Repr

def Value.text : Value → List Char
  | positional => []
  | word text => text
  | literal text => text

def Value.render : Value → List Char
  | positional => []
  | word text => '=' :: text
  | literal text => '=' :: '[' :: (text ++ [']'])

structure Opt where
  name : List Char
  value : Value
  deriving DecidableEq, Repr

def Opt.render (o : Opt) : List Char :=
  '-' :: '-' :: (o.name ++ o.value.render)

def render (opts : List Opt) : List Char :=
  [' '].intercalate (opts.map Opt.render)

structure Opt.Valid (o : Opt) : Prop where
  name_ne_nil : o.name ≠ []
  name_valid : ∀ ch ∈ o.name, isValidOptionChar ch
  word_valid : ∀ text, o.value = .word text → ∀ ch ∈ text, isValidValueChar ch
  literal_valid : ∀ text, o.value = .literal text → ∀ ch ∈ text, ch = ' ' ∨ isValidValueChar ch

section Strings

variable {s : List Char}

theorem takeWhile_append_of_mem (h : '\x00' ∈ s) (more : List Char) :
    (s ++ more).takeWhile (· ≠ '\x00') = s.takeWhile (· ≠ '\x00') := by
  induction s with
  | nil => exact absurd h List.not_mem_nil
  | cons c s ih =>
    rw [List.cons_append]
    by_cases hc : c = '\x00'
    · rw [List.takeWhile_cons_of_neg (by simp [hc]), List.takeWhile_cons_of_neg (by simp [hc])]
    · rw [List.takeWhile_cons_of_pos (by simpa using hc),
        List.takeWhile_cons_of_pos (by simpa using hc),
        ih ((List.mem_cons.1 h).resolve_left (Ne.symm hc))]

theorem takeWhile_eq_self (h : '\x00' ∉ s) {more : List Char}
    (hmore : ∀ ch ∈ more.head?, ch = '\x00') :
    (s ++ more).takeWhile (· ≠ '\x00') = s := by
  induction s with
  | nil =>
    cases more with
    | nil => rfl
    | cons c more => rw [List.nil_append, List.takeWhile_cons_of_neg (by simp [hmore c (by simp)])]
  | cons c s ih =>
    rw [List.mem_cons, not_or] at h
    rw [List.cons_append, List.takeWhile_cons_of_pos (by simpa using Ne.symm h.1), ih h.2]

end Strings

section Holding

variable {o o' : OptionTable} {opts : List Opt} {more : List Char}

def OptionTable.Closed (o : OptionTable) (position : ℕ) : Prop :=
  '\x00' ∈ o.string.drop position

theorem OptionTable.Closed.le_length {position : ℕ} (h : o.Closed position) :
    position ≤ o.string.length := by
  by_contra hlt
  rw [OptionTable.Closed, List.drop_eq_nil_of_le (by omega)] at h
  exact absurd h List.not_mem_nil

theorem OptionTable.Closed.append {position : ℕ} (h : o.Closed position)
    (hstring : o'.string = o.string ++ more) :
    o'.Closed position ∧ o'.stringAt position = o.stringAt position := by
  have hdrop : o'.string.drop position = o.string.drop position ++ more := by
    rw [hstring, List.drop_append_of_le_length h.le_length]
  refine ⟨?_, ?_⟩
  · rw [OptionTable.Closed, hdrop]
    exact List.mem_append_left more h
  · rw [OptionTable.stringAt, hdrop, takeWhile_append_of_mem h, OptionTable.stringAt]

structure AllClosed (o : OptionTable) : Prop where
  names : ∀ position ∈ o.names, o.Closed position
  values : ∀ position, some position ∈ o.values → o.Closed position

/-- The names and values of the options are where they should be. -/
structure Holds (o : OptionTable) (opts : List Opt) : Prop where
  names : o.names.map o.stringAt = opts.map Opt.name
  values : o.values.map o.valueString = opts.map (·.value.text)

theorem AllClosed.map_stringAt (h : AllClosed o) (hstring : o'.string = o.string ++ more) :
    o.names.map o'.stringAt = o.names.map o.stringAt :=
  List.map_congr_left fun position hposition ↦ ((h.names position hposition).append hstring).2

theorem AllClosed.map_valueString (h : AllClosed o) (hstring : o'.string = o.string ++ more) :
    o.values.map o'.valueString = o.values.map o.valueString := by
  apply List.map_congr_left
  intro v hv
  cases v with
  | none => rfl
  | some position => exact ((h.values position hv).append hstring).2

end Holding

section One

variable {o : OptionTable} {opt : Opt}

theorem foldlM_keep (o : OptionTable) (state : State) (ho : o.state = state) {text : List Char}
    (h : ∀ ch ∈ text, ∀ o' : OptionTable, o'.state = state → o'.step ch = some (o'.keep ch state)) :
    text.foldlM OptionTable.step o = some { o with string := o.string ++ text } := by
  induction text generalizing o with
  | nil => simp
  | cons ch text ih =>
    rw [List.foldlM_cons, h ch List.mem_cons_self o ho, Option.bind_eq_bind, Option.bind_some,
      ih (o.keep ch state) rfl fun c hc ↦ h c (List.mem_cons_of_mem ch hc)]
    simp [OptionTable.keep, ho]

/-- The position of the name of an option that starts at the end of what was read. -/
def OptionTable.namePosition (o : OptionTable) : ℕ :=
  o.string.length + 2

def OptionTable.named (o : OptionTable) (name : List Char) : OptionTable where
  string := o.string ++ '\x00' :: '\x00' :: name
  state := .inOption
  names := o.names ++ [o.namePosition]
  values := o.values ++ [none]

theorem foldlM_name (ho : o.state = .elsewhere) (hnum : o.names.length < maxNumOptions)
    {name : List Char} (hname : ∀ ch ∈ name, isValidOptionChar ch) :
    ('-' :: '-' :: name).foldlM OptionTable.step o = some (o.named name) := by
  have hdash : o.step '-' = some (o.erase .seenDash) := by
    simp [OptionTable.step, ho]
  have hdash' : (o.erase .seenDash).step '-' = some (o.named []) := by
    simp [OptionTable.step, OptionTable.erase, OptionTable.keep, hnum, OptionTable.named,
      OptionTable.namePosition]
  rw [List.foldlM_cons, hdash, Option.bind_eq_bind, Option.bind_some, List.foldlM_cons, hdash',
    Option.bind_eq_bind, Option.bind_some, foldlM_keep _ .inOption rfl]
  · simp [OptionTable.named]
  · intro ch hch o' ho'
    simp [OptionTable.step, ho', hname ch hch]

def OptionTable.terminated (o : OptionTable) (name : List Char) : OptionTable :=
  (o.named name).erase .seenEqual

def OptionTable.valuePosition (o : OptionTable) (name : List Char) : ℕ :=
  o.namePosition + name.length + 1

def OptionTable.read (o : OptionTable) (name : List Char) : Value → OptionTable
  | .positional => o.named name
  | .word [] => o.terminated name
  | .word text =>
    { string := (o.terminated name).string ++ text
      state := .inValue
      names := o.names ++ [o.namePosition]
      values := o.values ++ [some (o.valuePosition name)] }
  | .literal text =>
    { string := (o.terminated name).string ++ '\x00' :: (text ++ ['\x00'])
      state := .elsewhere
      names := o.names ++ [o.namePosition]
      values := o.values ++ [some (o.valuePosition name + 1)] }

theorem setValue_terminated (hlen : o.names.length = o.values.length) (name : List Char)
    (position : ℕ) : (o.terminated name).setValue position =
      { o.terminated name with values := o.values ++ [some position] } := by
  simp [OptionTable.setValue, OptionTable.terminated, OptionTable.named, OptionTable.erase,
    OptionTable.keep, hlen]

theorem length_terminated (o : OptionTable) (name : List Char) :
    (o.terminated name).string.length = o.valuePosition name := by
  simp [OptionTable.terminated, OptionTable.named, OptionTable.erase, OptionTable.keep,
    OptionTable.valuePosition, OptionTable.namePosition]
  omega

theorem step_terminated (name : List Char) : (o.named name).step '=' = some (o.terminated name) :=
  rfl

theorem foldlM_option (ho : o.state = .elsewhere) (hnum : o.names.length < maxNumOptions)
    (hlen : o.names.length = o.values.length) (hopt : opt.Valid) :
    opt.render.foldlM OptionTable.step o = some (o.read opt.name opt.value) := by
  have hname := foldlM_name ho hnum hopt.name_valid
  have hsplit : opt.render = '-' :: '-' :: opt.name ++ opt.value.render := rfl
  rw [hsplit, List.foldlM_append, hname, Option.bind_eq_bind, Option.bind_some]
  cases hvalue : opt.value with
  | positional => rfl
  | word text =>
    have hvalid := hopt.word_valid text hvalue
    rw [Value.render, List.foldlM_cons, step_terminated, Option.bind_eq_bind, Option.bind_some]
    cases text with
    | nil => rfl
    | cons ch text =>
      have hch := hvalid ch List.mem_cons_self
      have hbracket : ch ≠ '[' := by
        rintro rfl
        exact absurd hch (by decide)
      have hfirst : (o.terminated opt.name).step ch =
          some (((o.terminated opt.name).setValue (o.valuePosition opt.name)).keep ch .inValue) := by
        rw [← length_terminated]
        simp [OptionTable.step, OptionTable.terminated, OptionTable.erase, OptionTable.keep,
          hbracket, hch]
      rw [List.foldlM_cons, hfirst, Option.bind_eq_bind, Option.bind_some,
        foldlM_keep _ .inValue rfl, setValue_terminated hlen]
      · simp [OptionTable.keep, OptionTable.read, OptionTable.terminated, OptionTable.erase,
          OptionTable.named]
      · intro c hc o' ho'
        simp [OptionTable.step, ho', hvalid c (List.mem_cons_of_mem ch hc)]
  | literal text =>
    have hvalid := hopt.literal_valid text hvalue
    rw [Value.render, List.foldlM_cons, step_terminated, Option.bind_eq_bind, Option.bind_some]
    have hfirst : (o.terminated opt.name).step '[' =
        some (((o.terminated opt.name).setValue (o.valuePosition opt.name + 1)).erase
          .inLiteralValue) := by
      rw [← length_terminated]
      rfl
    rw [List.foldlM_cons, hfirst, Option.bind_eq_bind, Option.bind_some, List.foldlM_append,
      foldlM_keep _ .inLiteralValue rfl, setValue_terminated hlen]
    · rw [Option.bind_eq_bind, Option.bind_some]
      simp [OptionTable.step, OptionTable.erase, OptionTable.keep, OptionTable.read,
        OptionTable.terminated, OptionTable.named]
    · intro c hc o' ho'
      have hclose : c ≠ ']' := by
        rintro rfl
        exact absurd (hvalid _ hc) (by decide)
      rcases hvalid c hc with rfl | hc'
      · simp [OptionTable.step, ho']
      · simp [OptionTable.step, ho', hclose, hc']

theorem nul_notMem_name (hopt : opt.Valid) : '\x00' ∉ opt.name :=
  fun h ↦ absurd (hopt.name_valid _ h) (by decide)

theorem nul_notMem_text (hopt : opt.Valid) : '\x00' ∉ opt.value.text := by
  cases hvalue : opt.value with
  | positional => exact List.not_mem_nil
  | word text => exact fun h ↦ absurd (hopt.word_valid text hvalue _ h) (by decide)
  | literal text => exact fun h ↦ absurd (hopt.literal_valid text hvalue _ h) (by decide)

def Value.rewritten : Value → List Char
  | positional => []
  | word text => '\x00' :: text
  | literal text => '\x00' :: '\x00' :: (text ++ ['\x00'])

theorem read_string (o : OptionTable) (name : List Char) (value : Value) :
    (o.read name value).string =
      o.string ++ '\x00' :: '\x00' :: (name ++ value.rewritten) := by
  cases value with
  | positional => simp [OptionTable.read, OptionTable.named, Value.rewritten]
  | word text =>
    cases text <;> simp [OptionTable.read, OptionTable.terminated, OptionTable.erase,
      OptionTable.keep, OptionTable.named, Value.rewritten]
  | literal text =>
    simp [OptionTable.read, OptionTable.terminated, OptionTable.erase, OptionTable.keep,
      OptionTable.named, Value.rewritten]

theorem read_names (o : OptionTable) (name : List Char) (value : Value) :
    (o.read name value).names = o.names ++ [o.namePosition] := by
  cases value with
  | positional => rfl
  | word text => cases text <;> rfl
  | literal text => rfl

def OptionTable.position (o : OptionTable) (name : List Char) : Value → Option ℕ
  | .positional | .word [] => none
  | .word _ => some (o.valuePosition name)
  | .literal _ => some (o.valuePosition name + 1)

theorem read_values (o : OptionTable) (name : List Char) (value : Value) :
    (o.read name value).values = o.values ++ [o.position name value] := by
  cases value with
  | positional => rfl
  | word text => cases text <;> rfl
  | literal text => rfl

section After

variable {o' : OptionTable} {rest : List Char} (hopt : opt.Valid)
  (hstring : o'.string = (o.read opt.name opt.value).string ++ rest)
include hstring

theorem drop_namePosition :
    o'.string.drop o.namePosition = opt.name ++ opt.value.rewritten ++ rest := by
  rw [hstring, read_string, OptionTable.namePosition]
  simp [List.drop_append]

theorem drop_valuePosition {text : List Char} (hvalue : opt.value.rewritten = '\x00' :: text) :
    o'.string.drop (o.valuePosition opt.name) = text ++ rest := by
  rw [OptionTable.valuePosition, Nat.add_assoc, ← List.drop_drop, drop_namePosition hstring, hvalue]
  simp [List.drop_append]

include hopt

/-- What comes after an option leaves its name and value as they are, if it is a terminator or the
value is empty. -/
theorem stringAt_namePosition (hrest : (∀ ch ∈ rest.head?, ch = '\x00') ∨ opt.value = .word []) :
    o'.stringAt o.namePosition = opt.name := by
  rw [OptionTable.stringAt, drop_namePosition hstring, List.append_assoc]
  apply takeWhile_eq_self (nul_notMem_name hopt)
  cases hvalue : opt.value with
  | positional =>
    rw [hvalue] at hrest
    simpa [Value.rewritten] using hrest
  | word text => simp [Value.rewritten]
  | literal text => simp [Value.rewritten]

theorem valueString_position (hrest : (∀ ch ∈ rest.head?, ch = '\x00') ∨ opt.value = .word []) :
    o'.valueString (o.position opt.name opt.value) = opt.value.text := by
  have hnul := nul_notMem_text hopt
  cases hvalue : opt.value with
  | positional => rfl
  | word text =>
    rw [hvalue] at hrest hnul
    cases text with
    | nil => rfl
    | cons ch text =>
      have hposition : o.position opt.name (.word (ch :: text)) =
          some (o.valuePosition opt.name) := rfl
      have hrewritten : opt.value.rewritten = '\x00' :: ch :: text := by rw [hvalue, Value.rewritten]
      rw [hposition, OptionTable.valueString, OptionTable.stringAt,
        drop_valuePosition hstring hrewritten]
      exact takeWhile_eq_self hnul (by simpa using hrest)
  | literal text =>
    rw [hvalue] at hnul
    have hrewritten : opt.value.rewritten = '\x00' :: '\x00' :: (text ++ ['\x00']) := by
      rw [hvalue, Value.rewritten]
    rw [OptionTable.position, OptionTable.valueString, OptionTable.stringAt, ← List.drop_drop,
      drop_valuePosition hstring hrewritten]
    simp only [List.cons_append, List.drop_succ_cons, List.drop_zero, List.append_assoc]
    exact takeWhile_eq_self hnul (by simp)

end After

variable {opts : List Opt}

theorem holds_read (hclosed : AllClosed o) (hholds : Holds o opts) (hopt : opt.Valid)
    {o' : OptionTable} {rest : List Char}
    (hstring : o'.string = (o.read opt.name opt.value).string ++ rest)
    (hnames : o'.names = (o.read opt.name opt.value).names)
    (hvalues : o'.values = (o.read opt.name opt.value).values)
    (hrest : (∀ ch ∈ rest.head?, ch = '\x00') ∨ opt.value = .word []) :
    Holds o' (opts ++ [opt]) := by
  have hmore : o'.string =
      o.string ++ ('\x00' :: '\x00' :: (opt.name ++ opt.value.rewritten) ++ rest) := by
    rw [hstring, read_string, List.append_assoc]
  constructor
  · rw [hnames, read_names, List.map_append, List.map_append, hclosed.map_stringAt hmore,
      hholds.names, List.map_singleton, List.map_singleton,
      stringAt_namePosition hopt hstring hrest]
  · rw [hvalues, read_values, List.map_append, List.map_append, hclosed.map_valueString hmore,
      hholds.values, List.map_singleton, List.map_singleton,
      valueString_position hopt hstring hrest]

theorem step_read_blank (o : OptionTable) (name : List Char) (value : Value) :
    ∃ o' ch, (o.read name value).step ' ' = some o' ∧ o'.state = .elsewhere ∧
      o'.string = (o.read name value).string ++ [ch] ∧ o'.names = (o.read name value).names ∧
      o'.values = (o.read name value).values ∧ (ch = '\x00' ∨ value = .word []) := by
  cases value with
  | positional => exact ⟨_, _, rfl, rfl, rfl, rfl, rfl, Or.inl rfl⟩
  | word text =>
    cases text with
    | nil => exact ⟨_, _, rfl, rfl, rfl, rfl, rfl, Or.inr rfl⟩
    | cons c text => exact ⟨_, _, rfl, rfl, rfl, rfl, rfl, Or.inl rfl⟩
  | literal text => exact ⟨_, _, rfl, rfl, rfl, rfl, rfl, Or.inl rfl⟩

theorem allClosed_read (hclosed : AllClosed o) {o' : OptionTable} {ch : Char}
    (hstring : o'.string = (o.read opt.name opt.value).string ++ [ch])
    (hnames : o'.names = (o.read opt.name opt.value).names)
    (hvalues : o'.values = (o.read opt.name opt.value).values)
    (hch : ch = '\x00' ∨ opt.value = .word []) : AllClosed o' := by
  have hmore : o'.string =
      o.string ++ ('\x00' :: '\x00' :: (opt.name ++ opt.value.rewritten) ++ [ch]) := by
    rw [hstring, read_string, List.append_assoc]
  constructor
  · intro position hposition
    rw [hnames, read_names, List.mem_append, List.mem_singleton] at hposition
    rcases hposition with hold | rfl
    · exact ((hclosed.names position hold).append hmore).1
    · rw [OptionTable.Closed, drop_namePosition hstring]
      rcases hch with rfl | hvalue
      · simp
      · simp [hvalue, Value.rewritten]
  · intro position hposition
    rw [hvalues, read_values, List.mem_append, List.mem_singleton] at hposition
    rcases hposition with hold | hnew
    · exact ((hclosed.values position hold).append hmore).1
    · cases hvalue : opt.value with
      | positional => simp [hvalue, OptionTable.position] at hnew
      | word text =>
        cases text with
        | nil => simp [hvalue, OptionTable.position] at hnew
        | cons c text =>
          have hrewritten : opt.value.rewritten = '\x00' :: c :: text := by
            rw [hvalue, Value.rewritten]
          obtain rfl : position = o.valuePosition opt.name := by
            simpa [hvalue, OptionTable.position] using hnew
          obtain rfl : ch = '\x00' := by simpa [hvalue] using hch
          rw [OptionTable.Closed, drop_valuePosition hstring hrewritten]
          simp
      | literal text =>
        have hrewritten : opt.value.rewritten = '\x00' :: '\x00' :: (text ++ ['\x00']) := by
          rw [hvalue, Value.rewritten]
        obtain rfl : position = o.valuePosition opt.name + 1 := by
          simpa [hvalue, OptionTable.position] using hnew
        rw [OptionTable.Closed, ← List.drop_drop, drop_valuePosition hstring hrewritten]
        simp

end One

section All

variable {o : OptionTable} {opt : Opt} {opts : List Opt} {texts : List (List Char)}

structure Ready (o : OptionTable) (opts : List Opt) : Prop where
  state_eq : o.state = .elsewhere
  closed : AllClosed o
  holds : Holds o opts

theorem Holds.length_names (h : Holds o opts) : o.names.length = opts.length := by
  rw [← List.length_map o.stringAt, h.names, List.length_map]

theorem Holds.length_values (h : Holds o opts) : o.values.length = opts.length := by
  rw [← List.length_map o.valueString, h.values, List.length_map]

theorem Ready.option (h : Ready o opts) (hopt : opt.Valid) (hnum : opts.length < maxNumOptions) :
    (∃ o', opt.render.foldlM OptionTable.step o = some o' ∧ Holds o' (opts ++ [opt])) ∧
      ∃ o', (opt.render ++ [' ']).foldlM OptionTable.step o = some o' ∧ Ready o' (opts ++ [opt]) := by
  have hnum' : o.names.length < maxNumOptions := by rwa [h.holds.length_names]
  have hlen : o.names.length = o.values.length := by
    rw [h.holds.length_names, h.holds.length_values]
  have hread := foldlM_option h.state_eq hnum' hlen hopt
  constructor
  · refine ⟨_, hread, ?_⟩
    exact holds_read h.closed h.holds hopt (List.append_nil _).symm rfl rfl (Or.inl (by simp))
  · obtain ⟨o', ch, hstep, hstate, hstring, hnames, hvalues, hch⟩ :=
      step_read_blank o opt.name opt.value
    refine ⟨o', ?_, hstate, allClosed_read h.closed hstring hnames hvalues hch, ?_⟩
    · rw [List.foldlM_append, hread, Option.bind_eq_bind, Option.bind_some, List.foldlM_cons, hstep]
      rfl
    · exact holds_read h.closed h.holds hopt hstring hnames hvalues (hch.imp (by simp) id)

theorem ready_fresh : Ready fresh [] :=
  ⟨rfl, ⟨by simp [fresh], by simp [fresh]⟩, ⟨rfl, rfl⟩⟩

theorem render_cons_cons (opt opt' : Opt) (opts : List Opt) :
    render (opt :: opt' :: opts) = opt.render ++ [' '] ++ render (opt' :: opts) := by
  simp [render, List.intercalate]

theorem Ready.render (h : Ready o opts) (rest : List Opt) (hvalid : ∀ opt ∈ rest, opt.Valid)
    (hnum : (opts ++ rest).length ≤ maxNumOptions) :
    ∃ o', (render rest).foldlM OptionTable.step o = some o' ∧ Holds o' (opts ++ rest) := by
  induction rest generalizing o opts with
  | nil => exact ⟨o, rfl, by simpa using h.holds⟩
  | cons opt rest ih =>
    rw [List.length_append, List.length_cons] at hnum
    obtain ⟨hlast, hnext⟩ := h.option (hvalid opt List.mem_cons_self) (by omega)
    cases rest with
    | nil => simpa [Options.render, List.intercalate] using hlast
    | cons opt' rest =>
      obtain ⟨o', hrun, hready⟩ := hnext
      have hnum' : (opts ++ [opt] ++ opt' :: rest).length ≤ maxNumOptions := by
        simp only [List.length_append, List.length_cons, List.length_nil] at hnum ⊢
        omega
      obtain ⟨o'', hrun', hholds⟩ := ih hready (fun x hx ↦ hvalid x (List.mem_cons_of_mem opt hx))
        hnum'
      refine ⟨o'', ?_, by simpa using hholds⟩
      rw [render_cons_cons, List.foldlM_append, hrun, Option.bind_eq_bind, Option.bind_some, hrun']

theorem Holds.findValueForName_eq (h : Holds o opts) (hnum : opts.length ≤ maxNumOptions)
    (name : List Char) :
    findValueForName o name = (opts.find? (·.name = name)).map (·.value.text) := by
  have hpairs : (o.names.zip o.values).map (Prod.map o.stringAt o.valueString) =
      opts.map fun opt ↦ (opt.name, opt.value.text) := by
    rw [← List.zip_map, h.names, h.values, List.zip_map']
  have htake : (o.names.zip o.values).take maxNumOptions = o.names.zip o.values := by
    apply List.take_of_length_le
    rw [List.length_zip, h.length_names, h.length_values, min_self]
    exact hnum
  have hfind := congrArg (fun l ↦ (l.find? fun e ↦ e.1 = name).map Prod.snd) hpairs
  simp only [List.find?_map, Option.map_map] at hfind
  rw [findValueForName, htake]
  exact hfind

/-- The options of a string are found by their names, each with the value of its first occurrence,
and no other name is found. -/
theorem initOptions_finds (opts : List Opt) (hvalid : ∀ opt ∈ opts, opt.Valid)
    (hnum : opts.length ≤ maxNumOptions) (hlen : (render opts).length < maxOptionsLength) :
    ∃ o, initOptions (render opts) = some o ∧
      ∀ name, findValueForName o name = (opts.find? (·.name = name)).map (·.value.text) := by
  obtain ⟨o, hrun, hholds⟩ := ready_fresh.render opts hvalid hnum
  refine ⟨o, ?_, hholds.findValueForName_eq hnum⟩
  have hcopy : copyStringIntoOptions [] (render opts) = render opts := by
    rw [copyStringIntoOptions, List.nil_append, List.length_nil, Nat.sub_zero,
      List.take_of_length_le hlen.le]
  rw [initOptions, hcopy, terminateOptionString, if_pos hlen]
  exact hrun

end All

/-- `--tools=[a b] --no_log --tools=c` -/
def toolOptions : List Opt :=
  [⟨"tools".toList, .literal "a b".toList⟩, ⟨"no_log".toList, .positional⟩,
    ⟨"tools".toList, .word "c".toList⟩]

theorem initOptions_finds_toolOptions :
    ∃ o, initOptions (render toolOptions) = some o ∧
      findValueForName o "tools".toList = some "a b".toList ∧
      findValueForName o "no_log".toList = some [] ∧
      findValueForName o "tool".toList = none := by
  obtain ⟨o, ho, hfind⟩ := initOptions_finds toolOptions (by
    intro opt hopt
    simp only [toolOptions, List.mem_cons, List.not_mem_nil, or_false] at hopt
    rcases hopt with rfl | rfl | rfl
    · exact ⟨by decide, List.all_eq_true.1 (by decide), by simp, by simp; decide⟩
    · exact ⟨by decide, List.all_eq_true.1 (by decide), by simp, by simp⟩
    · exact ⟨by decide, List.all_eq_true.1 (by decide), by simp; decide, by simp⟩)
    (by decide) (by decide)
  refine ⟨o, ho, ?_⟩
  rw [hfind, hfind, hfind]
  decide

theorem initOptions_eq_none {rawOptions : List Char} (h : maxOptionsLength ≤ rawOptions.length) :
    initOptions rawOptions = none := by
  have hfull : (copyStringIntoOptions [] rawOptions).length = maxOptionsLength := by
    rw [copyStringIntoOptions, List.nil_append, List.length_nil, Nat.sub_zero, List.length_take,
      min_eq_left h]
  rw [initOptions, terminateOptionString, if_neg (by rw [hfull]; exact lt_irrefl _)]
  rfl

theorem length_render_positional (name : List Char) :
    (render [⟨name, .positional⟩]).length = name.length + 2 := by
  simp [render, List.intercalate, Opt.render, Value.render]

/-- A value of one character that is not printable, and a string that is one shorter than the array
that holds it. -/
theorem initOptions_refuses :
    (∃ o, initOptions (render [⟨['a'], .word ['\x7f']⟩]) = some o ∧
      findValueForName o ['a'] = some []) ∧
    (render [⟨List.replicate 1021 'a', .positional⟩]).length < maxOptionsLength + 1 ∧
    initOptions (render [⟨List.replicate 1021 'a', .positional⟩]) = none := by
  have hlen : (render [⟨List.replicate 1021 'a', .positional⟩]).length = maxOptionsLength := by
    rw [length_render_positional, List.length_replicate]
    rfl
  refine ⟨⟨_, rfl, by decide⟩, ?_, initOptions_eq_none hlen.ge⟩
  rw [hlen]
  exact Nat.lt_succ_self _

end Granary.Base.Options
