import Granary.Base.Format.Buffer
import Granary.Base.Words
import Granary.Tool

namespace Granary.Tool

open Function Granary.Base.Bytes Granary.Base.Words Granary.Base.Format

/-- The buffer, and the index of the space that was copied last. -/
structure FieldCopy where
  buff : ℕ → Char
  lastSpace : Option ℕ

def FieldCopy.put (c : FieldCopy) (i : ℕ) (ch : Char) : FieldCopy where
  buff := update (update c.buff i ch) (i + 1) '\x00'
  lastSpace := if ch = ' ' then some i else none

/-- The loop up to the next comma. -/
def copyField (bufferLen : ℕ) : (str : List Char) → (i : ℕ) → FieldCopy → List Char × FieldCopy
  | [], _, c => ([], c)
  | ch :: str, i, c =>
    if ch = ',' then (ch :: str, c)
    else copyField bufferLen str (i + 1) (if i < bufferLen - 1 then c.put i ch else c)

/-- The last space is overwritten. -/
def FieldCopy.trimmed (c : FieldCopy) : ℕ → Char :=
  match c.lastSpace with
  | some i => update c.buff i '\x00'
  | none => c.buff

theorem copyField_fst (bufferLen : ℕ) (str : List Char) (i : ℕ) (c : FieldCopy) :
    (copyField bufferLen str i c).1 = str.dropWhile (· ≠ ',') := by
  induction str generalizing i c with
  | nil => rfl
  | cons ch str ih =>
    rw [copyField]
    by_cases hcomma : ch = ','
    · simp [hcomma]
    · rw [if_neg hcomma, ih, List.dropWhile_cons_of_pos (by simpa using hcomma)]

def callFunctor (bufferLen : ℕ) (str : List Char) (buff : ℕ → Char) : List (List Char) :=
  let r := copyField bufferLen (str.dropWhile isSeparator) 0 ⟨buff, none⟩
  let calls := if r.2.buff 0 ≠ '\x00' then [cString (load r.2.trimmed 0 bufferLen)] else []
  let buff := if r.2.buff 0 ≠ '\x00' then r.2.trimmed else r.2.buff
  if _h : r.1 = [] then calls
  else calls ++ callFunctor bufferLen r.1 (update buff 0 '\x00')
termination_by str.length
decreasing_by
  rw [copyField_fst] at _h ⊢
  exact length_dropWhile_lt _h

/-- `ForEachCommaSeparatedString`, whose argument may be null. -/
def forEachString (bufferLen : ℕ) (str : Option (List Char)) : List (List Char) :=
  match str with
  | none => []
  | some str => callFunctor bufferLen (cString str) fun _ ↦ '\x00'

section Field

variable {bufferLen : ℕ} {buff : ℕ → Char} {text field : List Char} {ch : Char}

def copied (buff : ℕ → Char) (text : List Char) : FieldCopy where
  buff := update (store buff 0 text) text.length '\x00'
  lastSpace := if text.getLast? = some ' ' then some (text.length - 1) else none

theorem copied_of_ne {i : ℕ} (h : i ≠ text.length) :
    (copied buff text).buff i = store buff 0 text i :=
  update_of_ne h ..

def chopSpace (text : List Char) : List Char :=
  if text.getLast? = some ' ' then text.dropLast else text

theorem put_copied (buff : ℕ → Char) (text : List Char) (ch : Char) :
    (copied buff text).put text.length ch = copied buff (text ++ [ch]) := by
  have hstore : store buff 0 (text ++ [ch]) = update (store buff 0 text) text.length ch := by
    rw [store_append, store_singleton, Nat.zero_add]
  rw [FieldCopy.put, copied, copied, hstore]
  simp

theorem copyField_snd (bufferLen : ℕ) (buff : ℕ → Char) (past str : List Char) :
    (copyField bufferLen str past.length (copied buff (past.take (bufferLen - 1)))).2 =
      copied buff ((past ++ str.takeWhile (· ≠ ',')).take (bufferLen - 1)) := by
  induction str generalizing past with
  | nil => simp [copyField]
  | cons ch str ih =>
    rw [copyField]
    by_cases hcomma : ch = ','
    · simp [hcomma]
    · have hlength : past.length + 1 = (past ++ [ch]).length := by simp
      have hput : (if past.length < bufferLen - 1 then
          (copied buff (past.take (bufferLen - 1))).put past.length ch
          else copied buff (past.take (bufferLen - 1))) =
          copied buff ((past ++ [ch]).take (bufferLen - 1)) := by
        split_ifs with hroom
        · rw [List.take_of_length_le hroom.le, put_copied, List.take_of_length_le (by simp; omega)]
        · rw [List.take_append_of_le_length (by omega)]
      rw [if_neg hcomma, hput, hlength, ih, List.takeWhile_cons_of_pos (by simpa using hcomma),
        List.append_assoc, List.singleton_append]

theorem load_copied (buff : ℕ → Char) (text : List Char) :
    load (copied buff text).buff 0 text.length = text := by
  refine Eq.trans (load_congr fun i _ hlt ↦ ?_) (load_store buff _ _)
  exact copied_of_ne (by omega)

theorem cString_trimmed (hlen : text.length < bufferLen) (hnul : '\x00' ∉ text) :
    cString (load (copied buff text).trimmed 0 bufferLen) = chopSpace text := by
  rw [chopSpace, FieldCopy.trimmed]
  by_cases hspace : text.getLast? = some ' '
  · have hne : text ≠ [] := by
      intro hnil
      rw [hnil] at hspace
      cases hspace
    have hsplit := List.dropLast_append_getLast hne
    have hlast : (copied buff text).lastSpace = some text.dropLast.length := by
      rw [copied, if_pos hspace, List.length_dropLast]
    rw [hlast, if_pos hspace]
    apply cString_load
    · have hwhole := load_copied buff text
      rw [← hsplit, List.length_append, load_add] at hwhole
      have hdrop := (List.append_inj' hwhole (by simp)).1
      rw [hsplit] at hdrop
      refine Eq.trans (load_congr fun i _ hlt ↦ ?_) hdrop
      exact update_of_ne (by omega) ..
    · exact update_self ..
    · rw [List.length_dropLast]
      omega
    · exact fun h ↦ hnul (List.dropLast_subset text h)
  · have hlast : (copied buff text).lastSpace = none := by
      rw [copied, if_neg hspace]
    rw [hlast, if_neg hspace]
    exact cString_load (load_copied buff text) (update_self ..) hlen hnul

theorem copied_zero_eq_iff (hnul : '\x00' ∉ text) :
    (copied buff text).buff 0 = '\x00' ↔ text = [] := by
  cases text with
  | nil => simp [copied]
  | cons ch text =>
    have hhead : (copied buff (ch :: text)).buff 0 = ch := by
      rw [copied_of_ne (by simp)]
      exact store_add buff 0 (show 0 < (ch :: text).length by simp)
    rw [hhead]
    simp only [reduceCtorEq, iff_false]
    rintro rfl
    exact hnul List.mem_cons_self

theorem copied_nil (h : buff 0 = '\x00') : copied buff [] = ⟨buff, none⟩ := by
  rw [copied, store_nil, List.length_nil, ← h, update_eq_self]
  rfl

end Field

section Fields

variable {bufferLen : ℕ} {buff : ℕ → Char} {str field : List Char} {isWhite : Char → Bool}

def fields (str : List Char) : List (List Char) :=
  str.splitOnP (· = ',')

def fieldCalls (bufferLen : ℕ) (field : List Char) : List (List Char) :=
  let text := (field.dropWhile (· = ' ')).take (bufferLen - 1)
  if text = [] then [] else [chopSpace text]

theorem fields_cons_comma (str : List Char) : fields (',' :: str) = [] :: fields str := by
  simp [fields, List.splitOnP_cons_eq_if_modifyHead]

theorem fields_of_not_mem (hfield : ',' ∉ field) : fields field = [field] := by
  apply List.splitOnP_eq_singleton
  intro ch hch
  exact decide_eq_false fun h ↦ hfield (h ▸ hch)

theorem fields_append_comma (hfield : ',' ∉ field) (str : List Char) :
    fields (field ++ ',' :: str) = field :: fields str := by
  have hsingle := fields_of_not_mem hfield
  rw [fields] at hsingle
  rw [fields, List.splitOnP_append_cons _ _ (by simp), hsingle]
  rfl

theorem fieldCalls_nil : fieldCalls bufferLen [] = [] := by
  simp [fieldCalls]

theorem fieldCalls_cons_space (field : List Char) :
    fieldCalls bufferLen (' ' :: field) = fieldCalls bufferLen field := by
  simp [fieldCalls]

/-- The spaces and commas that are skipped are of no field, or of fields without calls. -/
theorem flatMap_fields_dropWhile (bufferLen : ℕ) (str : List Char) :
    (fields (str.dropWhile isSeparator)).flatMap (fieldCalls bufferLen) =
      (fields str).flatMap (fieldCalls bufferLen) := by
  induction str with
  | nil => rfl
  | cons ch str ih =>
    by_cases hspace : ch = ' '
    · subst hspace
      rw [List.dropWhile_cons_of_pos (by decide), ih, fields, fields,
        List.splitOnP_cons_eq_if_modifyHead]
      cases h : str.splitOnP (· = ',') with
      | nil => exact absurd h (List.splitOnP_ne_nil _ _)
      | cons field rest => simp [fieldCalls_cons_space]
    by_cases hcomma : ch = ','
    · subst hcomma
      rw [List.dropWhile_cons_of_pos (by decide), ih, fields_cons_comma, List.flatMap_cons,
        fieldCalls_nil, List.nil_append]
    · rw [List.dropWhile_cons_of_neg (by simp [isSeparator, hspace, hcomma])]

theorem flatMap_fields_eq (bufferLen : ℕ) (str : List Char) :
    (fields str).flatMap (fieldCalls bufferLen) =
      fieldCalls bufferLen (str.takeWhile (· ≠ ',')) ++
        (if str.dropWhile (· ≠ ',') = [] then []
        else (fields (str.dropWhile (· ≠ ','))).flatMap (fieldCalls bufferLen)) := by
  have hsplit := List.takeWhile_append_dropWhile (p := fun ch ↦ decide (ch ≠ ',')) (l := str)
  have htext : ',' ∉ str.takeWhile (· ≠ ',') := by
    intro h
    simpa using List.mem_takeWhile_imp h
  by_cases hrest : str.dropWhile (· ≠ ',') = []
  · rw [hrest, List.append_nil] at hsplit
    rw [if_pos hrest, hsplit, fields_of_not_mem (hsplit ▸ htext)]
    simp
  · obtain ⟨ch, more, hmore⟩ := List.exists_cons_of_ne_nil hrest
    have hcomma : ch = ',' := by
      have hnot := List.head?_dropWhile_not (fun ch ↦ decide (ch ≠ ',')) str
      rw [hmore] at hnot
      simpa using hnot
    rw [if_neg hrest]
    rw [hmore, hcomma] at hsplit ⊢
    rw [fields_cons_comma, List.flatMap_cons, fieldCalls_nil, List.nil_append]
    conv_lhs => rw [← hsplit, fields_append_comma htext, List.flatMap_cons]

theorem head?_dropWhile_isSeparator (str : List Char) :
    (str.dropWhile isSeparator).head? ≠ some ' ' := by
  intro hspace
  have hnot := List.head?_dropWhile_not isSeparator str
  rw [hspace] at hnot
  simp [isSeparator] at hnot

theorem dropWhile_takeWhile_of_head? (hhead : str.head? ≠ some ' ') :
    (str.takeWhile (· ≠ ',')).dropWhile (· = ' ') = str.takeWhile (· ≠ ',') := by
  cases str with
  | nil => rfl
  | cons ch str =>
    have hch : ch ≠ ' ' := by simpa using hhead
    by_cases hcomma : ch = ','
    · simp [hcomma]
    · rw [List.takeWhile_cons_of_pos (by simpa using hcomma),
        List.dropWhile_cons_of_neg (by simpa using hch)]

theorem copyField_calls (hbuff : buff 0 = '\x00') (hlen : 0 < bufferLen) (hnul : '\x00' ∉ str)
    (hhead : str.head? ≠ some ' ') :
    (if (copyField bufferLen str 0 ⟨buff, none⟩).2.buff 0 ≠ '\x00' then
      [cString (load (copyField bufferLen str 0 ⟨buff, none⟩).2.trimmed 0 bufferLen)] else []) =
      fieldCalls bufferLen (str.takeWhile (· ≠ ',')) := by
  have hcopied : (copyField bufferLen str 0 ⟨buff, none⟩).2 =
      copied buff ((str.takeWhile (· ≠ ',')).take (bufferLen - 1)) := by
    have hsnd := copyField_snd bufferLen buff [] str
    rwa [List.take_nil, copied_nil hbuff] at hsnd
  have hnul' : '\x00' ∉ (str.takeWhile (· ≠ ',')).take (bufferLen - 1) := by
    intro h
    exact hnul ((List.takeWhile_prefix _).subset (List.mem_of_mem_take h))
  have hshort : ((str.takeWhile (· ≠ ',')).take (bufferLen - 1)).length < bufferLen := by
    rw [List.length_take]
    omega
  rw [hcopied, fieldCalls, dropWhile_takeWhile_of_head? hhead, cString_trimmed hshort hnul']
  simp only [ne_eq, copied_zero_eq_iff hnul', ite_not]

theorem callFunctor_eq (hbuff : buff 0 = '\x00') (hlen : 0 < bufferLen) (hnul : '\x00' ∉ str) :
    callFunctor bufferLen str buff = (fields str).flatMap (fieldCalls bufferLen) := by
  induction hn : str.length using Nat.strong_induction_on generalizing str buff with
  | _ n ih =>
    have hshorter := @length_dropWhile_lt str
    have hhead := head?_dropWhile_isSeparator str
    have hnul' : '\x00' ∉ str.dropWhile isSeparator :=
      fun h ↦ hnul ((List.dropWhile_suffix isSeparator).subset h)
    rw [callFunctor, ← flatMap_fields_dropWhile, flatMap_fields_eq]
    generalize str.dropWhile isSeparator = body at hshorter hhead hnul' ⊢
    rw [copyField_calls hbuff hlen hnul' hhead, copyField_fst]
    by_cases hrest : body.dropWhile (· ≠ ',') = []
    · rw [dif_pos hrest, if_pos hrest, List.append_nil]
    · have hnul'' : '\x00' ∉ body.dropWhile (· ≠ ',') :=
        fun h ↦ hnul' ((List.dropWhile_suffix _).subset h)
      rw [dif_neg hrest, if_neg hrest, ih _ (hn ▸ hshorter hrest) (update_self ..) hnul'' rfl]

theorem forEachCommaSeparatedString_eq (hlen : 2 ≤ bufferLen) (str : List Char) :
    forEachCommaSeparatedString bufferLen str = (fields str).flatMap (fieldCalls bufferLen) := by
  induction hn : str.length using Nat.strong_induction_on generalizing str with
  | _ n ih =>
    have hshorter := @length_dropWhile_lt str
    have hhead := head?_dropWhile_isSeparator str
    rw [forEachCommaSeparatedString, ← flatMap_fields_dropWhile, flatMap_fields_eq]
    generalize str.dropWhile isSeparator = body at hshorter hhead ⊢
    have hnil : (body.takeWhile (· ≠ ',')).take (bufferLen - 1) = [] ↔
        body.takeWhile (· ≠ ',') = [] := by
      have hroom : bufferLen - 1 ≠ 0 := by omega
      rw [List.take_eq_nil_iff, or_iff_right hroom]
    have hcalls : fieldCalls bufferLen (body.takeWhile (· ≠ ',')) =
        if body.takeWhile (· ≠ ',') = [] then []
        else [chopSpace ((body.takeWhile (· ≠ ',')).take (bufferLen - 1))] := by
      rw [fieldCalls, dropWhile_takeWhile_of_head? hhead]
      simp only [hnil]
    rw [hcalls]
    by_cases hrest : body.dropWhile (· ≠ ',') = []
    · rw [dif_pos hrest, if_pos hrest, List.append_nil]
      rfl
    · rw [dif_neg hrest, if_neg hrest, ih _ (hn ▸ hshorter hrest) _ rfl]
      rfl

theorem forEachString_eq (hlen : 2 ≤ bufferLen) (str : List Char) :
    forEachString bufferLen (some str) = forEachCommaSeparatedString bufferLen (cString str) := by
  have hnul : '\x00' ∉ cString str := by
    intro h
    simpa using List.mem_takeWhile_imp h
  rw [forEachCommaSeparatedString_eq hlen]
  exact callFunctor_eq rfl (by omega) hnul

end Fields

section Trimmed

variable {isWhite : Char → Bool} {bufferLen : ℕ} {field : List Char}

def trimmedFields (isWhite : Char → Bool) (str : List Char) : List (List Char) :=
  ((fields str).map (trim isWhite)).filter (· ≠ [])

/-- The white space before the text of a field is spaces only, and of the white space after it the
buffer has room for nothing, or for one space. -/
def OnlySpaces (isWhite : Char → Bool) (bufferLen : ℕ) (field : List Char) : Prop :=
  ∃ tail, field.dropWhile (· = ' ') = trim isWhite field ++ tail ∧
    (tail.take (bufferLen - 1 - (trim isWhite field).length) = [] ∨
      tail.take (bufferLen - 1 - (trim isWhite field).length) = [' '])

def trimmedCalls (isWhite : Char → Bool) (field : List Char) : List (List Char) :=
  if trim isWhite field = [] then [] else [trim isWhite field]

theorem trimmedFields_eq (isWhite : Char → Bool) (str : List Char) :
    trimmedFields isWhite str = (fields str).flatMap (trimmedCalls isWhite) := by
  rw [trimmedFields]
  induction fields str with
  | nil => rfl
  | cons field rest ih =>
    rw [List.map_cons, List.flatMap_cons, ← ih, trimmedCalls]
    by_cases h : trim isWhite field = []
    · simp [h]
    · simp [h]

theorem chopSpace_append_space (text : List Char) : chopSpace (text ++ [' ']) = text := by
  simp [chopSpace]

theorem eq_chopSpace_or (text : List Char) :
    text = chopSpace text ∨ text = chopSpace text ++ [' '] := by
  rw [chopSpace]
  split_ifs with hspace
  · obtain ⟨init, rfl⟩ := List.getLast?_eq_some_iff.1 hspace
    exact Or.inr (by simp)
  · exact Or.inl rfl

theorem chopSpace_trim (hspace : isWhite ' ' = true) (field : List Char) :
    chopSpace (trim isWhite field) = trim isWhite field := by
  rw [chopSpace, if_neg]
  intro hlast
  rw [of_getLast?_trim hlast] at hspace
  cases hspace

theorem fieldCalls_eq_iff (hspace : isWhite ' ' = true)
    (hfit : (trim isWhite field).length < bufferLen) :
    fieldCalls bufferLen field = trimmedCalls isWhite field ↔
      OnlySpaces isWhite bufferLen field := by
  rw [fieldCalls, trimmedCalls, OnlySpaces]
  have htake (tail : List Char) : (trim isWhite field ++ tail).take (bufferLen - 1) =
      trim isWhite field ++ tail.take (bufferLen - 1 - (trim isWhite field).length) := by
    rw [List.take_append, List.take_of_length_le (by omega)]
  constructor
  · intro h
    by_cases hnil : (field.dropWhile (· = ' ')).take (bufferLen - 1) = []
    · have htrim : trim isWhite field = [] := by
        by_contra hne
        simp [hnil, hne] at h
      exact ⟨_, by rw [htrim, List.nil_append], by simp [htrim, hnil]⟩
    · have htrim : trim isWhite field ≠ [] := by
        intro hnil'
        simp only [hnil, hnil', if_false, if_true] at h
        cases h
      simp only [hnil, htrim, if_false, List.cons.injEq, and_true] at h
      have hprefix : trim isWhite field <+: field.dropWhile (· = ' ') := by
        rw [← h]
        refine List.IsPrefix.trans ?_ (List.take_prefix (bufferLen - 1) _)
        rw [chopSpace]
        split_ifs
        · exact List.dropLast_prefix _
        · exact List.prefix_rfl
      obtain ⟨tail, htail⟩ := hprefix
      refine ⟨tail, htail.symm, ?_⟩
      have hcases := eq_chopSpace_or ((field.dropWhile (· = ' ')).take (bufferLen - 1))
      rw [h, ← htail, htake] at hcases
      rcases hcases with hcases | hcases
      · exact Or.inl (List.append_right_eq_self.1 hcases)
      · exact Or.inr (List.append_cancel_left hcases)
  · intro ⟨tail, htail, hcases⟩
    rw [htail, htake]
    rcases hcases with hcases | hcases
    · rw [hcases, List.append_nil, chopSpace_trim hspace]
    · have htrim : trim isWhite field ≠ [] := by
        intro hnil
        have hhead := List.head?_dropWhile_not (fun ch ↦ decide (ch = ' ')) field
        rw [htail, hnil, List.nil_append] at hhead
        cases tail with
        | nil => simp at hcases
        | cons ch tail =>
          have hch := congrArg List.head? hcases
          rw [List.head?_take] at hch
          split_ifs at hch
          · cases hch
          · obtain rfl : ch = ' ' := Option.some_inj.1 hch
            cases hhead
      rw [hcases, chopSpace_append_space]
      simp [htrim]

theorem length_trimmedCalls_le (hspace : isWhite ' ' = true)
    (hfit : (trim isWhite field).length < bufferLen) :
    (trimmedCalls isWhite field).length ≤ (fieldCalls bufferLen field).length := by
  rw [trimmedCalls]
  by_cases htrim : trim isWhite field = []
  · simp [htrim]
  · have hbody : field.dropWhile (· = ' ') ≠ [] := by
      intro hnil
      rw [List.dropWhile_eq_nil_iff] at hnil
      rw [trim_eq_nil_iff] at htrim
      apply htrim
      intro ch hch
      rw [of_decide_eq_true (hnil ch hch), hspace]
    have hpos := List.length_pos_of_ne_nil htrim
    have htake : (field.dropWhile (· = ' ')).take (bufferLen - 1) ≠ [] := by
      rw [Ne, List.take_eq_nil_iff]
      intro h
      exact h.elim (by omega) hbody
    rw [fieldCalls]
    simp [htrim, htake]

/-- The functor is called with the trimmed fields that are not empty, whatever white space is as long
as a space is white: if, and only if, the white space around the fields is as little as that. -/
theorem forEachString_trims_iff (isWhite : Char → Bool) (hspace : isWhite ' ' = true)
    (bufferLen : ℕ) (str : List Char)
    (hfit : ∀ field ∈ fields (cString str), (trim isWhite field).length < bufferLen) :
    forEachString bufferLen (some str) = trimmedFields isWhite (cString str) ↔
      ∀ field ∈ fields (cString str), OnlySpaces isWhite bufferLen field := by
  have hnul : '\x00' ∉ cString str := by
    intro h
    simpa using List.mem_takeWhile_imp h
  have hlen : 0 < bufferLen := by
    obtain ⟨field, hfield⟩ := List.exists_mem_of_ne_nil _ (List.splitOnP_ne_nil (· = ',') (cString str))
    exact Nat.zero_lt_of_lt (hfit field hfield)
  have hcalls : forEachString bufferLen (some str) =
      (fields (cString str)).flatMap (fieldCalls bufferLen) := callFunctor_eq rfl hlen hnul
  rw [hcalls, trimmedFields_eq, flatMap_eq_flatMap_iff]
  · apply forall₂_congr
    intro field hfield
    exact fieldCalls_eq_iff hspace (hfit field hfield)
  · intro field hfield
    exact length_trimmedCalls_le hspace (hfit field hfield)

/-- A single space after a field goes, and the calls are in order. -/
theorem forEachString_trims_iff_single :
    (∀ field ∈ fields (cString "a ,, bb,".toList), (trim Char.isWhitespace field).length < 10) ∧
      (forEachString 10 (some "a ,, bb,".toList) = [['a'], ['b', 'b']] ↔
        ∀ field ∈ fields (cString "a ,, bb,".toList), OnlySpaces Char.isWhitespace 10 field) := by
  have hfit : ∀ field ∈ fields (cString "a ,, bb,".toList),
      (trim Char.isWhitespace field).length < 10 := by decide +kernel
  have htrimmed : trimmedFields Char.isWhitespace (cString "a ,, bb,".toList) =
      [['a'], ['b', 'b']] := by decide +kernel
  refine ⟨hfit, ?_⟩
  rw [← htrimmed]
  exact forEachString_trims_iff Char.isWhitespace rfl 10 _ hfit

/-- Of two spaces after a field one stays. -/
theorem forEachString_not_trimmed :
    (∀ field ∈ fields (cString "a  ".toList), field.length < 10) ∧
      forEachString 10 (some "a  ".toList) = [['a', ' ']] ∧
      trimmedFields Char.isWhitespace (cString "a  ".toList) = [['a']] := by
  refine ⟨by decide +kernel, ?_, by decide +kernel⟩
  rw [forEachString_eq (by decide), forEachCommaSeparatedString_eq (by decide)]
  decide +kernel

end Trimmed

end Granary.Tool
