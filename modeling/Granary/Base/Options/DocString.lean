import Granary.Base.Words

namespace Granary.Base.Options

open Granary.Base.Words

def lineLength : ℕ := 80

def tabLength : ℕ := 8

def bufferMaxLength : ℕ := lineLength - tabLength

/-- What is in the buffer when the line is terminated, and where the docstring goes on. -/
structure DocLine where
  line : List Char
  rest : List Char
  deriving DecidableEq, Repr

/-- The loop over the characters up to `docstringStop`, which are `n` more. -/
def bufferLine : (n : ℕ) → (docstring buff : List Char) → (lastStop : ℕ) →
    (docstringLastStop : List Char) → DocLine
  | 0, _, buff, lastStop, docstringLastStop => ⟨buff.take lastStop, docstringLastStop⟩
  | _ + 1, [], buff, _, _ => ⟨buff, []⟩
  | n + 1, ch :: docstring, buff, lastStop, docstringLastStop =>
    if ch = ' ' then bufferLine n docstring (buff ++ [ch]) buff.length docstring
    else if ch = '\n' then ⟨buff, docstring⟩
    else bufferLine n docstring (buff ++ [ch]) lastStop docstringLastStop

def bufferDocString (docstring : List Char) : DocLine :=
  bufferLine bufferMaxLength docstring [] 0 docstring

/-- The lines printed by the first `turns` turns of the loop over a docstring, if they are all. -/
def printDocString : (turns : ℕ) → (docstring : List Char) → Option (List (List Char))
  | 0, _ => none
  | turns + 1, docstring =>
    let doc := bufferDocString docstring
    if doc.rest = [] then some [doc.line]
    else (printDocString turns doc.rest).map (doc.line :: ·)

structure OptionDoc where
  name : List Char
  toolName : List Char
  docstring : List Char
  deriving DecidableEq, Repr

/-- The texts that are logged for an option, with `turns` turns for its docstring. -/
def printOption (turns : ℕ) (option : OptionDoc) : Option (List (List Char)) :=
  (printDocString turns option.docstring).map fun lines ↦
    ["--\x1b[1m".toList ++ option.name ++ "\x1b[m".toList] ++
      (if option.toolName ≠ [] then
        [" \x1b[32m(".toList ++ option.toolName ++ ")\x1b[m".toList] else []) ++
      lines.map ("\n        ".toList ++ ·) ++ ["\n\n".toList]

def printOptions (turns : ℕ) : List OptionDoc → Option (List (List Char))
  | [] => some []
  | option :: options => do
    let texts ← printOption turns option
    let more ← printOptions turns options
    return texts ++ more

def printAllOptions (turns : ℕ) (options : List OptionDoc) : Option (List (List Char)) :=
  (printOptions turns options).map fun texts ↦
    "Usage for user space: grr <options> -- <executable>\n\n".toList :: texts

def isBlank (ch : Char) : Bool :=
  ch = ' ' ∨ ch = '\n'

/-- The three ways in which the loop over a window of the docstring ends. -/
inductive Wraps (docstring : List Char) : DocLine → Prop
  | last (h : docstring.length < bufferMaxLength) : Wraps docstring ⟨docstring, []⟩
  | break (line rest : List Char) (sep : Char) (hsep : isBlank sep = true)
      (hsplit : docstring = line ++ sep :: rest) (hlen : line.length < bufferMaxLength) :
      Wraps docstring ⟨line, rest⟩
  | stuck (hlen : bufferMaxLength ≤ docstring.length)
      (hword : ∀ ch ∈ docstring.take bufferMaxLength, isBlank ch = false) :
      Wraps docstring ⟨[], docstring⟩

/-- The last blank of what is in the buffer, if there was one. -/
structure Stops (whole buff : List Char) (lastStop : ℕ) (docstringLastStop : List Char) : Prop where
  cases : (lastStop = 0 ∧ docstringLastStop = whole ∧ ∀ ch ∈ buff, isBlank ch = false) ∨
    (lastStop < buff.length ∧ whole = buff.take lastStop ++ ' ' :: docstringLastStop)

section Line

variable {whole docstring buff docstringLastStop : List Char} {lastStop n : ℕ}

theorem stops_blank (hwhole : whole = buff ++ ' ' :: docstring) :
    Stops whole (buff ++ [' ']) buff.length docstring := by
  constructor
  apply Or.inr
  simp [hwhole]

theorem Stops.snoc (h : Stops whole buff lastStop docstringLastStop) {ch : Char}
    (hch : isBlank ch = false) : Stops whole (buff ++ [ch]) lastStop docstringLastStop := by
  constructor
  obtain ⟨hzero, hrest, hbuff⟩ | ⟨hlt, hsplit⟩ := h.cases
  · refine Or.inl ⟨hzero, hrest, fun c hc ↦ ?_⟩
    rcases List.mem_append.1 hc with hc | hc
    · exact hbuff c hc
    · rw [List.mem_singleton.1 hc]
      exact hch
  · refine Or.inr ⟨?_, ?_⟩
    · rw [List.length_append]
      omega
    · rw [List.take_append_of_le_length hlt.le]
      exact hsplit

theorem wraps_bufferLine (hwhole : whole = buff ++ docstring)
    (hlen : buff.length + n = bufferMaxLength) (h : Stops whole buff lastStop docstringLastStop) :
    Wraps whole (bufferLine n docstring buff lastStop docstringLastStop) := by
  induction n generalizing docstring buff lastStop docstringLastStop with
  | zero =>
    rw [bufferLine]
    obtain ⟨rfl, rfl, hbuff⟩ | ⟨hlt, hsplit⟩ := h.cases
    · rw [List.take_zero]
      have htake : docstringLastStop.take bufferMaxLength = buff := by
        rw [hwhole, ← hlen, Nat.add_zero, List.take_left]
      apply Wraps.stuck
      · rw [hwhole, List.length_append]
        omega
      · rwa [htake]
    · apply Wraps.break _ _ ' ' rfl hsplit
      rw [List.length_take]
      omega
  | succ n ih =>
    cases docstring with
    | nil =>
      rw [bufferLine, hwhole, List.append_nil]
      apply Wraps.last
      omega
    | cons ch docstring =>
      have hwhole' : whole = (buff ++ [ch]) ++ docstring := by simp [hwhole]
      have hlen' : (buff ++ [ch]).length + n = bufferMaxLength := by
        rw [List.length_append, List.length_singleton]
        omega
      rw [bufferLine]
      split_ifs with hblank hnewline
      · apply ih hwhole' hlen'
        rw [hblank]
        apply stops_blank
        rw [hwhole, hblank]
      · apply Wraps.break buff docstring ch
        · simp [isBlank, hnewline]
        · exact hwhole
        · omega
      · apply ih hwhole' hlen'
        apply h.snoc
        simp [isBlank, hblank, hnewline]

theorem wraps_bufferDocString (docstring : List Char) :
    Wraps docstring (bufferDocString docstring) := by
  apply wraps_bufferLine (List.nil_append docstring).symm
  · rfl
  · constructor
    simp

end Line

/-- No word of the docstring fills a line. -/
def ShortWords (docstring : List Char) : Prop :=
  ∀ w ∈ words isBlank docstring, w.length < bufferMaxLength

section Lines

variable {docstring : List Char} {lines : List (List Char)} {turns : ℕ}

theorem printDocString_of_short (h : ShortWords docstring) (hturns : docstring.length < turns) :
    ∃ lines, printDocString turns docstring = some lines ∧
      (∀ line ∈ lines, line.length ≤ bufferMaxLength) ∧
      lines.flatMap (words isBlank) = words isBlank docstring := by
  induction turns generalizing docstring with
  | zero => omega
  | succ turns ih =>
    rw [printDocString]
    have hwraps := wraps_bufferDocString docstring
    generalize bufferDocString docstring = doc at hwraps ⊢
    cases hwraps with
    | last hlen =>
      refine ⟨[docstring], by simp, ?_, by simp⟩
      simp only [List.mem_singleton, forall_eq]
      exact hlen.le
    | «break» line rest sep hsep hsplit hlen =>
      have hwords : words isBlank docstring = words isBlank line ++ words isBlank rest := by
        rw [hsplit, words_append_cons hsep]
      by_cases hrest : rest = []
      · refine ⟨[line], by simp [hrest], ?_, ?_⟩
        · simp only [List.mem_singleton, forall_eq]
          exact hlen.le
        · rw [hwords, hrest]
          simp
      · have hshort : ShortWords rest := fun w hw ↦ h w (by simp [hwords, hw])
        have hless : rest.length < turns := by
          rw [hsplit, List.length_append, List.length_cons] at hturns
          omega
        obtain ⟨lines, hprint, hlines, hflat⟩ := ih hshort hless
        refine ⟨line :: lines, by simp [hrest, hprint], ?_, ?_⟩
        · exact List.forall_mem_cons.2 ⟨hlen.le, hlines⟩
        · rw [List.flatMap_cons, hflat, hwords]
    | stuck hlen hword =>
      obtain ⟨w, hw, hlong⟩ := exists_long_word (by decide) hlen hword
      have hlt := h w hw
      omega

theorem printDocString_of_long (h : ¬ShortWords docstring) (turns : ℕ) :
    printDocString turns docstring = none := by
  induction turns generalizing docstring with
  | zero => rfl
  | succ turns ih =>
    have hne : docstring ≠ [] := by
      rintro rfl
      exact h (by simp [ShortWords])
    rw [printDocString]
    have hwraps := wraps_bufferDocString docstring
    generalize bufferDocString docstring = doc at hwraps ⊢
    cases hwraps with
    | last hlen => exact absurd (fun w hw ↦ (length_le_of_mem_words hw).trans_lt hlen) h
    | «break» line rest sep hsep hsplit hlen =>
      have hlong : ¬ShortWords rest := by
        intro hshort
        apply h
        intro w hw
        rw [hsplit, words_append_cons hsep, List.mem_append] at hw
        rcases hw with hw | hw
        · exact (length_le_of_mem_words hw).trans_lt hlen
        · exact hshort w hw
      have hrest : rest ≠ [] := by
        rintro rfl
        exact hlong (by simp [ShortWords])
      simp [hrest, ih hlong]
    | stuck hlen hword => simp [hne, ih h]

/-- The loop over a docstring ends, with lines that fit and that have all the words: if, and only if,
no word fills a line. -/
theorem printDocString_wraps_iff (docstring : List Char) :
    (∃ turns lines, printDocString turns docstring = some lines ∧
      (∀ line ∈ lines, line.length ≤ bufferMaxLength) ∧
      lines.flatMap (words isBlank) = words isBlank docstring) ↔ ShortWords docstring := by
  constructor
  · rintro ⟨turns, lines, hprint, -⟩
    by_contra hlong
    rw [printDocString_of_long hlong] at hprint
    cases hprint
  · intro hshort
    exact ⟨docstring.length + 1, printDocString_of_short hshort (Nat.lt_succ_self _)⟩

theorem printOptions_of_short {options : List OptionDoc}
    (h : ∀ option ∈ options, ShortWords option.docstring ∧ option.docstring.length < turns) :
    ∃ texts, printOptions turns options = some texts := by
  induction options with
  | nil => exact ⟨[], rfl⟩
  | cons option options ih =>
    obtain ⟨hshort, hturns⟩ := h option List.mem_cons_self
    obtain ⟨lines, hprint, -⟩ := printDocString_of_short hshort hturns
    obtain ⟨more, hmore⟩ := ih fun o ho ↦ h o (List.mem_cons_of_mem option ho)
    rw [printOptions, printOption, hprint, hmore]
    exact ⟨_, rfl⟩

theorem printOptions_of_long {options : List OptionDoc} {option : OptionDoc}
    (hoption : option ∈ options) (h : ¬ShortWords option.docstring) :
    printOptions turns options = none := by
  induction options with
  | nil => exact absurd hoption List.not_mem_nil
  | cons o options ih =>
    rw [printOptions]
    rcases List.mem_cons.1 hoption with rfl | hoption
    · rw [printOption, printDocString_of_long h]
      rfl
    · rw [ih hoption]
      cases printOption turns o <;> rfl

theorem printAllOptions_returns_iff (options : List OptionDoc) :
    (∃ turns texts, printAllOptions turns options = some texts) ↔
      ∀ option ∈ options, ShortWords option.docstring := by
  constructor
  · intro ⟨turns, texts, hprint⟩ option hoption
    by_contra hlong
    rw [printAllOptions, printOptions_of_long hoption hlong] at hprint
    cases hprint
  · intro hshort
    let turns := (options.map (·.docstring.length)).sum + 1
    have hturns : ∀ option ∈ options, option.docstring.length < turns := by
      intro option hoption
      apply Nat.lt_succ_of_le
      exact List.single_le_sum (by simp) _ (List.mem_map_of_mem hoption)
    obtain ⟨texts, hprint⟩ := printOptions_of_short fun o ho ↦ ⟨hshort o ho, hturns o ho⟩
    use turns
    rw [printAllOptions, hprint]
    exact ⟨_, rfl⟩

/-- A word of 72 letters is never printed. -/
theorem longWord_not_printed :
    ¬∃ turns lines, printDocString turns (List.replicate 72 'a') = some lines := by
  have hlong : ¬ShortWords (List.replicate 72 'a') := by
    intro hshort
    have hword : words isBlank (List.replicate 72 'a') = [List.replicate 72 'a'] := by
      apply words_eq_singleton
      · intro ch hch
        rw [List.eq_of_mem_replicate hch]
        rfl
      · simp
    have hlt := hshort (List.replicate 72 'a') (by rw [hword]; exact List.mem_singleton_self _)
    rw [List.length_replicate] at hlt
    exact absurd hlt (by decide)
  intro ⟨turns, lines, hprint⟩
  rw [printDocString_of_long hlong] at hprint
  cases hprint

end Lines

end Granary.Base.Options
