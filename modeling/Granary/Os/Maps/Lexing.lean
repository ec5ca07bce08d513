import Granary.Base.Words
import Granary.Os.Maps

namespace Granary.Os.Maps

open Function Granary.Base.Bytes Granary.Base.Format Granary.Base.Words

section Lex

variable {past word text : List Char}

/-- The first token of a text, some of which is past already, and the text after it. -/
def lex : (past text : List Char) → List Char × List Char
  | past, [] => (past, [])
  | past, ch :: text =>
    if ch = ' ' ∨ ch = '\n' then
      if past ≠ [] then (past, ch :: text)
      else if ch = '\n' then (['\n'], text)
      else lex [] text
    else lex (past ++ [ch]) text

theorem lex_space (text : List Char) : lex [] (' ' :: text) = lex [] text :=
  rfl

theorem lex_line (text : List Char) : lex [] ('\n' :: text) = (['\n'], text) :=
  rfl

theorem lex_of_blank {ch : Char} (hblank : ch = ' ' ∨ ch = '\n') (hpast : past ≠ []) (text : List Char) :
    lex past (ch :: text) = (past, ch :: text) := by
  rw [lex, if_pos hblank, if_pos hpast]

theorem lex_of_not_blank {ch : Char} (hblank : ¬(ch = ' ' ∨ ch = '\n')) (past text : List Char) :
    lex past (ch :: text) = lex (past ++ [ch]) text :=
  if_neg hblank

theorem length_le_length_lex (past text : List Char) : past.length ≤ (lex past text).1.length := by
  induction text generalizing past with
  | nil => exact Nat.le_refl _
  | cons ch text ih =>
    by_cases hblank : ch = ' ' ∨ ch = '\n'
    · by_cases hpast : past = []
      · rw [hpast]
        exact Nat.zero_le _
      · rw [lex_of_blank hblank hpast]
    · rw [lex_of_not_blank hblank]
      have hle := ih (past ++ [ch])
      rw [List.length_append] at hle
      omega

theorem lex_append (hword : ∀ ch ∈ word, ¬(ch = ' ' ∨ ch = '\n')) (past text : List Char) :
    lex past (word ++ text) = lex (past ++ word) text := by
  induction word generalizing past with
  | nil => rw [List.nil_append, List.append_nil]
  | cons ch word ih =>
    obtain ⟨hch, hword⟩ := List.forall_mem_cons.1 hword
    rw [List.cons_append, lex_of_not_blank hch, ih hword, List.append_assoc, List.singleton_append]

theorem lex_word (hword : ∀ ch ∈ word, ¬(ch = ' ' ∨ ch = '\n')) (hne : word ≠ []) {ch : Char}
    (hblank : ch = ' ' ∨ ch = '\n') (text : List Char) :
    lex [] (word ++ ch :: text) = (word, ch :: text) := by
  rw [lex_append hword, List.nil_append, lex_of_blank hblank hne]

def lineWords (text : List Char) : List (List Char) :=
  words (· = ' ') text

theorem lineWords_space (text : List Char) : lineWords (' ' :: text) = lineWords text :=
  words_cons (p := (· = ' ')) rfl text

theorem lineWords_append_space (before after : List Char) :
    lineWords (before ++ ' ' :: after) = lineWords before ++ lineWords after :=
  words_append_cons (p := (· = ' ')) rfl before after

theorem lineWords_eq_singleton (hword : ∀ ch ∈ word, decide (ch = ' ') = false) (hne : word ≠ []) :
    lineWords word = [word] :=
  words_eq_singleton hword hne

theorem lex_line_words (hline : '\n' ∉ text) (rest : List Char) :
    lineWords text = [] ∧ lex [] (text ++ '\n' :: rest) = (['\n'], rest) ∨
      ∃ word text', lineWords text = word :: lineWords text' ∧ word ≠ [] ∧ '\n' ∉ word ∧
        '\n' ∉ text' ∧ lex [] (text ++ '\n' :: rest) = (word, text' ++ '\n' :: rest) := by
  induction text with
  | nil => exact Or.inl ⟨words_nil, rfl⟩
  | cons ch text ih =>
    by_cases hspace : ch = ' '
    · rw [hspace, lineWords_space, List.cons_append, lex_space]
      exact ih fun hmem ↦ hline (List.mem_cons_of_mem ch hmem)
    · right
      have hword {word : List Char} (hline : '\n' ∉ word)
          (hnone : ∀ ch ∈ word, decide (ch = ' ') = false) :
          ∀ ch ∈ word, ¬(ch = ' ' ∨ ch = '\n') := by
        intro c hc hblank
        obtain rfl | rfl := hblank
        · exact of_decide_eq_false (hnone _ hc) rfl
        · exact hline hc
      obtain hall | ⟨before, sep, after, heq, hsep, hbefore⟩ :=
        exists_separator (fun ch ↦ decide (ch = ' ')) (ch :: text)
      · refine ⟨ch :: text, [], ?_, List.cons_ne_nil ch text, hline, List.not_mem_nil, ?_⟩
        · exact lineWords_eq_singleton hall (List.cons_ne_nil ch text)
        · exact lex_word (hword hline hall) (List.cons_ne_nil ch text) (Or.inr rfl) rest
      · obtain rfl := of_decide_eq_true hsep
        have hne : before ≠ [] := by
          intro hnil
          rw [hnil] at heq
          exact hspace (List.cons.inj heq).1
        rw [heq] at hline ⊢
        have hline' : '\n' ∉ before := fun hmem ↦ hline (List.mem_append_left _ hmem)
        refine ⟨before, ' ' :: after, ?_, hne, hline', ?_, ?_⟩
        · rw [lineWords_append_space, lineWords_eq_singleton hbefore hne, lineWords_space]
          rfl
        · exact fun hmem ↦ hline (List.mem_append_right before hmem)
        · rw [List.append_assoc]
          exact lex_word (hword hline' hbefore) hne (Or.inl rfl) _

end Lex

namespace Lexer

/-- A part of a token was read, and the rest is not in the buffer of the file. -/
structure Unread (lexer : Lexer) (past : List Char) : Prop where
  past_eq : load lexer.tokenBuffer 0 past.length = past
  past_nul : '\x00' ∉ past
  tokenOffset : lexer.tokenOffset = past.length
  chunks (chunk : List Char) : chunk ∈ lexer.reads → chunk ≠ [] ∧ chunk.length ≤ buffSize
  chunks_nul : '\x00' ∉ lexer.reads.flatten
  tryFillBuffer : lexer.tryFillBuffer = false → lexer.reads = []

/-- In the buffer of the file there is some text at the offset. -/
structure Reads (lexer : Lexer) (past front : List Char) : Prop extends Unread lexer past where
  front_eq : load lexer.fileBuffer lexer.fileOffset front.length = front
  front_nul : '\x00' ∉ front
  le : lexer.fileOffset + front.length ≤ buffSize
  terminator : lexer.fileOffset + front.length < buffSize →
    lexer.fileBuffer (lexer.fileOffset + front.length) = '\x00'

structure Token (lexer : Lexer) (word : List Char) : Prop where
  word_eq : load lexer.tokenBuffer 0 word.length = word
  word_nul : '\x00' ∉ word
  short : word.length < kMaxModulePathLength
  terminator : lexer.tokenBuffer word.length = '\x00'

variable {lexer l : Lexer} {past front word chunk : List Char} {chunks : List (List Char)} {ch : Char}

theorem Token.token_eq (h : lexer.Token word) : lexer.token = word :=
  cString_load h.word_eq h.terminator h.short h.word_nul

theorem Token.getElem (h : lexer.Token word) {i : ℕ} (hi : i < word.length) :
    lexer.tokenBuffer i = word[i] := by
  have hget := getElem?_load lexer.tokenBuffer 0 hi
  rw [h.word_eq, List.getElem?_eq_getElem hi, Nat.zero_add] at hget
  exact (Option.some_inj.1 hget).symm

theorem Token.head (h : lexer.Token word) (hne : word ≠ []) (hline : '\n' ∉ word) :
    lexer.tokenBuffer 0 ≠ '\x00' ∧ lexer.tokenBuffer 0 ≠ '\n' := by
  have hget := h.getElem (List.length_pos_of_ne_nil hne)
  have hmem := List.getElem_mem (List.length_pos_of_ne_nil hne)
  rw [← hget] at hmem
  exact ⟨fun hnul ↦ h.word_nul (hnul ▸ hmem), fun heq ↦ hline (heq ▸ hmem)⟩

theorem Reads.fileBuffer (h : lexer.Reads past (ch :: front)) :
    lexer.fileBuffer lexer.fileOffset = ch ∧ ch ≠ '\x00' ∧ lexer.fileOffset < buffSize := by
  have hfront := h.front_eq
  have hle := h.le
  rw [List.length_cons] at hfront hle
  rw [load_succ] at hfront
  refine ⟨(List.cons.inj hfront).1, fun hnul ↦ h.front_nul ?_, by omega⟩
  rw [hnul]
  exact List.mem_cons_self

theorem Reads.skip (h : lexer.Reads past (ch :: front)) :
    Reads { lexer with fileOffset := lexer.fileOffset + 1 } past front := by
  have hfront := h.front_eq
  have hle := h.le
  have hterminator := h.terminator
  rw [List.length_cons] at hfront hle hterminator
  rw [load_succ] at hfront
  have hoffset : lexer.fileOffset + (front.length + 1) = lexer.fileOffset + 1 + front.length := by
    omega
  rw [hoffset] at hle hterminator
  exact { h with
    front_eq := (List.cons.inj hfront).2
    front_nul := fun hnul ↦ h.front_nul (List.mem_cons_of_mem ch hnul)
    le := hle
    terminator := hterminator }

theorem Reads.push (h : lexer.Reads past (ch :: front)) :
    Reads { lexer with
      tokenBuffer := update lexer.tokenBuffer lexer.tokenOffset ch
      tokenOffset := lexer.tokenOffset + 1
      fileOffset := lexer.fileOffset + 1 } (past ++ [ch]) front := by
  have hload := load_update_length (x := ch) h.past_eq
  rw [Nat.zero_add] at hload
  refine { h.skip with past_eq := ?_, past_nul := ?_, tokenOffset := ?_ }
  · rw [h.tokenOffset]
    exact hload
  · intro hnul
    obtain hnul | hnul := List.mem_append.1 hnul
    · exact h.past_nul hnul
    · exact h.fileBuffer.2.1 (List.mem_singleton.1 hnul).symm
  · rw [List.length_append, h.tokenOffset]
    rfl

theorem Reads.finalizeToken (h : lexer.Reads past front) (hshort : past.length < kMaxModulePathLength) :
    ∃ l, lexer.finalizeToken = some l ∧ l.Token past ∧ l.Reads [] front ∧ l.reads = lexer.reads := by
  have hload : load (update lexer.tokenBuffer past.length '\x00') 0 past.length = past := by
    refine Eq.trans (load_congr fun i _ hlt ↦ ?_) h.past_eq
    exact update_of_ne (by omega) ..
  rw [Lexer.finalizeToken, h.tokenOffset, if_pos hshort]
  refine ⟨_, rfl, ⟨hload, h.past_nul, hshort, update_self ..⟩, ?_, rfl⟩
  exact { h with past_eq := rfl, past_nul := List.not_mem_nil, tokenOffset := rfl }

theorem scan_spec {num : ℕ} (h : lexer.Reads past front) (hnum : lexer.fileOffset + num = buffSize)
    (hshort : (lex past (front ++ lexer.reads.flatten)).1.length < kMaxModulePathLength) :
    (∃ l front', scan num lexer = some (.token, l) ∧ l.reads = lexer.reads ∧
      l.Token (lex past (front ++ lexer.reads.flatten)).1 ∧ l.Reads [] front' ∧
      front' ++ lexer.reads.flatten = (lex past (front ++ lexer.reads.flatten)).2) ∨
    ∃ l past', scan num lexer = some (.endOfBuffer, l) ∧ l.reads = lexer.reads ∧
      l.Reads past' [] ∧
      lex past (front ++ lexer.reads.flatten) = lex past' lexer.reads.flatten := by
  induction num generalizing lexer past front with
  | zero =>
    cases front with
    | nil => exact Or.inr ⟨lexer, past, rfl, rfl, h, rfl⟩
    | cons ch front =>
      have hlt := h.fileBuffer.2.2
      omega
  | succ num ih =>
    cases front with
    | nil =>
      have hnul := h.terminator (by simp; omega)
      rw [List.length_nil, Nat.add_zero] at hnul
      refine Or.inr ⟨lexer, past, ?_, rfl, h, rfl⟩
      rw [scan]
      dsimp only
      rw [if_pos hnul]
    | cons ch front =>
      obtain ⟨hch, hnul, -⟩ := h.fileBuffer
      rw [scan]
      dsimp only
      rw [hch, if_neg hnul]
      rw [List.cons_append] at hshort ⊢
      by_cases hblank : ch = ' ' ∨ ch = '\n'
      · rw [if_pos hblank]
        by_cases hpast : past = []
        · subst hpast
          have htoken : lexer.tokenOffset = 0 := h.tokenOffset
          rw [if_neg (not_not.2 htoken)]
          by_cases hline : ch = '\n'
          · have hpush := h.push
            rw [htoken, hline, List.nil_append] at hpush
            obtain ⟨l, hl, htoken, hreads, hsame⟩ := hpush.finalizeToken (by decide)
            rw [hline, lex_line, if_pos rfl, hl]
            exact Or.inl ⟨l, front, rfl, hsame, htoken, hreads, rfl⟩
          · obtain rfl := hblank.resolve_right hline
            rw [lex_space] at hshort ⊢
            rw [if_neg hline]
            exact ih h.skip (by dsimp only; omega) hshort
        · have htoken : lexer.tokenOffset ≠ 0 := by
            rw [h.tokenOffset]
            exact (List.length_pos_of_ne_nil hpast).ne'
          rw [lex_of_blank hblank hpast] at hshort ⊢
          obtain ⟨l, hl, htoken', hreads, hsame⟩ := h.finalizeToken hshort
          rw [if_pos htoken, hl]
          exact Or.inl ⟨l, ch :: front, rfl, hsame, htoken', hreads, rfl⟩
      · have hle := length_le_length_lex (past ++ [ch]) (front ++ lexer.reads.flatten)
        rw [lex_of_not_blank hblank] at hshort ⊢
        rw [List.length_append, List.length_singleton] at hle
        rw [if_neg hblank, if_pos (by rw [h.tokenOffset]; omega)]
        exact ih h.push (by dsimp only; omega) hshort

theorem Unread.fillBuffer_nil (h : lexer.Unread past) (hreads : lexer.reads = [])
    (hend : lexer.tryFillBuffer = true ∨ lexer.Reads past []) :
    lexer.fillBuffer.tryFillBuffer = false ∧ lexer.fillBuffer.Reads past [] ∧
      lexer.fillBuffer.reads = [] := by
  rw [fillBuffer]
  split_ifs with htry
  · rw [hreads]
    dsimp only [List.headD_nil, List.tail_nil, List.length_nil]
    rw [if_pos (by decide)]
    refine ⟨rfl, ?_, rfl⟩
    refine { h with
      chunks := fun chunk hchunk ↦ absurd hchunk List.not_mem_nil
      chunks_nul := List.not_mem_nil
      tryFillBuffer := fun _ ↦ rfl
      front_eq := rfl
      front_nul := List.not_mem_nil
      le := Nat.zero_le _
      terminator := ?_ }
    intro _
    dsimp only [List.length_nil]
    exact update_self ..
  · obtain hend | hend := hend
    · exact absurd hend htry
    · exact ⟨Bool.eq_false_of_not_eq_true htry, hend, hreads⟩

theorem Unread.fillBuffer_cons (h : lexer.Unread past) (hreads : lexer.reads = chunk :: chunks) :
    lexer.fillBuffer.tryFillBuffer = true ∧ lexer.fillBuffer.Reads past chunk ∧
      lexer.fillBuffer.reads = chunks := by
  have htry : lexer.tryFillBuffer = true := by
    by_contra hfalse
    have hnil := h.tryFillBuffer (Bool.eq_false_of_not_eq_true hfalse)
    rw [hreads] at hnil
    exact List.cons_ne_nil chunk chunks hnil
  obtain ⟨hne, hlen⟩ := h.chunks chunk (by rw [hreads]; exact List.mem_cons_self)
  have hpos := List.length_pos_of_ne_nil hne
  have hnul := h.chunks_nul
  rw [hreads, List.flatten_cons, List.mem_append, not_or] at hnul
  rw [fillBuffer, if_pos htry, hreads]
  dsimp only [List.headD_cons, List.tail_cons]
  refine ⟨decide_eq_true hpos, ?_, rfl⟩
  refine { h with
    chunks := ?_
    chunks_nul := hnul.2
    tryFillBuffer := fun hfalse ↦ absurd (decide_eq_true hpos) (Bool.eq_false_iff.1 hfalse)
    front_eq := ?_
    front_nul := hnul.1
    le := by rwa [Nat.zero_add]
    terminator := ?_ }
  · intro chunk' hchunk'
    apply h.chunks
    rw [hreads]
    exact List.mem_cons_of_mem chunk hchunk'
  · dsimp only
    refine Eq.trans (load_congr fun i _ hlt ↦ ?_)
      (load_store (update lexer.fileBuffer 0 '\x00') 0 chunk)
    split_ifs
    · exact update_of_ne (by omega) ..
    · rfl
  · intro hlt
    rw [Nat.zero_add] at hlt ⊢
    dsimp only
    rw [if_pos hlt]
    exact update_self ..

theorem nextToken_of_token (h : scan (buffSize - lexer.fileOffset) lexer = some (.token, l)) :
    lexer.nextToken = some l := by
  rw [nextToken]
  split
  · rename_i hscan
    exact absurd (hscan.symm.trans h) (by simp)
  · rename_i hscan
    rw [(Prod.mk.inj (Option.some_inj.1 (hscan.symm.trans h))).2]
  · rename_i hscan
    exact absurd (Prod.mk.inj (Option.some_inj.1 (hscan.symm.trans h))).1 (by decide)

theorem nextToken_of_endOfBuffer
    (h : scan (buffSize - lexer.fileOffset) lexer = some (.endOfBuffer, l)) :
    lexer.nextToken = if l.fillBuffer.tryFillBuffer = true then l.fillBuffer.nextToken
      else l.fillBuffer.finalizeToken := by
  rw [nextToken]
  split
  · rename_i hscan
    exact absurd (hscan.symm.trans h) (by simp)
  · rename_i hscan
    exact absurd (Prod.mk.inj (Option.some_inj.1 (hscan.symm.trans h))).1 (by decide)
  · rename_i hscan
    rw [(Prod.mk.inj (Option.some_inj.1 (hscan.symm.trans h))).2]
    exact dite_eq_ite

theorem nextToken_spec (h : lexer.Reads past front)
    (hshort : (lex past (front ++ lexer.reads.flatten)).1.length < kMaxModulePathLength) :
    ∃ l front', lexer.nextToken = some l ∧ l.Token (lex past (front ++ lexer.reads.flatten)).1 ∧
      l.Reads [] front' ∧
      front' ++ l.reads.flatten = (lex past (front ++ lexer.reads.flatten)).2 := by
  have hnum : lexer.fileOffset + (buffSize - lexer.fileOffset) = buffSize := by
    have hle := h.le
    omega
  induction hreads : lexer.reads generalizing lexer past front with
  | nil =>
    obtain ⟨l, front', hscan, hl, htoken, hfront, hrest⟩ | ⟨l, past', hscan, hl, hpast, hlex⟩ :=
      scan_spec h hnum hshort
    · rw [← hreads]
      exact ⟨l, front', nextToken_of_token hscan, htoken, hfront, hl ▸ hrest⟩
    · rw [hlex, hreads] at hshort
      obtain ⟨hfalse, hfill, hnil⟩ := hpast.fillBuffer_nil (hl.trans hreads) (Or.inr hpast)
      obtain ⟨t, ht, htoken, hfront, hsame⟩ := hfill.finalizeToken hshort
      refine ⟨t, [], ?_, ?_, hfront, ?_⟩
      · rw [nextToken_of_endOfBuffer hscan, hfalse, ht]
        rfl
      · rw [← hreads, hlex, hreads]
        exact htoken
      · rw [← hreads, hlex, hsame, hnil, hreads]
        rfl
  | cons chunk chunks ih =>
    obtain ⟨l, front', hscan, hl, htoken, hfront, hrest⟩ | ⟨l, past', hscan, hl, hpast, hlex⟩ :=
      scan_spec h hnum hshort
    · rw [← hreads]
      exact ⟨l, front', nextToken_of_token hscan, htoken, hfront, hl ▸ hrest⟩
    · obtain ⟨htrue, hfill, hchunks⟩ := hpast.fillBuffer_cons (hl.trans hreads)
      have hrest : lex past' (chunk ++ l.fillBuffer.reads.flatten) =
          lex past (front ++ lexer.reads.flatten) := by
        rw [hlex, hreads, hchunks, List.flatten_cons]
      rw [← hrest] at hshort
      have hnum' : l.fillBuffer.fileOffset + (buffSize - l.fillBuffer.fileOffset) = buffSize := by
        have hle := hfill.le
        omega
      obtain ⟨t, front', ht, htoken, hfront, heq⟩ := ih hfill hshort hnum' hchunks
      rw [← hchunks, hrest, hreads] at htoken heq
      refine ⟨t, front', ?_, htoken, hfront, heq⟩
      rw [nextToken_of_endOfBuffer hscan, if_pos htrue, ht]

def Ahead (lexer : Lexer) (text : List Char) : Prop :=
  ∃ front, lexer.Reads [] front ∧ front ++ lexer.reads.flatten = text

/-- In a line, with some of its words ahead, and with a text after the line. -/
def InLine (lexer : Lexer) (ws : List (List Char)) (rest : List Char) : Prop :=
  ∃ text, lexer.Ahead (text ++ '\n' :: rest) ∧ '\n' ∉ text ∧ lineWords text = ws

variable {text rest : List Char} {ws : List (List Char)}

theorem Ahead.nextToken (h : lexer.Ahead text) (hshort : (lex [] text).1.length < kMaxModulePathLength) :
    ∃ l, lexer.nextToken = some l ∧ l.Token (lex [] text).1 ∧ l.Ahead (lex [] text).2 := by
  obtain ⟨front, hreads, rfl⟩ := h
  obtain ⟨l, front', hl, htoken, hfront, hrest⟩ := nextToken_spec hreads hshort
  exact ⟨l, hl, htoken, front', hfront, hrest⟩

theorem InLine.nextToken_cons (h : lexer.InLine (word :: ws) rest)
    (hshort : word.length < kMaxModulePathLength) :
    ∃ l, lexer.nextToken = some l ∧ l.Token word ∧ word ≠ [] ∧ '\n' ∉ word ∧
      l.InLine ws rest := by
  obtain ⟨text, hahead, hline, hws⟩ := h
  obtain ⟨hnil, -⟩ | ⟨word', text', hwords, hne, hword, hline', hlex⟩ := lex_line_words hline rest
  · rw [hnil] at hws
    exact absurd hws (List.cons_ne_nil word ws).symm
  · rw [hwords] at hws
    obtain ⟨rfl, hws'⟩ := List.cons.inj hws
    obtain ⟨l, hl, htoken, hahead'⟩ := hahead.nextToken (by rwa [hlex])
    rw [hlex] at htoken hahead'
    exact ⟨l, hl, htoken, hne, hword, text', hahead', hline', hws'⟩

theorem InLine.nextToken_nil (h : lexer.InLine [] rest) :
    ∃ l, lexer.nextToken = some l ∧ l.Token ['\n'] ∧ l.Ahead rest := by
  obtain ⟨text, hahead, hline, hws⟩ := h
  obtain ⟨-, hlex⟩ | ⟨word', text', hwords, -⟩ := lex_line_words hline rest
  · have hshort : ['\n'].length < kMaxModulePathLength := by decide
    obtain ⟨l, hl, htoken, hahead'⟩ := hahead.nextToken (by rwa [hlex])
    rw [hlex] at htoken hahead'
    exact ⟨l, hl, htoken, hahead'⟩
  · rw [hwords] at hws
    exact absurd hws (List.cons_ne_nil word' _)

theorem ahead_init (fileBuffer tokenBuffer : ℕ → Char)
    (hchunks : ∀ chunk ∈ chunks, chunk ≠ [] ∧ chunk.length ≤ buffSize)
    (hnul : '\x00' ∉ chunks.flatten) :
    (init fileBuffer tokenBuffer chunks).Ahead chunks.flatten := by
  rw [init]
  set start : Lexer := ⟨fileBuffer, 0, tokenBuffer, 0, true, chunks⟩
  have hstart : start.Unread [] :=
    { past_eq := rfl
      past_nul := List.not_mem_nil
      tokenOffset := rfl
      chunks := hchunks
      chunks_nul := hnul
      tryFillBuffer := fun hfalse ↦ Bool.noConfusion (show true = false from hfalse) }
  cases hreads : chunks with
  | nil =>
    obtain ⟨-, hfill, hnil⟩ := hstart.fillBuffer_nil hreads (Or.inl rfl)
    exact ⟨[], hfill, by rw [hnil]; rfl⟩
  | cons chunk chunks' =>
    obtain ⟨-, hfill, hrest⟩ := hstart.fillBuffer_cons hreads
    exact ⟨chunk, hfill, by rw [hrest, List.flatten_cons]⟩

end Lexer

end Granary.Os.Maps
