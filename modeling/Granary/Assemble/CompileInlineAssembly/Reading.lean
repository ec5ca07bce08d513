import Granary.Assemble.CompileInlineAssembly.Address

namespace Granary.Assemble.CompileInlineAssembly

open Granary.Base.Format

section Operands

variable {x : Xed}

theorem endsWord_digit {c : Char} (h : getDigit 10 c ≠ none) : endsWord c = false := by
  obtain ⟨hlow, hhigh⟩ := decimalDigit_ne_none h
  have hne : ∀ d : Char, d < '0' ∨ '9' < d → c ≠ d := by
    rintro d (hd | hd) rfl
    · exact absurd hd (Char.not_lt.2 hlow)
    · exact absurd hd (Char.not_lt.2 hhigh)
  simp [endsWord, isWhiteSpace, hne ' ' (by decide), hne '\t' (by decide), hne '\n' (by decide),
    hne ';' (by decide), hne ',' (by decide), hne ':' (by decide), hne '[' (by decide),
    hne ']' (by decide)]

theorem isWord_operandType {t : Char} (ht : endsWord t = false) (w : Width) :
    IsWord (t :: w.digits) := by
  refine ⟨w.fits, ?_⟩
  intro c hc
  rcases List.mem_cons.1 hc with rfl | hc
  · exact ht
  · exact endsWord_digit (w.isDigit c hc)

theorem parseOperandType_eq {t : Char} (ht : t ≠ '\x00') (w : Width) :
    parseOperandType (t :: w.digits) = some (t, w.value) := by
  obtain ⟨digits, hdigit, hfits, hsmall⟩ := w
  unfold parseOperandType
  cases digits with
  | nil =>
    rw [deFormat_char t ht]
    rfl
  | cons c digits =>
    have hspells : Spells 10 (readDigits 10 0 (c :: digits)) (c :: digits) :=
      ⟨by simp, hdigit, rfl⟩
    have hnat : (BitVec.ofNat 32 (readDigits 10 0 (c :: digits))).toNat =
        readDigits 10 0 (c :: digits) := by
      rw [BitVec.toNat_ofNat]
      omega
    rw [deFormat_char_number t ht hspells]
    simp only [Option.bind_eq_bind, Option.bind_some, hnat]
    rfl

def finishOperand (width : ℕ) (op : Operand) : Operand :=
  { op with width := width % 2 ^ 16, rw := .invalid, isExplicit := true, isSticky := false }

theorem desc_finishOperand (w : Width) (op : Operand) :
    (finishOperand w.value op).desc =
      op.meaning.map fun m ↦ { meaning := m, width := w.value } := by
  have hwidth : w.value % 2 ^ 16 = w.value := Nat.mod_eq_of_lt w.small
  unfold Operand.desc
  rw [meaning_congr (finishOperand w.value op) op rfl rfl rfl rfl]
  simp only [finishOperand, hwidth]

variable (x) (iclass : IClass) (s : Scope) (k : ℕ) (w : Width) (g : Blanks) {ch : List Char}

theorem parseOperand_memory (hends : Ends (g.text ++ ch)) (hch : NotWhite ch) :
    parseOperand x iclass s k ('m' :: w.digits ++ (g.text ++ ch)) =
      (parseMemoryOperand x s.vars iclass ch).map fun p ↦
        (finishOperand w.value p.1, s, k, p.2) := by
  unfold parseOperand
  simp only [parseWord_append (isWord_operandType (t := 'm') rfl w) hends,
    parseOperandType_eq (t := 'm') (by decide) w, consumeWhiteSpace_blanks g hch,
    Option.bind_eq_bind, Option.bind_some]
  cases parseMemoryOperand x s.vars iclass ch <;> rfl

theorem parseOperand_register (hends : Ends (g.text ++ ch)) (hch : NotWhite ch) :
    parseOperand x iclass s k ('r' :: w.digits ++ (g.text ++ ch)) =
      (parseRegisterOperand x s w.value ch).map fun p ↦
        (finishOperand w.value p.1, p.2.1, k, p.2.2) := by
  unfold parseOperand
  simp only [parseWord_append (isWord_operandType (t := 'r') rfl w) hends,
    parseOperandType_eq (t := 'r') (by decide) w, consumeWhiteSpace_blanks g hch,
    Option.bind_eq_bind, Option.bind_some]
  cases parseRegisterOperand x s w.value ch <;> rfl

theorem parseOperand_immediate (hends : Ends (g.text ++ ch)) (hch : NotWhite ch) :
    parseOperand x iclass s k ('i' :: w.digits ++ (g.text ++ ch)) =
      (parseImmediateOperand s.vars k ch).map fun p ↦
        (finishOperand w.value p.1, s, p.2.1, p.2.2) := by
  unfold parseOperand
  simp only [parseWord_append (isWord_operandType (t := 'i') rfl w) hends,
    parseOperandType_eq (t := 'i') (by decide) w, consumeWhiteSpace_blanks g hch,
    Option.bind_eq_bind, Option.bind_some]
  cases parseImmediateOperand s.vars k ch <;> rfl

theorem parseOperand_label (hends : Ends (g.text ++ ch)) (hch : NotWhite ch) :
    parseOperand x iclass s k ('l' :: w.digits ++ (g.text ++ ch)) =
      (parseLabelOperand s iclass ch).map fun p ↦
        (finishOperand w.value p.1, p.2.1, k, p.2.2) := by
  unfold parseOperand
  simp only [parseWord_append (isWord_operandType (t := 'l') rfl w) hends,
    parseOperandType_eq (t := 'l') (by decide) w, consumeWhiteSpace_blanks g hch,
    Option.bind_eq_bind, Option.bind_some]
  cases parseLabelOperand s iclass ch <;> rfl

theorem parseRegisterOperand_arch {r : ℕ} (named : x.NamesReg r) (width : ℕ) (hch : Ends ch) :
    parseRegisterOperand x s width (x.regName r ++ ch) =
      ((VirtualRegister.decodeFromNative x.registerWidthBits r).widen (width / 8)).map fun r ↦
        ({ type := .reg, value := .reg r }, s, ch) := by
  obtain ⟨c, t, htext, hle, -⟩ := alpha_head named.isAlpha
  have hpercent : c ≠ '%' := ne_of_alpha hle (by decide)
  have hvar : peek '%' (x.regName r ++ ch) = false := by
    rw [htext]
    simp [hpercent]
  unfold parseRegisterOperand
  simp only [hvar, parseWord_append named.isWord hch, named.strToReg_regName, Option.bind_eq_bind,
    Option.bind_some, guard, if_pos named.ne_invalid]
  cases VirtualRegister.widen _ (width / 8) <;> rfl

theorem parseRegisterOperand_var (n : Fin maxNumInlineVars) {r : VirtualRegister}
    (hr : (initRegVar s n).1.reg? = some r) (width : ℕ) (hch : Ends ch) :
    parseRegisterOperand x s width (varText n ++ ch) =
      (r.widen (width / 8)).map fun r ↦
        ({ (initRegVar s n).1.copy with value := .reg r }, (initRegVar s n).2, ch) := by
  have hvalue : (initRegVar s n).1.copy.value = .reg r := (reg?_eq_some hr).2
  have hvar : peek '%' (varText n ++ ch) = true := rfl
  unfold parseRegisterOperand
  simp only [hvar, parseVar_append n hch, Option.bind_eq_bind, Option.bind_some, if_true, hvalue]
  cases r.widen (width / 8) <;> rfl

theorem label?_eq_some {aop : Operand} {l : ℕ} (h : aop.label? = some l) :
    aop.type = .brdisp ∧ aop.value = .annotationInstr l ∧ aop.isAnnotationInstr = true := by
  unfold Operand.label? at h
  split at h
  · rename_i htype hvalue hlabel
    exact ⟨htype, by rw [hvalue, Option.some.inj h], hlabel⟩
  · exact absurd h (by simp)

theorem parseLabelOperand_append (n : Fin maxNumInlineVars) {l : ℕ}
    (hl : (initLabelVar s n).1.label? = some l) (hch : Ends ch) :
    ∃ op, parseLabelOperand s iclass (varText n ++ ch) = some (op, (initLabelVar s n).2, ch) ∧
      op.meaning = some (.label l) := by
  obtain ⟨htype, hvalue, hlabel⟩ := label?_eq_some hl
  have hcopy : (initLabelVar s n).1.copy.value = .annotationInstr l ∧
      (initLabelVar s n).1.copy.isAnnotationInstr = true := ⟨hvalue, hlabel⟩
  unfold parseLabelOperand
  simp only [parseVar_append n hch, Option.bind_eq_bind, Option.bind_some, hvalue]
  refine ⟨_, rfl, ?_⟩
  cases iclass.isEffectiveAddress <;> simp [Operand.meaning, hcopy, htype]

theorem immediate?_eq_some {aop : Operand} {v : BitVec 64} (h : aop.immediate? = some v) :
    (aop.type = .imm0 ∨ aop.type = .simm0 ∨ aop.type = .imm1) ∧ aop.value = .imm v := by
  unfold Operand.immediate? at h
  split at h
  · rename_i htype hvalue
    exact ⟨Or.inl htype, by rw [hvalue, Option.some.inj h]⟩
  · rename_i htype hvalue
    exact ⟨Or.inr (Or.inl htype), by rw [hvalue, Option.some.inj h]⟩
  · rename_i htype hvalue
    exact ⟨Or.inr (Or.inr htype), by rw [hvalue, Option.some.inj h]⟩
  · exact absurd h (by simp)

theorem meaning_of_immediate (op : Operand) {v : BitVec 64}
    (htype : op.type = .imm0 ∨ op.type = .simm0 ∨ op.type = .imm1) (hvalue : op.value = .imm v) :
    op.meaning = some (.immediate v (op.type == .imm1)) := by
  unfold Operand.meaning
  obtain htype | htype | htype := htype
  all_goals
    rw [htype, hvalue]
    rfl

theorem parseImmediateOperand_var (n : Fin maxNumInlineVars) {vars : Vars} {aop : Operand}
    (hn : vars n = some aop) {v : BitVec 64} (hv : aop.immediate? = some v) (hch : Ends ch) :
    parseImmediateOperand vars k (varText n ++ ch) = some (aop.copy, k, ch) := by
  obtain ⟨htype, -⟩ := immediate?_eq_some hv
  have himm : aop.isImmediate = true := by
    unfold Operand.isImmediate
    rcases htype with h | h | h <;> rw [h] <;> rfl
  have hvar : peek '%' (varText n ++ ch) = true := rfl
  unfold parseImmediateOperand
  simp only [hvar, parseVar_append n hch, Option.bind_eq_bind, Option.bind_some, hn, himm, guard,
    if_true]
  rfl

theorem deFormat_digits (n : Numeral) :
    deFormat n.digits (if n.isHex then ['%', 'l', 'x'] else ['%', 'l', 'u']) =
      some (1, [.long (BitVec.ofNat 64 n.value)]) := by
  obtain ⟨isHex, digits, hne, hdigit, hnormal⟩ := n
  cases isHex with
  | true =>
    have hread := deFormat_conv .lx (by decide) (by decide)
      (Numeral.spells ⟨true, digits, hne, hdigit, hnormal⟩) [] (noDigit_nul (Or.inr rfl))
    rw [List.append_nil] at hread
    exact hread
  | false =>
    have hread := deFormat_conv .lu (by decide) (by decide)
      (Numeral.spells ⟨false, digits, hne, hdigit, hnormal⟩) [] (noDigit_nul (Or.inl rfl))
    rw [List.append_nil] at hread
    exact hread

theorem immediateFormat_text (n : Numeral) :
    immediateFormat n.text =
      (n.digits, if n.isHex then ['%', 'l', 'x'] else ['%', 'l', 'u']) := by
  obtain ⟨isHex, digits, hne, hdigit, hnormal⟩ := n
  cases isHex with
  | true => rfl
  | false =>
    change immediateFormat digits = (digits, ['%', 'l', 'u'])
    unfold immediateFormat
    split
    · exact absurd (hnormal rfl rfl) (by simp)
    · exact absurd (hnormal rfl rfl) (by simp)
    · rfl

theorem text_ne_minus (n : Numeral) : n.text.head? ≠ some '-' := by
  obtain ⟨c, t, htext, hdigit⟩ := text_head n
  rw [htext]
  rintro h
  rw [Option.some.inj h] at hdigit
  exact absurd hdigit.1 (by decide)

theorem parseImmediateLiteralOperand_append (l : Literal) (hch : Ends ch) :
    parseImmediateLiteralOperand k (l.text ++ ch) =
      if k = 0 then
        some ({ type := if l.isNegative then .simm0 else .imm0, value := .imm l.value }, 1, ch)
      else
        some ({ type := .imm1, value := .imm (BitVec.ofNat 64 l.numeral.value) }, k, ch) := by
  have hsign : decide (l.text.head? = some '-') = l.isNegative ∧
      (if l.isNegative then l.text.tail else l.text) = l.numeral.text := by
    unfold Literal.text
    cases l.isNegative with
    | true => exact ⟨rfl, rfl⟩
    | false => exact ⟨decide_eq_false (text_ne_minus l.numeral), rfl⟩
  have hword : IsWord l.text := l.isWord
  unfold parseImmediateLiteralOperand
  simp only [parseWord_append hword hch, Option.bind_eq_bind, Option.bind_some, hsign.1,
    hsign.2, immediateFormat_text, deFormat_digits, guard, if_true]
  by_cases hk : k = 0
  · subst hk
    rfl
  · simp only [hk, if_false]
    rfl

theorem peek_literal (l : Literal) (ch : List Char) : peek '%' (l.text ++ ch) = false := by
  unfold Literal.text
  split_ifs
  · rfl
  · obtain ⟨c, t, htext, hdigit⟩ := text_head l.numeral
    have hne : c ≠ '%' := by
      rintro rfl
      exact absurd hdigit.1 (by decide)
    rw [htext]
    simp [hne]

theorem notWhite_literal (l : Literal) (ch : List Char) : NotWhite (l.text ++ ch) := by
  unfold Literal.text
  split_ifs
  · exact notWhite_cons (by decide) _
  · exact notWhite_numeral l.numeral ch

end Operands

section Reads

variable {x : Xed} {iclass : IClass} {s : Scope}

/-- The operand that is read says what is expected exactly if it is readable. -/
structure Reads (result : Option (Operand × Scope × ℕ × List Char)) (readable : Prop)
    (d : OperandDesc) (s : Scope) (literals : ℕ) (rest : List Char) : Prop where
  reads : readable → ∃ op k, result = some (op, s, k, rest) ∧ op.desc = some d ∧
    (k = 0 ↔ literals = 0)
  fails : ¬readable → ∀ op q, result = some (op, q) → op.desc ≠ some d

theorem reads_finish {w : Width} {op : Operand} {k literals : ℕ} {rest : List Char} {m : Meaning}
    {readable : Prop} (hk : k = 0 ↔ literals = 0) (hmeaning : op.meaning = some m ↔ readable) :
    Reads (some (finishOperand w.value op, s, k, rest)) readable ⟨m, w.value⟩ s literals rest := by
  have hdesc : (finishOperand w.value op).desc = some ⟨m, w.value⟩ ↔ op.meaning = some m := by
    rw [desc_finishOperand]
    cases op.meaning <;> simp
  refine ⟨fun h ↦ ⟨_, k, rfl, hdesc.2 (hmeaning.2 h), hk⟩, ?_⟩
  intro hnot op' q hresult
  rw [← (Prod.mk.inj (Option.some.inj hresult)).1]
  exact fun h ↦ hnot (hmeaning.1 (hdesc.1 h))

theorem reads_none {d : OperandDesc} {literals : ℕ} {rest : List Char} {readable : Prop}
    (hnot : ¬readable) : Reads none readable d s literals rest :=
  ⟨fun h ↦ absurd h hnot, fun _ _ _ h ↦ nomatch h⟩

theorem initRegVar_meaning {r : VirtualRegister} {aop : Operand} (hr : aop.reg? = some r)
    (r' : VirtualRegister) :
    { aop.copy with value := .reg r' }.meaning = r'.desc.map .register := by
  have htype : aop.copy.type = .reg := (reg?_eq_some hr).1
  simp only [Operand.meaning, htype]

theorem notWhite_varText (n : Fin maxNumInlineVars) (ch : List Char) :
    NotWhite (varText n ++ ch) := notWhite_cons (by decide) _

theorem notWhite_bracketed (b : Bracketed x) (ch : List Char) : NotWhite (b.text ++ ch) :=
  notWhite_cons (c := '[') (by decide) _

theorem ends_bracketed (b : Bracketed x) (ch : List Char) : Ends (b.text ++ ch) :=
  ends_cons (c := '[') (by decide) _

variable (iclass) in
theorem parseOperand_append (o : AsmOperand x) {immediates literals k : ℕ}
    (hk : k = 0 ↔ literals = 0) (hle : literals ≤ immediates) {m : Meaning} {s' : Scope}
    (hden : o.denote s immediates = some (m, s')) {rest : List Char} (hrest : Ends rest) :
    Reads (parseOperand x iclass s k (o.text ++ rest))
      (o.Readable s.vars iclass immediates literals) ⟨m, o.width⟩ s'
      (literals + o.isLiteral.toNat) rest := by
  cases o with
  | register w gap r =>
    have htext : (AsmOperand.register w gap r).text ++ rest =
        'r' :: w.digits ++ (gap.text ++ (r.text ++ rest)) := by simp [AsmOperand.text]
    rw [htext, parseOperand_register x iclass s k w gap.toBlanks (ends_gap gap _)
      (notWhite_regName r rest)]
    simp only [AsmOperand.width, AsmOperand.isLiteral, Bool.toNat_false, Nat.add_zero,
      AsmOperand.Readable]
    cases r with
    | arch r named =>
      obtain ⟨rfl, rfl⟩ := Prod.mk.inj (Option.some.inj hden)
      simp only [RegName.text, parseRegisterOperand_arch x s named w.value hrest, Option.map_map]
      cases hwiden : (VirtualRegister.decodeFromNative x.registerWidthBits r).widen (w.value / 8) with
      | none => exact reads_none fun h ↦ widen_eq_none.1 hwiden h.1
      | some r' =>
        have hlow := desc_widen x.registerWidthBits named.ne_invalid named.lt_last hwiden
        have hmem : w.value / 8 ∈ [1, 2, 4, 8] := by
          by_contra h
          rw [widen_eq_none.2 h] at hwiden
          exact absurd hwiden (by simp)
        refine reads_finish hk ?_
        simp only [Operand.meaning, RegName.Readable, hmem, true_and, ← hlow]
        cases r'.desc <;> simp
    | var n =>
      obtain ⟨r, hreg, hden⟩ := Option.bind_eq_some_iff.1 hden
      obtain ⟨e, hdesc, hden⟩ := Option.bind_eq_some_iff.1 hden
      obtain ⟨rfl, rfl⟩ := Prod.mk.inj (Option.some.inj hden)
      simp only [RegName.text, parseRegisterOperand_var x s n hreg w.value hrest]
      cases hwiden : r.widen (w.value / 8) with
      | none => exact reads_none fun h ↦ widen_eq_none.1 hwiden h.1
      | some r' =>
        have hmem : w.value / 8 ∈ [1, 2, 4, 8] := by
          by_contra h
          rw [widen_eq_none.2 h] at hwiden
          exact absurd hwiden (by simp)
        rw [hwiden] at hdesc
        have hmeaning := initRegVar_meaning hreg r'
        rw [show r'.desc = some e from hdesc] at hmeaning
        exact reads_finish hk (iff_of_true hmeaning ⟨hmem, trivial⟩)
  | label w gap n =>
    have htext : (AsmOperand.label (x := x) w gap n).text ++ rest =
        'l' :: w.digits ++ (gap.text ++ (varText n ++ rest)) := by simp [AsmOperand.text]
    obtain ⟨l, hl, hden⟩ := Option.bind_eq_some_iff.1 hden
    obtain ⟨rfl, rfl⟩ := Prod.mk.inj (Option.some.inj hden)
    obtain ⟨op, hparse, hmeaning⟩ := parseLabelOperand_append iclass s n hl hrest
    rw [htext, parseOperand_label x iclass s k w gap.toBlanks (ends_gap gap _)
      (notWhite_varText n rest), hparse]
    exact reads_finish hk (iff_of_true hmeaning trivial)
  | literal w gap l =>
    have htext : (AsmOperand.literal (x := x) w gap l).text ++ rest =
        'i' :: w.digits ++ (gap.text ++ (l.text ++ rest)) := by simp [AsmOperand.text]
    obtain ⟨rfl, rfl⟩ := Prod.mk.inj (Option.some.inj hden)
    rw [htext, parseOperand_immediate x iclass s k w gap.toBlanks (ends_gap gap _)
      (notWhite_literal l rest)]
    simp only [parseImmediateOperand, peek_literal, Bool.false_eq_true, if_false,
      parseImmediateLiteralOperand_append k l hrest, AsmOperand.Readable, AsmOperand.width,
      AsmOperand.isLiteral, Bool.toNat_true]
    by_cases hzero : k = 0
    · have hlit := hk.1 hzero
      have hnext : 1 = 0 ↔ literals + 1 = 0 := by omega
      rw [if_pos hzero]
      refine reads_finish hnext ?_
      have htype : ((if l.isNegative then OperandType.simm0 else .imm0) == .imm1) = false := by
        cases l.isNegative <;> rfl
      rw [meaning_of_immediate _ (v := l.value) (by cases l.isNegative <;> simp) rfl, htype]
      by_cases himm : immediates = 0 <;> simp [hlit, himm]
    · have hlit : literals ≠ 0 := fun h ↦ hzero (hk.2 h)
      have himm : immediates ≠ 0 := by omega
      have hnext : k = 0 ↔ literals + 1 = 0 := by omega
      rw [if_neg hzero]
      refine reads_finish hnext ?_
      rw [meaning_of_immediate _ (Or.inr (Or.inr rfl)) rfl]
      have hsecond : (immediates != 0) = true := by simpa using himm
      simp only [Option.some.injEq, Meaning.immediate.injEq, hsecond, beq_self_eq_true, and_true,
        ne_eq, himm, hlit, not_false_eq_true, forall_const, true_and]
      exact eq_comm
  | immediateVar w gap n =>
    have htext : (AsmOperand.immediateVar (x := x) w gap n).text ++ rest =
        'i' :: w.digits ++ (gap.text ++ (varText n ++ rest)) := by simp [AsmOperand.text]
    obtain ⟨aop, hn, hden⟩ := Option.bind_eq_some_iff.1 hden
    obtain ⟨v, hv, hden⟩ := Option.bind_eq_some_iff.1 hden
    obtain ⟨rfl, rfl⟩ := Prod.mk.inj (Option.some.inj hden)
    obtain ⟨htype, hvalue⟩ := immediate?_eq_some hv
    rw [htext, parseOperand_immediate x iclass s k w gap.toBlanks (ends_gap gap _)
      (notWhite_varText n rest), parseImmediateOperand_var k n hn hv hrest]
    refine reads_finish hk ?_
    rw [meaning_of_immediate aop.copy htype hvalue]
    simp only [AsmOperand.Readable, hn, Option.mem_def, Option.some.injEq, forall_eq',
      Meaning.immediate.injEq, true_and, Operand.copy]
    by_cases himm : immediates = 0
    · simp [himm]
    · have hsecond : (immediates != 0) = true := by simpa using himm
      simp [himm, hsecond]
  | memory w blanks b =>
    have htext : (AsmOperand.memory w blanks b).text ++ rest =
        'm' :: w.digits ++ (blanks.text ++ (b.text ++ rest)) := by simp [AsmOperand.text]
    obtain ⟨m', hm, hden⟩ := Option.map_eq_some_iff.1 hden
    obtain ⟨rfl, rfl⟩ := Prod.mk.inj hden
    rw [htext, parseOperand_memory x iclass s k w blanks
      (ends_blanks blanks (ends_bracketed b rest)) (notWhite_bracketed b rest)]
    by_cases hplain : b.address.IsPlain
    · obtain ⟨op, hparse, hmeaning⟩ := parseMemoryOperand_bracketed iclass b hplain hm rest
      rw [hparse]
      exact reads_finish hk hmeaning
    · rw [parseMemoryOperand_displaced iclass b hplain rest]
      exact reads_none fun h ↦ hplain (readable_isPlain h)
  | segmented w gap seg b =>
    have htext : (AsmOperand.segmented w gap seg b).text ++ rest =
        'm' :: w.digits ++ (gap.text ++ (seg.text ++ (b.text ++ rest))) := by simp [AsmOperand.text]
    obtain ⟨m', hm, hden⟩ := Option.map_eq_some_iff.1 hden
    obtain ⟨rfl, rfl⟩ := Prod.mk.inj hden
    have hwhite : NotWhite (seg.text ++ (b.text ++ rest)) := by
      obtain ⟨name, before, after⟩ := seg
      cases name with
      | fs => exact notWhite_cons (by decide) _
      | gs => exact notWhite_cons (by decide) _
    rw [htext, parseOperand_memory x iclass s k w gap.toBlanks (ends_gap gap _) hwhite]
    by_cases hboth : seg.Readable iclass ∧ b.address.IsPlain
    · obtain ⟨op, hparse, hmeaning⟩ :=
        parseMemoryOperand_segmented iclass seg hboth.1 b hboth.2 hm rest
      rw [hparse]
      refine reads_finish hk ?_
      rw [hmeaning]
      exact (and_iff_right hboth.1).symm
    · rw [parseMemoryOperand_unreadable iclass seg b hboth rest]
      exact reads_none fun h ↦ hboth ⟨h.1, readable_isPlain h.2⟩

end Reads

end Granary.Assemble.CompileInlineAssembly
