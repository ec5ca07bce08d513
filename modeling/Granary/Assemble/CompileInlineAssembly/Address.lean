import Granary.Assemble.CompileInlineAssembly.Words

namespace Granary.Assemble.CompileInlineAssembly

open Granary.Base.Format

section Address

variable {x : Xed} {vars : Vars}

def Numeral.readValue (n : Numeral) : ℕ := if n.isHex then 0 else n.value

theorem readValue_eq_iff (n : Numeral) : n.readValue = n.value ↔ n.Readable := by
  unfold Numeral.readValue Numeral.Readable
  split_ifs with h
  · simp [h, eq_comm]
  · simp [h]

theorem decimalDigit_ne_none {c : Char} (h : getDigit 10 c ≠ none) : '0' ≤ c ∧ c ≤ '9' := by
  by_contra hnot
  exact h (if_neg hnot)

theorem text_head (n : Numeral) : ∃ c t, n.text = c :: t ∧ '0' ≤ c ∧ c ≤ '9' := by
  obtain ⟨isHex, digits, hne, hdigit, hnormal⟩ := n
  cases isHex with
  | true => exact ⟨'0', 'x' :: digits, rfl, by decide, by decide⟩
  | false =>
    obtain ⟨c, t, rfl⟩ := List.exists_cons_of_ne_nil hne
    exact ⟨c, t, rfl, decimalDigit_ne_none (hdigit c List.mem_cons_self)⟩

theorem deFormat_numeral (n : Numeral) (hex dec : Conv) (hhex : hex.isHex = true)
    (hdec : dec.isHex = false) (hp : hex ≠ .p) (hc : dec ≠ .c) (hlong : hex.isLong = dec.isLong) :
    deFormat n.text (if n.text.head? = some '0' then hex.text else dec.text) =
      some (1, [storeInt (BitVec.ofNat 64 n.readValue) dec.isLong]) := by
  have hhc : hex ≠ .c := by
    rintro rfl
    exact absurd hhex (by decide)
  have hdp : dec ≠ .p := by
    rintro rfl
    exact absurd hdec (by decide)
  have hsixteen : hex.base = 16 := if_pos hhex
  have hten : dec.base = 10 := by simp [Conv.base, hdec]
  have hzero : Spells hex.base 0 ['0'] := by
    rw [hsixteen]
    exact ⟨by decide, by decide, rfl⟩
  obtain ⟨isHex, digits, hne, hdigit, hnormal⟩ := n
  cases isHex with
  | true =>
    have hrest : NoDigit hex.base ('x' :: digits ++ ['\x00']) := by
      rw [hsixteen]
      intro c hc
      rw [← Option.some.inj hc]
      rfl
    have hread := deFormat_conv hex hhc hp hzero _ hrest
    rw [← hlong]
    exact hread
  | false =>
    change deFormat digits (if digits.head? = some '0' then _ else _) = _
    split_ifs with hhead
    · have hread := deFormat_conv hex hhc hp hzero [] (noDigit_nul (Or.inr hsixteen))
      have hvalue : Numeral.readValue ⟨false, digits, hne, hdigit, hnormal⟩ = 0 := by
        simp only [Numeral.readValue, Numeral.value, Numeral.base, hnormal rfl hhead]
        rfl
      rw [hvalue, hnormal rfl hhead, ← hlong]
      exact hread
    · have htext : Spells dec.base (readDigits 10 0 digits) digits := by
        rw [hten]
        exact ⟨hne, hdigit, rfl⟩
      have hread := deFormat_conv dec hc hdp htext [] (noDigit_nul (Or.inl hten))
      rw [List.append_nil] at hread
      exact hread

theorem peekNumber_numeral (n : Numeral) (ch : List Char) : peekNumber (n.text ++ ch) = true := by
  obtain ⟨c, t, htext, hdigit⟩ := text_head n
  rw [htext]
  simpa [peekNumber] using hdigit

theorem notWhite_of_digit {c : Char} (h : '0' ≤ c ∧ c ≤ '9') (ch : List Char) :
    NotWhite (c :: ch) := by
  apply notWhite_cons
  unfold isWhiteSpace
  have hspace : c ≠ ' ' := by
    rintro rfl
    exact absurd h.1 (by decide)
  have htab : c ≠ '\t' := by
    rintro rfl
    exact absurd h.1 (by decide)
  have hline : c ≠ '\n' := by
    rintro rfl
    exact absurd h.1 (by decide)
  simp [hspace, htab, hline]

theorem notWhite_numeral (n : Numeral) (ch : List Char) : NotWhite (n.text ++ ch) := by
  obtain ⟨c, t, htext, hdigit⟩ := text_head n
  rw [htext]
  exact notWhite_of_digit hdigit _

theorem parsePointerOperand_append (n : Numeral) (hword : IsWord n.text) {ch : List Char}
    (hch : Ends ch) :
    parsePointerOperand (n.text ++ ch) = some (BitVec.ofNat 64 n.readValue, ch) := by
  have hread := deFormat_numeral n .lx .lu rfl rfl (by decide) (by decide) rfl
  unfold parsePointerOperand
  simp only [parseWord_append hword hch, Option.bind_eq_bind, Option.bind_some]
  simp only [Conv.text] at hread
  rw [hread]
  rfl

theorem memStep_parseDisp (n : Numeral) (hword : IsWord n.text) {ch : List Char} (hch : Ends ch)
    (r : VirtualRegister) (m : Mem) :
    memStep x vars { state := .parseDisp, reg := r, mem := m, ch := n.text ++ ch } =
      some (.done
        { state := .parseDisp
          reg := r
          mem := { m with disp := BitVec.ofNat 32 n.readValue }
          ch := ch }) := by
  have hread := deFormat_numeral n .x .d rfl rfl (by decide) (by decide) rfl
  have hstore : storeInt (BitVec.ofNat 64 n.readValue) Conv.d.isLong =
      .word (BitVec.ofNat 32 n.readValue) := by
    simp [storeInt, Conv.isLong, BitVec.setWidth_ofNat_of_le]
  rw [hstore] at hread
  simp only [Conv.text] at hread
  unfold memStep
  simp only [peekNumber_numeral, if_true, parseWord_append hword hch, Option.bind_eq_bind,
    Option.bind_some, hread]

end Address

section Registers

variable {x : Xed} {vars : Vars}

theorem isValid_of_desc {r : VirtualRegister} {d : RegDesc} (h : r.desc = some d) :
    r.isValid = true := by
  unfold VirtualRegister.desc at h
  unfold VirtualRegister.isValid
  cases hkind : r.kind <;> simp_all

@[simp]
theorem peek_cons (next c : Char) (ch : List Char) : peek next (c :: ch) = (c == next) := rfl

theorem peekNumber_cons (c : Char) (ch : List Char) :
    peekNumber (c :: ch) = decide ('0' ≤ c ∧ c ≤ '9') := rfl

theorem alpha_head {w : List Char} (h : peekAlpha w = true) :
    ∃ c t, w = c :: t ∧ 'A' ≤ c ∧ c ≤ 'Z' := by
  obtain ⟨c, hc, hle⟩ := (Option.any_eq_true _ _).1 h
  obtain ⟨t, ht⟩ := List.head?_eq_some_iff.1 hc
  exact ⟨c, t, ht, by simpa using hle⟩

theorem ne_of_alpha {c d : Char} (hc : 'A' ≤ c) (hd : d < 'A') : c ≠ d := by
  rintro rfl
  exact absurd hd (Char.not_lt.2 hc)

theorem not_number_of_alpha {c : Char} (hc : 'A' ≤ c) : ¬('0' ≤ c ∧ c ≤ '9') := by
  intro h
  exact absurd (Char.le_trans hc h.2) (by decide)

theorem notWhite_alpha {c : Char} (hc : 'A' ≤ c) (ch : List Char) : NotWhite (c :: ch) := by
  apply notWhite_cons
  simp [isWhiteSpace, ne_of_alpha hc (show ' ' < 'A' by decide),
    ne_of_alpha hc (show '\t' < 'A' by decide), ne_of_alpha hc (show '\n' < 'A' by decide)]

theorem notWhite_regName (b : RegName x) (ch : List Char) : NotWhite (b.text ++ ch) := by
  cases b with
  | arch r named =>
    obtain ⟨c, t, htext, hle, -⟩ := alpha_head named.isAlpha
    simp only [RegName.text, htext]
    exact notWhite_alpha hle _
  | var n => exact notWhite_cons (by decide) _

theorem peek_regName (b : RegName x) (ch : List Char) :
    peekNumber (b.text ++ ch) = false ∧ peek ']' (b.text ++ ch) = false := by
  cases b with
  | arch r named =>
    obtain ⟨c, t, htext, hle, hge⟩ := alpha_head named.isAlpha
    simp only [RegName.text, htext, List.cons_append, peekNumber_cons, peek_cons]
    refine ⟨decide_eq_false (not_number_of_alpha hle), ?_⟩
    have hne : c ≠ ']' := by
      rintro rfl
      exact absurd hge (by decide)
    simp [hne]
  | var n => exact ⟨rfl, rfl⟩

theorem parseArchRegister_append {r : ℕ} (named : x.NamesReg r) (g : Blanks) {ch : List Char}
    (hends : Ends (g.text ++ ch)) (hch : NotWhite ch) :
    parseArchRegister x (x.regName r ++ (g.text ++ ch)) =
      some (.decodeFromNative x.registerWidthBits r, ch) := by
  unfold parseArchRegister
  simp only [parseWord_append named.isWord hends, Option.bind_eq_bind, Option.bind_some,
    named.strToReg_regName, consumeWhiteSpace_blanks g hch]

theorem parseOperandVar_append {n : Fin maxNumInlineVars} {aop : Operand} (hn : vars n = some aop)
    (g : Blanks) {ch : List Char} (hends : Ends (g.text ++ ch)) (hch : NotWhite ch) :
    parseOperandVar vars (varText n ++ (g.text ++ ch)) = some (aop, ch) := by
  unfold parseOperandVar
  simp only [parseVar_append n hends, Option.bind_eq_bind, Option.bind_some, hn,
    consumeWhiteSpace_blanks g hch]

theorem reg?_eq_some {aop : Operand} {r : VirtualRegister} (h : aop.reg? = some r) :
    aop.type = .reg ∧ aop.value = .reg r := by
  unfold Operand.reg? at h
  split at h
  · rename_i htype hvalue
    exact ⟨htype, by rw [hvalue, Option.some.inj h]⟩
  · exact absurd h (by simp)

theorem memStep_regName (b : RegName x) {d : RegDesc} (hb : b.denote vars = some d) :
    ∃ r, r.desc = some d ∧ ∀ (r₀ : VirtualRegister) (m : Mem) (g : Blanks) (ch : List Char),
      Ends (g.text ++ ch) → NotWhite ch →
      memStep x vars { state := .parseReg, reg := r₀, mem := m, ch := b.text ++ (g.text ++ ch) } =
        (if peek '+' ch || peek ']' ch then
          interpretRegAsBase { state := .interpretRegAsBase, reg := r, mem := m, ch := ch }
        else if peek '*' ch then
          some (.next { state := .interpretRegAsIndex, reg := r, mem := m, ch := ch })
        else some (.next { state := .parseReg, reg := r, mem := m, ch := ch })) ∧
      memStep x vars
          { state := .tryParseIndexOrDisp, reg := r₀, mem := m, ch := b.text ++ (g.text ++ ch) } =
        interpretRegAsIndex { state := .interpretRegAsIndex, reg := r, mem := m, ch := ch } := by
  cases b with
  | arch r named =>
    have hd : d = .native r := (Option.some.inj hb).symm
    subst hd
    refine ⟨_, desc_decodeFromNative x.registerWidthBits named.ne_invalid named.lt_last, ?_⟩
    intro r₀ m g ch hends hch
    have hread := parseArchRegister_append named g hends hch
    obtain ⟨c, t, htext, hle, hge⟩ := alpha_head named.isAlpha
    have hpercent : c ≠ '%' := ne_of_alpha hle (by decide)
    have halpha : peekAlpha (x.regName r ++ (g.text ++ ch)) = true := by
      rw [htext]
      exact decide_eq_true ⟨hle, hge⟩
    have hnumber := (peek_regName (.arch r named) (g.text ++ ch)).1
    have hvar : peek '%' (x.regName r ++ (g.text ++ ch)) = false := by
      rw [htext]
      simp [hpercent]
    simp only [RegName.text] at hnumber ⊢
    constructor
    · simp only [memStep, hvar, halpha, hread, guard, Option.bind_eq_bind]
      rfl
    · simp only [memStep, hnumber, halpha, hread]
      rfl
  | var n =>
    obtain ⟨aop, hn, hb⟩ := Option.bind_eq_some_iff.1 hb
    obtain ⟨r, hreg, hb⟩ := Option.bind_eq_some_iff.1 hb
    obtain ⟨r', hwiden, hdesc⟩ := Option.bind_eq_some_iff.1 hb
    obtain ⟨htype, hvalue⟩ := reg?_eq_some hreg
    have hwidened : aop.widenedReg = some r' := by
      simp only [Operand.widenedReg, hvalue, hwiden]
    have hisReg : aop.isRegister = true := by simp [Operand.isRegister, htype]
    refine ⟨r', hdesc, ?_⟩
    intro r₀ m g ch hends hch
    have hread := parseOperandVar_append hn g hends hch
    have hregVar : parseRegisterVar vars (varText n ++ (g.text ++ ch)) = some (r', ch) := by
      simp only [parseRegisterVar, hread, Option.bind_eq_bind, Option.bind_some, hisReg, hwidened]
      rfl
    have hvar : peek '%' (varText n ++ (g.text ++ ch)) = true := rfl
    have hnumber : peekNumber (varText n ++ (g.text ++ ch)) = false := rfl
    have halpha : peekAlpha (varText n ++ (g.text ++ ch)) = false := rfl
    simp only [RegName.text]
    constructor
    · simp only [memStep, hvar, hregVar]
      rfl
    · simp only [memStep, hnumber, halpha, hvar, hread, Option.bind_eq_bind, Option.bind_some,
        hisReg, hwidened]
      rfl

end Registers

section MemLoop

variable {x : Xed} {vars : Vars}

def resume (x : Xed) (vars : Vars) (fuel : ℕ) : Option Outcome → Option MemParser
  | some (.next p) => memLoop x vars fuel p
  | some (.done p) => some p
  | none => none

variable (x vars) in
theorem memLoop_succ (fuel : ℕ) {p : MemParser} (hp : peek ']' p.ch = false) :
    memLoop x vars (fuel + 1) p = resume x vars fuel (memStep x vars p) := by
  simp only [memLoop, hp]
  cases memStep x vars p with
  | none => rfl
  | some o => cases o <;> rfl

def Finishes (o : Option MemParser) (m : Mem) (rest : List Char) : Prop :=
  ∃ p, o = some p ∧ p.mem = m ∧ consumeWhiteSpace p.ch = ']' :: rest

theorem notWhite_bracket (rest : List Char) : NotWhite (']' :: rest) :=
  notWhite_cons (by decide) rest

def lead (d : Option Displacement) (closing : Blanks) : Blanks :=
  d.elim closing fun d ↦ d.plus.before.toBlanks

def start (d : Option Displacement) (closing : Blanks) (rest : List Char) : List Char :=
  d.elim (']' :: rest) fun d ↦
    '+' :: (d.plus.after.text ++ (d.numeral.text ++ (closing.text ++ ']' :: rest)))

def readDisp (d : Option Displacement) : BitVec 32 :=
  BitVec.ofNat 32 (dispValue Numeral.readValue d)

variable (d : Option Displacement) (closing : Blanks) (rest : List Char)

theorem lead_append_start : (lead d closing).text ++ start d closing rest =
    d.elim [] Displacement.text ++ (closing.text ++ ']' :: rest) := by
  cases d with
  | none => rfl
  | some d => simp [lead, start, Displacement.text, Sign.text]

theorem start_head : ∃ c t, start d closing rest = c :: t ∧ (c = ']' ∨ c = '+') := by
  cases d with
  | none => exact ⟨']', rest, rfl, Or.inl rfl⟩
  | some d => exact ⟨'+', _, rfl, Or.inr rfl⟩

theorem notWhite_start : NotWhite (start d closing rest) := by
  obtain ⟨c, t, hstart, rfl | rfl⟩ := start_head d closing rest <;> rw [hstart]
  · exact notWhite_cons (by decide) t
  · exact notWhite_cons (by decide) t

theorem ends_closing : Ends (closing.text ++ ']' :: rest) :=
  ends_blanks closing (ends_cons (by decide) rest)

theorem ends_lead : Ends ((lead d closing).text ++ start d closing rest) := by
  cases d with
  | none => exact ends_closing closing rest
  | some d => exact ends_gap d.plus.before _

theorem memLoop_bracket (fuel : ℕ) (s : MemState) (r : VirtualRegister) (m : Mem) :
    Finishes (memLoop x vars (fuel + 1) { state := s, reg := r, mem := m, ch := ']' :: rest })
      m rest :=
  ⟨_, rfl, rfl, consumeWhiteSpace_of_notWhite (notWhite_bracket rest)⟩

theorem peek_bracket_numeral (n : Numeral) (ch : List Char) :
    peek ']' (n.text ++ ch) = false := by
  obtain ⟨c, t, htext, hdigit⟩ := text_head n
  have hne : c ≠ ']' := by
    rintro rfl
    exact absurd hdigit.2 (by decide)
  rw [htext]
  simp [hne]

variable (x vars) in
theorem memLoop_parseDisp (fuel : ℕ) (d : Displacement) (r : VirtualRegister) (m : Mem) :
    Finishes
      (memLoop x vars (fuel + 1)
        { state := .parseDisp
          reg := r
          mem := m
          ch := d.numeral.text ++ (closing.text ++ ']' :: rest) })
      { m with disp := readDisp (some d) } rest := by
  rw [memLoop_succ x vars fuel (peek_bracket_numeral d.numeral _),
    memStep_parseDisp d.numeral d.isWord (ends_closing closing rest)]
  exact ⟨_, rfl, rfl, consumeWhiteSpace_blanks closing (notWhite_bracket rest)⟩

theorem interpretRegAsIndex_start (fuel : ℕ) {r : VirtualRegister} (hr : r.isValid = true)
    (s : MemState) (m : Mem) (hm : m.disp = 0) :
    Finishes
      (resume x vars (fuel + 1)
        (interpretRegAsIndex { state := s, reg := r, mem := m, ch := start d closing rest }))
      { m with index := r, scale := 1, disp := readDisp d } rest := by
  obtain ⟨base, index, disp, scale⟩ := m
  subst hm
  unfold interpretRegAsIndex
  cases d with
  | none =>
    simp only [start, Option.elim, hr]
    exact memLoop_bracket rest fuel s r { base := base, index := r, scale := 1 }
  | some d =>
    simp only [start, Option.elim, peek_cons, hr, guard, if_true, accept_cons]
    have h := memLoop_parseDisp x vars closing rest fuel d r
      { base := base, index := r, scale := 1 }
    rw [← consumeWhiteSpace_blanks d.plus.after (notWhite_numeral d.numeral _)] at h
    exact h

theorem interpretRegAsBase_start (fuel : ℕ) {r : VirtualRegister} (hr : r.isValid = true)
    (s : MemState) (m : Mem) (hm : m.disp = 0) :
    Finishes
      (resume x vars (fuel + 2)
        (interpretRegAsBase { state := s, reg := r, mem := m, ch := start d closing rest }))
      { m with base := r, disp := readDisp d } rest := by
  unfold interpretRegAsBase
  cases d with
  | none =>
    obtain ⟨base, index, disp, scale⟩ := m
    subst hm
    simp only [start, Option.elim, hr]
    exact memLoop_bracket rest (fuel + 1) s r { base := r, index := index, scale := scale }
  | some d =>
    simp only [start, Option.elim, peek_cons, hr, guard, if_true, accept_cons]
    have h := memLoop_parseDisp x vars closing rest fuel d r { m with base := r }
    have hturn : memStep x vars
        { state := .tryParseIndexOrDisp
          reg := r
          mem := { m with base := r }
          ch := d.numeral.text ++ (closing.text ++ ']' :: rest) } =
        some (.next
          { state := .parseDisp
            reg := r
            mem := { m with base := r }
            ch := d.numeral.text ++ (closing.text ++ ']' :: rest) }) := by
      simp only [memStep, peekNumber_numeral, if_true]
    have hloop := memLoop_succ x vars (fuel + 1)
      (p := { state := .tryParseIndexOrDisp
              reg := r
              mem := { m with base := r }
              ch := d.numeral.text ++ (closing.text ++ ']' :: rest) })
      (peek_bracket_numeral d.numeral _)
    rw [hturn] at hloop
    have hblanks := consumeWhiteSpace_blanks d.plus.after
      (notWhite_numeral d.numeral (closing.text ++ ']' :: rest))
    change Finishes (memLoop x vars (fuel + 2) _) _ _
    rw [hblanks, hloop]
    exact h

end MemLoop

section Bracketed

variable {x : Xed} {vars : Vars}

theorem isWord_scaleDigit (s : ScaleDigit) : IsWord [s.char] := by
  cases s <;> decide

theorem parseScaleDigit_char (s : ScaleDigit) : parseScaleDigit [s.char] = some s.value := by
  cases s <;> rfl

theorem notWhite_scaleDigit (s : ScaleDigit) (ch : List Char) : NotWhite (s.char :: ch) := by
  apply notWhite_cons
  cases s <;> rfl

variable (x vars) in
theorem memLoop_parseScale (s : ScaleDigit) (d : Option Displacement) (closing : Blanks)
    (rest : List Char) (fuel : ℕ) (r : VirtualRegister) (m : Mem) (hm : m.disp = 0) :
    Finishes
      (memLoop x vars (fuel + 2)
        { state := .parseScale
          reg := r
          mem := m
          ch := s.char :: ((lead d closing).text ++ start d closing rest) })
      { m with scale := s.value, disp := readDisp d } rest := by
  obtain ⟨base, index, disp, scale⟩ := m
  subst hm
  have hpeek : peek ']' (s.char :: ((lead d closing).text ++ start d closing rest)) = false := by
    cases s <;> rfl
  have hword := parseWord_append (isWord_scaleDigit s) (ends_lead d closing rest)
  rw [List.singleton_append] at hword
  rw [memLoop_succ x vars (fuel + 1) hpeek]
  simp only [memStep, hword, Option.bind_eq_bind, Option.bind_some,
    consumeWhiteSpace_blanks _ (notWhite_start d closing rest), parseScaleDigit_char]
  cases d with
  | none =>
    exact ⟨_, rfl, rfl, consumeWhiteSpace_of_notWhite (notWhite_bracket rest)⟩
  | some d =>
    simp only [start, Option.elim, peek_cons, accept_cons, Option.bind_some,
      consumeWhiteSpace_blanks d.plus.after (notWhite_numeral d.numeral _)]
    exact memLoop_parseDisp x vars closing rest fuel d r
      { base := base, index := index, scale := s.value }

def indexLead (s : Option Scale) (d : Option Displacement) (closing : Blanks) : Blanks :=
  s.elim (lead d closing) fun s ↦ s.times.before.toBlanks

def indexStart (s : Option Scale) (d : Option Displacement) (closing : Blanks) (rest : List Char) :
    List Char :=
  s.elim (start d closing rest) fun s ↦
    '*' :: (s.times.after.text ++ s.digit.char :: ((lead d closing).text ++ start d closing rest))

theorem indexLead_append_indexStart (s : Option Scale) (d : Option Displacement) (closing : Blanks)
    (rest : List Char) : (indexLead s d closing).text ++ indexStart s d closing rest =
      s.elim [] Scale.text ++ ((lead d closing).text ++ start d closing rest) := by
  cases s with
  | none => rfl
  | some s => simp [indexLead, indexStart, Scale.text, Sign.text]

theorem ends_indexLead (s : Option Scale) (d : Option Displacement) (closing : Blanks)
    (rest : List Char) : Ends ((indexLead s d closing).text ++ indexStart s d closing rest) := by
  cases s with
  | none => exact ends_lead d closing rest
  | some s => exact ends_gap s.times.before _

theorem notWhite_indexStart (s : Option Scale) (d : Option Displacement) (closing : Blanks)
    (rest : List Char) : NotWhite (indexStart s d closing rest) := by
  cases s with
  | none => exact notWhite_start d closing rest
  | some s => exact notWhite_cons (by decide) _

def scaleValue (s : Option Scale) : ℕ := s.elim 1 fun s ↦ s.digit.value

variable (x vars) in
theorem interpretRegAsIndex_indexStart (s : Option Scale) (d : Option Displacement)
    (closing : Blanks) (rest : List Char) (fuel : ℕ) {r : VirtualRegister} (hr : r.isValid = true)
    (state : MemState) (m : Mem) (hm : m.disp = 0) :
    Finishes
      (resume x vars (fuel + 2)
        (interpretRegAsIndex
          { state := state, reg := r, mem := m, ch := indexStart s d closing rest }))
      { m with index := r, scale := scaleValue s, disp := readDisp d } rest := by
  cases s with
  | none => exact interpretRegAsIndex_start d closing rest (fuel + 1) hr state m hm
  | some s =>
    have h := memLoop_parseScale x vars s.digit d closing rest fuel r
      { m with index := r, scale := 1 } hm
    rw [← consumeWhiteSpace_blanks s.times.after (notWhite_scaleDigit s.digit _)] at h
    unfold interpretRegAsIndex
    simp only [indexStart, Option.elim, hr]
    exact h

theorem memLoop_base (b : RegName x) {e : RegDesc} (hb : b.denote vars = some e)
    (d : Option Displacement) (closing : Blanks) (rest : List Char) (fuel : ℕ) :
    ∃ r : VirtualRegister, r.desc = some e ∧
      Finishes
        (memLoop x vars (fuel + 3)
          { ch := b.text ++ ((lead d closing).text ++ start d closing rest) })
        { base := r, disp := readDisp d } rest := by
  obtain ⟨r, hdesc, hread⟩ := memStep_regName b hb
  refine ⟨r, hdesc, ?_⟩
  rw [memLoop_succ x vars (fuel + 2) (peek_regName b _).2,
    (hread {} {} _ _ (ends_lead d closing rest) (notWhite_start d closing rest)).1]
  have hstart : (peek '+' (start d closing rest) || peek ']' (start d closing rest)) = true := by
    cases d <;> rfl
  rw [if_pos hstart]
  exact interpretRegAsBase_start d closing rest fuel (isValid_of_desc hdesc) _ {} rfl

theorem memLoop_index (i : RegName x) {e : RegDesc} (hi : i.denote vars = some e) (s : Scale)
    (d : Option Displacement) (closing : Blanks) (rest : List Char) (fuel : ℕ) :
    ∃ r : VirtualRegister, r.desc = some e ∧
      Finishes
        (memLoop x vars (fuel + 4)
          { ch := i.text ++
              ((indexLead (some s) d closing).text ++ indexStart (some s) d closing rest) })
        { index := r, scale := s.digit.value, disp := readDisp d } rest := by
  obtain ⟨r, hdesc, hread⟩ := memStep_regName i hi
  refine ⟨r, hdesc, ?_⟩
  rw [memLoop_succ x vars (fuel + 3) (peek_regName i _).2,
    (hread {} {} _ _ (ends_indexLead (some s) d closing rest)
      (notWhite_indexStart (some s) d closing rest)).1]
  have hindex := interpretRegAsIndex_indexStart x vars (some s) d closing rest fuel
    (isValid_of_desc hdesc) .interpretRegAsIndex {} rfl
  have hturn := memLoop_succ x vars (fuel + 2)
    (p := { state := .interpretRegAsIndex
            reg := r
            ch := indexStart (some s) d closing rest }) rfl
  change Finishes (memLoop x vars (fuel + 3) _) _ _
  rw [hturn]
  exact hindex

theorem memLoop_baseIndex (b i : RegName x) {e e' : RegDesc} (hb : b.denote vars = some e)
    (hi : i.denote vars = some e') (plus : Sign) (s : Option Scale) (d : Option Displacement)
    (closing : Blanks) (rest : List Char) (fuel : ℕ) :
    ∃ r r' : VirtualRegister, r.desc = some e ∧ r'.desc = some e' ∧
      Finishes
        (memLoop x vars (fuel + 4)
          { ch := b.text ++ (plus.before.text ++ '+' :: (plus.after.text ++ (i.text ++
              ((indexLead s d closing).text ++ indexStart s d closing rest)))) })
        { base := r, index := r', scale := scaleValue s, disp := readDisp d } rest := by
  obtain ⟨r, hdesc, hread⟩ := memStep_regName b hb
  obtain ⟨r', hdesc', hread'⟩ := memStep_regName i hi
  refine ⟨r, r', hdesc, hdesc', ?_⟩
  rw [memLoop_succ x vars (fuel + 3) (peek_regName b _).2,
    (hread {} {} _ _ (ends_gap plus.before _) (notWhite_cons (by decide) _)).1]
  have hstep := (hread' r { base := r } _ _ (ends_indexLead s d closing rest)
    (notWhite_indexStart s d closing rest)).2
  have hindex := interpretRegAsIndex_indexStart x vars s d closing rest fuel
    (isValid_of_desc hdesc') .interpretRegAsIndex { base := r } rfl
  rw [← hstep, ← memLoop_succ x vars (fuel + 2) (peek_regName i _).2] at hindex
  have hblanks := consumeWhiteSpace_blanks plus.after (notWhite_regName i
    ((indexLead s d closing).text ++ indexStart s d closing rest))
  simp only [peek_cons, interpretRegAsBase, isValid_of_desc hdesc, guard, accept_cons]
  change Finishes (memLoop x vars (fuel + 3) _) _ _
  rw [hblanks]
  exact hindex

end Bracketed

section Memory

variable {x : Xed} {vars : Vars}

theorem meaning_congr (op op' : Operand) (htype : op.type = op'.type)
    (hvalue : op.value = op'.value) (hsegment : op.segment = op'.segment)
    (hlabel : op.isAnnotationInstr = op'.isAnnotationInstr) :
    op.meaning = op'.meaning := by
  unfold Operand.meaning
  rw [htype, hvalue, hsegment, hlabel]

theorem readDisp_lt (d : Option Displacement) : dispValue Numeral.readValue d < 2 ^ 31 := by
  cases d with
  | none => decide
  | some d =>
    have h := d.small
    simp only [dispValue, Option.elim, Numeral.readValue]
    split_ifs <;> omega

theorem toInt_readDisp (d : Option Displacement) :
    (readDisp d).toInt = dispValue Numeral.readValue d := by
  have h := readDisp_lt d
  have hnat : (readDisp d).toNat = dispValue Numeral.readValue d := by
    unfold readDisp
    rw [BitVec.toNat_ofNat]
    omega
  rw [BitVec.toInt_eq_toNat_of_lt (by omega), hnat]

theorem readDisp_eq_zero (d : Option Displacement) :
    readDisp d = 0 ↔ dispValue Numeral.readValue d = 0 := by
  have h := toInt_readDisp d
  constructor
  · intro hzero
    rw [hzero] at h
    have hint : (0 : ℤ) = dispValue Numeral.readValue d := h
    omega
  · intro hzero
    simp [readDisp, hzero]

theorem invalid_desc : VirtualRegister.desc {} = none := rfl

theorem invalid_isValid : VirtualRegister.isValid {} = false := rfl

def memMeaning (m : Mem) (segment : ℕ) : Meaning :=
  .memory m.base.desc m.index.desc m.scale m.disp.toInt segment

theorem canonicalize_base {r : VirtualRegister} {e : RegDesc} (hr : r.desc = some e)
    (d : Option Displacement) (segment : ℕ) :
    memMeaning (Mem.canonicalize { base := r, disp := readDisp d }) segment =
      .memory (some e) none 0 (dispValue Numeral.readValue d) segment := by
  simp [Mem.canonicalize, memMeaning, invalid_desc, invalid_isValid, hr, toInt_readDisp]

theorem canonicalize_index {r : VirtualRegister} {e : RegDesc} (hr : r.desc = some e)
    (s : ScaleDigit) (d : Option Displacement) (segment : ℕ) :
    memMeaning (Mem.canonicalize { index := r, scale := s.value, disp := readDisp d }) segment =
      if s = .one ∧ dispValue Numeral.readValue d = 0 then .memory (some e) none 0 0 segment
      else .memory none (some e) s.value (dispValue Numeral.readValue d) segment := by
  have hvalid := isValid_of_desc hr
  have hone : s.value ≤ 1 ↔ s = .one := by cases s <;> decide
  by_cases hzero : dispValue Numeral.readValue d = 0
  · have hdisp := (readDisp_eq_zero d).2 hzero
    by_cases hs : s = .one
    · simp [Mem.canonicalize, Mem.isCompound, memMeaning, invalid_desc, invalid_isValid, hvalid, hr,
        hdisp, hs, hzero, ScaleDigit.value]
    · have hgt : 1 < s.value := by
        rw [← not_le, hone]
        exact hs
      simp [Mem.canonicalize, Mem.isCompound, memMeaning, invalid_desc, hr, hdisp, hs, hzero, hgt]
  · have hdisp : readDisp d ≠ 0#32 := fun h ↦ hzero ((readDisp_eq_zero d).1 h)
    simp [Mem.canonicalize, Mem.isCompound, memMeaning, invalid_desc, hr, hdisp, hzero,
      toInt_readDisp]

theorem canonicalize_baseIndex {r r' : VirtualRegister} {e e' : RegDesc} (hr : r.desc = some e)
    (hr' : r'.desc = some e') (s : Option Scale) (d : Option Displacement) (segment : ℕ) :
    memMeaning
        (Mem.canonicalize { base := r, index := r', scale := scaleValue s, disp := readDisp d })
        segment =
      .memory (some e) (some e') (scaleValue s) (dispValue Numeral.readValue d) segment := by
  simp [Mem.canonicalize, Mem.isCompound, memMeaning, isValid_of_desc hr, isValid_of_desc hr', hr,
    hr', toInt_readDisp]

theorem parseCompound_of_finishes {ch rest : List Char} {opening : Blanks} {m : Mem} {fuel : ℕ}
    (hch : NotWhite ch) (hnumber : peekNumber ch = false) (hfuel : 2 * ch.length + 2 = fuel)
    (hloop : Finishes (memLoop x vars fuel { ch := ch }) m rest)
    (hvalid : (m.base.isValid || m.index.isValid) = true) :
    parseCompoundMemoryOperand x vars ('[' :: (opening.text ++ ch)) =
      some ({ type := .mem, value := .mem m.canonicalize, isCompound := m.isCompound }, rest) := by
  obtain ⟨p, hp, rfl, hend⟩ := hloop
  unfold parseCompoundMemoryOperand
  simp only [accept_cons, Option.bind_eq_bind, Option.bind_some,
    consumeWhiteSpace_blanks opening hch, hnumber, hfuel, hp, hvalid, hend]
  rfl

theorem length_regName (b : RegName x) : 0 < b.text.length := by
  cases b with
  | arch r named =>
    obtain ⟨c, t, htext, -⟩ := alpha_head named.isAlpha
    simp [RegName.text, htext]
  | var n => exact Nat.succ_pos _

theorem parseCompound_append (b : Bracketed x) (hplain : b.address.IsPlain) {segment : ℕ}
    {m : Meaning} (hm : b.address.meaning Numeral.readValue vars segment = some m)
    (rest : List Char) :
    ∃ op, parseCompoundMemoryOperand x vars (b.text ++ rest) = some (op, rest) ∧
      { op with segment := segment }.meaning = some m := by
  obtain ⟨opening, address, closing⟩ := b
  have htext : (Bracketed.mk opening address closing).text ++ rest =
      '[' :: (opening.text ++ (address.text ++ (closing.text ++ ']' :: rest))) := by
    simp [Bracketed.text]
  rw [htext]
  cases address with
  | pointer n hword hsmall d =>
    have hd : d = none := hplain
    subst hd
    refine ⟨{ type := .ptr, value := .addr (BitVec.ofNat 64 n.readValue) }, ?_, hm⟩
    unfold parseCompoundMemoryOperand
    simp only [accept_cons, Option.bind_eq_bind, Option.bind_some, Address.text, Option.elim,
      List.append_nil,
      consumeWhiteSpace_blanks opening (notWhite_numeral n _), peekNumber_numeral, if_true,
      parsePointerOperand_append n hword (ends_closing closing rest),
      consumeWhiteSpace_blanks closing (notWhite_bracket rest)]
  | base b d =>
    obtain ⟨e, hb, hm⟩ := Option.bind_eq_some_iff.1 hm
    have haddress : (Address.base b d).text ++ (closing.text ++ ']' :: rest) =
        b.text ++ ((lead d closing).text ++ start d closing rest) := by
      rw [lead_append_start]
      simp [Address.text]
    rw [haddress]
    obtain ⟨fuel, hfuel⟩ := Nat.exists_eq_add_of_le' (show 3 ≤ 2 * (b.text ++
      ((lead d closing).text ++ start d closing rest)).length + 2 by
        have h := length_regName b
        simp only [List.length_append]
        omega)
    obtain ⟨r, hdesc, hloop⟩ := memLoop_base b hb d closing rest fuel
    refine ⟨_, parseCompound_of_finishes (notWhite_regName b _) (peek_regName b _).1 hfuel hloop
      (by simp [isValid_of_desc hdesc]), ?_⟩
    rw [← hm, ← canonicalize_base hdesc d segment]
    rfl
  | index i s d =>
    obtain ⟨e, hi, hm⟩ := Option.bind_eq_some_iff.1 hm
    have haddress : (Address.index i s d).text ++ (closing.text ++ ']' :: rest) =
        i.text ++ ((indexLead (some s) d closing).text ++ indexStart (some s) d closing rest) := by
      rw [indexLead_append_indexStart, lead_append_start]
      simp [Address.text]
    rw [haddress]
    obtain ⟨fuel, hfuel⟩ := Nat.exists_eq_add_of_le' (show 4 ≤ 2 * (i.text ++
      ((indexLead (some s) d closing).text ++ indexStart (some s) d closing rest)).length + 2 by
        have h := length_regName i
        simp only [List.length_append]
        omega)
    obtain ⟨r, hdesc, hloop⟩ := memLoop_index i hi s d closing rest fuel
    refine ⟨_, parseCompound_of_finishes (notWhite_regName i _) (peek_regName i _).1 hfuel hloop
      (by simp [isValid_of_desc hdesc]), ?_⟩
    have hmeaning := canonicalize_index hdesc s.digit d segment
    rw [← apply_ite some, ← hmeaning] at hm
    exact hm
  | baseIndex b plus i s d =>
    obtain ⟨e, hb, hm⟩ := Option.bind_eq_some_iff.1 hm
    obtain ⟨e', hi, hm⟩ := Option.bind_eq_some_iff.1 hm
    have haddress : (Address.baseIndex b plus i s d).text ++ (closing.text ++ ']' :: rest) =
        b.text ++ (plus.before.text ++ '+' :: (plus.after.text ++ (i.text ++
          ((indexLead s d closing).text ++ indexStart s d closing rest)))) := by
      rw [indexLead_append_indexStart, lead_append_start]
      simp [Address.text, Sign.text]
    rw [haddress]
    obtain ⟨fuel, hfuel⟩ := Nat.exists_eq_add_of_le' (show 4 ≤ 2 * (b.text ++
      (plus.before.text ++ '+' :: (plus.after.text ++ (i.text ++
        ((indexLead s d closing).text ++ indexStart s d closing rest))))).length + 2 by
        have h := length_regName b
        simp only [List.length_append]
        omega)
    obtain ⟨r, r', hdesc, hdesc', hloop⟩ := memLoop_baseIndex b i hb hi plus s d closing rest fuel
    refine ⟨_, parseCompound_of_finishes (notWhite_regName b _) (peek_regName b _).1 hfuel hloop
      (by simp [isValid_of_desc hdesc]), ?_⟩
    rw [← hm]
    exact congrArg some (canonicalize_baseIndex hdesc hdesc' s d segment)

theorem parseCompound_displaced (b : Bracketed x) (hplain : ¬b.address.IsPlain)
    (rest : List Char) : parseCompoundMemoryOperand x vars (b.text ++ rest) = none := by
  obtain ⟨opening, address, closing⟩ := b
  cases address with
  | pointer n hword hsmall d =>
    obtain ⟨d, rfl⟩ := Option.ne_none_iff_exists'.1 hplain
    have htext : (Bracketed.mk opening (Address.pointer (x := x) n hword hsmall (some d))
          closing).text ++ rest =
        '[' :: (opening.text ++ (n.text ++ (d.plus.before.text ++ '+' :: (d.plus.after.text ++
          (d.numeral.text ++ (closing.text ++ ']' :: rest)))))) := by
      simp [Bracketed.text, Address.text, Displacement.text, Sign.text]
    rw [htext]
    unfold parseCompoundMemoryOperand
    simp only [accept_cons, Option.bind_eq_bind, Option.bind_some,
      consumeWhiteSpace_blanks opening (notWhite_numeral n _), peekNumber_numeral, if_true,
      parsePointerOperand_append n hword (ends_gap d.plus.before _),
      consumeWhiteSpace_blanks d.plus.before.toBlanks (notWhite_cons (c := '+') (by decide) _)]
    rfl
  | base b d => exact absurd trivial hplain
  | index i s d => exact absurd trivial hplain
  | baseIndex b plus i s d => exact absurd trivial hplain

end Memory

section MemoryOperands

variable {x : Xed} {vars : Vars}

theorem dispValue_eq_iff (d : Option Displacement) :
    dispValue Numeral.readValue d = dispValue Numeral.value d ↔
      ∀ e ∈ d, e.numeral.Readable := by
  cases d with
  | none => simp [dispValue]
  | some d => simpa [dispValue] using readValue_eq_iff d.numeral

/-- What is read from an address is what is printed exactly if its numerals are readable. -/
theorem meaning_iff_readable (a : Address x) (hplain : a.IsPlain) {segment : ℕ} {m : Meaning}
    (hm : a.denote vars segment = some m) :
    ∃ m', a.meaning Numeral.readValue vars segment = some m' ∧ (m' = m ↔ a.Readable) := by
  unfold Address.denote at hm
  cases a with
  | pointer n hword hsmall d =>
    have hd : d = none := hplain
    subst hd
    refine ⟨_, rfl, ?_⟩
    rw [← Option.some.inj hm]
    simp only [Meaning.pointer.injEq, and_true, Address.Readable, ← readValue_eq_iff, dispValue,
      Option.elim, Nat.add_zero, true_and]
    constructor
    · intro h
      have hle : n.readValue ≤ n.value := by
        unfold Numeral.readValue
        split_ifs <;> omega
      have hnat := congrArg BitVec.toNat h
      rwa [BitVec.toNat_ofNat, BitVec.toNat_ofNat, Nat.mod_eq_of_lt hsmall,
        Nat.mod_eq_of_lt (by omega)] at hnat
    · intro h
      rw [h]
  | base b d =>
    obtain ⟨e, hb, hm⟩ := Option.bind_eq_some_iff.1 hm
    refine ⟨.memory (some e) none 0 (dispValue Numeral.readValue d) segment, ?_, ?_⟩
    · simp only [Address.meaning, hb, Option.bind_eq_bind, Option.bind_some]
    · rw [← Option.some.inj hm]
      simp only [Meaning.memory.injEq, true_and, and_true, Nat.cast_inj, Address.Readable,
        dispValue_eq_iff]
  | index i s d =>
    obtain ⟨e, hi, hm⟩ := Option.bind_eq_some_iff.1 hm
    refine ⟨if s.digit = .one ∧ dispValue Numeral.readValue d = 0 then
      .memory (some e) none 0 0 segment
      else .memory none (some e) s.digit.value (dispValue Numeral.readValue d) segment, ?_, ?_⟩
    · simp only [Address.meaning, hi, Option.bind_eq_bind, Option.bind_some]
      split_ifs <;> rfl
    · simp only [Address.Readable, ← dispValue_eq_iff]
      rw [← apply_ite some] at hm
      rw [← Option.some.inj hm]
      have hle : dispValue Numeral.readValue d ≤ dispValue Numeral.value d := by
        cases d with
        | none => exact le_rfl
        | some d =>
          simp only [dispValue, Option.elim, Numeral.readValue]
          split_ifs <;> omega
      split_ifs with hread hvalue hvalue
      · exact iff_of_true rfl (hread.2.trans hvalue.2.symm)
      · refine iff_of_false (by simp) fun h ↦ hvalue ⟨hread.1, ?_⟩
        rw [← h, hread.2]
      · exact absurd ⟨hvalue.1, by omega⟩ hread
      · simp only [Meaning.memory.injEq, true_and, and_true, Nat.cast_inj]
  | baseIndex b plus i s d =>
    obtain ⟨e, hb, hm⟩ := Option.bind_eq_some_iff.1 hm
    obtain ⟨e', hi, hm⟩ := Option.bind_eq_some_iff.1 hm
    refine ⟨.memory (some e) (some e') (s.elim 1 fun s ↦ s.digit.value)
      (dispValue Numeral.readValue d) segment, ?_, ?_⟩
    · simp only [Address.meaning, hb, hi, Option.bind_eq_bind, Option.bind_some]
    · rw [← Option.some.inj hm]
      simp only [Meaning.memory.injEq, true_and, and_true, Nat.cast_inj, Address.Readable,
        dispValue_eq_iff]

theorem readable_isPlain {a : Address x} (h : a.Readable) : a.IsPlain := by
  cases a with
  | pointer n hword hsmall d => exact h.1
  | base b d => trivial
  | index i s d => trivial
  | baseIndex b plus i s d => trivial

theorem parseMemoryOperand_displaced (iclass : IClass) (b : Bracketed x)
    (hplain : ¬b.address.IsPlain) (rest : List Char) :
    parseMemoryOperand x vars iclass (b.text ++ rest) = none := by
  have hpeek : peek '[' (b.text ++ rest) = true := rfl
  unfold parseMemoryOperand
  simp only [hpeek, if_true, parseCompound_displaced b hplain rest]
  rfl

theorem parseMemoryOperand_bracketed (iclass : IClass) (b : Bracketed x)
    (hplain : b.address.IsPlain) {m : Meaning} (hm : b.address.denote vars regInvalid = some m)
    (rest : List Char) :
    ∃ op, parseMemoryOperand x vars iclass (b.text ++ rest) = some (op, rest) ∧
      (op.meaning = some m ↔ b.address.Readable) := by
  obtain ⟨m', hread, hiff⟩ := meaning_iff_readable b.address hplain hm
  obtain ⟨op, hparse, hmeaning⟩ := parseCompound_append b hplain hread rest
  refine ⟨{ op with segment := regInvalid, isEffectiveAddress := iclass.isEffectiveAddress }, ?_, ?_⟩
  · unfold parseMemoryOperand
    have hpeek : peek '[' (b.text ++ rest) = true := rfl
    simp only [hpeek, if_true, hparse, Option.bind_eq_bind, Option.bind_some, bne_self_eq_false,
      Bool.and_false]
    rfl
  · have hsame : { op with
        segment := regInvalid
        isEffectiveAddress := iclass.isEffectiveAddress }.meaning = some m' := hmeaning
    rw [hsame, ← hiff, Option.some.injEq]

theorem accept_blanks {c : Char} (hc : isWhiteSpace c = false) {b : Blanks} (hb : b.text ≠ [])
    (ch : List Char) : accept c (b.text ++ ch) = none := by
  obtain ⟨text, hwhite⟩ := b
  obtain ⟨d, text, rfl⟩ := List.exists_cons_of_ne_nil hb
  apply accept_of_ne
  rintro rfl
  have h := hwhite d List.mem_cons_self
  rw [hc] at h
  exact absurd h (by decide)

theorem parseCompound_blanks {b : Blanks} (hb : b.text ≠ []) (ch : List Char) :
    parseCompoundMemoryOperand x vars (b.text ++ ch) = none := by
  unfold parseCompoundMemoryOperand
  rw [accept_blanks (by decide) hb]
  rfl

theorem isWord_segmentName (s : SegmentName) : IsWord s.text := by
  cases s <;> decide

theorem parseSegment_append (s : Segment) (ch : List Char) :
    parseSegment x vars s.name.text (s.text ++ ch) =
      if s.before.text = [] ∧ s.after.text = [] then parseCompoundMemoryOperand x vars ch
      else none := by
  have htext : s.text ++ ch = s.name.text ++ (s.before.text ++ ':' :: (s.after.text ++ ch)) := by
    simp [Segment.text]
  have hends : Ends (s.before.text ++ ':' :: (s.after.text ++ ch)) :=
    ends_blanks s.before (ends_cons (by decide) _)
  unfold parseSegment
  rw [htext, parseWord_append (isWord_segmentName s.name) hends]
  simp only [Option.bind_eq_bind, Option.bind_some, guard, if_true]
  change Option.bind (accept ':' _) _ = _
  by_cases hbefore : s.before.text = []
  · rw [hbefore, List.nil_append, accept_cons, Option.bind_some]
    by_cases hafter : s.after.text = []
    · rw [hafter, List.nil_append, if_pos ⟨rfl, rfl⟩]
    · rw [if_neg fun h ↦ hafter h.2]
      exact parseCompound_blanks hafter ch
  · rw [accept_blanks (by decide) hbefore, if_neg fun h ↦ hbefore h.1]
    rfl

theorem parseMemoryOperand_segment (iclass : IClass) (s : Segment) (ch : List Char) :
    parseMemoryOperand x vars iclass (s.text ++ ch) =
      (if s.before.text = [] ∧ s.after.text = [] then parseCompoundMemoryOperand x vars ch
        else none).bind fun p ↦
          if iclass.isEffectiveAddress then none
          else some ({ p.1 with segment := s.name.reg, isEffectiveAddress := false }, p.2) := by
  rw [← parseSegment_append]
  obtain ⟨name, before, after⟩ := s
  unfold parseMemoryOperand
  cases name with
  | fs =>
    have hpeek : peek '[' (Segment.text ⟨.fs, before, after⟩ ++ ch) = false := rfl
    have hpeekF : peek 'F' (Segment.text ⟨.fs, before, after⟩ ++ ch) = true := rfl
    simp only [SegmentName.text, hpeek, hpeekF, Bool.false_eq_true, if_false, if_true,
      Option.bind_eq_bind]
    cases iclass.isEffectiveAddress <;> cases parseSegment x vars _ _ <;> rfl
  | gs =>
    have hpeek : peek '[' (Segment.text ⟨.gs, before, after⟩ ++ ch) = false := rfl
    have hpeekF : peek 'F' (Segment.text ⟨.gs, before, after⟩ ++ ch) = false := rfl
    have hpeekG : peek 'G' (Segment.text ⟨.gs, before, after⟩ ++ ch) = true := rfl
    simp only [SegmentName.text, hpeek, hpeekF, hpeekG, Bool.false_eq_true, if_false, if_true,
      Option.bind_eq_bind]
    cases iclass.isEffectiveAddress <;> cases parseSegment x vars _ _ <;> rfl

theorem parseMemoryOperand_segmented (iclass : IClass) (s : Segment) (hs : s.Readable iclass)
    (b : Bracketed x) (hplain : b.address.IsPlain) {m : Meaning}
    (hm : b.address.denote vars s.name.reg = some m) (rest : List Char) :
    ∃ op, parseMemoryOperand x vars iclass (s.text ++ (b.text ++ rest)) = some (op, rest) ∧
      (op.meaning = some m ↔ b.address.Readable) := by
  obtain ⟨m', hread, hiff⟩ := meaning_iff_readable b.address hplain hm
  obtain ⟨op, hparse, hmeaning⟩ := parseCompound_append b hplain hread rest
  refine ⟨{ op with segment := s.name.reg, isEffectiveAddress := false }, ?_, ?_⟩
  · rw [parseMemoryOperand_segment, if_pos ⟨hs.1, hs.2.1⟩, hparse, hs.2.2]
    rfl
  · have hsame : { op with segment := s.name.reg, isEffectiveAddress := false }.meaning =
        some m' := hmeaning
    rw [hsame, ← hiff, Option.some.injEq]

theorem parseMemoryOperand_unreadable (iclass : IClass) (s : Segment) (b : Bracketed x)
    (hnot : ¬(s.Readable iclass ∧ b.address.IsPlain)) (rest : List Char) :
    parseMemoryOperand x vars iclass (s.text ++ (b.text ++ rest)) = none := by
  rw [parseMemoryOperand_segment]
  by_cases hblanks : s.before.text = [] ∧ s.after.text = []
  · rw [if_pos hblanks]
    by_cases hplain : b.address.IsPlain
    · have heff : iclass.isEffectiveAddress = true := by
        by_contra h
        exact hnot ⟨⟨hblanks.1, hblanks.2, Bool.not_eq_true _ ▸ h⟩, hplain⟩
      simp only [heff, if_true]
      cases parseCompoundMemoryOperand x vars (b.text ++ rest) <;> rfl
    · rw [parseCompound_displaced b hplain]
      rfl
  · rw [if_neg hblanks]
    rfl

end MemoryOperands

end Granary.Assemble.CompileInlineAssembly
