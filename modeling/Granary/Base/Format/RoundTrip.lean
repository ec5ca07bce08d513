import Granary.Base.Format
import Mathlib.Data.List.Forall2

namespace Granary.Base.Format

inductive Conv where
  | c | d | u | x | ld | lu | lx | p
  deriving DecidableEq, Repr

namespace Conv

def text : Conv → List Char
  | c => ['%', 'c']
  | d => ['%', 'd']
  | u => ['%', 'u']
  | x => ['%', 'x']
  | ld => ['%', 'l', 'd']
  | lu => ['%', 'l', 'u']
  | lx => ['%', 'l', 'x']
  | p => ['%', 'p']

def isLong : Conv → Bool
  | ld | lu | lx | p => true
  | _ => false

def isHex : Conv → Bool
  | x | lx | p => true
  | _ => false

def base (k : Conv) : ℕ :=
  if k.isHex then 16 else 10

def Fits : Conv → Arg → Prop
  | c, .char _ | d, .word _ | u, .word _ | x, .word _ => True
  | ld, .long _ | lu, .long _ | lx, .long _ | p, .long _ => True
  | _, _ => False

def print : Conv → Arg → List Char
  | c, .char ch => [ch]
  | d, .word v => formatSigned (v.signExtend 64)
  | u, .word v => formatGenericInt v.toNat 10
  | x, .word v => formatGenericInt v.toNat 16
  | ld, .long v => formatSigned v
  | lu, .long v => formatGenericInt v.toNat 10
  | lx, .long v => formatGenericInt v.toNat 16
  | p, .long v => '0' :: 'x' :: formatGenericInt v.toNat 16
  | _, _ => []

end Conv

inductive Item where
  | literal (ch : Char)
  | percent
  | conv (k : Conv)
  deriving DecidableEq, Repr

def Item.text : Item → List Char
  | literal ch => [ch]
  | percent => ['%', '%']
  | conv k => k.text

def formatString (items : List Item) : List Char :=
  items.flatMap Item.text

def convs (items : List Item) : List Conv :=
  items.filterMap fun
    | .conv k => some k
    | _ => none

/-- Each conversion of a number is followed by a literal that is not a digit of its base. -/
def WellFormed : List Item → Prop
  | [] => True
  | .literal ch :: items => ch ≠ '%' ∧ ch ≠ '\x00' ∧ WellFormed items
  | .percent :: items => WellFormed items
  | .conv k :: items =>
    (k ≠ .c → ∃ ch items', items = .literal ch :: items' ∧ getDigit k.base ch = none) ∧
      WellFormed items

/-- A buffer that is large enough gets a text from which the same arguments are read back. -/
def Undoes (items : List Item) (args : List Arg) : Prop :=
  ∃ N, ∀ len, N ≤ len → ∃ text, format len (formatString items) args = some text ∧
    deFormat text (formatString items) = some ((convs items).length, args)

section Write

variable {len : ℕ} {out text : List Char}

theorem write_eq (h : out.length + text.length < len) : write len out text = out ++ text := by
  unfold write
  induction text generalizing out with
  | nil => simp
  | cons ch text ih =>
    rw [List.length_cons] at h
    have hroom : (out ++ [ch]).length + text.length < len := by
      rw [List.length_append, List.length_singleton]
      omega
    rw [List.foldl_cons, if_pos (by omega), ih hroom, List.append_assoc, List.singleton_append]

def print : List Item → List Arg → List Char
  | [], _ => []
  | .literal ch :: items, args => ch :: print items args
  | .percent :: items, args => '%' :: print items args
  | .conv k :: items, a :: args => k.print a ++ print items args
  | .conv _ :: _, [] => []

theorem vFormat_conv (k : Conv) {a : Arg} (hk : k.Fits a) (isLong : Bool) (form : List Char)
    (args : List Arg) :
    ∃ isLong', vFormat len .continue isLong (k.text ++ form) (a :: args) out =
      vFormat len .continue isLong' form args (write len out (k.print a)) := by
  cases k <;> cases a <;> first
    | exact hk.elim
    | exact ⟨_, rfl⟩

theorem vFormat_eq (items : List Item) (hitems : WellFormed items) (isLong : Bool)
    {args : List Arg} (hargs : List.Forall₂ Conv.Fits (convs items) args)
    (hlen : out.length + (print items args).length < len) :
    vFormat len .continue isLong (formatString items) args out =
      some (out ++ print items args) := by
  induction items generalizing isLong args out with
  | nil => simp [formatString, vFormat, print]
  | cons item items ih =>
    cases item with
    | literal ch =>
      obtain ⟨hpercent, -, hrest⟩ := hitems
      simp only [print, List.length_cons] at hlen ⊢
      have hstep : vFormat len .continue isLong (formatString (.literal ch :: items)) args out =
          vFormat len .continue isLong (formatString items) args (write len out [ch]) := by
        simp [formatString, Item.text, vFormat, hpercent]
      rw [hstep, write_eq (by simp only [List.length_singleton]; omega), ih hrest _ hargs
        (by simp only [List.length_append, List.length_singleton]; omega), List.append_assoc,
        List.singleton_append]
    | percent =>
      simp only [print, List.length_cons] at hlen ⊢
      have hstep : vFormat len .continue isLong (formatString (.percent :: items)) args out =
          vFormat len .continue false (formatString items) args (write len out ['%']) := rfl
      rw [hstep, write_eq (by simp only [List.length_singleton]; omega), ih hitems _ hargs
        (by simp only [List.length_append, List.length_singleton]; omega), List.append_assoc,
        List.singleton_append]
    | conv k =>
      cases hargs with
      | @cons _ a _ args ha hargs =>
        simp only [print, List.length_append] at hlen ⊢
        obtain ⟨isLong', hstep⟩ := vFormat_conv k ha isLong (formatString items) args
        have htext : formatString (.conv k :: items) = k.text ++ formatString items := rfl
        rw [htext, hstep, write_eq (by omega), ih hitems.2 _ hargs
          (by rw [List.length_append]; omega), List.append_assoc]

end Write

section Conversion

variable {k : Conv} {a : Arg} {p : Parser} {form rest : List Char}

def Conv.signed : Conv → Bool → Bool
  | d, _ | ld, _ => true
  | x, _ | lx, _ => false
  | _, isSigned => isSigned

/-- What is known of a number when its conversion starts: some of it from the conversions before. -/
def Parser.prepare (p : Parser) (k : Conv) : Parser :=
  { p with
    is64Bit := k.isLong || p.is64Bit
    isSigned := k.signed p.isSigned
    base := if k.isHex then 16 else p.base }

theorem retry_eq (hk : k ≠ .c) (form : List Char) (p : Parser) :
    deFormatLoop .retry (k.text.tail ++ form) p =
      match (p.prepare k).genericInt with
      | (true, p) => deFormatLoop .loop form p
      | (false, p) => some p := by
  cases k with
  | c => exact absurd rfl hk
  | _ => rfl

theorem loop_conv (k : Conv) (form : List Char) {b : Char} {buffer : List Char}
    (hbuffer : p.buffer = b :: buffer) (hb : b ≠ '\x00') :
    deFormatLoop .loop (k.text ++ form) p = deFormatLoop .retry (k.text.tail ++ form) p := by
  cases k <;> simp [Conv.text, deFormatLoop, hbuffer, hb]

theorem genericInt_eq {len : ℕ} (h : deFormatGenericInt p.buffer p.is64Bit p.isSigned p.base =
    (a, len, rest)) (hlen : len ≠ 0) :
    p.genericInt = (true, { p with
      buffer := rest
      numArgs := p.numArgs + 1
      stores := p.stores ++ [a] }) := by
  unfold Parser.genericInt
  rw [h]
  dsimp only
  rw [if_pos hlen]

theorem Spells.head {base data : ℕ} (hbase : IsBase base) {text : List Char}
    (h : Spells base data text) : ∃ b text', text = b :: text' ∧ b ≠ '\x00' := by
  obtain ⟨b, text, rfl⟩ := List.exists_cons_of_ne_nil h.ne_nil
  refine ⟨b, text, rfl, ?_⟩
  rintro rfl
  apply h.digits _ List.mem_cons_self
  obtain rfl | rfl := hbase <;> rfl

theorem formatSigned_head (v : BitVec 64) :
    ∃ b text, formatSigned v = b :: text ∧ b ≠ '\x00' := by
  unfold formatSigned
  split_ifs
  · exact ⟨'-', _, rfl, by decide⟩
  · exact (spells_formatGenericInt (Or.inl rfl) v.isLt).head (Or.inl rfl)

theorem toNat_lt_long (v : BitVec 32) : v.toNat < 2 ^ 64 := by
  have h := v.isLt
  omega

theorem print_head (hk : k.Fits a) (ha : a ≠ .char '\x00') :
    ∃ b text, k.print a = b :: text ∧ b ≠ '\x00' := by
  have hten : IsBase 10 := Or.inl rfl
  have hsixteen : IsBase 16 := Or.inr rfl
  cases k <;> cases a <;> try exact hk.elim
  case c.char ch => exact ⟨ch, [], rfl, fun h ↦ ha (congrArg Arg.char h)⟩
  case d.word v => exact formatSigned_head _
  case ld.long v => exact formatSigned_head v
  case u.word v => exact (spells_formatGenericInt hten (toNat_lt_long v)).head hten
  case lu.long v => exact (spells_formatGenericInt hten v.isLt).head hten
  case x.word v => exact (spells_formatGenericInt hsixteen (toNat_lt_long v)).head hsixteen
  case lx.long v => exact (spells_formatGenericInt hsixteen v.isLt).head hsixteen
  case p.long v => exact ⟨'0', _, rfl, by decide⟩

theorem storeInt_signExtend (v : BitVec 32) : storeInt (v.signExtend 64) false = .word v := by
  have h : (v.signExtend 64).setWidth 32 = v := by
    apply BitVec.eq_of_getLsbD_eq
    intro i hi
    have hi' : i < 64 := by omega
    rw [BitVec.getLsbD_setWidth, BitVec.getLsbD_signExtend]
    simp [hi, hi']
  rw [storeInt, if_neg (by decide), h]

theorem storeInt_word (v : BitVec 32) : storeInt (BitVec.ofNat 64 v.toNat) false = .word v := by
  simp [storeInt]

theorem storeInt_long (v : BitVec 64) : storeInt (BitVec.ofNat 64 v.toNat) true = .long v := by
  simp [storeInt]

/-- A conversion reads its argument back, if it is made with the base and the width of its own. -/
theorem deFormatGenericInt_print (hk : k.Fits a) (hc : k ≠ .c) (hp : k ≠ .p)
    (hrest : NoDigit k.base rest) (isSigned : Bool) :
    deFormatGenericInt (k.print a ++ rest) k.isLong (k.signed isSigned) k.base =
      (a, (k.print a).length, rest) := by
  have hten : IsBase 10 := Or.inl rfl
  have hsixteen : IsBase 16 := Or.inr rfl
  cases k <;> cases a <;> try exact hk.elim
  case c.char ch => exact absurd rfl hc
  case p.long v => exact absurd rfl hp
  case d.word v =>
    have h := deFormatGenericInt_formatSigned (v.signExtend 64) hrest false
    rwa [storeInt_signExtend] at h
  case ld.long v => exact deFormatGenericInt_formatSigned v hrest true
  case u.word v =>
    have h := deFormatGenericInt_of_spells hten (spells_formatGenericInt hten (toNat_lt_long v))
      hrest false isSigned
    rwa [storeInt_word] at h
  case lu.long v =>
    have h := deFormatGenericInt_of_spells hten (spells_formatGenericInt hten v.isLt) hrest true
      isSigned
    rwa [storeInt_long] at h
  case x.word v =>
    have h := deFormatGenericInt_of_spells hsixteen
      (spells_formatGenericInt hsixteen (toNat_lt_long v)) hrest false false
    rwa [storeInt_word] at h
  case lx.long v =>
    have h := deFormatGenericInt_of_spells hsixteen (spells_formatGenericInt hsixteen v.isLt) hrest
      true false
    rwa [storeInt_long] at h

def Parser.advance (p : Parser) (k : Conv) (a : Arg) (rest : List Char) : Parser :=
  if k = .c then
    { p with buffer := rest, numArgs := p.numArgs + 1, stores := p.stores ++ [a] }
  else
    { p.prepare k with buffer := rest, numArgs := p.numArgs + 1, stores := p.stores ++ [a] }

theorem retry_conv (hk : k.Fits a) (hp : k ≠ .p) (hbuffer : p.buffer = k.print a ++ rest)
    (hrest : k ≠ .c → NoDigit k.base rest) (hlong : k ≠ .c → p.is64Bit = true → k.isLong = true)
    (hbase : k ≠ .c → k.isHex = true ∨ p.base = 10) :
    deFormatLoop .retry (k.text.tail ++ form) p =
      deFormatLoop .loop form (p.advance k a rest) := by
  by_cases hc : k = .c
  · subst hc
    cases a with
    | char ch =>
      change deFormatLoop .retry ('c' :: form) p = _
      simp only [deFormatLoop, hbuffer, Conv.print, List.singleton_append, Parser.advance, if_true]
    | word v => exact hk.elim
    | long v => exact hk.elim
  · have hwidth : (k.isLong || p.is64Bit) = k.isLong := by
      cases h : p.is64Bit with
      | false => exact Bool.or_false _
      | true => rw [hlong hc h, Bool.true_or]
    have hown : (if k.isHex then 16 else p.base) = k.base := by
      unfold Conv.base
      rcases hbase hc with h | h
      · simp [h]
      · rw [h]
    have hread : deFormatGenericInt (p.prepare k).buffer (p.prepare k).is64Bit
        (p.prepare k).isSigned (p.prepare k).base = (a, (k.print a).length, rest) := by
      simp only [Parser.prepare, hbuffer, hwidth, hown]
      exact deFormatGenericInt_print hk hc hp (hrest hc) p.isSigned
    have hlen : (k.print a).length ≠ 0 := by
      by_cases ha : a = .char '\x00'
      · subst ha
        cases k <;> first | exact hk.elim | exact absurd rfl hc
      · obtain ⟨b, text, hprint, -⟩ := print_head hk ha
        simp [hprint]
    rw [retry_eq hc, genericInt_eq hread hlen, Parser.advance, if_neg hc]
    rfl

end Conversion

/-- Each `%%` is followed by a conversion. -/
def Percents : List Item → Prop
  | [] => True
  | .percent :: items => (∃ k items', items = .conv k :: items') ∧ Percents items
  | _ :: items => Percents items

/-- There is no pointer, and no number is narrower or of a smaller base than one before it. -/
structure Sound (items : List Item) : Prop where
  percents : Percents items
  noPointer : .p ∉ convs items
  carried : (convs items).Pairwise fun j k ↦ k ≠ .c →
    (j.isLong = true → k.isLong = true) ∧ (j.isHex = true → k.isHex = true)

/-- No terminator is an argument, but for a character right after `%%`, which is read without looking
at the text first. -/
def NulsGuarded : Bool → List Item → List Arg → Prop
  | _, [], _ => True
  | _, .literal _ :: items, args => NulsGuarded false items args
  | _, .percent :: items, args => NulsGuarded true items args
  | _, .conv _ :: _, [] => True
  | afterPercent, .conv _ :: items, a :: args =>
    (afterPercent = false → a ≠ .char '\x00') ∧ NulsGuarded false items args

/-- The conversions that are made right when a long or a hexadecimal number came before. -/
def SoundFrom : Bool → Bool → List Conv → Prop
  | _, _, [] => True
  | long, hex, k :: ks =>
    k ≠ .p ∧ (k ≠ .c → (long = true → k.isLong = true) ∧ (hex = true → k.isHex = true)) ∧
      SoundFrom (k.isLong || long) (k.isHex || hex) ks

theorem soundFrom_iff {long hex : Bool} {ks : List Conv} :
    SoundFrom long hex ks ↔ .p ∉ ks ∧
      (∀ k ∈ ks, k ≠ .c → (long = true → k.isLong = true) ∧ (hex = true → k.isHex = true)) ∧
      ks.Pairwise fun j k ↦ k ≠ .c →
        (j.isLong = true → k.isLong = true) ∧ (j.isHex = true → k.isHex = true) := by
  induction ks generalizing long hex with
  | nil => simp [SoundFrom]
  | cons k ks ih =>
    rw [SoundFrom, ih, List.mem_cons, not_or, List.forall_mem_cons, List.pairwise_cons]
    simp only [Bool.or_eq_true]
    constructor
    · intro ⟨hp, hk, hps, hall, hpair⟩
      refine ⟨⟨Ne.symm hp, hps⟩, ⟨hk, fun j hj hc ↦ ?_⟩, fun j hj hc ↦ ?_, hpair⟩
      · exact ⟨fun h ↦ (hall j hj hc).1 (Or.inr h), fun h ↦ (hall j hj hc).2 (Or.inr h)⟩
      · exact ⟨fun h ↦ (hall j hj hc).1 (Or.inl h), fun h ↦ (hall j hj hc).2 (Or.inl h)⟩
    · intro ⟨⟨hp, hps⟩, ⟨hk, hall⟩, hpairk, hpair⟩
      refine ⟨Ne.symm hp, hk, hps, fun j hj hc ↦ ?_, hpair⟩
      exact ⟨fun h ↦ h.elim (hpairk j hj hc).1 (hall j hj hc).1,
        fun h ↦ h.elim (hpairk j hj hc).2 (hall j hj hc).2⟩

theorem soundFrom_false {ks : List Conv} :
    SoundFrom false false ks ↔ .p ∉ ks ∧ ks.Pairwise fun j k ↦ k ≠ .c →
      (j.isLong = true → k.isLong = true) ∧ (j.isHex = true → k.isHex = true) := by
  rw [soundFrom_iff]
  simp

section Undoing

variable {items : List Item} {args : List Arg} {p : Parser}

def Parser.result (p : Parser) : ℕ × List Arg :=
  (p.numArgs, p.stores)

theorem noDigit_print {k : Conv} (h : WellFormed (.conv k :: items)) (hc : k ≠ .c)
    (args : List Arg) (rest : List Char) : NoDigit k.base (print items args ++ rest) := by
  obtain ⟨ch, items', rfl, hch⟩ := h.1 hc
  intro c hcmem
  simp only [print, List.cons_append, List.head?_cons, Option.mem_def, Option.some_inj] at hcmem
  rwa [← hcmem]

theorem formatString_conv (k : Conv) (items : List Item) :
    formatString (.conv k :: items) ++ ['\x00'] = k.text ++ (formatString items ++ ['\x00']) := by
  simp [formatString, Item.text]

theorem loop_literal {ch : Char} (hpercent : ch ≠ '%') (hnul : ch ≠ '\x00') {form buffer : List Char}
    (hbuffer : p.buffer = ch :: buffer) :
    deFormatLoop .loop (ch :: form) p = deFormatLoop .loop form { p with buffer := buffer } := by
  simp [deFormatLoop, hbuffer, hpercent, hnul]

theorem loop_end {buffer : List Char} (hbuffer : p.buffer = '\x00' :: buffer)
    (form : List Char) : deFormatLoop .loop form p = some p := by
  cases form <;> simp [deFormatLoop, hbuffer]

theorem loop_percent (k : Conv) {buffer : List Char} (hbuffer : p.buffer = '%' :: buffer) :
    deFormatLoop .loop (formatString (.percent :: .conv k :: items) ++ ['\x00']) p =
      deFormatLoop .retry (k.text.tail ++ (formatString items ++ ['\x00']))
        { p with buffer := buffer } := by
  cases k <;> simp [formatString, Item.text, Conv.text, deFormatLoop, hbuffer]

theorem advance_buffer (p : Parser) (k : Conv) (a : Arg) (rest : List Char) :
    (p.advance k a rest).buffer = rest := by
  unfold Parser.advance
  split_ifs <;> rfl

theorem advance_numArgs (p : Parser) (k : Conv) (a : Arg) (rest : List Char) :
    (p.advance k a rest).numArgs = p.numArgs + 1 := by
  unfold Parser.advance
  split_ifs <;> rfl

theorem advance_stores (p : Parser) (k : Conv) (a : Arg) (rest : List Char) :
    (p.advance k a rest).stores = p.stores ++ [a] := by
  unfold Parser.advance
  split_ifs <;> rfl

theorem advance_is64Bit (p : Parser) (k : Conv) (a : Arg) (rest : List Char) :
    (p.advance k a rest).is64Bit = (k.isLong || p.is64Bit) := by
  unfold Parser.advance
  split_ifs with hc
  · rw [hc]
    rfl
  · rfl

theorem advance_base (k : Conv) (a : Arg) {rest : List Char} {hex : Bool}
    (hbase : p.base = if hex then 16 else 10) :
    (p.advance k a rest).base = if k.isHex || hex then 16 else 10 := by
  by_cases hc : k = .c
  · subst hc
    exact hbase
  · rw [Parser.advance, if_neg hc]
    cases h : k.isHex <;> simp [Parser.prepare, h, hbase]

theorem retry_advance (p : Parser) {k : Conv} {a : Arg} {hex : Bool}
    (hwf : WellFormed (.conv k :: items)) (ha : k.Fits a) (hp : k ≠ .p)
    (hk : k ≠ .c → (p.is64Bit = true → k.isLong = true) ∧ (hex = true → k.isHex = true))
    (hbase : p.base = if hex then 16 else 10)
    (hbuffer : p.buffer = print (.conv k :: items) (a :: args) ++ ['\x00']) :
    deFormatLoop .retry (k.text.tail ++ (formatString items ++ ['\x00'])) p =
      deFormatLoop .loop (formatString items ++ ['\x00'])
        (p.advance k a (print items args ++ ['\x00'])) := by
  rw [print, List.append_assoc] at hbuffer
  have htenOrHex : k ≠ .c → k.isHex = true ∨ p.base = 10 := by
    intro hc
    cases hex with
    | true => exact Or.inl ((hk hc).2 rfl)
    | false => exact Or.inr hbase
  exact retry_conv ha hp hbuffer (fun hc ↦ noDigit_print hwf hc args _) (fun hc ↦ (hk hc).1)
    htenOrHex

theorem loop_eq_retry {k : Conv} {a : Arg} (ha : k.Fits a) (hnul : a ≠ .char '\x00')
    (hbuffer : p.buffer = print (.conv k :: items) (a :: args) ++ ['\x00']) :
    deFormatLoop .loop (formatString (.conv k :: items) ++ ['\x00']) p =
      deFormatLoop .retry (k.text.tail ++ (formatString items ++ ['\x00'])) p := by
  obtain ⟨b, text, hprint, hb⟩ := print_head ha hnul
  have hhead : p.buffer = b :: (text ++ print items args ++ ['\x00']) := by
    rw [hbuffer, print, hprint, List.cons_append, List.cons_append]
  rw [formatString_conv, loop_conv k _ hhead hb]

def resume : Bool → List Item → Parser → Option Parser
  | true, .conv k :: items, p =>
    deFormatLoop .retry (k.text.tail ++ (formatString items ++ ['\x00'])) p
  | _, items, p => deFormatLoop .loop (formatString items ++ ['\x00']) p

theorem resume_false (items : List Item) (p : Parser) :
    resume false items p = deFormatLoop .loop (formatString items ++ ['\x00']) p := by
  cases items <;> rfl

/-- Only a conversion can follow `%%`. -/
def Follows (afterPercent : Bool) (items : List Item) : Prop :=
  afterPercent = true → ∃ k items', items = .conv k :: items'

theorem follows_false (items : List Item) : Follows false items := nofun

theorem follows_conv (k : Conv) (items : List Item) : Follows true (.conv k :: items) :=
  fun _ ↦ ⟨k, items, rfl⟩

theorem loop_sound {afterPercent : Bool} (hfollows : Follows afterPercent items)
    (hwf : WellFormed items) (hpercents : Percents items)
    (hargs : List.Forall₂ Conv.Fits (convs items) args)
    (hnul : NulsGuarded afterPercent items args) {hex : Bool}
    (hbase : p.base = if hex then 16 else 10) (hsound : SoundFrom p.is64Bit hex (convs items))
    (hbuffer : p.buffer = print items args ++ ['\x00']) :
    (resume afterPercent items p).map Parser.result =
      some (p.numArgs + (convs items).length, p.stores ++ args) := by
  induction items generalizing p args hex afterPercent with
  | nil =>
    cases hargs
    rw [show resume afterPercent [] p = some p by cases afterPercent <;> exact loop_end hbuffer _]
    simp [Parser.result, convs]
  | cons item items ih =>
    cases item with
    | literal ch =>
      obtain ⟨hpercent, hzero, hwf⟩ := hwf
      obtain rfl : afterPercent = false := by
        by_contra h
        obtain ⟨k, items', h⟩ := hfollows (Bool.eq_true_of_not_eq_false h)
        cases h
      have hform : formatString (.literal ch :: items) ++ ['\x00'] =
          ch :: (formatString items ++ ['\x00']) := rfl
      rw [resume_false, hform, loop_literal hpercent hzero hbuffer, ← resume_false]
      exact ih (follows_false items) hwf hpercents hargs hnul hbase hsound rfl
    | percent =>
      obtain ⟨⟨k, items', rfl⟩, hpercents⟩ := hpercents
      obtain rfl : afterPercent = false := by
        by_contra h
        obtain ⟨k, items', h⟩ := hfollows (Bool.eq_true_of_not_eq_false h)
        cases h
      rw [resume_false, loop_percent k hbuffer]
      exact ih (follows_conv k items') hwf hpercents hargs hnul hbase hsound rfl
    | conv k =>
      cases hargs with
      | @cons _ a _ args ha hargs =>
        obtain ⟨hp, hk, hsound⟩ := hsound
        have hretry : resume afterPercent (.conv k :: items) p =
            deFormatLoop .retry (k.text.tail ++ (formatString items ++ ['\x00'])) p := by
          cases afterPercent with
          | true => rfl
          | false => exact loop_eq_retry ha (hnul.1 rfl) hbuffer
        rw [hretry, retry_advance p hwf ha hp hk hbase hbuffer, ← resume_false]
        have hadvance := ih (p := p.advance k a (print items args ++ ['\x00']))
          (follows_false items) hwf.2 hpercents hargs hnul.2 (advance_base k a hbase)
          (by rwa [advance_is64Bit]) (advance_buffer ..)
        rw [hadvance, advance_numArgs, advance_stores]
        simp only [convs, List.filterMap_cons, List.length_cons, List.append_assoc,
          List.singleton_append]
        rw [Nat.add_right_comm, Nat.add_assoc]

theorem genericInt_stores (p : Parser) : p.genericInt.2.stores =
    p.stores ++ [(deFormatGenericInt p.buffer p.is64Bit p.isSigned p.base).1] := by
  unfold Parser.genericInt
  dsimp only
  split_ifs <;> rfl

theorem deFormatGenericInt_fst (buffer : List Char) (is64Bit isSigned : Bool) (base : ℕ) :
    ∃ v, (deFormatGenericInt buffer is64Bit isSigned base).1 = storeInt v is64Bit := by
  unfold deFormatGenericInt
  split
  · exact ⟨_, rfl⟩
  · exact ⟨_, rfl⟩

theorem storeInt_ne_char (v : BitVec 64) (w : Bool) (ch : Char) : storeInt v w ≠ .char ch := by
  unfold storeInt
  split_ifs <;> simp

theorem genericInt_prefix {form : List Char} {p' : Parser}
    (hloop : ∀ q, deFormatLoop .loop form q = some p' → q.stores <+: p'.stores)
    (h : (match p.genericInt with
      | (true, p) => deFormatLoop .loop form p
      | (false, p) => some p) = some p') : p.stores <+: p'.stores := by
  have hstores : p.stores <+: p.genericInt.2.stores := by
    rw [genericInt_stores]
    exact List.prefix_append _ _
  revert h hstores
  rcases p.genericInt with ⟨_ | _, q⟩
  · intro h hstores
    exact Option.some_inj.1 h ▸ hstores
  · intro h hstores
    exact hstores.trans (hloop q h)

theorem stores_prefix {mode : Mode} {form : List Char} {p' : Parser}
    (h : deFormatLoop mode form p = some p') : p.stores <+: p'.stores := by
  fun_induction deFormatLoop mode form p
  case case13 ih => exact (List.prefix_append _ _).trans (ih h)
  all_goals first
    | exact Option.some_inj.1 h ▸ List.prefix_rfl
    | (rename_i ih; exact ih h)
    | (rename_i ih; have hint := genericInt_prefix ih h; exact hint)
    | exact nomatch h

theorem nulsGuarded_nil (afterPercent : Bool) (items : List Item) :
    NulsGuarded afterPercent items [] := by
  induction items generalizing afterPercent with
  | nil => trivial
  | cons item items ih =>
    cases item with
    | literal ch => exact ih false
    | percent => exact ih true
    | conv k => trivial

/-- A conversion stores one argument, which is a terminator only if it stands in the text. -/
theorem exists_store {k : Conv} {form : List Char} {p' : Parser} {P : List Arg → Prop}
    (hnil : P [])
    (hloop : ∀ q, deFormatLoop .loop form q = some p' → ∃ new, p'.stores = q.stores ++ new ∧ P new)
    (h : deFormatLoop .retry (k.text.tail ++ form) p = some p') :
    ∃ a new, p'.stores = p.stores ++ a :: new ∧ P new ∧
      (a = .char '\x00' → p.buffer.head? = some '\x00') := by
  by_cases hc : k = .c
  · subst hc
    cases hbuffer : p.buffer with
    | nil => simp [Conv.text, deFormatLoop, hbuffer] at h
    | cons b buffer =>
      have hstep : deFormatLoop .retry (Conv.c.text.tail ++ form) p = deFormatLoop .loop form
          { p with
            buffer := buffer
            numArgs := p.numArgs + 1
            stores := p.stores ++ [.char b] } := by
        simp [Conv.text, deFormatLoop, hbuffer]
      rw [hstep] at h
      obtain ⟨new, hnew, hP⟩ := hloop _ h
      refine ⟨.char b, new, ?_, hP, fun hb ↦ ?_⟩
      · rw [hnew, List.append_assoc, List.singleton_append]
      · rw [List.head?_cons, Arg.char.inj hb]
  · rw [retry_eq hc] at h
    obtain ⟨v, hv⟩ := deFormatGenericInt_fst (p.prepare k).buffer (p.prepare k).is64Bit
      (p.prepare k).isSigned (p.prepare k).base
    have hstores := genericInt_stores (p.prepare k)
    rw [hv] at hstores
    revert h hstores
    rcases (p.prepare k).genericInt with ⟨_ | _, q⟩
    · intro h hstores
      obtain rfl := Option.some_inj.1 h
      exact ⟨_, [], hstores, hnil, fun ha ↦ absurd ha (storeInt_ne_char _ _ _)⟩
    · intro h hstores
      obtain ⟨new, hnew, hP⟩ := hloop q h
      refine ⟨storeInt v (p.prepare k).is64Bit, new, ?_, hP,
        fun ha ↦ absurd ha (storeInt_ne_char _ _ _)⟩
      have hq : q.stores = p.stores ++ [storeInt v (p.prepare k).is64Bit] := hstores
      rw [hnew, hq, List.append_assoc, List.singleton_append]

theorem stores_guarded {afterPercent : Bool} (hfollows : Follows afterPercent items)
    (hwf : WellFormed items) (hpercents : Percents items) {p' : Parser}
    (h : resume afterPercent items p = some p') :
    ∃ new, p'.stores = p.stores ++ new ∧ NulsGuarded afterPercent items new := by
  induction items generalizing p afterPercent with
  | nil =>
    refine ⟨[], ?_, trivial⟩
    rw [List.append_nil]
    have hloop : deFormatLoop .loop ['\x00'] p = some p' := by cases afterPercent <;> exact h
    cases hbuffer : p.buffer with
    | nil => simp [deFormatLoop, hbuffer] at hloop
    | cons b buffer =>
      simp only [deFormatLoop, hbuffer, or_true, if_true, Option.some_inj] at hloop
      exact hloop ▸ rfl
  | cons item items ih =>
    have hconv (k : Conv) (hk : item = .conv k)
        (hretry : deFormatLoop .retry (k.text.tail ++ (formatString items ++ ['\x00'])) p = some p')
        (hhead : afterPercent = false → p.buffer.head? ≠ some '\x00') :
        ∃ new, p'.stores = p.stores ++ new ∧ NulsGuarded afterPercent (item :: items) new := by
      subst hk
      obtain ⟨a, new, hnew, hguarded, ha⟩ := exists_store (P := NulsGuarded false items)
        (nulsGuarded_nil false items)
        (fun q hq ↦ ih (follows_false items) hwf.2 hpercents (by rwa [resume_false])) hretry
      exact ⟨a :: new, hnew, fun hfalse hnul ↦ hhead hfalse (ha hnul), hguarded⟩
    cases afterPercent with
    | true =>
      obtain ⟨k, items', hk⟩ := hfollows rfl
      obtain ⟨rfl, rfl⟩ := List.cons.inj hk
      exact hconv k rfl h nofun
    | false =>
      rw [resume_false] at h
      cases hbuffer : p.buffer with
      | nil =>
        exfalso
        cases item with
        | literal ch => simp [formatString, Item.text, deFormatLoop, hbuffer] at h
        | percent => simp [formatString, Item.text, deFormatLoop, hbuffer] at h
        | conv k =>
          cases k <;> simp [formatString, Item.text, Conv.text, deFormatLoop, hbuffer] at h
      | cons b buffer =>
        have hstop (hsome : some p = some p') :
            ∃ new, p'.stores = p.stores ++ new ∧ NulsGuarded false (item :: items) new :=
          ⟨[], by rw [List.append_nil, Option.some_inj.1 hsome], nulsGuarded_nil _ _⟩
        by_cases hb : b = '\x00'
        · rw [loop_end (hb ▸ hbuffer)] at h
          exact hstop h
        · cases item with
          | literal ch =>
            have hform : formatString (.literal ch :: items) ++ ['\x00'] =
                ch :: (formatString items ++ ['\x00']) := rfl
            obtain ⟨hch, hzero, hwf⟩ := hwf
            by_cases hmatch : ch = b
            · rw [hform, loop_literal hch hzero (hmatch ▸ hbuffer), ← resume_false] at h
              obtain ⟨new, hnew, hguarded⟩ := ih (follows_false items) hwf hpercents h
              exact ⟨new, hnew, hguarded⟩
            · rw [hform, show deFormatLoop .loop (ch :: (formatString items ++ ['\x00'])) p = some p by
                simp [deFormatLoop, hbuffer, hb, hzero, hch, hmatch]] at h
              exact hstop h
          | percent =>
            obtain ⟨⟨k, items', rfl⟩, hpercents⟩ := hpercents
            by_cases hmatch : b = '%'
            · rw [loop_percent k (hmatch ▸ hbuffer)] at h
              obtain ⟨new, hnew, hguarded⟩ := ih (follows_conv k items') hwf hpercents h
              exact ⟨new, hnew, hguarded⟩
            · rw [show deFormatLoop .loop
                  (formatString (.percent :: .conv k :: items') ++ ['\x00']) p = some p by
                simp [formatString, Item.text, deFormatLoop, hbuffer, hb, hmatch]] at h
              exact hstop h
          | conv k =>
            rw [formatString_conv, loop_conv k _ hbuffer hb] at h
            refine hconv k rfl h fun _ ↦ ?_
            rw [hbuffer, List.head?_cons]
            exact fun hnul ↦ hb (Option.some_inj.1 hnul)

def Conv.number (k : Conv) (n : ℕ) : Arg :=
  if k = .c then .char 'a'
  else if k.isLong then .long (BitVec.ofNat 64 n) else .word (BitVec.ofNat 32 n)

theorem fits_number (k : Conv) (n : ℕ) : k.Fits (k.number n) := by
  cases k <;> exact trivial

theorem number_ne_nul (k : Conv) (n : ℕ) : k.number n ≠ .char '\x00' := by
  cases k <;> simp [Conv.number, Conv.isLong]

def zeros (ks : List Conv) : List Arg :=
  ks.map (·.number 0)

theorem fits_zeros (ks : List Conv) : List.Forall₂ Conv.Fits ks (zeros ks) := by
  induction ks with
  | nil => exact .nil
  | cons k ks ih => exact .cons (fits_number k 0) ih

theorem nul_notMem_zeros (ks : List Conv) : .char '\x00' ∉ zeros ks := by
  intro h
  obtain ⟨k, -, hk⟩ := List.mem_map.1 h
  exact number_ne_nul k 0 hk

/-- Whatever the arguments, they are read back from where a parser stands. -/
def UndoesFrom (p : Parser) (items : List Item) : Prop :=
  ∀ args, List.Forall₂ Conv.Fits (convs items) args → .char '\x00' ∉ args →
    (deFormatLoop .loop (formatString items ++ ['\x00'])
      { p with buffer := print items args ++ ['\x00'] }).map Parser.result =
      some (p.numArgs + (convs items).length, p.stores ++ args)

theorem deFormatDigits_linear (base : ℕ) (text : List Char) :
    ∃ scale offset, ∀ v len, (deFormatDigits base text v len).1 = v * scale + offset := by
  induction text with
  | nil => exact ⟨1, 0, fun v len ↦ by simp [deFormatDigits]⟩
  | cons ch text ih =>
    cases hdigit : getDigit base ch with
    | none => exact ⟨1, 0, fun v len ↦ by simp [deFormatDigits, hdigit]⟩
    | some d =>
      obtain ⟨scale, offset, h⟩ := ih
      refine ⟨BitVec.ofNat 64 (if base = 16 then 16 else 10) * scale,
        BitVec.ofNat 64 d * scale + offset, fun v len ↦ ?_⟩
      simp only [deFormatDigits, hdigit, h]
      rw [BitVec.add_mul, BitVec.mul_assoc, BitVec.add_assoc]

theorem print_number_zero {k : Conv} (hc : k ≠ .c) (hhex : k.isHex = false) :
    k.print (k.number 0) = ['0'] := by
  cases k <;> first | exact absurd rfl hc | exact absurd hhex (by decide) | decide +kernel

theorem print_number_one {k : Conv} (hc : k ≠ .c) (hhex : k.isHex = false) :
    k.print (k.number 1) = ['1'] := by
  cases k <;> first | exact absurd rfl hc | exact absurd hhex (by decide) | decide +kernel

theorem print_number_ten {k : Conv} (hc : k ≠ .c) (hhex : k.isHex = false) :
    k.print (k.number 10) = ['1', '0'] := by
  cases k <;> first | exact absurd rfl hc | exact absurd hhex (by decide) | decide +kernel

theorem not_linear {k : Conv} (hc : k ≠ .c) (scale offset : BitVec 64)
    (h0 : storeInt (BitVec.ofNat 64 0 * scale + offset) k.isLong = k.number 0)
    (h1 : storeInt (BitVec.ofNat 64 1 * scale + offset) k.isLong = k.number 1)
    (h10 : storeInt (BitVec.ofNat 64 16 * scale + offset) k.isLong = k.number 10) : False := by
  simp only [Conv.number, if_neg hc] at h0 h1 h10
  cases hlong : k.isLong with
  | true =>
    simp only [hlong, storeInt, if_true, Arg.long.injEq] at h0 h1 h10
    have hoffset : offset = 0 := by simpa using h0
    have hscale : scale = 1 := by simpa [hoffset] using h1
    rw [hoffset, hscale] at h10
    exact absurd h10 (by decide)
  | false =>
    simp only [hlong, storeInt, Bool.false_eq_true, if_false, Arg.word.injEq,
      BitVec.setWidth_add _ _ (show 32 ≤ 64 by decide),
      BitVec.setWidth_mul _ _ (show 32 ≤ 64 by decide)] at h0 h1 h10
    have hoffset : offset.setWidth 32 = 0 := by simpa using h0
    have hscale : scale.setWidth 32 = 1 := by simpa [hoffset] using h1
    rw [hoffset, hscale] at h10
    exact absurd h10 (by decide)

section First

variable {k : Conv} (h : UndoesFrom p (.conv k :: items)) (hc : k ≠ .c)
include h hc

theorem first_store {a : Arg} (ha : k.Fits a) (hnul : a ≠ .char '\x00') :
    (deFormatGenericInt (k.print a ++ (print items (zeros (convs items)) ++ ['\x00']))
      (k.isLong || p.is64Bit) (k.signed p.isSigned) (if k.isHex then 16 else p.base)).1 = a := by
  let args := zeros (convs items)
  let q : Parser := { p with buffer := print (.conv k :: items) (a :: args) ++ ['\x00'] }
  have hrun := h (a :: args) (.cons ha (fits_zeros _)) (by
    rw [List.mem_cons, not_or]
    exact ⟨Ne.symm hnul, nul_notMem_zeros _⟩)
  obtain ⟨b, text, hprint, hb⟩ := print_head ha hnul
  have hhead : q.buffer = b :: (text ++ print items args ++ ['\x00']) := by
    simp only [q, print, hprint, List.cons_append]
  rw [formatString_conv, loop_conv k _ hhead hb, retry_eq hc] at hrun
  obtain ⟨p', hp', hresult⟩ := Option.map_eq_some_iff.1 hrun
  have hstores : p'.stores = p.stores ++ a :: args := congrArg Prod.snd hresult
  have hfirst := genericInt_stores (q.prepare k)
  -- nothing that is stored later changes what was stored first
  have hlater : (q.prepare k).genericInt.2.stores <+: p'.stores := by
    revert hp'
    rcases (q.prepare k).genericInt with ⟨_ | _, r⟩
    · intro hp'
      exact Option.some_inj.1 hp' ▸ List.prefix_rfl
    · intro hp'
      exact stores_prefix hp'
  obtain ⟨more, hmore⟩ := hlater
  rw [← hmore, hfirst, List.append_assoc] at hstores
  have hcons := List.append_cancel_left hstores
  rw [List.singleton_append] at hcons
  rw [← List.append_assoc]
  exact (List.cons.inj hcons).1

theorem first_ne_pointer : k ≠ .p := by
  rintro rfl
  have hstore := first_store h hc (a := .long 1) trivial (by simp)
  have hzero : deFormatGenericInt (Conv.p.print (.long 1) ++
      (print items (zeros (convs items)) ++ ['\x00'])) true p.isSigned 16 =
      (.long 0, 1, 'x' :: '1' :: (print items (zeros (convs items)) ++ ['\x00'])) := by
    cases p.isSigned <;> rfl
  have hone : (.long 0 : Arg) = .long 1 := (congrArg Prod.fst hzero).symm.trans hstore
  exact absurd hone (by decide)

theorem first_isLong (hlong : p.is64Bit = true) : k.isLong = true := by
  by_contra hshort
  rw [Bool.not_eq_true] at hshort
  have hstore := first_store h hc (fits_number k 0) (number_ne_nul k 0)
  obtain ⟨v, hv⟩ := deFormatGenericInt_fst (k.print (k.number 0) ++
    (print items (zeros (convs items)) ++ ['\x00'])) (k.isLong || p.is64Bit)
    (k.signed p.isSigned) (if k.isHex then 16 else p.base)
  rw [hv, hlong, Bool.or_true, Conv.number, if_neg hc, hshort] at hstore
  simp [storeInt] at hstore

theorem first_isHex (hbase : p.base = 16) : k.isHex = true := by
  by_contra hten
  rw [Bool.not_eq_true] at hten
  have hwidth : (k.isLong || p.is64Bit) = k.isLong := by
    cases hlong : p.is64Bit with
    | false => exact Bool.or_false _
    | true => rw [first_isLong h hc hlong, Bool.true_or]
  obtain ⟨scale, offset, hlinear⟩ :=
    deFormatDigits_linear 16 (print items (zeros (convs items)) ++ ['\x00'])
  -- the decimal digits of a number are read as hexadecimal ones, with more after them
  have hread (n : ℕ) (text : List Char) (hne : text ≠ []) (hprint : k.print (k.number n) = text)
      (htext : ∀ ch ∈ text, getDigit 16 ch ≠ none) :
      storeInt (BitVec.ofNat 64 (readDigits 16 0 text) * scale + offset) k.isLong = k.number n := by
    have hstore := first_store h hc (fits_number k n) (number_ne_nul k n)
    rw [hten, hbase, hwidth, hprint, ite_self, deFormatGenericInt_append (Or.inr rfl) hne htext]
      at hstore
    rw [← hlinear _ text.length]
    exact hstore
  have h0 := hread 0 ['0'] (by simp) (print_number_zero hc hten) (by decide)
  have h1 := hread 1 ['1'] (by simp) (print_number_one hc hten) (by decide)
  have h10 := hread 10 ['1', '0'] (by simp) (print_number_ten hc hten) (by decide)
  exact not_linear hc scale offset h0 h1 h10

end First

theorem soundFrom_of_undoesFrom (hwf : WellFormed items) (hpercents : Percents items) {hex : Bool}
    (hbase : p.base = if hex then 16 else 10) (h : UndoesFrom p items) :
    SoundFrom p.is64Bit hex (convs items) := by
  induction items generalizing p hex with
  | nil => trivial
  | cons item items ih =>
    cases item with
    | literal ch =>
      obtain ⟨hch, hzero, hwf⟩ := hwf
      refine ih hwf hpercents hbase fun args hargs hnul ↦ ?_
      have hrun := h args hargs hnul
      have hform : formatString (.literal ch :: items) ++ ['\x00'] =
          ch :: (formatString items ++ ['\x00']) := rfl
      rw [hform, loop_literal hch hzero rfl] at hrun
      exact hrun
    | percent =>
      obtain ⟨⟨k, items', rfl⟩, hpercents⟩ := hpercents
      refine ih hwf hpercents hbase fun args hargs hnul ↦ ?_
      cases hargs with
      | @cons _ a _ args ha hargs =>
        have ha' : a ≠ .char '\x00' := fun heq ↦ hnul (heq ▸ List.mem_cons_self)
        have hrun := h (a :: args) (.cons ha hargs) hnul
        rw [loop_percent k rfl] at hrun
        rw [loop_eq_retry ha ha' rfl]
        exact hrun
    | conv k =>
      have hp : k ≠ .p := by
        rintro rfl
        exact first_ne_pointer h (by decide) rfl
      have hk : k ≠ .c → (p.is64Bit = true → k.isLong = true) ∧ (hex = true → k.isHex = true) := by
        intro hc
        refine ⟨first_isLong h hc, fun hhex ↦ ?_⟩
        apply first_isHex h hc
        rw [hbase, hhex, if_pos rfl]
      refine ⟨hp, hk, ?_⟩
      have hnext : UndoesFrom (p.advance k (k.number 0) []) items := by
        intro args hargs hnul
        have hrun := h (k.number 0 :: args) (.cons (fits_number k 0) hargs) (by
          rw [List.mem_cons, not_or]
          exact ⟨(number_ne_nul k 0).symm, hnul⟩)
        rw [loop_eq_retry (fits_number k 0) (number_ne_nul k 0) rfl, retry_advance
          { p with buffer := print (.conv k :: items) (k.number 0 :: args) ++ ['\x00'] }
          hwf (fits_number k 0) hp hk hbase rfl] at hrun
        rw [advance_numArgs, advance_stores, List.append_assoc, Nat.add_assoc, Nat.add_comm 1]
        refine Eq.trans ?_ hrun
        congr 2
        unfold Parser.advance
        split_ifs <;> rfl
      have hsound := ih hwf.2 hpercents (advance_base k _ hbase) hnext
      rwa [advance_is64Bit] at hsound

theorem undoes_iff (hwf : WellFormed items)
    (hargs : List.Forall₂ Conv.Fits (convs items) args) :
    Undoes items args ↔
      deFormat (print items args) (formatString items) = some ((convs items).length, args) := by
  have hformat (len : ℕ) (hlen : (print items args).length < len) :
      format len (formatString items) args = some (print items args) :=
    vFormat_eq items hwf false hargs (by rwa [List.length_nil, Nat.zero_add])
  constructor
  · rintro ⟨N, h⟩
    obtain ⟨text, htext, hundo⟩ := h (max N ((print items args).length + 1)) (le_max_left ..)
    rw [hformat _ (by omega), Option.some_inj] at htext
    rwa [htext]
  · intro h
    exact ⟨(print items args).length + 1, fun len hlen ↦ ⟨_, hformat len (by omega), h⟩⟩

def Parser.start (buffer : List Char) : Parser where
  buffer := buffer
  numArgs := 0
  is64Bit := false
  isSigned := false
  base := 10
  stores := []

theorem deFormat_eq (buffer form : List Char) :
    deFormat buffer form =
      (deFormatLoop .loop (form ++ ['\x00']) (.start (buffer ++ ['\x00']))).map Parser.result :=
  rfl

/-- A format with each `%%` right before a conversion is undone, whatever the arguments are but for
terminators, exactly when it has no pointer and no number that is narrower or of a smaller base than
one before it. A terminator is read back only by a conversion right after `%%`. -/
theorem deFormat_undoes (items : List Item) (hwf : WellFormed items) :
    (Sound items → ∀ args, List.Forall₂ Conv.Fits (convs items) args →
      NulsGuarded false items args → Undoes items args) ∧
    (Percents items → (∀ args, List.Forall₂ Conv.Fits (convs items) args → .char '\x00' ∉ args →
      Undoes items args) → Sound items) ∧
    (Percents items → ∀ args, List.Forall₂ Conv.Fits (convs items) args → Undoes items args →
      NulsGuarded false items args) := by
  refine ⟨fun hsound args hargs hnul ↦ ?_, fun hpercents h ↦ ?_, fun hpercents args hargs h ↦ ?_⟩
  · rw [undoes_iff hwf hargs, deFormat_eq, ← resume_false]
    have hfrom := soundFrom_false.2 ⟨hsound.noPointer, hsound.carried⟩
    have hbase : (Parser.start (print items args ++ ['\x00'])).base = if false then 16 else 10 := rfl
    have hloop := loop_sound (follows_false items) hwf hsound.percents hargs hnul hbase hfrom rfl
    rw [hloop]
    simp [Parser.start]
  · have hundoes : UndoesFrom (.start []) items := by
      intro args hargs hnul
      have hrun := (undoes_iff hwf hargs).1 (h args hargs hnul)
      rw [deFormat_eq] at hrun
      refine hrun.trans ?_
      simp [Parser.start]
    have hfrom : SoundFrom false false (convs items) :=
      soundFrom_of_undoesFrom hwf hpercents (show 10 = if false then 16 else 10 from rfl) hundoes
    rw [soundFrom_false] at hfrom
    exact ⟨hpercents, hfrom.1, hfrom.2⟩
  · rw [undoes_iff hwf hargs, deFormat_eq, ← resume_false] at h
    obtain ⟨p', hloop, hresult⟩ := Option.map_eq_some_iff.1 h
    obtain ⟨new, hnew, hguarded⟩ := stores_guarded (follows_false items) hwf hpercents hloop
    have hstores : p'.stores = args := congrArg Prod.snd hresult
    have hargs : new = args := by rw [← hstores, hnew]; rfl
    exact hargs ▸ hguarded

end Undoing

/-- A decimal number before a hexadecimal one, and a terminator that is read back. -/
def decimalThenHex : List Item :=
  [.conv .d, .literal ' ', .percent, .conv .c, .percent, .conv .x, .literal '!']

theorem deFormat_undoes_decimalThenHex :
    WellFormed decimalThenHex ∧ Sound decimalThenHex ∧
      Undoes decimalThenHex [.word (-12), .char '\x00', .word 255] := by
  have hwf : WellFormed decimalThenHex := by
    simp [decimalThenHex, WellFormed]
    decide
  have hsound : Sound decimalThenHex := by
    refine ⟨?_, by decide, ?_⟩
    · simp [decimalThenHex, Percents]
    · simp [decimalThenHex, convs, Conv.isLong, Conv.isHex]
  refine ⟨hwf, hsound, (deFormat_undoes decimalThenHex hwf).1 hsound _ ?_ ?_⟩
  · exact .cons trivial (.cons trivial (.cons trivial .nil))
  · simp [decimalThenHex, NulsGuarded]

def hexThenDecimal : List Item :=
  [.conv .x, .literal ' ', .conv .d, .literal '!']

/-- The text is `c 10!`, and the second number is read as `0x10`. -/
theorem hexThenDecimal_not_undone :
    WellFormed hexThenDecimal ∧
      List.Forall₂ Conv.Fits (convs hexThenDecimal) [.word 12, .word 10] ∧
      ¬Undoes hexThenDecimal [.word 12, .word 10] := by
  have hwf : WellFormed hexThenDecimal := by
    simp [hexThenDecimal, WellFormed]
    decide
  have hargs : List.Forall₂ Conv.Fits (convs hexThenDecimal) [.word 12, .word 10] :=
    .cons trivial (.cons trivial .nil)
  refine ⟨hwf, hargs, ?_⟩
  rw [undoes_iff hwf hargs]
  decide +kernel

end Granary.Base.Format
