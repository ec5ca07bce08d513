import Granary.Base.Bytes
import Granary.Base.Format.Canonical
import Mathlib.Data.List.TakeWhile

namespace Granary.Base.Format

open Function Granary.Base.Bytes

def cString (text : List Char) : List Char :=
  text.takeWhile (· ≠ '\x00')

theorem nul_notMem_cString (text : List Char) : '\x00' ∉ cString text := by
  intro h
  simpa using List.mem_takeWhile_imp h

theorem cString_load {mem : ℕ → Char} {text : List Char} {n : ℕ} (htext : load mem 0 text.length = text)
    (hend : mem text.length = '\x00') (hlen : text.length < n) (hnul : '\x00' ∉ text) :
    cString (load mem 0 n) = text := by
  obtain ⟨k, rfl⟩ := Nat.exists_eq_add_of_lt hlen
  have hall : ∀ c ∈ text, decide (c ≠ '\x00') = true := by
    intro c hc
    exact decide_eq_true fun h ↦ hnul (h ▸ hc)
  rw [Nat.add_assoc, load_add, htext, Nat.zero_add, Nat.add_comm k 1, load_add, cString,
    List.takeWhile_append_of_pos hall]
  simp [load, hend]

structure WriteBuffer where
  mem : ℕ → Char
  buffer : ℕ
  bufferBegin : ℕ
  bufferEnd : ℕ
  bufferEndLogical : ℕ

namespace WriteBuffer

def init (mem : ℕ → Char) (buffer len : ℕ) : WriteBuffer where
  mem := mem
  buffer := buffer
  bufferBegin := buffer
  bufferEnd := buffer + len
  bufferEndLogical := if len > 0 then buffer + len - 1 else buffer + len

variable (b : WriteBuffer)

def canWrite : Bool :=
  b.buffer < b.bufferEndLogical

def write (ch : Char) : WriteBuffer :=
  if b.canWrite then { b with mem := update b.mem b.buffer ch, buffer := b.buffer + 1 } else b

def writeString (str : List Char) : WriteBuffer :=
  (cString str).foldl write b

def numCharsWritten : ℕ :=
  b.buffer - b.bufferBegin

def finalize : WriteBuffer :=
  if b.bufferEndLogical < b.bufferEnd then
    { b with mem := update (update b.mem b.bufferEndLogical '\x00') b.buffer '\x00' }
  else b

def formatGenericInt (data : BitVec 64) (base : ℕ) : WriteBuffer :=
  (Format.formatGenericInt data.toNat base).foldl write b

def formatInt (genericInt : BitVec 64) : WriteBuffer :=
  if genericInt.msb then (b.write '-').formatGenericInt (-genericInt) 10
  else b.formatGenericInt genericInt 10

end WriteBuffer

inductive VaArg where
  | char (c : Char)
  | string (str : List Char)
  | word (v : BitVec 32)
  | long (v : BitVec 64)
  deriving DecidableEq, Repr

def vaChar : List VaArg → Option (Char × List VaArg)
  | .char c :: args => some (c, args)
  | _ => none

def vaString : List VaArg → Option (List Char × List VaArg)
  | .string str :: args => some (str, args)
  | _ => none

/-- `va_arg` of a signed type. -/
def vaInt : (isLong : Bool) → List VaArg → Option (BitVec 64 × List VaArg)
  | true, .long v :: args => some (v, args)
  | false, .word v :: args => some (v.signExtend 64, args)
  | _, _ => none

/-- `va_arg` of an unsigned type. -/
def vaUint : (isLong : Bool) → List VaArg → Option (BitVec 64 × List VaArg)
  | true, .long v :: args => some (v, args)
  | false, .word v :: args => some (v.setWidth 64, args)
  | _, _ => none

/-- The loop over the format. Running out of arguments, or taking one as another type, is
undefined. -/
def vFormatLoop : FormatState → (isLong : Bool) → (base : ℕ) → List Char → List VaArg →
    WriteBuffer → Option WriteBuffer
  | _, _, _, [], _, buff => some buff
  | .continue, isLong, base, ch :: format, args, buff =>
    if ch = '%' then vFormatLoop .seenFormatSpec false 10 format args buff
    else vFormatLoop .continue isLong base format args (buff.write ch)
  | .seenFormatSpec, isLong, base, ch :: format, args, buff =>
    if ch = '%' then vFormatLoop .continue isLong base format args (buff.write ch)
    else if ch = 'c' then
      (vaChar args).bind fun (c, args) ↦
        vFormatLoop .continue isLong base format args (buff.write c)
    else if ch = 's' then
      (vaString args).bind fun (str, args) ↦
        vFormatLoop .continue isLong base format args (buff.writeString str)
    else if ch = 'l' then vFormatLoop .seenFormatSpec true base format args buff
    else if ch = 'd' then
      (vaInt isLong args).bind fun (genericInt, args) ↦
        vFormatLoop .continue isLong base format args (buff.formatInt genericInt)
    else if ch = 'u' then
      (vaUint isLong args).bind fun (genericUint, args) ↦
        vFormatLoop .continue isLong base format args (buff.formatGenericInt genericUint base)
    else if ch = 'x' then
      (vaUint isLong args).bind fun (genericUint, args) ↦
        vFormatLoop .continue isLong 16 format args (buff.formatGenericInt genericUint 16)
    else if ch = 'p' then
      (vaUint true args).bind fun (genericUint, args) ↦
        vFormatLoop .continue true 16 format args
          ((buff.writeString ['0', 'x']).formatGenericInt genericUint 16)
    else vFormatLoop .continue isLong base format args (buff.write ch)

/-- The number that is returned, and the memory after the buffer was finalized. -/
def vFormatInto (mem : ℕ → Char) (buffer len : ℕ) (format : List Char) (args : List VaArg) :
    Option (ℕ × (ℕ → Char)) :=
  if buffer = 0 ∨ len = 0 then some (0, mem)
  else
    (vFormatLoop .continue false 10 (cString format) args (.init mem buffer len)).map fun buff ↦
      (buff.numCharsWritten, buff.finalize.mem)

inductive Kind where
  | char | string | word | long
  deriving DecidableEq, Repr

def VaArg.kind : VaArg → Kind
  | char _ => .char
  | string _ => .string
  | word _ => .word
  | long _ => .long

def conversionKind (isLong : Bool) (ch : Char) : Option Kind :=
  if ch = 'c' then some .char
  else if ch = 's' then some .string
  else if ch = 'd' ∨ ch = 'u' ∨ ch = 'x' then some (if isLong then .long else .word)
  else if ch = 'p' then some .long
  else none

def kindsFrom : FormatState → (isLong : Bool) → List Char → List Kind
  | _, _, [] => []
  | .continue, _, ch :: format =>
    if ch = '%' then kindsFrom .seenFormatSpec false format else kindsFrom .continue false format
  | .seenFormatSpec, isLong, ch :: format =>
    if ch = 'l' then kindsFrom .seenFormatSpec true format
    else (conversionKind isLong ch).toList ++ kindsFrom .continue false format

def Supplies (format : List Char) (args : List VaArg) : Prop :=
  kindsFrom .continue false (cString format) <+: args.map VaArg.kind

instance (format : List Char) (args : List VaArg) : Decidable (Supplies format args) :=
  inferInstanceAs (Decidable (_ <+: _))

/-- What a conversion prints, and the arguments after it. A number is printed as its canonical
representation. -/
def printConversion (isLong : Bool) (ch : Char) (args : List VaArg) :
    Option (List Char × List VaArg) :=
  if ch = 'c' then (vaChar args).map fun (c, args) ↦ ([c], args)
  else if ch = 's' then (vaString args).map fun (str, args) ↦ (cString str, args)
  else if ch = 'd' then (vaInt isLong args).map fun (v, args) ↦ ((toString v.toInt).toList, args)
  else if ch = 'u' then (vaUint isLong args).map fun (v, args) ↦ (Nat.toDigits 10 v.toNat, args)
  else if ch = 'x' then (vaUint isLong args).map fun (v, args) ↦ (Nat.toDigits 16 v.toNat, args)
  else if ch = 'p' then
    (vaUint true args).map fun (v, args) ↦ ('0' :: 'x' :: Nat.toDigits 16 v.toNat, args)
  else some ([ch], args)

def printFrom : FormatState → (isLong : Bool) → List Char → List VaArg → Option (List Char)
  | _, _, [], _ => some []
  | .continue, _, ch :: format, args =>
    if ch = '%' then printFrom .seenFormatSpec false format args
    else (printFrom .continue false format args).map (ch :: ·)
  | .seenFormatSpec, isLong, ch :: format, args =>
    if ch = 'l' then printFrom .seenFormatSpec true format args
    else (printConversion isLong ch args).bind fun (text, args) ↦
      (printFrom .continue false format args).map (text ++ ·)

/-- The text that a format stands for, whatever the buffer is. -/
def printed (format : List Char) (args : List VaArg) : Option (List Char) :=
  printFrom .continue false (cString format) args

section Write

variable {b : WriteBuffer} {isLong : Bool} {ch : Char} {form : List Char} {args : List VaArg}

theorem foldl_write (text : List Char) (h : b.buffer ≤ b.bufferEndLogical) :
    text.foldl WriteBuffer.write b =
      { b with
        mem := store b.mem b.buffer (text.take (b.bufferEndLogical - b.buffer))
        buffer := b.buffer + (text.take (b.bufferEndLogical - b.buffer)).length } := by
  induction text generalizing b with
  | nil => simp
  | cons ch text ih =>
    rw [List.foldl_cons]
    by_cases hroom : b.buffer < b.bufferEndLogical
    · have hwrite : b.write ch =
          { b with mem := update b.mem b.buffer ch, buffer := b.buffer + 1 } := by
        simp [WriteBuffer.write, WriteBuffer.canWrite, hroom]
      have hone : b.bufferEndLogical - b.buffer = b.bufferEndLogical - (b.buffer + 1) + 1 := by omega
      rw [hwrite, ih (by exact hroom), hone, List.take_succ_cons, store_cons, List.length_cons]
      simp only [WriteBuffer.mk.injEq, and_true, true_and]
      omega
    · have hwrite : b.write ch = b := by
        simp [WriteBuffer.write, WriteBuffer.canWrite, hroom]
      have hfull : b.bufferEndLogical - b.buffer = 0 := by omega
      rw [hwrite, ih h, hfull, List.take_zero, List.take_zero]

theorem formatGenericInt_eq_foldl (b : WriteBuffer) {base : ℕ} (hbase : IsBase base)
    (v : BitVec 64) :
    b.formatGenericInt v base = (Nat.toDigits base v.toNat).foldl WriteBuffer.write b := by
  rw [WriteBuffer.formatGenericInt, formatGenericInt_eq_toDigits hbase v.isLt]

theorem formatInt_eq_foldl (b : WriteBuffer) (v : BitVec 64) :
    b.formatInt v = (toString v.toInt).toList.foldl WriteBuffer.write b := by
  rw [← formatSigned_eq_toString, WriteBuffer.formatInt, formatSigned]
  split_ifs <;> rfl

theorem vFormatLoop_conversion {rest : List VaArg → WriteBuffer → Option WriteBuffer}
    (hrest : ∀ isLong base args b, vFormatLoop .continue isLong base form args b = rest args b)
    (hch : ch ≠ 'l') :
    vFormatLoop .seenFormatSpec isLong 10 (ch :: form) args b =
      (printConversion isLong ch args).bind fun (text, args) ↦
        rest args (text.foldl WriteBuffer.write b) := by
  have hdecimal : IsBase 10 := Or.inl rfl
  have hhex : IsBase 16 := Or.inr rfl
  unfold printConversion
  rw [vFormatLoop]
  simp only [hrest, hch, if_false]
  by_cases hpercent : ch = '%'
  · subst hpercent
    rfl
  by_cases hc : ch = 'c'
  · subst hc
    simp only [if_true]
    cases vaChar args <;> rfl
  by_cases hs : ch = 's'
  · subst hs
    simp only [if_true]
    cases vaString args <;> rfl
  by_cases hd : ch = 'd'
  · subst hd
    simp only [if_true, formatInt_eq_foldl]
    cases vaInt isLong args <;> rfl
  by_cases hu : ch = 'u'
  · subst hu
    simp only [if_true, formatGenericInt_eq_foldl _ hdecimal]
    cases vaUint isLong args <;> rfl
  by_cases hx : ch = 'x'
  · subst hx
    simp only [if_true, formatGenericInt_eq_foldl _ hhex]
    cases vaUint isLong args <;> rfl
  by_cases hp : ch = 'p'
  · subst hp
    simp only [if_true, formatGenericInt_eq_foldl _ hhex]
    cases vaUint true args <;> rfl
  · simp only [hpercent, hc, hs, hd, hu, hx, hp, if_false]
    rfl

theorem vFormatLoop_eq (form : List Char) :
    (∀ isLong base args b, vFormatLoop .continue isLong base form args b =
      (printFrom .continue false form args).map (·.foldl WriteBuffer.write b)) ∧
    ∀ isLong args b, vFormatLoop .seenFormatSpec isLong 10 form args b =
      (printFrom .seenFormatSpec isLong form args).map (·.foldl WriteBuffer.write b) := by
  induction form with
  | nil => exact ⟨fun _ _ _ _ ↦ rfl, fun _ _ _ ↦ rfl⟩
  | cons ch form ih =>
    obtain ⟨hcontinue, hseen⟩ := ih
    constructor
    · intro isLong base args b
      rw [vFormatLoop, printFrom]
      split_ifs with hpercent
      · exact hseen false args b
      · rw [hcontinue, Option.map_map]
        rfl
    · intro isLong args b
      rw [printFrom]
      split_ifs with hl
      · rw [hl, vFormatLoop]
        exact hseen true args b
      · rw [vFormatLoop_conversion (fun isLong base ↦ hcontinue isLong base) hl, Option.map_bind]
        congr 1
        ext1 ⟨text, args⟩
        simp only [Function.comp_apply, Option.map_map]
        congr 1
        ext1 rest
        exact (List.foldl_append ..).symm

end Write

section Supply

variable {isLong : Bool} {ch : Char} {k : Kind} {ks : List Kind} {args : List VaArg}

theorem exists_cons_of_prefix (h : k :: ks <+: args.map VaArg.kind) :
    ∃ arg rest, args = arg :: rest ∧ arg.kind = k ∧ ks <+: rest.map VaArg.kind := by
  cases args with
  | nil => simp at h
  | cons arg rest =>
    rw [List.map_cons, List.cons_prefix_cons] at h
    exact ⟨arg, rest, rfl, h.1.symm, h.2⟩

theorem vaInt_of_prefix
    (h : (if isLong then Kind.long else Kind.word) :: ks <+: args.map VaArg.kind) :
    ∃ v rest, vaInt isLong args = some (v, rest) ∧ ks <+: rest.map VaArg.kind := by
  obtain ⟨arg, rest, rfl, hkind, hrest⟩ := exists_cons_of_prefix h
  cases isLong <;> cases arg <;> cases hkind
  · exact ⟨_, rest, rfl, hrest⟩
  · exact ⟨_, rest, rfl, hrest⟩

theorem vaUint_of_prefix
    (h : (if isLong then Kind.long else Kind.word) :: ks <+: args.map VaArg.kind) :
    ∃ v rest, vaUint isLong args = some (v, rest) ∧ ks <+: rest.map VaArg.kind := by
  obtain ⟨arg, rest, rfl, hkind, hrest⟩ := exists_cons_of_prefix h
  cases isLong <;> cases arg <;> cases hkind
  · exact ⟨_, rest, rfl, hrest⟩
  · exact ⟨_, rest, rfl, hrest⟩

theorem printConversion_of_prefix
    (h : (conversionKind isLong ch).toList ++ ks <+: args.map VaArg.kind) :
    ∃ text rest, printConversion isLong ch args = some (text, rest) ∧
      ks <+: rest.map VaArg.kind := by
  unfold printConversion
  unfold conversionKind at h
  by_cases hc : ch = 'c'
  · simp only [hc, if_true] at h ⊢
    obtain ⟨arg, rest, rfl, hkind, hrest⟩ := exists_cons_of_prefix h
    cases arg <;> cases hkind
    exact ⟨_, rest, rfl, hrest⟩
  by_cases hs : ch = 's'
  · subst hs
    simp only [hc, if_true, if_false] at h ⊢
    obtain ⟨arg, rest, rfl, hkind, hrest⟩ := exists_cons_of_prefix h
    cases arg <;> cases hkind
    exact ⟨_, rest, rfl, hrest⟩
  by_cases hd : ch = 'd'
  · simp only [hd, true_or, if_true] at h ⊢
    obtain ⟨v, rest, hv, hrest⟩ := vaInt_of_prefix h
    exact ⟨_, rest, by rw [hv]; rfl, hrest⟩
  by_cases hu : ch = 'u'
  · simp only [hu, true_or, or_true, if_true] at h ⊢
    obtain ⟨v, rest, hv, hrest⟩ := vaUint_of_prefix h
    exact ⟨_, rest, by rw [hv]; rfl, hrest⟩
  by_cases hx : ch = 'x'
  · simp only [hx, or_true, if_true] at h ⊢
    obtain ⟨v, rest, hv, hrest⟩ := vaUint_of_prefix h
    exact ⟨_, rest, by rw [hv]; rfl, hrest⟩
  by_cases hp : ch = 'p'
  · simp only [hp, if_true] at h ⊢
    obtain ⟨v, rest, hv, hrest⟩ : ∃ v rest, vaUint true args = some (v, rest) ∧ _ :=
      vaUint_of_prefix h
    exact ⟨_, rest, by rw [hv]; rfl, hrest⟩
  · simp only [hc, hs, hd, hu, hx, hp, or_false, if_false] at h ⊢
    exact ⟨_, args, rfl, h⟩

theorem printFrom_of_prefix (form : List Char) {state : FormatState}
    (h : kindsFrom state isLong form <+: args.map VaArg.kind) :
    ∃ text, printFrom state isLong form args = some text := by
  induction form generalizing state isLong args with
  | nil => exact ⟨[], by rw [printFrom]⟩
  | cons ch form ih =>
    cases state with
    | «continue» =>
      rw [kindsFrom] at h
      rw [printFrom]
      split_ifs at h ⊢ with hpercent
      · exact ih h
      · obtain ⟨text, htext⟩ := ih h
        exact ⟨ch :: text, by rw [htext]; rfl⟩
    | seenFormatSpec =>
      rw [kindsFrom] at h
      rw [printFrom]
      split_ifs at h ⊢ with hl
      · exact ih h
      · obtain ⟨text, rest, hconv, hrest⟩ := printConversion_of_prefix h
        obtain ⟨more, hmore⟩ := ih hrest
        refine ⟨text ++ more, ?_⟩
        rw [hconv, Option.bind_some]
        dsimp only
        rw [hmore]
        rfl

theorem printed_of_supplies {form : List Char} (h : Supplies form args) :
    ∃ text, printed form args = some text :=
  printFrom_of_prefix _ h

end Supply

/-- The memory after `text` and the terminators went to a buffer of `len` characters. -/
structure Written (mem mem' : ℕ → Char) (buffer len : ℕ) (text : List Char) : Prop where
  fits : text.length < len
  chars : load mem' buffer text.length = text
  terminated : mem' (buffer + text.length) = '\x00'
  last : mem' (buffer + len - 1) = '\x00'
  between : ∀ a, buffer + text.length < a → a < buffer + len - 1 → mem' a = mem a
  frame : ∀ a, a < buffer ∨ buffer + len ≤ a → mem' a = mem a

section Whole

variable {mem : ℕ → Char} {buffer len : ℕ} {form : List Char} {args : List VaArg}

def finished (mem : ℕ → Char) (buffer len : ℕ) (text : List Char) : ℕ → Char :=
  update (update (store mem buffer text) (buffer + len - 1) '\x00') (buffer + text.length) '\x00'

theorem written_finished {text : List Char} (hfits : text.length < len) :
    Written mem (finished mem buffer len text) buffer len text := by
  refine ⟨hfits, ?_, ?_, ?_, fun a hlt hend ↦ ?_, fun a ha ↦ ?_⟩
  · have hsame : load (finished mem buffer len text) buffer text.length =
        load (store mem buffer text) buffer text.length := by
      apply load_congr
      intro i hle hlt
      rw [finished, update_of_ne (by omega), update_of_ne (by omega)]
    rw [hsame, load_store]
  · exact update_self ..
  · by_cases hlast : buffer + len - 1 = buffer + text.length
    · rw [finished, hlast, update_self]
    · rw [finished, update_of_ne hlast, update_self]
  · rw [finished, update_of_ne (by omega), update_of_ne (by omega), store_of_ge hlt.le]
  · rw [finished, update_of_ne (by omega), update_of_ne (by omega)]
    rcases ha with ha | ha
    · exact store_of_lt ha
    · exact store_of_ge (by omega)

theorem init_eq (hlen : 0 < len) : WriteBuffer.init mem buffer len =
    ⟨mem, buffer, buffer, buffer + len, buffer + len - 1⟩ := by
  rw [WriteBuffer.init, if_pos hlen]

theorem vFormatInto_eq (hbuffer : buffer ≠ 0) (hlen : 0 < len) :
    vFormatInto mem buffer len form args = (printed form args).map fun text ↦
      ((text.take (len - 1)).length, finished mem buffer len (text.take (len - 1))) := by
  have hsize : buffer + len - 1 - buffer = len - 1 := by omega
  have hlast : buffer + len - 1 < buffer + len := by omega
  rw [vFormatInto, if_neg (by omega), (vFormatLoop_eq _).1, Option.map_map, init_eq hlen]
  congr 1
  ext1 text
  rw [Function.comp_apply, foldl_write text (by dsimp only; omega)]
  simp [WriteBuffer.numCharsWritten, WriteBuffer.finalize, hsize, hlast, finished]

/-- A number is printed as its canonical representation, and no product of the running power of the
base overflows. `VFormat` writes what of the text there is room for, and returns the number of its
characters. -/
theorem vFormat_exact :
    (∀ (b : WriteBuffer) (base : ℕ) (v : BitVec 64), IsBase base →
      b.formatGenericInt v base = (Nat.toDigits base v.toNat).foldl WriteBuffer.write b ∧
      b.formatInt v = (toString v.toInt).toList.foldl WriteBuffer.write b ∧
      (∀ product ∈ growBaseProducts (peeled v.toNat base) base 64 base, product < 2 ^ 64) ∧
      peeled v.toNat base < growBase (peeled v.toNat base) base 64 base) ∧
    ∀ (mem : ℕ → Char) (buffer len : ℕ) (form : List Char) (args : List VaArg),
      buffer ≠ 0 → Supplies form args →
      ∃ text ret mem', printed form args = some text ∧
        vFormatInto mem buffer len form args = some (ret, mem') ∧
        (len = 0 → ret = 0 ∧ mem' = mem) ∧
        (0 < len → ret = (text.take (len - 1)).length ∧
          Written mem mem' buffer len (text.take (len - 1))) := by
  constructor
  · intro b base v hbase
    have hmul := peeled_mul_lt hbase v.isLt
    refine ⟨formatGenericInt_eq_foldl b hbase v, formatInt_eq_foldl b v, ?_, ?_⟩
    · have hproducts : ∀ product ∈ growBaseProducts (peeled v.toNat base) base 64 (base ^ (0 + 1)),
          product < 2 ^ 64 := growBaseProducts_lt hmul
      rwa [zero_add, pow_one] at hproducts
    · exact peeled_lt_growBase hbase v.isLt
  · intro mem buffer len form args hbuffer hsupplies
    obtain ⟨text, htext⟩ := printed_of_supplies hsupplies
    by_cases hlen : len = 0
    · refine ⟨text, 0, mem, htext, ?_, fun _ ↦ ⟨rfl, rfl⟩, fun hpos ↦ absurd hlen hpos.ne'⟩
      rw [vFormatInto, if_pos (Or.inr hlen)]
    · have hpos : 0 < len := Nat.pos_of_ne_zero hlen
      refine ⟨text, (text.take (len - 1)).length, finished mem buffer len (text.take (len - 1)),
        htext, ?_, fun h ↦ absurd h hlen, fun _ ↦ ⟨rfl, ?_⟩⟩
      · rw [vFormatInto_eq hbuffer hpos, htext]
        rfl
      · apply written_finished
        rw [List.length_take]
        omega

end Whole

/-- The least number, in a buffer of eight characters. -/
theorem vFormat_exact_minimum :
    IsBase 10 ∧ Supplies ['%', 'l', 'd'] [.long (BitVec.intMin 64)] ∧
      ∃ mem', vFormatInto (fun _ ↦ 'x') 16 8 ['%', 'l', 'd'] [.long (BitVec.intMin 64)] =
          some (7, mem') ∧
        Written (fun _ ↦ 'x') mem' 16 8 ['-', '9', '2', '2', '3', '3', '7'] := by
  have hsupplies : Supplies ['%', 'l', 'd'] [.long (BitVec.intMin 64)] := by decide
  have hprinted : printed ['%', 'l', 'd'] [.long (BitVec.intMin 64)] =
      some "-9223372036854775808".toList := by decide +kernel
  refine ⟨Or.inl rfl, hsupplies, ?_⟩
  obtain ⟨text, ret, mem', htext, hrun, -, hwritten⟩ :=
    vFormat_exact.2 (fun _ ↦ 'x') 16 8 _ _ (by decide) hsupplies
  obtain ⟨hret, hmem⟩ := hwritten (by decide)
  rw [hprinted] at htext
  obtain rfl := Option.some_inj.1 htext
  refine ⟨mem', ?_, hmem⟩
  rw [hrun, hret]
  rfl

/-- In a buffer with no room even for the terminator nothing is written, and in one with room to
spare two terminators are. -/
theorem vFormat_without_room :
    (¬∃ ret mem', vFormatInto (fun _ ↦ 'x') 16 0 ['a'] [] = some (ret, mem') ∧
      (ret < 0 ∨ mem' (16 + ret) = '\x00')) ∧
    ∃ mem', vFormatInto (fun _ ↦ 'x') 16 4 ['a'] [] = some (1, mem') ∧
      mem' 17 = '\x00' ∧ mem' 18 = 'x' ∧ mem' 19 = '\x00' := by
  constructor
  · intro ⟨ret, mem', hrun, h⟩
    have hnothing : vFormatInto (fun _ ↦ 'x') 16 0 ['a'] [] = some (0, fun _ ↦ 'x') := rfl
    rw [hnothing, Option.some_inj, Prod.mk.injEq] at hrun
    obtain ⟨rfl, rfl⟩ := hrun
    rcases h with h | h
    · exact Nat.not_lt_zero 0 h
    · exact absurd h (by decide)
  · exact ⟨_, rfl, rfl, rfl, rfl⟩

section Text

variable {len : ℕ} {isLong : Bool} {ch : Char} {form out : List Char}

def Arg.toVaArg : Arg → VaArg
  | char c => .char c
  | word v => .word v
  | long v => .long v

theorem write_append (out text more : List Char) :
    Format.write len (Format.write len out text) more = Format.write len out (text ++ more) :=
  (List.foldl_append ..).symm

theorem write_eq_take (out text : List Char) :
    Format.write len out text = out ++ text.take (len - 1 - out.length) := by
  induction text generalizing out with
  | nil => simp [Format.write]
  | cons ch text ih =>
    have hcons : Format.write len out (ch :: text) =
        Format.write len (if out.length + 1 < len then out ++ [ch] else out) text := rfl
    rw [hcons]
    split_ifs with hroom
    · have hone : len - 1 - out.length = len - 1 - (out.length + 1) + 1 := by omega
      rw [ih, List.length_append, List.length_singleton, hone, List.take_succ_cons,
        List.append_assoc, List.singleton_append]
    · have hfull : len - 1 - out.length = 0 := by omega
      rw [ih, hfull, List.take_zero, List.take_zero]

theorem vFormat_conversion (rest : List VaArg → List Char → Option (List Char))
    (hrest : ∀ isLong args out,
      vFormat len .continue isLong form args out = rest (args.map Arg.toVaArg) out)
    (hch : ch ≠ 'l') (args : List Arg) :
    vFormat len .seenFormatSpec isLong (ch :: form) args out =
      (printConversion isLong ch (args.map Arg.toVaArg)).bind fun (text, more) ↦
        rest more (Format.write len out text) := by
  have hdecimal : IsBase 10 := Or.inl rfl
  have hhex : IsBase 16 := Or.inr rfl
  have hword (v : BitVec 32) : v.toNat < 2 ^ 64 := v.isLt.trans (by decide)
  have hwide (v : BitVec 32) : (v.setWidth 64).toNat = v.toNat := by
    rw [BitVec.toNat_setWidth, Nat.mod_eq_of_lt (hword v)]
  unfold printConversion
  by_cases hc : ch = 'c'
  · subst hc
    rcases args with _ | ⟨_ | _ | _, args⟩
    · rfl
    · exact hrest ..
    · rfl
    · rfl
  by_cases hs : ch = 's'
  · subst hs
    rcases args with _ | ⟨_ | _ | _, args⟩ <;> rfl
  by_cases hd : ch = 'd'
  · subst hd
    rcases args with _ | ⟨_ | v | v, args⟩ <;> cases isLong <;> try rfl
    · rw [vFormat, hrest, formatSigned_eq_toString]
      rfl
    · rw [vFormat, hrest, formatSigned_eq_toString]
      rfl
  by_cases hu : ch = 'u'
  · subst hu
    rcases args with _ | ⟨_ | v | v, args⟩ <;> cases isLong <;> try rfl
    · rw [vFormat, hrest, formatGenericInt_eq_toDigits hdecimal (hword v)]
      simp [vaUint, Arg.toVaArg, hwide]
    · rw [vFormat, hrest, formatGenericInt_eq_toDigits hdecimal v.isLt]
      rfl
  by_cases hx : ch = 'x'
  · subst hx
    rcases args with _ | ⟨_ | v | v, args⟩ <;> cases isLong <;> try rfl
    · rw [vFormat, hrest, formatGenericInt_eq_toDigits hhex (hword v)]
      simp [vaUint, Arg.toVaArg, hwide]
    · rw [vFormat, hrest, formatGenericInt_eq_toDigits hhex v.isLt]
      rfl
  by_cases hp : ch = 'p'
  · subst hp
    rcases args with _ | ⟨_ | v | v, args⟩ <;> cases isLong <;> try rfl
    · rw [vFormat, hrest, formatGenericInt_eq_toDigits hhex v.isLt]
      rfl
    · rw [vFormat, hrest, formatGenericInt_eq_toDigits hhex v.isLt]
      rfl
  by_cases hpercent : ch = '%'
  · subst hpercent
    exact hrest ..
  · simp only [hc, hs, hd, hu, hx, hp, if_false, Option.bind_some]
    rw [vFormat]
    · exact hrest ..
    all_goals simp_all

theorem vFormat_eq_printFrom (form : List Char) :
    (∀ isLong (args : List Arg) out, vFormat len .continue isLong form args out =
      (printFrom .continue false form (args.map Arg.toVaArg)).map (Format.write len out)) ∧
    ∀ isLong (args : List Arg) out, vFormat len .seenFormatSpec isLong form args out =
      (printFrom .seenFormatSpec isLong form (args.map Arg.toVaArg)).map
        (Format.write len out) := by
  induction form with
  | nil => exact ⟨fun _ _ _ ↦ rfl, fun _ _ _ ↦ rfl⟩
  | cons ch form ih =>
    obtain ⟨hcontinue, hseen⟩ := ih
    constructor
    · intro isLong args out
      rw [vFormat, printFrom]
      split_ifs with hpercent
      · exact hseen false args out
      · rw [hcontinue, Option.map_map]
        rfl
    · intro isLong args out
      rw [printFrom]
      split_ifs with hl
      · rw [hl]
        exact hseen true args out
      · rw [vFormat_conversion (fun args out ↦
          (printFrom .continue false form args).map (Format.write len out)) hcontinue hl,
          Option.map_bind]
        congr 1
        ext1 ⟨text, more⟩
        simp only [Function.comp_apply, Option.map_map]
        congr 1
        ext1 rest
        exact write_append out text rest

theorem format_eq_printed (hnul : '\x00' ∉ form) (args : List Arg) :
    format len form args = (printed form (args.map Arg.toVaArg)).map (·.take (len - 1)) := by
  have hform : cString form = form := by
    rw [cString, List.takeWhile_eq_self_iff]
    intro ch hch
    rw [decide_eq_true_eq]
    intro hzero
    exact hnul (hzero ▸ hch)
  rw [format, (vFormat_eq_printFrom form).1, printed, hform]
  congr 1
  ext1 text
  rw [write_eq_take]
  rfl

end Text

end Granary.Base.Format
