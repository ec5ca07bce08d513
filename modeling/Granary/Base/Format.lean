import Mathlib.Data.List.Basic
import Mathlib.Tactic

namespace Granary.Base.Format

-- Batteries decides a statement about every character by trying them all.
instance (priority := high) decidableForallText (text : List Char) (p : Char → Prop)
    [DecidablePred p] : Decidable (∀ ch ∈ text, p ch) :=
  List.decidableBAll p text

/-- The value of an argument, or what a conversion stores through a pointer. -/
inductive Arg where
  | char (c : Char)
  | word (v : BitVec 32)
  | long (v : BitVec 64)
  deriving DecidableEq, Repr

/-- A buffer of `len` characters keeps room for the terminator. -/
def write (len : ℕ) (out text : List Char) : List Char :=
  text.foldl (fun out ch ↦ if out.length + 1 < len then out ++ [ch] else out) out

def formatDigit (digit : ℕ) : Char :=
  if digit < 10 then Char.ofNat (digit + '0'.toNat) else Char.ofNat (digit - 10 + 'a'.toNat)

/-- The first power of the base, from `maxBase` on, that is above the data. -/
def growBase (data base : ℕ) : ℕ → ℕ → ℕ
  | 0, maxBase => maxBase
  | fuel + 1, maxBase =>
    if data / maxBase ≠ 0 then growBase data base fuel (maxBase * base % 2 ^ 64) else maxBase

def formatDigits (base : ℕ) : ℕ → ℕ → ℕ → List Char
  | 0, _, _ => []
  | fuel + 1, maxBase, data =>
    if maxBase ≠ 0 then
      let digit := data / maxBase
      formatDigit digit :: formatDigits base fuel (maxBase / base) (data - digit * maxBase)
    else []

def formatGenericInt (data base : ℕ) : List Char :=
  if data = 0 then ['0']
  else
    let hasLastDigit := data ≥ base
    let lowDigit := data % base
    let data := if hasLastDigit then data / base else data
    let maxBase := growBase data base 64 base
    formatDigits base 65 (maxBase / base) data ++
      if hasLastDigit then [formatDigit lowDigit] else []

def formatSigned (v : BitVec 64) : List Char :=
  if v.msb then '-' :: formatGenericInt (-v).toNat 10 else formatGenericInt v.toNat 10

inductive FormatState where
  | continue
  | seenFormatSpec
  deriving DecidableEq, Repr

/-- Running out of arguments, or taking one as another type, is undefined. -/
def vFormat (len : ℕ) :
    FormatState → (isLong : Bool) → List Char → List Arg → List Char → Option (List Char)
  | _, _, [], _, out => some out
  | .continue, isLong, ch :: format, args, out =>
    if ch = '%' then vFormat len .seenFormatSpec false format args out
    else vFormat len .continue isLong format args (write len out [ch])
  | .seenFormatSpec, isLong, ch :: format, args, out =>
    match ch, isLong, args with
    | '%', _, args => vFormat len .continue isLong format args (write len out ['%'])
    | 'c', _, .char c :: args => vFormat len .continue isLong format args (write len out [c])
    | 'l', _, args => vFormat len .seenFormatSpec true format args out
    | 'd', true, .long v :: args =>
      vFormat len .continue isLong format args (write len out (formatSigned v))
    | 'd', false, .word v :: args =>
      vFormat len .continue isLong format args (write len out (formatSigned (v.signExtend 64)))
    | 'u', true, .long v :: args =>
      vFormat len .continue isLong format args (write len out (formatGenericInt v.toNat 10))
    | 'u', false, .word v :: args =>
      vFormat len .continue isLong format args (write len out (formatGenericInt v.toNat 10))
    | 'x', true, .long v :: args =>
      vFormat len .continue isLong format args (write len out (formatGenericInt v.toNat 16))
    | 'x', false, .word v :: args =>
      vFormat len .continue isLong format args (write len out (formatGenericInt v.toNat 16))
    | 'p', _, .long v :: args =>
      vFormat len .continue isLong format args
        (write len out ('0' :: 'x' :: formatGenericInt v.toNat 16))
    | 'c', _, _ | 'd', _, _ | 'u', _, _ | 'x', _, _ | 'p', _, _ | 's', _, _ => none
    | ch, _, args => vFormat len .continue isLong format args (write len out [ch])

def format (len : ℕ) (form : List Char) (args : List Arg) : Option (List Char) :=
  vFormat len .continue false form args []

def hexadecimalDigit (digit : Char) : Option ℕ :=
  if '0' ≤ digit ∧ digit ≤ '9' then some (digit.toNat - '0'.toNat)
  else if 'a' ≤ digit ∧ digit ≤ 'f' then some (digit.toNat - 'a'.toNat + 10)
  else if 'A' ≤ digit ∧ digit ≤ 'F' then some (digit.toNat - 'A'.toNat + 10)
  else none

def decimalDigit (digit : Char) : Option ℕ :=
  if '0' ≤ digit ∧ digit ≤ '9' then some (digit.toNat - '0'.toNat) else none

def getDigit (base : ℕ) (digit : Char) : Option ℕ :=
  if base = 16 then hexadecimalDigit digit else decimalDigit digit

def deFormatDigits (base : ℕ) : List Char → (value : BitVec 64) → (len : ℕ) →
    BitVec 64 × ℕ × List Char
  | [], value, len => (value, len, [])
  | ch :: buffer, value, len =>
    match getDigit base ch with
    | some digit =>
      deFormatDigits base buffer
        (value * BitVec.ofNat 64 (if base = 16 then 16 else 10) + BitVec.ofNat 64 digit) (len + 1)
    | none => (value, len, ch :: buffer)

def storeInt (value : BitVec 64) (is64Bit : Bool) : Arg :=
  if is64Bit then .long value else .word (value.setWidth 32)

/-- What is stored, the number of characters read, and the text after them. -/
def deFormatGenericInt (buffer : List Char) (is64Bit isSigned : Bool) (base : ℕ) :
    Arg × ℕ × List Char :=
  match isSigned, buffer with
  | true, '-' :: buffer =>
    let (value, len, buffer) := deFormatDigits base buffer 0 1
    (storeInt (-value) is64Bit, len, buffer)
  | _, buffer =>
    let (value, len, buffer) := deFormatDigits base buffer 0 0
    (storeInt value is64Bit, len, buffer)

structure Parser where
  buffer : List Char
  numArgs : ℕ
  is64Bit : Bool
  isSigned : Bool
  base : ℕ
  stores : List Arg
  deriving DecidableEq, Repr

def Parser.genericInt (p : Parser) : Bool × Parser :=
  let (arg, incrementalLen, buffer) := deFormatGenericInt p.buffer p.is64Bit p.isSigned p.base
  if incrementalLen ≠ 0 then
    (true, { p with buffer := buffer, numArgs := p.numArgs + 1, stores := p.stores ++ [arg] })
  else (false, { p with buffer := buffer, stores := p.stores ++ [arg] })

inductive Mode where
  | loop
  | retry
  deriving DecidableEq, Repr

/-- Both strings end in a terminator, and reading past it is undefined. -/
def deFormatLoop : Mode → List Char → Parser → Option Parser
  | .loop, [], p =>
    match p.buffer with
    | '\x00' :: _ => some p
    | _ => none
  | .retry, [], _ => none
  | .loop, ch :: format, p =>
    match p.buffer with
    | [] => none
    | b :: buffer =>
      if b = '\x00' ∨ ch = '\x00' then some p
      else if ch ≠ '%' then
        if ch ≠ b then some p else deFormatLoop .loop format { p with buffer := buffer }
      else
        match format with
        | '%' :: format' =>
          if b ≠ '%' then some p
          else
            -- falls through to the conversions
            match format' with
            | [] => none
            | _ :: format'' => deFormatLoop .retry format'' { p with buffer := buffer }
        | format => deFormatLoop .retry format p
  | .retry, ch :: format, p =>
    let genericInt (p : Parser) : Option Parser :=
      match p.genericInt with
      | (true, p) => deFormatLoop .loop format p
      | (false, p) => some p
    match ch with
    | 'c' =>
      match p.buffer with
      | [] => none
      | b :: buffer => deFormatLoop .loop format { p with
          buffer := buffer
          numArgs := p.numArgs + 1
          stores := p.stores ++ [.char b] }
    | 'd' => genericInt { p with isSigned := true }
    | 'X' | 'x' => genericInt { p with isSigned := false, base := 16 }
    | 'p' => genericInt { p with is64Bit := true, base := 16 }
    | 'u' => genericInt p
    | 'l' => deFormatLoop .retry format { p with is64Bit := true }
    | _ => deFormatLoop .loop format p

def deFormat (buffer form : List Char) : Option (ℕ × List Arg) :=
  (deFormatLoop .loop (form ++ ['\x00'])
    { buffer := buffer ++ ['\x00']
      numArgs := 0
      is64Bit := false
      isSigned := false
      base := 10
      stores := [] }).map fun p ↦ (p.numArgs, p.stores)

section Numbers

def readDigits (base n : ℕ) (text : List Char) : ℕ :=
  text.foldl (fun v ch ↦ v * base + (getDigit base ch).getD 0) n

structure Spells (base data : ℕ) (text : List Char) : Prop where
  ne_nil : text ≠ []
  digits : ∀ ch ∈ text, getDigit base ch ≠ none
  value : readDigits base 0 text = data

def IsBase (base : ℕ) : Prop :=
  base = 10 ∨ base = 16

variable {base : ℕ}

theorem getDigit_formatDigit (hbase : IsBase base) {d : ℕ} (hd : d < base) :
    getDigit base (formatDigit d) = some d := by
  obtain rfl | rfl := hbase
  · interval_cases d <;> rfl
  · interval_cases d <;> rfl

theorem readDigits_append (n : ℕ) (text text' : List Char) :
    readDigits base n (text ++ text') = readDigits base (readDigits base n text) text' :=
  List.foldl_append

theorem readDigits_formatDigit (hbase : IsBase base) (n : ℕ) {d : ℕ} (hd : d < base) :
    readDigits base n [formatDigit d] = n * base + d := by
  simp [readDigits, getDigit_formatDigit hbase hd]

theorem IsBase.one_lt (hbase : IsBase base) : 1 < base := by
  obtain rfl | rfl := hbase <;> decide

theorem IsBase.le (hbase : IsBase base) : base ≤ 16 := by
  obtain rfl | rfl := hbase <;> decide

theorem IsBase.pos (hbase : IsBase base) : 0 < base :=
  Nat.lt_trans Nat.zero_lt_one hbase.one_lt

theorem formatDigits_one (hbase : IsBase base) (fuel data : ℕ) :
    formatDigits base (fuel + 1) (base ^ 0) data = [formatDigit data] := by
  have hrest : formatDigits base fuel (1 / base) (data - data * 1) = [] := by
    rw [Nat.div_eq_of_lt hbase.one_lt]
    cases fuel <;> simp [formatDigits]
  simp [formatDigits, Nat.div_eq_of_lt hbase.one_lt] at hrest ⊢
  exact hrest

theorem formatDigits_succ (hbase : IsBase base) (k fuel data : ℕ) :
    formatDigits base (fuel + 1) (base ^ (k + 1)) data =
      formatDigit (data / base ^ (k + 1)) ::
        formatDigits base fuel (base ^ k) (data % base ^ (k + 1)) := by
  have hmod : data - data / base ^ (k + 1) * base ^ (k + 1) = data % base ^ (k + 1) := by
    rw [Nat.mod_def, Nat.mul_comm]
  have hdiv : base ^ (k + 1) / base = base ^ k := by
    rw [pow_succ, Nat.mul_div_cancel _ hbase.pos]
  rw [formatDigits, if_pos (Nat.pow_pos hbase.pos).ne']
  dsimp only
  rw [hmod, hdiv]

theorem div_pow_lt (hbase : IsBase base) {k data : ℕ} (hdata : data < base ^ (k + 2)) :
    data / base ^ (k + 1) < base := by
  rw [Nat.div_lt_iff_lt_mul (Nat.pow_pos hbase.pos), ← pow_succ']
  exact hdata

theorem formatDigits_spec (hbase : IsBase base) {k fuel data : ℕ} (hfuel : k < fuel)
    (hdata : data < base ^ (k + 1)) :
    formatDigits base fuel (base ^ k) data ≠ [] ∧
      (∀ ch ∈ formatDigits base fuel (base ^ k) data, getDigit base ch ≠ none) ∧
      ∀ n, readDigits base n (formatDigits base fuel (base ^ k) data) =
        n * base ^ (k + 1) + data := by
  induction k generalizing fuel data with
  | zero =>
    obtain ⟨fuel, rfl⟩ := Nat.exists_eq_succ_of_ne_zero (by omega : fuel ≠ 0)
    have hdigit : data < base := by simpa using hdata
    rw [formatDigits_one hbase]
    refine ⟨by simp, ?_, fun n ↦ ?_⟩
    · simp [getDigit_formatDigit hbase hdigit]
    · rw [readDigits_formatDigit hbase n hdigit, zero_add, pow_one]
  | succ k ih =>
    obtain ⟨fuel, rfl⟩ := Nat.exists_eq_succ_of_ne_zero (by omega : fuel ≠ 0)
    have hpow : 0 < base ^ (k + 1) := Nat.pow_pos hbase.pos
    have hdigit := div_pow_lt hbase hdata
    obtain ⟨-, hdigits, hread⟩ := ih (show k < fuel by omega) (Nat.mod_lt data hpow)
    rw [formatDigits_succ hbase]
    refine ⟨by simp, ?_, fun n ↦ ?_⟩
    · intro ch hch
      rcases List.mem_cons.1 hch with rfl | hch
      · simp [getDigit_formatDigit hbase hdigit]
      · exact hdigits ch hch
    · rw [← List.singleton_append, readDigits_append, readDigits_formatDigit hbase n hdigit, hread]
      have h := Nat.div_add_mod' data (base ^ (k + 1))
      rw [pow_succ base (k + 1), Nat.add_mul]
      calc n * base * base ^ (k + 1) + data / base ^ (k + 1) * base ^ (k + 1) +
            data % base ^ (k + 1) = n * base * base ^ (k + 1) + data := by omega
        _ = n * (base ^ (k + 1) * base) + data := by ring

theorem pow_mul_lt {data j : ℕ} (hdata : data * base < 2 ^ 64)
    (hdiv : data / base ^ (j + 1) ≠ 0) :
    base ^ (j + 1) ≤ data ∧ base ^ (j + 1) * base < 2 ^ 64 := by
  have hle : base ^ (j + 1) ≤ data := by
    by_contra hlt
    exact hdiv (Nat.div_eq_of_lt (by omega))
  have h := Nat.mul_le_mul_right base hle
  exact ⟨hle, by omega⟩

theorem growBase_spec (hbase : IsBase base) {data : ℕ} (hdata : data * base < 2 ^ 64)
    {j fuel : ℕ} (hfuel : data < base ^ (j + 1 + fuel)) (hleast : base ^ j ≤ data ∨ j = 0) :
    ∃ k ≤ j + fuel, growBase data base fuel (base ^ (j + 1)) = base ^ (k + 1) ∧
      data < base ^ (k + 1) ∧ (base ^ k ≤ data ∨ k = 0) := by
  induction fuel generalizing j with
  | zero => exact ⟨j, by omega, rfl, hfuel, hleast⟩
  | succ fuel ih =>
    rw [growBase]
    split_ifs with hdiv
    · obtain ⟨hle, hsmall⟩ := pow_mul_lt hdata hdiv
      rw [Nat.mod_eq_of_lt hsmall, ← pow_succ]
      obtain ⟨k, hk, hgrow, hlt, hleast'⟩ := ih (j := j + 1)
        (by rwa [show j + 1 + 1 + fuel = j + 1 + (fuel + 1) by omega]) (Or.inl hle)
      exact ⟨k, by omega, hgrow, hlt, hleast'⟩
    · have hzero : data / base ^ (j + 1) = 0 := not_not.1 hdiv
      refine ⟨j, by omega, rfl, ?_, hleast⟩
      exact (Nat.div_eq_zero_iff_lt (Nat.pow_pos hbase.pos)).1 hzero

/-- The data that the loops see, which is without its last digit if it has two. -/
def peeled (data base : ℕ) : ℕ :=
  if data ≥ base then data / base else data

theorem peeled_mul_lt (hbase : IsBase base) {data : ℕ} (hdata : data < 2 ^ 64) :
    peeled data base * base < 2 ^ 64 := by
  unfold peeled
  split_ifs with hlast
  · have h := Nat.div_mul_le_self data base
    omega
  · have h := hbase.le
    nlinarith

theorem peeled_le (data base : ℕ) : peeled data base ≤ data := by
  unfold peeled
  split_ifs
  · exact Nat.div_le_self data base
  · exact le_rfl

theorem peeled_lt_pow (hbase : IsBase base) {data : ℕ} (hdata : data < 2 ^ 64) :
    peeled data base < base ^ (0 + 1 + 64) :=
  calc peeled data base ≤ data := peeled_le data base
    _ < 2 ^ 64 := hdata
    _ ≤ base ^ 64 := Nat.pow_le_pow_left hbase.one_lt 64
    _ ≤ base ^ (0 + 1 + 64) := Nat.pow_le_pow_right hbase.pos (by omega)

theorem formatGenericInt_eq (hbase : IsBase base) {data : ℕ} (hdata : data < 2 ^ 64)
    (hne : data ≠ 0) :
    ∃ k < 65, peeled data base < base ^ (k + 1) ∧ (base ^ k ≤ peeled data base ∨ k = 0) ∧
      formatGenericInt data base = formatDigits base 65 (base ^ k) (peeled data base) ++
        if data ≥ base then [formatDigit (data % base)] else [] := by
  obtain ⟨k, hk, hgrow, hlt, hleast⟩ :=
    growBase_spec hbase (peeled_mul_lt hbase hdata) (peeled_lt_pow hbase hdata) (Or.inr rfl)
  rw [zero_add, pow_one] at hgrow
  refine ⟨k, by omega, hlt, hleast, ?_⟩
  have hdiv : base ^ (k + 1) / base = base ^ k := by
    rw [pow_succ, Nat.mul_div_cancel _ hbase.pos]
  rw [← hdiv, ← hgrow, formatGenericInt, if_neg hne]
  rfl

theorem spells_formatGenericInt (hbase : IsBase base) {data : ℕ} (hdata : data < 2 ^ 64) :
    Spells base data (formatGenericInt data base) := by
  by_cases hzero : data = 0
  · rw [hzero, formatGenericInt, if_pos rfl]
    have h := getDigit_formatDigit hbase hbase.pos
    have hchar : formatDigit 0 = '0' := rfl
    rw [hchar] at h
    exact ⟨by simp, by simp [h], by simp [readDigits, h]⟩
  obtain ⟨k, hk, hlt, -, heq⟩ := formatGenericInt_eq hbase hdata hzero
  obtain ⟨hne, hdigits, hread⟩ := formatDigits_spec hbase hk hlt
  rw [heq]
  by_cases hlast : data ≥ base
  · have hlow := Nat.mod_lt data hbase.pos
    rw [if_pos hlast]
    refine ⟨by simp, ?_, ?_⟩
    · intro ch hch
      rcases List.mem_append.1 hch with hch | hch
      · exact hdigits ch hch
      · rw [List.mem_singleton.1 hch, getDigit_formatDigit hbase hlow]
        simp
    · rw [readDigits_append, hread, readDigits_formatDigit hbase _ hlow, zero_mul, zero_add,
        peeled, if_pos hlast]
      exact Nat.div_add_mod' data base
  · rw [if_neg hlast, List.append_nil]
    refine ⟨hne, hdigits, ?_⟩
    rw [hread, zero_mul, zero_add, peeled, if_neg hlast]

/-- A text does not go on with a digit. -/
def NoDigit (base : ℕ) (text : List Char) : Prop :=
  ∀ ch ∈ text.head?, getDigit base ch = none

theorem deFormatDigits_append (hbase : IsBase base) {text : List Char}
    (htext : ∀ ch ∈ text, getDigit base ch ≠ none) (rest : List Char) (n len : ℕ) :
    deFormatDigits base (text ++ rest) (BitVec.ofNat 64 n) len =
      deFormatDigits base rest (BitVec.ofNat 64 (readDigits base n text)) (len + text.length) := by
  induction text generalizing n len with
  | nil => rfl
  | cons ch text ih =>
    obtain ⟨d, hd⟩ := Option.ne_none_iff_exists'.1 (htext ch List.mem_cons_self)
    have hten : (if base = 16 then 16 else 10) = base := by
      obtain rfl | rfl := hbase <;> rfl
    have hvalue : BitVec.ofNat 64 n * BitVec.ofNat 64 base + BitVec.ofNat 64 d =
        BitVec.ofNat 64 (n * base + d) := by
      rw [BitVec.ofNat_add, BitVec.ofNat_mul]
    have hread : readDigits base n (ch :: text) = readDigits base (n * base + d) text := by
      simp [readDigits, hd]
    rw [List.cons_append, deFormatDigits, hd, hten, hread, List.length_cons]
    dsimp only
    rw [hvalue, ih (fun c hc ↦ htext c (List.mem_cons_of_mem ch hc)), Nat.add_right_comm,
      Nat.add_assoc]

theorem deFormatDigits_of_noDigit {rest : List Char} (hrest : NoDigit base rest) (v : BitVec 64)
    (len : ℕ) : deFormatDigits base rest v len = (v, len, rest) := by
  cases rest with
  | nil => rfl
  | cons ch rest => simp [deFormatDigits, hrest ch (by simp)]

theorem deFormatGenericInt_append (hbase : IsBase base) {text : List Char} (hne : text ≠ [])
    (htext : ∀ ch ∈ text, getDigit base ch ≠ none) (rest : List Char) (is64Bit isSigned : Bool) :
    deFormatGenericInt (text ++ rest) is64Bit isSigned base =
      (deFormatDigits base rest (BitVec.ofNat 64 (readDigits base 0 text)) text.length).map
        (storeInt · is64Bit) id := by
  have hdigits := deFormatDigits_append hbase htext rest 0 0
  rw [Nat.zero_add] at hdigits
  obtain ⟨ch, text, rfl⟩ := List.exists_cons_of_ne_nil hne
  have hdash : ch ≠ '-' := by
    rintro rfl
    apply htext '-' List.mem_cons_self
    obtain rfl | rfl := hbase <;> rfl
  rw [← hdigits]
  unfold deFormatGenericInt
  split
  · rename_i heq
    exact absurd (List.cons.inj heq).1 hdash
  · rfl

theorem deFormatGenericInt_of_spells (hbase : IsBase base) {data : ℕ} {text : List Char}
    (htext : Spells base data text) {rest : List Char} (hrest : NoDigit base rest)
    (is64Bit isSigned : Bool) :
    deFormatGenericInt (text ++ rest) is64Bit isSigned base =
      (storeInt (BitVec.ofNat 64 data) is64Bit, text.length, rest) := by
  rw [deFormatGenericInt_append hbase htext.ne_nil htext.digits, htext.value,
    deFormatDigits_of_noDigit hrest]
  rfl

theorem deFormatGenericInt_formatSigned (v : BitVec 64) {rest : List Char}
    (hrest : NoDigit 10 rest) (is64Bit : Bool) :
    deFormatGenericInt (formatSigned v ++ rest) is64Bit true 10 =
      (storeInt v is64Bit, (formatSigned v).length, rest) := by
  have hbase : IsBase 10 := Or.inl rfl
  unfold formatSigned
  split_ifs with hneg
  · have htext := spells_formatGenericInt hbase (-v).isLt
    have hdigits := deFormatDigits_append hbase htext.digits rest 0 1
    rw [deFormatDigits_of_noDigit hrest, htext.value, BitVec.ofNat_toNat, BitVec.setWidth_eq]
      at hdigits
    rw [List.cons_append, deFormatGenericInt, show (0 : BitVec 64) = BitVec.ofNat 64 0 from rfl,
      hdigits, List.length_cons]
    dsimp only
    rw [BitVec.neg_neg, Nat.add_comm]
  · have htext := spells_formatGenericInt hbase v.isLt
    rw [deFormatGenericInt_of_spells hbase htext hrest, BitVec.ofNat_toNat, BitVec.setWidth_eq]

end Numbers

end Granary.Base.Format
