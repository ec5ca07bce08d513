import Granary.Assemble.CompileInlineAssembly.Grammar
import Granary.Base.Format.RoundTrip

namespace Granary.Assemble.CompileInlineAssembly

open Granary.Base.Format

def NotWhite (ch : List Char) : Prop :=
  ∀ c ∈ ch.head?, isWhiteSpace c = false

/-- A text that a word does not go on into. -/
def Ends (ch : List Char) : Prop :=
  ∀ c ∈ ch.head?, endsWord c = true

theorem notWhite_cons {c : Char} (hc : isWhiteSpace c = false) (ch : List Char) :
    NotWhite (c :: ch) := by
  intro d hd
  rw [← Option.some.inj hd]
  exact hc

theorem ends_cons {c : Char} (hc : endsWord c = true) (ch : List Char) : Ends (c :: ch) := by
  intro d hd
  rw [← Option.some.inj hd]
  exact hc

theorem endsWord_of_isWhiteSpace {c : Char} (hc : isWhiteSpace c = true) : endsWord c = true := by
  simp [endsWord, hc]

theorem ends_blanks (b : Blanks) {ch : List Char} (hch : Ends ch) : Ends (b.text ++ ch) := by
  obtain ⟨text, hwhite⟩ := b
  cases text with
  | nil => exact hch
  | cons c text => exact ends_cons (endsWord_of_isWhiteSpace (hwhite c List.mem_cons_self)) _

theorem ends_gap (g : Gap) (ch : List Char) : Ends (g.text ++ ch) := by
  obtain ⟨⟨text, hwhite⟩, hne⟩ := g
  obtain ⟨c, text, rfl⟩ := List.exists_cons_of_ne_nil hne
  exact ends_cons (endsWord_of_isWhiteSpace (hwhite c List.mem_cons_self)) _

theorem consumeWhiteSpace_of_notWhite {ch : List Char} (hch : NotWhite ch) :
    consumeWhiteSpace ch = ch := by
  cases ch with
  | nil => rfl
  | cons c ch => simp [consumeWhiteSpace, hch c rfl]

theorem consumeWhiteSpace_blanks (b : Blanks) {ch : List Char} (hch : NotWhite ch) :
    consumeWhiteSpace (b.text ++ ch) = ch := by
  unfold consumeWhiteSpace
  rw [List.dropWhile_append_of_pos b.white]
  exact consumeWhiteSpace_of_notWhite hch

theorem parseWord_append {w ch : List Char} (hw : IsWord w) (hch : Ends ch) :
    parseWord (w ++ ch) = some (w, ch) := by
  have hall : ∀ c ∈ w, (!endsWord c) = true := by
    intro c hc
    rw [hw.2 c hc, Bool.not_false]
  have htake : ch.takeWhile (fun c ↦ !endsWord c) = [] := by
    cases ch with
    | nil => rfl
    | cons c ch => simp [hch c rfl]
  have hdrop : ch.dropWhile (fun c ↦ !endsWord c) = ch := by
    cases ch with
    | nil => rfl
    | cons c ch => simp [hch c rfl]
  unfold parseWord
  rw [List.takeWhile_append_of_pos hall, List.dropWhile_append_of_pos hall, htake, hdrop,
    List.append_nil]
  exact if_pos hw.1

theorem accept_cons (c : Char) (ch : List Char) : accept c (c :: ch) = some ch := by
  simp [accept, peek]

theorem accept_of_ne {c d : Char} (h : d ≠ c) (ch : List Char) : accept c (d :: ch) = none := by
  simp [accept, peek, h]

theorem Numeral.spells (n : Numeral) : Spells n.base n.value n.digits :=
  ⟨n.ne_nil, n.isDigit, rfl⟩

theorem noDigit_nul {base : ℕ} (hbase : IsBase base) : NoDigit base ['\x00'] := by
  intro c hc
  rw [← Option.some.inj hc]
  obtain rfl | rfl := hbase <;> rfl

theorem loop_stop {p : Parser} (hp : p.buffer ≠ []) :
    deFormatLoop .loop ['\x00'] p = some p := by
  obtain ⟨b, buffer, hb⟩ := List.exists_cons_of_ne_nil hp
  simp [deFormatLoop, hb]

theorem deFormat_conv (k : Conv) (hk : k ≠ .c) (hp : k ≠ .p) {data : ℕ} {text : List Char}
    (htext : Spells k.base data text) (rest : List Char) (hrest : NoDigit k.base (rest ++ ['\x00'])) :
    deFormat (text ++ rest) k.text = some (1, [storeInt (BitVec.ofNat 64 data) k.isLong]) := by
  have hbase : IsBase k.base := by
    cases k <;> first | exact Or.inl rfl | exact Or.inr rfl
  obtain ⟨b, text', hcons, hb⟩ := htext.head hbase
  let p : Parser :=
    { buffer := text ++ rest ++ ['\x00']
      numArgs := 0
      is64Bit := false
      isSigned := false
      base := 10
      stores := [] }
  have hread : deFormatGenericInt (p.prepare k).buffer (p.prepare k).is64Bit (p.prepare k).isSigned
      (p.prepare k).base =
      (storeInt (BitVec.ofNat 64 data) k.isLong, text.length, rest ++ ['\x00']) := by
    have hlong : (p.prepare k).is64Bit = k.isLong := Bool.or_false _
    have hown : (p.prepare k).base = k.base := rfl
    rw [hlong, hown, ← deFormatGenericInt_of_spells hbase htext hrest k.isLong
      (p.prepare k).isSigned, ← List.append_assoc]
    rfl
  have hlen : text.length ≠ 0 := by simp [hcons]
  have hbuffer : p.buffer = b :: (text' ++ rest ++ ['\x00']) := by simp [p, hcons]
  have hloop := loop_conv k ['\x00'] hbuffer hb
  rw [retry_eq hk, genericInt_eq hread hlen] at hloop
  dsimp only at hloop
  rw [loop_stop (by simp)] at hloop
  unfold deFormat
  rw [hloop]
  rfl

theorem deFormat_char (c : Char) (hc : c ≠ '\x00') :
    deFormat [c] ['%', 'c', '%', 'u'] = some (1, [.char c]) := by
  simp [deFormat, deFormatLoop, hc]

theorem deFormat_char_number (c : Char) (hc : c ≠ '\x00') {data : ℕ} {text : List Char}
    (htext : Spells 10 data text) :
    deFormat (c :: text) ['%', 'c', '%', 'u'] =
      some (2, [.char c, .word (BitVec.ofNat 32 data)]) := by
  have hbase : IsBase 10 := Or.inl rfl
  obtain ⟨b, text', hcons, hb⟩ := htext.head hbase
  let p : Parser :=
    { buffer := text ++ ['\x00']
      numArgs := 1
      is64Bit := false
      isSigned := false
      base := 10
      stores := [.char c] }
  have hread : deFormatGenericInt (p.prepare .u).buffer (p.prepare .u).is64Bit
      (p.prepare .u).isSigned (p.prepare .u).base =
      (storeInt (BitVec.ofNat 64 data) false, text.length, ['\x00']) :=
    deFormatGenericInt_of_spells hbase htext (noDigit_nul hbase) false false
  have hlen : text.length ≠ 0 := by simp [hcons]
  have hbuffer : p.buffer = b :: (text' ++ ['\x00']) := by simp [p, hcons]
  have hloop := loop_conv .u ['\x00'] hbuffer hb
  rw [retry_eq (by decide), genericInt_eq hread hlen] at hloop
  have hfirst : deFormat (c :: text) ['%', 'c', '%', 'u'] =
      (deFormatLoop .loop (Conv.u.text ++ ['\x00']) p).map fun p ↦ (p.numArgs, p.stores) := by
    simp [deFormat, deFormatLoop, hc, Conv.text, p]
  dsimp only at hloop
  rw [loop_stop (by simp)] at hloop
  rw [hfirst, hloop]
  have hstore : storeInt (BitVec.ofNat 64 data) false = .word (BitVec.ofNat 32 data) := by
    simp [storeInt, BitVec.setWidth_ofNat_of_le]
  rw [hstore]
  rfl

theorem isWord_number : ∀ n : Fin maxNumInlineVars, IsWord (formatGenericInt n 10) := by
  decide +kernel

theorem parseVar_append (n : Fin maxNumInlineVars) {ch : List Char} (hch : Ends ch) :
    parseVar (varText n ++ ch) = some (n.val, ch) := by
  have hsmall : n.val < 16 := n.isLt
  have hlong : n.val < 2 ^ 64 := by omega
  have htext := spells_formatGenericInt (Or.inl rfl : IsBase 10) hlong
  have hread := deFormat_conv .u (by decide) (by decide) htext [] (noDigit_nul (Or.inl rfl))
  rw [List.append_nil] at hread
  have hstore : storeInt (BitVec.ofNat 64 n) Conv.u.isLong = .word (BitVec.ofNat 32 n) := by
    simp [storeInt, Conv.isLong, BitVec.setWidth_ofNat_of_le]
  rw [hstore] at hread
  have hvalue : (BitVec.ofNat 32 n.val).toNat = n.val := by
    rw [BitVec.toNat_ofNat]
    omega
  unfold parseVar varText
  rw [List.cons_append, accept_cons]
  simp only [Option.bind_eq_bind, Option.bind_some, parseWord_append (isWord_number n) hch]
  change (deFormat _ Conv.u.text).bind _ = _
  rw [hread]
  simp only [Option.bind_some, hvalue]
  rw [guard, if_pos n.isLt]
  rfl

theorem getLargestEnclosingRegister_cases (r : ℕ) :
    (regAX ≤ r ∧ r < regEAX ∧ getLargestEnclosingRegister r = r - regAX + regRAX) ∨
    (regEAX ≤ r ∧ r < regRAX ∧ getLargestEnclosingRegister r = r - regEAX + regRAX) ∨
    (regAL ≤ r ∧ r < regAH ∧ getLargestEnclosingRegister r = r - regAL + regRAX) ∨
    (regAH ≤ r ∧ r ≤ regBH ∧ getLargestEnclosingRegister r = r - regAH + regRAX) ∨
    ((r < regAX ∨ (regRAX ≤ r ∧ r < regAL) ∨ regBH < r) ∧ getLargestEnclosingRegister r = r) := by
  unfold getLargestEnclosingRegister
  split_ifs with hAX hEAX hAL hAH
  · exact Or.inl ⟨hAX.1, hAX.2, rfl⟩
  · exact Or.inr (Or.inl ⟨hEAX.1, hEAX.2, rfl⟩)
  · exact Or.inr (Or.inr (Or.inl ⟨hAL.1, hAL.2, rfl⟩))
  · exact Or.inr (Or.inr (Or.inr (Or.inl ⟨hAH.1, hAH.2, rfl⟩)))
  · refine Or.inr (Or.inr (Or.inr (Or.inr ⟨?_, rfl⟩)))
    omega

theorem widen_eq_none {r : VirtualRegister} {b : ℕ} : r.widen b = none ↔ b ∉ [1, 2, 4, 8] := by
  unfold VirtualRegister.widen
  split <;> simp_all

theorem widen_cases {r r' : VirtualRegister} {b : ℕ} (h : r.widen b = some r') :
    r'.kind = r.kind ∧ r'.regNum = r.regNum ∧
      ((b = 1 ∧ r'.byteMask = lowByte) ∨ (b = 2 ∧ r'.byteMask = low2Bytes) ∨
        (b = 4 ∧ r'.byteMask = low4Bytes) ∨ (b = 8 ∧ r'.byteMask = all8Bytes)) := by
  unfold VirtualRegister.widen at h
  split at h
  · cases h
    exact ⟨rfl, rfl, Or.inl ⟨rfl, rfl⟩⟩
  · cases h
    exact ⟨rfl, rfl, Or.inr (Or.inl ⟨rfl, rfl⟩)⟩
  · cases h
    exact ⟨rfl, rfl, Or.inr (Or.inr (Or.inl ⟨rfl, rfl⟩))⟩
  · cases h
    exact ⟨rfl, rfl, Or.inr (Or.inr (Or.inr ⟨rfl, rfl⟩))⟩
  · exact absurd h (by simp)

theorem decodeFromNative_cases (w : ℕ → ℕ) {r : ℕ} (hr : r ≠ regInvalid) (hlast : r < regLast) :
    let v := VirtualRegister.decodeFromNative w r
    let widestReg := getLargestEnclosingRegister r
    (¬IsGpr r ∧ v.kind = .unschedulable ∧ v.regNum = r) ∨
      (IsGpr r ∧ v.kind = .archGpr ∧
        v.regNum = (if regRSP < widestReg then widestReg - regRAX - 1 else widestReg - regRAX) ∧
        v.byteMask = (VirtualRegister.nativeBytes r).1) := by
  have hnot : ¬(r = regInvalid ∨ regLast ≤ r) := by omega
  dsimp only
  unfold VirtualRegister.decodeFromNative
  rw [if_neg hnot]
  dsimp only
  by_cases hgpr : IsGpr r
  · obtain ⟨hlow, hhigh, hstack⟩ := id hgpr
    rw [if_neg (by simp only [decide_eq_true_eq]; omega)]
    exact Or.inr ⟨hgpr, rfl, rfl, rfl⟩
  · rw [if_pos (by simp only [decide_eq_true_eq]; unfold IsGpr at hgpr; omega)]
    exact Or.inl ⟨hgpr, rfl, rfl⟩

theorem desc_decodeFromNative (w : ℕ → ℕ) {r : ℕ} (hr : r ≠ regInvalid) (hlast : r < regLast) :
    (VirtualRegister.decodeFromNative w r).desc = some (.native r) := by
  obtain ⟨-, hkind, hnum⟩ | ⟨hgpr, hkind, hnum, hmask⟩ := decodeFromNative_cases w hr hlast
  · simp only [VirtualRegister.desc, VirtualRegister.encodeToNative, hkind, hnum]
  · simp only [VirtualRegister.desc, VirtualRegister.encodeToNative, hkind, hnum, hmask,
      VirtualRegister.nativeBytes, IsGpr] at hgpr ⊢
    rcases getLargestEnclosingRegister_cases r with h | h | h | h | h
    all_goals grind

/-- The low part of a width is what is left of the name of a register that is widened to it. -/
theorem desc_widen (w : ℕ → ℕ) {r : ℕ} (hr : r ≠ regInvalid) (hlast : r < regLast) {b : ℕ}
    {r' : VirtualRegister} (h : (VirtualRegister.decodeFromNative w r).widen b = some r') :
    r'.desc = some (.native r) ↔ IsLowPart b r := by
  obtain ⟨hkind', hnum', hmask'⟩ := widen_cases h
  obtain ⟨hgpr, hkind, hnum⟩ | ⟨hgpr, hkind, hnum, -⟩ := decodeFromNative_cases w hr hlast
  · have hdesc : r'.desc = some (.native r) := by
      simp only [VirtualRegister.desc, VirtualRegister.encodeToNative, hkind', hnum', hkind, hnum]
    exact iff_of_true hdesc fun h ↦ absurd h hgpr
  · simp only [VirtualRegister.desc, VirtualRegister.encodeToNative, hkind', hnum', hkind, hnum,
      IsLowPart, IsGpr] at hgpr ⊢
    simp only [Option.some.injEq, RegDesc.native.injEq]
    rcases getLargestEnclosingRegister_cases r with h | h | h | h | h
    all_goals
      rcases hmask' with h' | h' | h' | h'
      all_goals grind

end Granary.Assemble.CompileInlineAssembly
