import Granary.Base.Format.RoundTrip
import Granary.Os.Maps.Lexing

namespace Granary.Os.Maps

open Function Granary.Base.Bytes Granary.Base.Format

section Numbers

variable {text text' rest form : List Char} {p : Parser}

structure IsHex (text : List Char) : Prop where
  ne_nil : text ≠ []
  digits (ch : Char) : ch ∈ text → getDigit 16 ch ≠ none

def hexValue (text : List Char) : BitVec 64 :=
  BitVec.ofNat 64 (readDigits 16 0 text)

theorem IsHex.spells (h : IsHex text) : Spells 16 (readDigits 16 0 text) text :=
  ⟨h.ne_nil, h.digits, rfl⟩

theorem deFormatLoop_lx (h : IsHex text) (hrest : NoDigit 16 rest) (hbuffer : p.buffer = text ++ rest)
    (form : List Char) :
    deFormatLoop .loop ('%' :: 'l' :: 'x' :: form) p = deFormatLoop .loop form
      { p with
        buffer := rest
        numArgs := p.numArgs + 1
        is64Bit := true
        isSigned := false
        base := 16
        stores := p.stores ++ [.long (hexValue text)] } := by
  obtain ⟨b, text', hhead, hb⟩ := h.spells.head (Or.inr rfl)
  have hread := deFormatGenericInt_of_spells (Or.inr rfl) h.spells hrest true false
  rw [← hbuffer] at hread
  rw [hhead, List.cons_append] at hbuffer
  have hconv := loop_conv .lx form hbuffer hb
  rw [retry_eq (by decide), genericInt_eq hread (List.length_pos_of_ne_nil h.ne_nil).ne'] at hconv
  exact hconv

theorem noDigit_end : NoDigit 16 ['\x00'] := by
  intro ch hch
  rw [← Option.some_inj.1 hch]
  rfl

theorem deFormat_bounds (h : IsHex text) (h' : IsHex text') :
    deFormat (text ++ '-' :: text') "%lx-%lx".toList =
      some (2, [.long (hexValue text), .long (hexValue text')]) := by
  have hform : "%lx-%lx".toList ++ ['\x00'] =
      '%' :: 'l' :: 'x' :: '-' :: '%' :: 'l' :: 'x' :: ['\x00'] := rfl
  have hdash : NoDigit 16 ('-' :: (text' ++ ['\x00'])) := by
    intro ch hch
    rw [← Option.some_inj.1 hch]
    rfl
  rw [deFormat_eq, hform, deFormatLoop_lx h hdash (by simp [Parser.start]),
    loop_literal (by decide) (by decide) rfl, deFormatLoop_lx h' noDigit_end rfl, loop_end rfl]
  rfl

theorem deFormat_offset (h : IsHex text) :
    deFormat text "%lx".toList = some (1, [.long (hexValue text)]) := by
  have hform : "%lx".toList ++ ['\x00'] = '%' :: 'l' :: 'x' :: ['\x00'] := rfl
  rw [deFormat_eq, hform, deFormatLoop_lx h noDigit_end rfl, loop_end rfl]
  rfl

end Numbers

/-- The text of a line without its end, and the words that it is made of. -/
structure Line where
  text : List Char
  base : List Char
  limit : List Char
  perms : List Char
  offset : List Char
  dev : List Char
  inode : List Char
  path : List (List Char)
  lineWords_eq : lineWords text =
    (base ++ '-' :: limit) :: perms :: offset :: dev :: inode :: path
  line_notMem : '\n' ∉ text
  nul_notMem : '\x00' ∉ text
  isHex_base : IsHex base
  isHex_limit : IsHex limit
  length_perms : perms.length = 4
  isHex_offset : IsHex offset
  short (word : List Char) : word ∈ lineWords text → word.length < kMaxModulePathLength

namespace Line

variable (line : Line)

def modulePath : List Char :=
  line.path.headD kAnonModuleName

def modulePerms : BitVec 32 :=
  Maps.modulePerms fun i ↦ line.perms.getD i '\x00'

def perform (manager : ModuleManager) : Option ModuleManager :=
  let (module, manager) := manager.findOrRegister line.modulePath
  manager.addRange module (hexValue line.base) (hexValue line.limit) (hexValue line.offset)
    line.modulePerms

end Line

section Parse

variable {lexer : Lexer} {manager : ModuleManager} {ws : List (List Char)} {rest : List Char}
  {turns : ℕ}

theorem skipTokens_spec (h : lexer.InLine ws rest)
    (hshort : ∀ word ∈ ws, word.length < kMaxModulePathLength) (hturns : ws.length < turns) :
    ∃ l, skipTokens turns lexer = some l ∧ l.Ahead rest := by
  obtain ⟨turns, rfl⟩ := Nat.exists_eq_succ_of_ne_zero (Nat.ne_zero_of_lt hturns)
  induction ws generalizing lexer turns with
  | nil =>
    obtain ⟨l, hl, htoken, hahead⟩ := h.nextToken_nil
    have hline : l.tokenBuffer 0 = '\n' := htoken.getElem (Nat.zero_lt_one)
    refine ⟨l, ?_, hahead⟩
    rw [skipTokens, hl, Option.bind_some, if_neg (by simp [hline])]
  | cons word ws ih =>
    obtain ⟨hword, hws⟩ := List.forall_mem_cons.1 hshort
    obtain ⟨l, hl, htoken, hne, hline, hrest⟩ := h.nextToken_cons hword
    rw [List.length_cons] at hturns
    obtain ⟨n, rfl⟩ := Nat.exists_eq_succ_of_ne_zero (by omega : turns ≠ 0)
    rw [skipTokens, hl, Option.bind_some, if_pos (htoken.head hne hline)]
    exact ih hrest hws n (by omega)

theorem modulePerms_congr {token token' : ℕ → Char} (h : ∀ i < 4, token i = token' i) :
    modulePerms token = modulePerms token' := by
  rw [modulePerms, modulePerms, h 0 (by decide), h 1 (by decide), h 2 (by decide), h 3 (by decide)]

theorem Lexer.Token.modulePerms_eq {line : Line} (h : lexer.Token line.perms) :
    modulePerms lexer.tokenBuffer = line.modulePerms := by
  apply modulePerms_congr
  intro i hi
  rw [← line.length_perms] at hi
  rw [h.getElem hi, List.getD_eq_getElem _ _ hi]

theorem parseModule_spec (h : lexer.InLine ws rest)
    (hshort : ∀ word ∈ ws, word.length < kMaxModulePathLength) (hturns : ws.length ≤ turns)
    (manager : ModuleManager) (base limit offset : BitVec 64) (perms : BitVec 32) :
    ∃ l, l.Ahead rest ∧ parseModule turns lexer manager base limit offset perms =
      ((manager.findOrRegister (ws.headD kAnonModuleName)).2.addRange
        (manager.findOrRegister (ws.headD kAnonModuleName)).1 base limit offset perms).map
          (l, ·) := by
  cases ws with
  | nil =>
    obtain ⟨l, hl, htoken, hahead⟩ := h.nextToken_nil
    have hline : l.tokenBuffer 0 = '\n' := htoken.getElem Nat.zero_lt_one
    refine ⟨l, hahead, ?_⟩
    simp only [parseModule, hl, hline, if_true, List.headD_nil, Option.bind_eq_bind,
      Option.bind_some, Option.map_eq_bind]
    rfl
  | cons path ws =>
    obtain ⟨hpath, hws⟩ := List.forall_mem_cons.1 hshort
    obtain ⟨l, hl, htoken, hne, hline, hrest⟩ := h.nextToken_cons hpath
    have hanon := (htoken.head hne hline).2
    obtain ⟨t, ht, hahead⟩ := skipTokens_spec hrest hws hturns
    refine ⟨t, hahead, ?_⟩
    simp only [parseModule, hl, hanon, if_false, htoken.token_eq, List.headD_cons, ht,
      Option.bind_eq_bind, Option.bind_some, Option.map_eq_bind]
    rfl

theorem parseLine_spec (line : Line) (h : lexer.InLine (lineWords line.text) rest)
    (hturns : line.path.length ≤ turns) (manager : ModuleManager) :
    ∃ l, l.Ahead rest ∧
      parseLine turns lexer manager = (line.perform manager).map fun manager ↦ some (l, manager) := by
  have hshort := line.short
  rw [line.lineWords_eq] at h hshort
  obtain ⟨hbounds, hshort⟩ := List.forall_mem_cons.1 hshort
  obtain ⟨hperms, hshort⟩ := List.forall_mem_cons.1 hshort
  obtain ⟨hoffset, hshort⟩ := List.forall_mem_cons.1 hshort
  obtain ⟨hdev, hshort⟩ := List.forall_mem_cons.1 hshort
  obtain ⟨hinode, hpath⟩ := List.forall_mem_cons.1 hshort
  obtain ⟨l₁, hl₁, htoken₁, -, -, h₁⟩ := h.nextToken_cons hbounds
  obtain ⟨l₂, hl₂, htoken₂, -, -, h₂⟩ := h₁.nextToken_cons hperms
  obtain ⟨l₃, hl₃, htoken₃, -, -, h₃⟩ := h₂.nextToken_cons hoffset
  obtain ⟨l₄, hl₄, -, -, -, h₄⟩ := h₃.nextToken_cons hdev
  obtain ⟨l₅, hl₅, -, -, -, h₅⟩ := h₄.nextToken_cons hinode
  obtain ⟨l, hahead, hl⟩ := parseModule_spec h₅ hpath hturns manager (hexValue line.base)
    (hexValue line.limit) (hexValue line.offset) line.modulePerms
  refine ⟨l, hahead, ?_⟩
  simp only [parseLine, hl₁, hl₂, hl₃, hl₄, hl₅, htoken₁.token_eq, htoken₃.token_eq,
    deFormat_bounds line.isHex_base line.isHex_limit, deFormat_offset line.isHex_offset,
    htoken₂.modulePerms_eq, Option.bind_eq_bind, Option.bind_some]
  rw [if_neg (by decide)]
  have hparse := congrArg (Option.map some) hl
  rw [Option.map_map] at hparse
  exact hparse

def mapsText (lines : List Line) : List Char :=
  lines.flatMap fun line ↦ line.text ++ ['\n']

def turnsOf (lines : List Line) : ℕ :=
  (lines.map fun line ↦ line.path.length + 1).sum + 1

theorem parseMapsFile_spec {lines : List Line} (h : lexer.Ahead (mapsText lines))
    (hturns : turnsOf lines ≤ turns) (manager : ModuleManager) :
    parseMapsFile turns lexer manager = lines.foldlM (fun manager line ↦ line.perform manager) manager := by
  induction lines generalizing lexer turns manager with
  | nil =>
    obtain ⟨n, rfl⟩ := Nat.exists_eq_succ_of_ne_zero (Nat.ne_zero_of_lt hturns)
    obtain ⟨l, hl, htoken, -⟩ := h.nextToken (by decide)
    have hend : deFormat l.token "%lx-%lx".toList = some (0, []) := by
      rw [htoken.token_eq]
      rfl
    have hparse : parseLine n lexer manager = some none := by
      simp only [parseLine, hl, hend, Option.bind_eq_bind, Option.bind_some]
      rfl
    rw [parseMapsFile, hparse]
    rfl
  | cons line lines ih =>
    obtain ⟨n, rfl⟩ := Nat.exists_eq_succ_of_ne_zero (Nat.ne_zero_of_lt hturns)
    have hturns' : turnsOf lines + line.path.length + 1 ≤ n + 1 := by
      rw [turnsOf, List.map_cons, List.sum_cons] at hturns
      rw [turnsOf]
      omega
    have hline : lexer.InLine (lineWords line.text) (mapsText lines) := by
      refine ⟨line.text, ?_, line.line_notMem, rfl⟩
      rw [mapsText, List.flatMap_cons, List.append_assoc] at h
      exact h
    obtain ⟨l, hahead, hl⟩ := parseLine_spec line hline (show line.path.length ≤ n by omega) manager
    rw [parseMapsFile, hl, List.foldlM_cons]
    cases hperform : line.perform manager with
    | none => rfl
    | some manager' => exact ih hahead (by omega) manager'

end Parse

end Granary.Os.Maps
