import Granary.Assemble.CompileInlineAssembly.Reading

namespace Granary.Assemble.CompileInlineAssembly

section Arguments

variable {x : Xed} {iclass : IClass} {vars : Vars}

/-- The immediates of a scope were there from the start: parsing only adds labels and registers. -/
def Agrees (vars : Vars) (s : Scope) : Prop :=
  ∀ n op, s.vars n = some op → op.immediate? ≠ none → vars n = some op

theorem agrees_initLabelVar {s : Scope} (h : Agrees vars s) (n : ℕ) :
    Agrees vars (initLabelVar s n).2 := by
  unfold initLabelVar
  cases hn : s.vars n with
  | some aop => exact h
  | none =>
    intro m op hop himm
    by_cases hm : m = n
    · subst hm
      simp only [Function.update_self, Option.some.injEq] at hop
      rw [← hop] at himm
      exact absurd rfl himm
    · simp only [Function.update_of_ne hm] at hop
      exact h m op hop himm

theorem agrees_initRegVar {s : Scope} (h : Agrees vars s) (n : ℕ) :
    Agrees vars (initRegVar s n).2 := by
  unfold initRegVar
  cases hn : s.vars n with
  | some aop => exact h
  | none =>
    intro m op hop himm
    by_cases hm : m = n
    · subst hm
      simp only [Function.update_self, Option.some.injEq] at hop
      rw [← hop] at himm
      exact absurd rfl himm
    · simp only [Function.update_of_ne hm] at hop
      exact h m op hop himm

theorem agrees_denote (o : AsmOperand x) {s s' : Scope} {immediates : ℕ} {m : Meaning}
    (hden : o.denote s immediates = some (m, s')) (h : Agrees vars s) : Agrees vars s' := by
  cases o with
  | register w gap r =>
    cases r with
    | arch r named =>
      rw [← (Prod.mk.inj (Option.some.inj hden)).2]
      exact h
    | var n =>
      obtain ⟨r, -, hden⟩ := Option.bind_eq_some_iff.1 hden
      obtain ⟨e, -, hden⟩ := Option.bind_eq_some_iff.1 hden
      rw [← (Prod.mk.inj (Option.some.inj hden)).2]
      exact agrees_initRegVar h n
  | label w gap n =>
    obtain ⟨l, -, hden⟩ := Option.bind_eq_some_iff.1 hden
    rw [← (Prod.mk.inj (Option.some.inj hden)).2]
    exact agrees_initLabelVar h n
  | literal w gap l =>
    rw [← (Prod.mk.inj (Option.some.inj hden)).2]
    exact h
  | immediateVar w gap n =>
    obtain ⟨aop, -, hden⟩ := Option.bind_eq_some_iff.1 hden
    obtain ⟨v, -, hden⟩ := Option.bind_eq_some_iff.1 hden
    rw [← (Prod.mk.inj (Option.some.inj hden)).2]
    exact h
  | memory w blanks b =>
    obtain ⟨m', -, hden⟩ := Option.map_eq_some_iff.1 hden
    rw [← (Prod.mk.inj hden).2]
    exact h
  | segmented w gap seg b =>
    obtain ⟨m', -, hden⟩ := Option.map_eq_some_iff.1 hden
    rw [← (Prod.mk.inj hden).2]
    exact h

variable (iclass) in
theorem readable_iff_of_agrees (o : AsmOperand x) {s s' : Scope} {immediates : ℕ} (literals : ℕ)
    {m : Meaning} (hden : o.denote s immediates = some (m, s')) (h : Agrees vars s) :
    o.Readable s.vars iclass immediates literals ↔ o.Readable vars iclass immediates literals := by
  cases o with
  | immediateVar w gap n =>
    obtain ⟨aop, hn, hden⟩ := Option.bind_eq_some_iff.1 hden
    obtain ⟨v, hv, -⟩ := Option.bind_eq_some_iff.1 hden
    have hvars := h n aop hn (by simp [hv])
    simp only [AsmOperand.Readable, hn, hvars]
  | register w gap r => rfl
  | label w gap n => rfl
  | literal w gap l => rfl
  | memory w blanks b => rfl
  | segmented w gap seg b => rfl

def argumentsTail : List (Argument x) → List Char
  | [] => []
  | a :: as => ',' :: (a.text ++ argumentsTail as)

theorem argumentsText_cons (a : Argument x) (as : List (Argument x)) :
    argumentsText (a :: as) = a.text ++ argumentsTail as := by
  induction as generalizing a with
  | nil => simp [argumentsText, argumentsTail]
  | cons b as ih => rw [argumentsText, ih, argumentsTail]; simp

theorem ends_argumentsTail (as : List (Argument x)) (rest : List Char) :
    Ends (argumentsTail as ++ ';' :: rest) ∧ NotWhite (argumentsTail as ++ ';' :: rest) := by
  cases as with
  | nil => exact ⟨ends_cons (by decide) rest, notWhite_cons (by decide) rest⟩
  | cons a as => exact ⟨ends_cons (by decide) _, notWhite_cons (by decide) _⟩

theorem operand_head (o : AsmOperand x) (rest : List Char) :
    ∃ c t, o.text ++ rest = c :: t ∧ c ∈ ['r', 'l', 'i', 'm'] := by
  cases o with
  | register w gap r => exact ⟨'r', _, rfl, by decide⟩
  | label w gap n => exact ⟨'l', _, rfl, by decide⟩
  | literal w gap l => exact ⟨'i', _, rfl, by decide⟩
  | immediateVar w gap n => exact ⟨'i', _, rfl, by decide⟩
  | memory w blanks b => exact ⟨'m', _, rfl, by decide⟩
  | segmented w gap seg b => exact ⟨'m', _, rfl, by decide⟩

theorem notWhite_operand (o : AsmOperand x) (rest : List Char) :
    NotWhite (o.text ++ rest) ∧ peek ';' (o.text ++ rest) = false := by
  obtain ⟨c, t, htext, hc⟩ := operand_head o rest
  rw [htext]
  simp only [List.mem_cons, List.not_mem_nil, or_false] at hc
  rcases hc with rfl | rfl | rfl | rfl
  all_goals exact ⟨notWhite_cons (by decide) t, rfl⟩

def operandTurn (x : Xed) (iclass : IClass) (fuel : ℕ) (s : Scope) (k : ℕ) (ops : List Operand)
    (ch : List Char) : Option (List Operand × Scope × List Char) := do
  guard (ops.length < maxNumOperands)
  let (op, s, k, ch) ← parseOperand x iclass s k ch
  parseOperands x iclass fuel s k (ops ++ [op]) (consumeWhiteSpace ch)

theorem parseOperands_succ (fuel : ℕ) (s : Scope) (k : ℕ) (ops : List Operand) (ch : List Char) :
    parseOperands x iclass (fuel + 1) s k ops ch =
      if peek ';' ch then some (ops, s, ch)
      else (if ops = [] then some ch else (accept ',' ch).map consumeWhiteSpace).bind
        (operandTurn x iclass fuel s k ops) := by
  rw [parseOperands]
  split_ifs <;> rfl

theorem parseOperands_first (fuel : ℕ) (s : Scope) (k : ℕ) (o : AsmOperand x) (rest : List Char) :
    parseOperands x iclass (fuel + 1) s k [] (o.text ++ rest) =
      operandTurn x iclass fuel s k [] (o.text ++ rest) := by
  rw [parseOperands_succ, (notWhite_operand o rest).2]
  rfl

theorem parseOperands_comma (fuel : ℕ) (s : Scope) (k : ℕ) {ops : List Operand} (hops : ops ≠ [])
    (a : Argument x) (rest : List Char) :
    parseOperands x iclass (fuel + 1) s k ops (',' :: (a.text ++ rest)) =
      operandTurn x iclass fuel s k ops (a.operand.text ++ (a.after.text ++ rest)) := by
  have hblanks := consumeWhiteSpace_blanks a.before
    (notWhite_operand a.operand (a.after.text ++ rest)).1
  have htext : a.text ++ rest = a.before.text ++ (a.operand.text ++ (a.after.text ++ rest)) := by
    simp [Argument.text]
  rw [parseOperands_succ, if_neg hops, accept_cons, htext, Option.map_some, hblanks]
  rfl

theorem parseOperands_prefix {fuel : ℕ} {s : Scope} {k : ℕ} {ops ops' : List Operand}
    {ch : List Char} {q : Scope × List Char}
    (h : parseOperands x iclass fuel s k ops ch = some (ops', q)) : ops <+: ops' := by
  induction fuel generalizing s k ops ch with
  | zero => exact absurd h (by simp [parseOperands])
  | succ fuel ih =>
    rw [parseOperands_succ] at h
    by_cases hend : peek ';' ch = true
    · rw [if_pos hend] at h
      rw [← (Prod.mk.inj (Option.some.inj h)).1]
    · rw [if_neg hend] at h
      obtain ⟨ch', -, h⟩ := Option.bind_eq_some_iff.1 h
      obtain ⟨-, -, h⟩ := Option.bind_eq_some_iff.1 h
      obtain ⟨⟨op, s', k', ch''⟩, -, h⟩ := Option.bind_eq_some_iff.1 h
      exact (List.prefix_append ops [op]).trans (ih h)

/-- The operands that are read, after those before, say what is expected exactly if all of them are
readable. -/
structure ReadsAll (result : Option (List Operand × Scope × List Char)) (readable : Prop)
    (ops : List Operand) (ds : List OperandDesc) (s : Scope) (rest : List Char) : Prop where
  reads : readable → ∃ ops', result = some (ops ++ ops', s, rest) ∧
    ops'.mapM Operand.desc = some ds
  fails : ¬readable → ∀ ops' q, result = some (ops ++ ops', q) → ops'.mapM Operand.desc ≠ some ds

theorem mapM_cons_eq_some {op : Operand} {ops : List Operand} {d : OperandDesc}
    {ds : List OperandDesc} :
    (op :: ops).mapM Operand.desc = some (d :: ds) ↔
      op.desc = some d ∧ ops.mapM Operand.desc = some ds := by
  rw [List.mapM_cons]
  cases op.desc with
  | none => simp
  | some e => cases List.mapM Operand.desc ops <;> simp

theorem operandTurn_append (a : Argument x) {tail rest : List Char} (htail : Ends tail)
    (hwhite : NotWhite tail) {fuel : ℕ} {s s₁ s' : Scope} {immediates literals k : ℕ}
    {ops : List Operand} (hlength : ops.length < maxNumOperands) {m : Meaning}
    {ds : List OperandDesc} {readable : Prop} (hk : k = 0 ↔ literals = 0)
    (hle : literals ≤ immediates) (hagrees : Agrees vars s)
    (hden : a.operand.denote s immediates = some (m, s₁))
    (hrest : ∀ k₁ op, (k₁ = 0 ↔ literals + a.operand.isLiteral.toNat = 0) →
      ReadsAll (parseOperands x iclass fuel s₁ k₁ (ops ++ [op]) tail) readable (ops ++ [op]) ds s'
        rest) :
    ReadsAll (operandTurn x iclass fuel s k ops (a.operand.text ++ (a.after.text ++ tail)))
      (a.operand.Readable vars iclass immediates literals ∧ readable) ops
      (⟨m, a.operand.width⟩ :: ds) s' rest := by
  have hfirst := parseOperand_append iclass a.operand hk hle hden
    (ends_blanks a.after htail)
  have hagree := readable_iff_of_agrees iclass a.operand literals hden hagrees
  have hturn : operandTurn x iclass fuel s k ops (a.operand.text ++ (a.after.text ++ tail)) =
      (parseOperand x iclass s k (a.operand.text ++ (a.after.text ++ tail))).bind fun p ↦
        parseOperands x iclass fuel p.2.1 p.2.2.1 (ops ++ [p.1]) (consumeWhiteSpace p.2.2.2) := by
    simp only [operandTurn, guard, if_pos hlength]
    rfl
  rw [hturn]
  constructor
  · rintro ⟨hreadable, hothers⟩
    obtain ⟨op, k₁, hparse, hdesc, hk₁⟩ := hfirst.reads (hagree.2 hreadable)
    obtain ⟨ops', hparse', hdescs⟩ := (hrest k₁ op hk₁).reads hothers
    refine ⟨op :: ops', ?_, mapM_cons_eq_some.2 ⟨hdesc, hdescs⟩⟩
    rw [hparse, Option.bind_some, consumeWhiteSpace_blanks a.after hwhite, hparse',
      List.append_assoc, List.singleton_append]
  · intro hnot ops' q hresult hdescs
    obtain ⟨⟨op, s₂, k₂, ch⟩, hparse, hresult⟩ := Option.bind_eq_some_iff.1 hresult
    obtain ⟨ops'', hops⟩ := parseOperands_prefix hresult
    have hcons : ops' = op :: ops'' := by
      rw [List.append_assoc] at hops
      exact (List.append_cancel_left hops).symm
    subst hcons
    obtain ⟨hdesc, hothers⟩ := mapM_cons_eq_some.1 hdescs
    by_cases hreadable : a.operand.Readable vars iclass immediates literals
    · obtain ⟨op₁, k₁, hparse₁, -, hk₁⟩ := hfirst.reads (hagree.2 hreadable)
      rw [hparse₁, Option.some.injEq, Prod.mk.injEq, Prod.mk.injEq, Prod.mk.injEq] at hparse
      obtain ⟨rfl, rfl, rfl, rfl⟩ := hparse
      dsimp only at hresult
      have hsplit : ops ++ op₁ :: ops'' = ops ++ [op₁] ++ ops'' := by simp
      rw [consumeWhiteSpace_blanks a.after hwhite, hsplit] at hresult
      exact (hrest k₁ op₁ hk₁).fails (fun h ↦ hnot ⟨hreadable, h⟩) ops'' q hresult hothers
    · exact hfirst.fails (fun h ↦ hreadable (hagree.1 h)) op _ hparse hdesc

theorem denoteArguments_cons {a : Argument x} {as : List (Argument x)} {s s' : Scope}
    {immediates : ℕ} {ds : List OperandDesc}
    (hden : denoteArguments s immediates (a :: as) = some (ds, s')) :
    ∃ m s₁ ds', a.operand.denote s immediates = some (m, s₁) ∧
      denoteArguments s₁ (immediates + a.operand.isImmediate.toNat) as = some (ds', s') ∧
      ds = ⟨m, a.operand.width⟩ :: ds' := by
  obtain ⟨⟨m, s₁⟩, hfirst, hden⟩ := Option.bind_eq_some_iff.1 hden
  obtain ⟨⟨ds', s₂⟩, hothers, hden⟩ := Option.bind_eq_some_iff.1 hden
  obtain ⟨rfl, rfl⟩ := Prod.mk.inj (Option.some.inj hden)
  exact ⟨m, s₁, ds', hfirst, hothers, rfl⟩

theorem isLiteral_le_isImmediate (o : AsmOperand x) : o.isLiteral.toNat ≤ o.isImmediate.toNat := by
  cases o <;> simp [AsmOperand.isLiteral, AsmOperand.isImmediate]

theorem parseOperands_tail (as : List (Argument x)) {fuel : ℕ} {s s' : Scope}
    {immediates literals k : ℕ} {ops : List Operand} {ds : List OperandDesc} {rest : List Char}
    (hfuel : as.length < fuel) (hops : ops ≠ []) (hlength : ops.length + as.length ≤ maxNumOperands)
    (hk : k = 0 ↔ literals = 0) (hle : literals ≤ immediates) (hagrees : Agrees vars s)
    (hden : denoteArguments s immediates as = some (ds, s')) :
    ReadsAll (parseOperands x iclass fuel s k ops (argumentsTail as ++ ';' :: rest))
      (ReadableArguments vars iclass immediates literals as) ops ds s' (';' :: rest) := by
  induction as generalizing fuel s immediates literals k ops ds with
  | nil =>
    obtain ⟨fuel, rfl⟩ := Nat.exists_eq_succ_of_ne_zero (by omega : fuel ≠ 0)
    obtain ⟨rfl, rfl⟩ := Prod.mk.inj (Option.some.inj hden)
    have hend : parseOperands x iclass (fuel + 1) s k ops (';' :: rest) =
        some (ops, s, ';' :: rest) := by
      rw [parseOperands_succ]
      rfl
    exact ⟨fun _ ↦ ⟨[], by rw [List.append_nil]; exact hend, rfl⟩, fun h ↦ absurd trivial h⟩
  | cons a as ih =>
    obtain ⟨m, s₁, ds', hfirst, hothers, rfl⟩ := denoteArguments_cons hden
    obtain ⟨fuel, rfl⟩ := Nat.exists_eq_succ_of_ne_zero (by omega : fuel ≠ 0)
    simp only [List.length_cons] at hfuel hlength
    have htail := ends_argumentsTail as rest
    have hlit := isLiteral_le_isImmediate a.operand
    rw [argumentsTail, List.cons_append, List.append_assoc,
      parseOperands_comma fuel s k hops a (argumentsTail as ++ ';' :: rest)]
    refine operandTurn_append a htail.1 htail.2 (by omega) hk hle hagrees hfirst ?_
    intro k₁ op hk₁
    refine ih (by omega) (by simp) ?_ hk₁ (by omega) (agrees_denote a.operand hfirst hagrees) hothers
    rw [List.length_append, List.length_singleton]
    omega

theorem argumentsText_blanks (a : Argument x) (as : List (Argument x)) (blanks : Blanks)
    (rest : List Char) :
    ∃ both : Blanks, both.text = blanks.text ++ a.before.text ∧
      blanks.text ++ (argumentsText (a :: as) ++ rest) =
        both.text ++ (a.operand.text ++ (a.after.text ++ (argumentsTail as ++ rest))) := by
  refine ⟨⟨blanks.text ++ a.before.text, ?_⟩, rfl, ?_⟩
  · intro c hc
    rcases List.mem_append.1 hc with h | h
    · exact blanks.white c h
    · exact a.before.white c h
  · rw [argumentsText_cons]
    simp [Argument.text]

variable (iclass) (vars) in
theorem parseOperands_append (as : List (Argument x)) {fuel : ℕ} {s s' : Scope} (blanks : Blanks)
    {ds : List OperandDesc} (rest : List Char) (hfuel : as.length < fuel)
    (hlength : as.length ≤ maxNumOperands) (hagrees : Agrees vars s)
    (hden : denoteArguments s 0 as = some (ds, s')) :
    ReadsAll
      (parseOperands x iclass fuel s 0 []
        (consumeWhiteSpace (blanks.text ++ (argumentsText as ++ ';' :: rest))))
      (ReadableArguments vars iclass 0 0 as) [] ds s' (';' :: rest) := by
  obtain ⟨fuel, rfl⟩ := Nat.exists_eq_succ_of_ne_zero (by omega : fuel ≠ 0)
  cases as with
  | nil =>
    obtain ⟨rfl, rfl⟩ := Prod.mk.inj (Option.some.inj hden)
    have hend : parseOperands x iclass (fuel + 1) s 0 [] (';' :: rest) =
        some ([], s, ';' :: rest) := by
      rw [parseOperands_succ]
      rfl
    rw [argumentsText, List.nil_append,
      consumeWhiteSpace_blanks blanks (notWhite_cons (by decide) rest)]
    exact ⟨fun _ ↦ ⟨[], hend, rfl⟩, fun h ↦ absurd trivial h⟩
  | cons a as =>
    obtain ⟨m, s₁, ds', hfirst, hothers, rfl⟩ := denoteArguments_cons hden
    simp only [List.length_cons] at hfuel hlength
    have htail := ends_argumentsTail as rest
    have hlit := isLiteral_le_isImmediate a.operand
    obtain ⟨both, -, htext⟩ := argumentsText_blanks a as blanks (';' :: rest)
    rw [htext, consumeWhiteSpace_blanks both (notWhite_operand a.operand _).1, parseOperands_first]
    refine operandTurn_append a htail.1 htail.2 (by decide) Iff.rfl le_rfl hagrees hfirst ?_
    intro k₁ op hk₁
    refine parseOperands_tail as (by omega) (by simp) ?_ hk₁ (by omega)
      (agrees_denote a.operand hfirst hagrees) hothers
    rw [List.nil_append, List.length_singleton]
    omega

end Arguments

section Instructions

variable {x : Xed}

theorem notWhite_of_isWord {w : List Char} (hw : IsWord w) (hne : w ≠ []) (ch : List Char) :
    NotWhite (w ++ ch) := by
  obtain ⟨c, w, rfl⟩ := List.exists_cons_of_ne_nil hne
  apply notWhite_cons
  have h := hw.2 c List.mem_cons_self
  unfold endsWord at h
  simp only [Bool.or_eq_false_iff] at h
  exact h.1.1.1.1.1

theorem isWord_prefixName (q : PrefixName) : IsWord q.text := by
  cases q <;> decide

theorem prefixName_ne_nil (q : PrefixName) : q.text ≠ [] := by
  cases q <;> decide

theorem addPrefix_text (p : Prefixes) (q : PrefixName) : addPrefix p q.text = some (q.add p) := by
  cases q <;> rfl

def prefixesText (qs : List (PrefixName × Gap)) : List Char :=
  qs.flatMap fun q ↦ q.1.text ++ q.2.text

theorem length_prefixesText (qs : List (PrefixName × Gap)) :
    qs.length ≤ (prefixesText qs).length := by
  induction qs with
  | nil => exact le_rfl
  | cons q qs ih =>
    have hpos := List.length_pos_of_ne_nil (prefixName_ne_nil q.1)
    simp only [prefixesText, List.flatMap_cons, List.length_append, List.length_cons] at ih ⊢
    omega

theorem parseInstructionPrefixes_append (qs : List (PrefixName × Gap)) {c : IClass}
    (named : x.NamesIClass c) {rest : List Char} (hrest : Ends rest) {fuel : ℕ}
    (hfuel : qs.length < fuel) (p : Prefixes) {ch : List Char}
    (hch : consumeWhiteSpace ch = prefixesText qs ++ (x.iclassName c ++ rest)) :
    parseInstructionPrefixes fuel p ch =
      some (qs.foldl (fun p q ↦ q.1.add p) p, x.iclassName c, rest) := by
  induction qs generalizing fuel p ch with
  | nil =>
    obtain ⟨fuel, rfl⟩ := Nat.exists_eq_succ_of_ne_zero (by omega : fuel ≠ 0)
    have hname : consumeWhiteSpace ch = x.iclassName c ++ rest := hch
    simp only [parseInstructionPrefixes, hname, parseWord_append named.isWord hrest,
      Option.bind_eq_bind, Option.bind_some, named.ne_nil, if_false, named.not_prefix,
      List.foldl_nil]
  | cons q qs ih =>
    obtain ⟨fuel, rfl⟩ := Nat.exists_eq_succ_of_ne_zero (by omega : fuel ≠ 0)
    simp only [List.length_cons] at hfuel
    have htext : consumeWhiteSpace ch =
        q.1.text ++ (q.2.text ++ (prefixesText qs ++ (x.iclassName c ++ rest))) := by
      rw [hch]
      simp [prefixesText]
    have hwhite : NotWhite (prefixesText qs ++ (x.iclassName c ++ rest)) := by
      cases qs with
      | nil => exact notWhite_of_isWord named.isWord named.ne_nil rest
      | cons q' qs =>
        have h := notWhite_of_isWord (isWord_prefixName q'.1) (prefixName_ne_nil q'.1)
          (q'.2.text ++ (prefixesText qs ++ (x.iclassName c ++ rest)))
        simpa [prefixesText] using h
    simp only [parseInstructionPrefixes, htext,
      parseWord_append (isWord_prefixName q.1) (ends_gap q.2 _), Option.bind_eq_bind,
      Option.bind_some, prefixName_ne_nil, if_false, addPrefix_text, List.foldl_cons]
    exact ih (by omega) (q.1.add p) (consumeWhiteSpace_blanks q.2.toBlanks hwhite)

theorem tryParseAnnotationInstruction_name {c : IClass} (named : x.NamesIClass c)
    (isColdCode : Bool) (s : Scope) (ch : List Char) :
    tryParseAnnotationInstruction isColdCode s (x.iclassName c) ch = some none := by
  have hhead := named.not_annotation
  have hne : ∀ w : List Char, w.head? = some '@' → x.iclassName c ≠ w := by
    rintro w hw rfl
    exact hhead hw
  unfold tryParseAnnotationInstruction
  rw [if_neg (hne _ rfl), if_neg (hne _ rfl), if_neg (hne _ rfl)]

theorem desc_fixupOperand (action : Granary.Arch.Action) (op : Operand) :
    (fixupOperand action op).desc = op.desc := by
  unfold Operand.desc
  rw [meaning_congr (fixupOperand action op) op rfl rfl rfl rfl]
  rfl

theorem mapM_desc_fixup (ops : List Operand) (f : ℕ → Granary.Arch.Action) :
    (ops.mapIdx fun n op ↦ fixupOperand (f n) op).mapM Operand.desc = ops.mapM Operand.desc := by
  induction ops generalizing f with
  | nil => rfl
  | cons op ops ih =>
    rw [List.mapIdx_cons, List.mapM_cons, List.mapM_cons, desc_fixupOperand]
    rw [ih fun n ↦ f (n + 1)]

theorem desc_fixupOperands (sel : Selection) (i : Instruction) :
    (fixupOperands sel i).desc = i.desc := by
  have h := mapM_desc_fixup i.ops sel.rw
  unfold Instruction.desc fixupOperands
  dsimp only
  rw [h]

theorem makeInstruction_desc {i : Instruction} {ins : Inserted} (h : makeInstruction x i = some ins) :
    ins.desc = i.desc := by
  obtain ⟨sel, -, h⟩ := Option.bind_eq_some_iff.1 h
  obtain ⟨-, -, h⟩ := Option.bind_eq_some_iff.1 h
  obtain ⟨-, -, h⟩ := Option.bind_eq_some_iff.1 h
  rw [← desc_fixupOperands sel i]
  dsimp only at h
  generalize fixupOperands sel i = j at h ⊢
  split_ifs at h
  · split at h
    · rw [← Option.some.inj h]
      rfl
    · exact absurd h (by simp)
  · split at h
    · rw [← Option.some.inj h]
      rfl
    · rw [← Option.some.inj h]
      rfl
  · rw [← Option.some.inj h]
    rfl
  · rw [← Option.some.inj h]
    rfl
  · rw [← Option.some.inj h]
    rfl

theorem type_of_desc {op : Operand} {d : OperandDesc} (h : op.desc = some d) :
    op.type ≠ .invalid := by
  intro htype
  unfold Operand.desc Operand.meaning at h
  rw [htype] at h
  exact absurd h (by simp)

theorem all_types_of_mapM {ops : List Operand} {ds : List OperandDesc}
    (h : ops.mapM Operand.desc = some ds) : (ops.all fun op ↦ op.type != .invalid) = true := by
  induction ops generalizing ds with
  | nil => rfl
  | cons op ops ih =>
    rw [List.mapM_cons] at h
    obtain ⟨d, hop, h⟩ := Option.bind_eq_some_iff.1 h
    obtain ⟨ds', hops, -⟩ := Option.bind_eq_some_iff.1 h
    rw [List.all_cons, ih hops]
    simpa using type_of_desc hop

theorem label_of_desc {op : Operand} {d : OperandDesc} (h : op.desc = some d)
    (hd : d.meaning.isLabel = true) :
    ∃ l, op.value = .annotationInstr l ∧ op.isAnnotationInstr = true := by
  obtain ⟨m, hm, rfl⟩ := Option.map_eq_some_iff.1 h
  have hnot : ∀ m' : Meaning, m'.isLabel = false → m ≠ m' := by
    rintro m' hm' rfl
    exact absurd hd (by simp [hm'])
  unfold Operand.meaning at hm
  split at hm
  case h_5 _ _ l htype hvalue =>
    split_ifs at hm with hlabel
    exact ⟨l, hvalue, hlabel⟩
  case h_6 _ _ l htype hvalue =>
    split_ifs at hm with hlabel
    exact ⟨l, hvalue, hlabel⟩
  case h_1 _ _ r _ _ =>
    obtain ⟨e, -, hm⟩ := Option.map_eq_some_iff.1 hm
    exact absurd hm.symm (hnot _ rfl)
  case h_9 => exact absurd hm (by simp)
  all_goals exact absurd (Option.some.inj hm).symm (hnot _ rfl)

theorem desc_eq_some {i : Instruction} {d : InstructionDesc} (h : i.desc = some d) :
    d.iclass = i.iclass ∧ d.prefixes = i.prefixes ∧ i.ops.mapM Operand.desc = some d.operands := by
  obtain ⟨ds, hds, rfl⟩ := Option.map_eq_some_iff.1 h
  exact ⟨rfl, rfl, hds⟩

theorem makeInstruction_reads {i : Instruction} {d : InstructionDesc} (hd : i.desc = some d)
    (hsel : x.Selects d)
    (hjump : i.isJump = true → d.operands.head?.any (fun e ↦ e.meaning.isLabel) = true) :
    ∃ ins, makeInstruction x i = some ins ∧ ins.desc = some d := by
  obtain ⟨hiclass, -, hops⟩ := desc_eq_some hd
  obtain ⟨sel, hselect, hdirection⟩ := hsel i.ops hops
  have hmake : ∃ ins, makeInstruction x i = some ins := by
    unfold makeInstruction
    rw [← hiclass, hselect]
    simp only [Option.bind_eq_bind, Option.bind_some, all_types_of_mapM hops, hdirection, guard,
      if_true, Bool.not_false]
    change ∃ ins, (if (fixupOperands sel i).isJump = true then _ else _) = some ins
    split_ifs with h₁ h₂ h₃ h₄
    · obtain ⟨e, he, hlabel⟩ := (Option.any_eq_true _ _).1 (hjump h₁)
      obtain ⟨es, hes⟩ := List.head?_eq_some_iff.1 he
      obtain ⟨op, ops, hcons⟩ : ∃ op ops, i.ops = op :: ops := by
        cases h : i.ops with
        | nil =>
          rw [h, hes] at hops
          exact absurd hops (by simp)
        | cons op ops => exact ⟨op, ops, rfl⟩
      rw [hcons, hes] at hops
      obtain ⟨l, hvalue, hannotation⟩ := label_of_desc (mapM_cons_eq_some.1 hops).1 hlabel
      have hfixed : (fixupOperands sel i).ops = fixupOperand (sel.rw 0) op ::
          ops.mapIdx fun n op ↦ fixupOperand (sel.rw (n + 1)) op := by
        simp [fixupOperands, hcons, List.mapIdx_cons]
      obtain ⟨type, value, width, action, segment, isSticky, isExplicit, isCompound,
        isEffectiveAddress, isAnnotationInstr⟩ := op
      subst hvalue hannotation
      rw [hfixed]
      exact ⟨_, rfl⟩
    · cases (fixupOperands sel i).ops <;> exact ⟨_, rfl⟩
    · exact ⟨_, rfl⟩
    · exact ⟨_, rfl⟩
    · exact ⟨_, rfl⟩
  obtain ⟨ins, hins⟩ := hmake
  exact ⟨ins, hins, (makeInstruction_desc hins).trans hd⟩

def AsmInstruction.body (i : AsmInstruction x) (rest : List Char) : List Char :=
  prefixesText i.prefixes ++ (x.iclassName i.iclass ++
    (i.afterName.text ++ (argumentsText i.arguments ++ ';' :: rest)))

theorem text_append (i : AsmInstruction x) (rest : List Char) :
    i.text ++ rest = i.blanks.text ++ i.body rest := by
  simp [AsmInstruction.text, AsmInstruction.body, prefixesText]

theorem notWhite_body (i : AsmInstruction x) (rest : List Char) : NotWhite (i.body rest) := by
  unfold AsmInstruction.body
  cases i.prefixes with
  | nil => exact notWhite_of_isWord i.named.isWord i.named.ne_nil _
  | cons q qs =>
    have h := notWhite_of_isWord (isWord_prefixName q.1) (prefixName_ne_nil q.1)
      (q.2.text ++ (prefixesText qs ++ (x.iclassName i.iclass ++
        (i.afterName.text ++ (argumentsText i.arguments ++ ';' :: rest)))))
    simpa [prefixesText] using h

theorem ends_afterName (i : AsmInstruction x) (rest : List Char) :
    Ends (i.afterName.text ++ (argumentsText i.arguments ++ ';' :: rest)) := by
  by_cases hnil : i.arguments = []
  · rw [hnil]
    exact ends_blanks i.afterName (ends_cons (by decide) rest)
  · exact ends_gap ⟨i.afterName, i.gap hnil⟩ _

theorem length_argumentsTail (as : List (Argument x)) : as.length ≤ (argumentsTail as).length := by
  induction as with
  | nil => exact le_rfl
  | cons a as ih =>
    simp only [argumentsTail, List.length_cons, List.length_append]
    omega

theorem length_arguments (as : List (Argument x)) (blanks : Blanks) (rest : List Char) :
    as.length ≤
      (consumeWhiteSpace (blanks.text ++ (argumentsText as ++ ';' :: rest))).length := by
  cases as with
  | nil => exact Nat.zero_le _
  | cons a as =>
    obtain ⟨both, -, htext⟩ := argumentsText_blanks a as blanks (';' :: rest)
    obtain ⟨c, t, hoperand, -⟩ := operand_head a.operand []
    have htail := length_argumentsTail as
    rw [List.append_nil] at hoperand
    rw [htext, consumeWhiteSpace_blanks both (notWhite_operand a.operand _).1, hoperand]
    simp only [List.length_cons, List.length_append, List.cons_append]
    omega

theorem parseInstruction_body (isColdCode : Bool) (i : AsmInstruction x) (s : Scope)
    (rest : List Char) :
    let ch := consumeWhiteSpace (i.afterName.text ++ (argumentsText i.arguments ++ ';' :: rest))
    parseInstruction x isColdCode s (i.body rest) =
      (parseOperands x i.iclass (ch.length + 1) s 0 [] ch).bind fun q ↦
        (accept ';' q.2.2).bind fun ch ↦
          (makeInstruction x
            { iclass := i.iclass
              category := x.iclassCategory i.iclass
              prefixes := i.prefixes.foldl (fun p q ↦ q.1.add p) {}
              ops := q.1 }).map fun ins ↦ (ins, q.2.1, ch) := by
  have hfuel : i.prefixes.length < (i.body rest).length + 1 := by
    have h := length_prefixesText i.prefixes
    simp only [AsmInstruction.body, List.length_append]
    omega
  have hprefixes : parseInstructionPrefixes ((i.body rest).length + 1) {} (i.body rest) =
      some (i.prefixes.foldl (fun p q ↦ q.1.add p) {}, x.iclassName i.iclass,
        i.afterName.text ++ (argumentsText i.arguments ++ ';' :: rest)) :=
    parseInstructionPrefixes_append i.prefixes i.named (ends_afterName i rest) hfuel {}
      (consumeWhiteSpace_of_notWhite (notWhite_body i rest))
  dsimp only
  unfold parseInstruction
  simp only [hprefixes, Option.bind_eq_bind, Option.bind_some,
    tryParseAnnotationInstruction_name i.named isColdCode s, i.named.strToIClass_iclassName]
  cases parseOperands x i.iclass _ s 0 [] _ with
  | none => rfl
  | some q =>
    dsimp only [Option.bind_some]
    cases accept ';' q.2.2 with
    | none => rfl
    | some ch =>
      dsimp only [Option.bind_some]
      cases makeInstruction x _ <;> rfl

theorem parseInstruction_append (isColdCode : Bool) (i : AsmInstruction x) {s s' : Scope}
    {vars : Vars} {d : InstructionDesc} (hagrees : Agrees vars s)
    (hden : i.denote s = some (d, s')) (hsel : x.Selects d) (rest : List Char) :
    (i.Readable vars → ∃ ins,
      parseInstruction x isColdCode s (i.body rest) = some (ins, s', rest) ∧ ins.desc = some d) ∧
      (¬i.Readable vars → ∀ ins q,
        parseInstruction x isColdCode s (i.body rest) = some (ins, q) → ins.desc ≠ some d) := by
  obtain ⟨⟨operands, s₁⟩, hargs, hden⟩ := Option.bind_eq_some_iff.1 hden
  obtain ⟨hjump, hd, hs⟩ : ((x.iclassCategory i.iclass = .uncondBr ∨
      x.iclassCategory i.iclass = .condBr) →
        operands.head?.any (fun e ↦ e.meaning.isLabel) = true) ∧
      { iclass := i.iclass
        prefixes := i.prefixes.foldl (fun p q ↦ q.1.add p) {}
        operands := operands } = d ∧ s₁ = s' := by
    by_cases hcat : x.iclassCategory i.iclass = .uncondBr ∨ x.iclassCategory i.iclass = .condBr
    · simp only [if_pos hcat] at hden
      obtain ⟨u, hguard, hden⟩ := Option.bind_eq_some_iff.1 hden
      obtain ⟨hd, hs⟩ := Prod.mk.inj (Option.some.inj hden)
      refine ⟨fun _ ↦ ?_, hd, hs⟩
      by_contra hnot
      simp [guard, hnot] at hguard
    · simp only [if_neg hcat] at hden
      obtain ⟨hd, hs⟩ := Prod.mk.inj (Option.some.inj hden)
      exact ⟨fun h ↦ absurd h hcat, hd, hs⟩
  subst hd hs
  have hreads := parseOperands_append i.iclass vars i.arguments i.afterName rest
    (Nat.lt_succ_of_le (length_arguments i.arguments i.afterName rest)) i.numOperands hagrees hargs
  rw [parseInstruction_body]
  constructor
  · intro hreadable
    obtain ⟨ops, hparse, hops⟩ := hreads.reads hreadable
    rw [List.nil_append] at hparse
    have hdesc : Instruction.desc
        { iclass := i.iclass
          category := x.iclassCategory i.iclass
          prefixes := i.prefixes.foldl (fun p q ↦ q.1.add p) {}
          ops := ops } = some
        { iclass := i.iclass
          prefixes := i.prefixes.foldl (fun p q ↦ q.1.add p) {}
          operands := operands } := by
      simp only [Instruction.desc, hops, Option.map_some]
    obtain ⟨ins, hmake, hins⟩ := makeInstruction_reads hdesc hsel (by
      intro h
      apply hjump
      simpa [Instruction.isJump] using h)
    refine ⟨ins, ?_, hins⟩
    rw [hparse, Option.bind_some, accept_cons, Option.bind_some, hmake]
    rfl
  · intro hnot ins q hparse hins
    obtain ⟨⟨ops, s₂, ch⟩, hops, hparse⟩ := Option.bind_eq_some_iff.1 hparse
    obtain ⟨ch', -, hparse⟩ := Option.bind_eq_some_iff.1 hparse
    obtain ⟨ins', hmake, hparse⟩ := Option.map_eq_some_iff.1 hparse
    rw [← (Prod.mk.inj hparse).1, makeInstruction_desc hmake] at hins
    exact hreads.fails hnot ops (s₂, ch) hops (desc_eq_some hins).2.2

end Instructions

section Programs

variable {x : Xed}

theorem agrees_denoteArguments (as : List (Argument x)) {vars : Vars} {s s' : Scope}
    {immediates : ℕ} {ds : List OperandDesc}
    (hden : denoteArguments s immediates as = some (ds, s')) (h : Agrees vars s) :
    Agrees vars s' := by
  induction as generalizing s immediates ds with
  | nil =>
    rw [← (Prod.mk.inj (Option.some.inj hden)).2]
    exact h
  | cons a as ih =>
    obtain ⟨m, s₁, ds', hfirst, hothers, -⟩ := denoteArguments_cons hden
    exact ih hothers (agrees_denote a.operand hfirst h)

theorem agrees_denoteInstruction (i : AsmInstruction x) {vars : Vars} {s s' : Scope}
    {d : InstructionDesc} (hden : i.denote s = some (d, s')) (h : Agrees vars s) :
    Agrees vars s' := by
  obtain ⟨⟨operands, s₁⟩, hargs, hden⟩ := Option.bind_eq_some_iff.1 hden
  have hs : s₁ = s' := by
    dsimp only at hden
    split_ifs at hden
    · obtain ⟨u, -, hden⟩ := Option.bind_eq_some_iff.1 hden
      exact (Prod.mk.inj (Option.some.inj hden)).2
    · exact (Prod.mk.inj (Option.some.inj hden)).2
  rw [← hs]
  exact agrees_denoteArguments i.arguments hargs h

theorem mapM_inserted_cons {ins : Inserted} {is : List Inserted} {d : InstructionDesc}
    {ds : List InstructionDesc} :
    (ins :: is).mapM Inserted.desc = some (d :: ds) ↔
      ins.desc = some d ∧ is.mapM Inserted.desc = some ds := by
  rw [List.mapM_cons]
  cases ins.desc with
  | none => simp
  | some e => cases List.mapM Inserted.desc is <;> simp

theorem body_ne_nil (i : AsmInstruction x) (rest : List Char) : i.body rest ≠ [] := by
  unfold AsmInstruction.body
  simp

theorem parseInstructions_cons (isColdCode : Bool) (i : AsmInstruction x) (fuel : ℕ) (s : Scope)
    (rest : List Char) :
    parseInstructions x isColdCode (fuel + 1) s (i.text ++ rest) =
      (parseInstruction x isColdCode s (i.body rest)).bind fun p ↦
        (parseInstructions x isColdCode fuel p.2.1 p.2.2).map fun q ↦ (p.1 :: q.1, q.2) := by
  have hbody : consumeWhiteSpace (i.text ++ rest) = i.body rest := by
    rw [text_append]
    exact consumeWhiteSpace_blanks i.blanks (notWhite_body i rest)
  have hne : ¬(i.text ++ rest = [] ∨ consumeWhiteSpace (i.text ++ rest) = []) := by
    rw [hbody]
    rintro (h | h)
    · rw [h] at hbody
      exact body_ne_nil i rest hbody.symm
    · exact body_ne_nil i rest h
  rw [parseInstructions, if_neg hne, hbody]
  cases parseInstruction x isColdCode s (i.body rest) with
  | none => rfl
  | some p =>
    dsimp only [Option.bind_eq_bind, Option.bind_some]
    cases parseInstructions x isColdCode fuel p.2.1 p.2.2 <;> rfl

theorem parseInstructions_append (isColdCode : Bool) (is : List (AsmInstruction x))
    (blanks : Blanks) {fuel : ℕ} (hfuel : is.length < fuel) {vars : Vars} {s : Scope}
    (hagrees : Agrees vars s) {ds : List InstructionDesc}
    (hden : denoteInstructions s is = some ds) (hsel : ∀ d ∈ ds, x.Selects d) :
    (∃ out s', parseInstructions x isColdCode fuel s
        (is.flatMap AsmInstruction.text ++ blanks.text) = some (out, s') ∧
      out.mapM Inserted.desc = some ds) ↔ ∀ i ∈ is, i.Readable vars := by
  induction is generalizing fuel s ds with
  | nil =>
    obtain ⟨fuel, rfl⟩ := Nat.exists_eq_succ_of_ne_zero (by omega : fuel ≠ 0)
    have hds : ds = [] := (Option.some.inj hden).symm
    subst hds
    have hend : consumeWhiteSpace blanks.text = [] := by
      have h := consumeWhiteSpace_blanks blanks (fun c hc ↦ nomatch hc : NotWhite [])
      rwa [List.append_nil] at h
    have hparse : parseInstructions x isColdCode (fuel + 1) s blanks.text = some ([], s) := by
      rw [parseInstructions, if_pos (Or.inr hend)]
    exact iff_of_true ⟨[], s, hparse, rfl⟩ (by simp)
  | cons i is ih =>
    obtain ⟨fuel, rfl⟩ := Nat.exists_eq_succ_of_ne_zero (by omega : fuel ≠ 0)
    simp only [List.length_cons] at hfuel
    obtain ⟨⟨d, s₁⟩, hfirst, hden⟩ := Option.bind_eq_some_iff.1 hden
    obtain ⟨ds', hothers, hden⟩ := Option.bind_eq_some_iff.1 hden
    have hds : ds = d :: ds' := (Option.some.inj hden).symm
    subst hds
    obtain ⟨hreads, hfails⟩ := parseInstruction_append isColdCode i hagrees hfirst
      (hsel d List.mem_cons_self) (is.flatMap AsmInstruction.text ++ blanks.text)
    have htail := ih (show is.length < fuel by omega) (agrees_denoteInstruction i hfirst hagrees)
      hothers
      fun e he ↦ hsel e (List.mem_cons_of_mem d he)
    rw [List.flatMap_cons, List.append_assoc, parseInstructions_cons, List.forall_mem_cons]
    constructor
    · rintro ⟨out, s', hparse, hout⟩
      obtain ⟨⟨ins, s₂, ch⟩, hins, hparse⟩ := Option.bind_eq_some_iff.1 hparse
      obtain ⟨⟨out', s₃⟩, hrest, hparse⟩ := Option.map_eq_some_iff.1 hparse
      obtain ⟨rfl, rfl⟩ := Prod.mk.inj hparse
      obtain ⟨hdesc, hdescs⟩ := mapM_inserted_cons.1 hout
      have hreadable : i.Readable vars := by
        by_contra hnot
        exact hfails hnot ins (s₂, ch) hins hdesc
      refine ⟨hreadable, htail.1 ?_⟩
      obtain ⟨ins', hins', -⟩ := hreads hreadable
      rw [hins', Option.some.injEq, Prod.mk.injEq, Prod.mk.injEq] at hins
      obtain ⟨rfl, rfl, rfl⟩ := hins
      exact ⟨out', s₃, hrest, hdescs⟩
    · rintro ⟨hreadable, hrest⟩
      obtain ⟨ins, hins, hdesc⟩ := hreads hreadable
      obtain ⟨out, s', hparse, hout⟩ := htail.2 hrest
      refine ⟨ins :: out, s', ?_, mapM_inserted_cons.2 ⟨hdesc, hout⟩⟩
      rw [hins, Option.bind_some, hparse]
      rfl

theorem length_instructions (is : List (AsmInstruction x)) :
    is.length ≤ (is.flatMap AsmInstruction.text).length := by
  induction is with
  | nil => exact le_rfl
  | cons i is ih =>
    have hpos : 0 < i.text.length := by
      have h := List.length_pos_of_ne_nil (body_ne_nil i [])
      rw [← List.append_nil i.text, text_append, List.length_append]
      omega
    simp only [List.flatMap_cons, List.length_append, List.length_cons]
    omega

/-- The parser undoes the printing of a program exactly if each of its instructions is readable. -/
theorem compileInlineAssemblyBlock_undoes_iff (isColdCode : Bool) (s : Scope) (p : Program x)
    {ds : List InstructionDesc} (hden : p.denote s = some ds) (hsel : ∀ d ∈ ds, x.Selects d) :
    (∃ out s', compileInlineAssemblyBlock x isColdCode s p.text = some (out, s') ∧
      out.mapM Inserted.desc = some ds) ↔ ∀ i ∈ p.instructions, i.Readable s.vars := by
  have hlength := length_instructions p.instructions
  have hfuel : p.instructions.length < p.text.length + 1 := by
    simp only [Program.text, List.length_append]
    omega
  exact parseInstructions_append isColdCode p.instructions p.blanks hfuel (fun _ _ h _ ↦ h) hden hsel

end Programs

def movTables : Xed where
  regName r := if r = 74 then ['R', 'A', 'X'] else if r = 77 then ['R', 'B', 'X'] else []
  strToReg w := if w = ['R', 'A', 'X'] then 74 else if w = ['R', 'B', 'X'] then 77 else regInvalid
  registerWidthBits _ := 64
  iclassName c := if c = .other 383 then ['M', 'O', 'V'] else []
  strToIClass w := if w = ['M', 'O', 'V'] then some (.other 383) else none
  iclassCategory _ := .other
  selectInstruction _ _ := some
    { iform := 1
      isel := 1
      rw := fun n ↦ if n = 0 then .w else .r
      implicitOps := []
      writesDirectionFlag := false }

theorem movTables_namesReg {r : ℕ} (hr : r = 74 ∨ r = 77) : movTables.NamesReg r := by
  rcases hr with rfl | rfl
  · exact ⟨by decide, by decide, by decide, by decide, by decide⟩
  · exact ⟨by decide, by decide, by decide, by decide, by decide⟩

theorem movTables_namesIClass : movTables.NamesIClass (.other 383) :=
  ⟨by decide, by decide, fun _ ↦ rfl, by decide, by decide⟩

def space : Gap := { text := [' '] }

/-- `MOV r64 RAX, m64 [RBX + n];` -/
def movDisp (n : Numeral) (hword : IsWord n.text) (hsmall : n.value < 2 ^ 31) :
    Program movTables where
  blanks := {}
  instructions := [
    { blanks := {}
      prefixes := []
      iclass := .other 383
      named := movTables_namesIClass
      afterName := space.toBlanks
      arguments := [
        { before := {}
          operand := .register { digits := ['6', '4'] } space
            (.arch 74 (movTables_namesReg (Or.inl rfl)))
          after := {} },
        { before := space.toBlanks
          operand := .memory { digits := ['6', '4'] } space.toBlanks
            { opening := {}
              address := .base (.arch 77 (movTables_namesReg (Or.inr rfl)))
                (some { plus := { before := space, after := space.toBlanks }
                        numeral := n
                        isWord := hword
                        small := hsmall })
              closing := {} }
          after := {} }]
      gap := fun _ ↦ by decide
      numOperands := show 2 ≤ 11 by decide }]

def noScope : Scope := { vars := fun _ ↦ none, nextLabel := 0, nextRegister := 2048 }

def movDesc (disp : ℤ) : InstructionDesc where
  iclass := .other 383
  prefixes := {}
  operands := [
    { meaning := .register (.native 74), width := 64 },
    { meaning := .memory (some (.native 77)) none 0 disp regInvalid, width := 64 }]

theorem compileInlineAssemblyBlock_undoes_mov :
    (∃ out s', compileInlineAssemblyBlock movTables false noScope
        (movDisp ⟨false, ['1', '6'], by decide, by decide, by decide⟩ (by decide)
          (by decide)).text = some (out, s') ∧
      out.mapM Inserted.desc = some [movDesc 16]) ↔
    ∀ i ∈ (movDisp ⟨false, ['1', '6'], by decide, by decide, by decide⟩ (by decide)
      (by decide)).instructions, i.Readable noScope.vars :=
  compileInlineAssemblyBlock_undoes_iff false noScope _ rfl fun _ _ _ _ ↦ ⟨_, rfl, rfl⟩

/-- The displacement of `MOV r64 RAX, m64 [RBX + 0x10];` is read as zero. -/
theorem compileInlineAssemblyBlock_loses_hexadecimal :
    ∃ (x : Xed) (s : Scope) (p : Program x) (ds : List InstructionDesc),
      p.denote s = some ds ∧ (∀ d ∈ ds, x.Selects d) ∧
        ¬∃ out s', compileInlineAssemblyBlock x false s p.text = some (out, s') ∧
          out.mapM Inserted.desc = some ds := by
  let p := movDisp ⟨true, ['1', '0'], by decide, by decide, by decide⟩ (by decide) (by decide)
  refine ⟨movTables, noScope, p, [movDesc 16], rfl, fun _ _ _ _ ↦ ⟨_, rfl, rfl⟩, ?_⟩
  rintro ⟨out, s', hparse, hout⟩
  have hread : (compileInlineAssemblyBlock movTables false noScope p.text).map
      (fun q ↦ q.1.mapM Inserted.desc) = some (some [movDesc 0]) := by
    decide +kernel
  rw [hparse, Option.map_some, hout] at hread
  exact absurd hread (by decide)

end Granary.Assemble.CompileInlineAssembly
