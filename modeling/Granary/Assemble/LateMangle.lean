import Granary.Arch.Util

namespace Granary.Assemble.LateMangle

open Granary.Arch
open Granary.Arch.Util (signExtended EncodedImm encodeImm signedWidthBits)

/-- A label of the block, or one that is made while the instruction with index `i`
is mangled. -/
inductive Label
  | user (n : ℕ)
  | fresh (i k : ℕ)
deriving DecidableEq, Repr

/-- The class of the target block of a `ControlFlowInstruction`. -/
inductive TargetKind
  | native | cached | other
deriving DecidableEq, Repr

/-- Where a direct instruction goes: to another block (a `ControlFlowInstruction`),
to an address (any other `NativeInstruction`), or to a label of its own block (a
`BranchInstruction`). -/
inductive Dest
  | block (kind : TargetKind) (pc : Addr)
  | pc (a : Addr)
  | label (n : ℕ)
deriving DecidableEq, Repr

inductive SourceInstr
  | label (n : ℕ)
  | jump (c : BranchClass) (ecx : Bool) (dest : Dest)
  | call (dest : Dest) (isApp : Bool) (returnAddress : Addr)
  | plain (i : ℕ)
deriving DecidableEq, Repr

/-- The target operand of a mangled instruction, where `mem a` is the memory of a
`NativeAddress` that holds `a`. -/
inductive Target
  | pc (a : Addr)
  | label (l : Label)
  | mem (a : Addr)
deriving DecidableEq, Repr

inductive Item
  | label (l : Label)
  | jump (c : BranchClass) (ecx : Bool) (t : Target)
  | call (t : Target) (returnAddress : Addr)
  | ud2
  | pushImm (v : Addr)
  | movTemp (v : Addr)
  | pushTemp
  | plain (i : ℕ)
deriving DecidableEq, Repr

structure BlockMangler where
  cachePc : Addr
  transparentReturns : Bool
  /-- The address of the object of a label, which shares its storage with the
  target address of a branch to the label. -/
  labelAddr : ℕ → Addr

def addrIsOffsetReachable (source dest : Addr) : Bool :=
  let diff := (source - dest).toInt
  decide (-2 ^ 31 ≤ diff) && decide (diff ≤ 2 ^ 31 - 2 ^ 27)

namespace BlockMangler

def addressNeedsRelativizing (m : BlockMangler) (pc : Addr) : Bool :=
  !addrIsOffsetReachable m.cachePc pc

def targetPc (m : BlockMangler) : Dest → Addr
  | .block _ a => a
  | .pc a => a
  | .label n => m.labelAddr n

end BlockMangler

def Dest.direct : Dest → Target
  | .block _ a => .pc a
  | .pc a => .pc a
  | .label n => .label (.user n)

/-- An instruction and what has been inserted around it. -/
structure Around where
  before : List Item := []
  instr : Item
  after : List Item := []

namespace Around

def insertBefore (a : Around) (x : Item) : Around := { a with before := a.before ++ [x] }

def insertAfter (a : Around) (x : Item) : Around := { a with after := x :: a.after }

def items (a : Around) : List Item := a.before ++ a.instr :: a.after

end Around

def insertUD2AfterCFI (a : Around) : Around := a.insertAfter .ud2

def relativizeConditionalBranch (i : ℕ) (c : BranchClass) (ecx : Bool) (targetPc : Addr)
    (cfi : Around) : Around :=
  let iclass := BranchClass.kReversedConditionalCFIs[c.index]?.join
  match iclass.bind fun r ↦ BranchClass.kConditionalCFIBuilders[r.index]?.join with
  | none => cfi
  | some r =>
    let label := Label.fresh i 0
    let cfi := cfi.insertBefore (.jump r ecx (.label label))
    let cfi := cfi.insertAfter (.label label)
    let cfi := { cfi with instr := .jump .jmp false (.mem targetPc) }
    insertUD2AfterCFI cfi

def relativizeLoop (i : ℕ) (c : BranchClass) (ecx : Bool) (dest : Dest) (targetPc : Addr)
    (targetIsFarAway : Bool) (cfi : Around) : Around :=
  let cfi := if targetIsFarAway then
      insertUD2AfterCFI { cfi with instr := .jump .jmp false (.mem targetPc) }
    else { cfi with instr := .jump .jmp false dest.direct }
  let doLoop := Label.fresh i 0
  let tryLoop := Label.fresh i 1
  let cfi := cfi.insertBefore (.jump .jmp false (.label tryLoop))
  let cfi := cfi.insertBefore (.label doLoop)
  let cfi := cfi.insertAfter (.jump c ecx (.label doLoop))
  cfi.insertAfter (.label tryLoop)

/-- `RelativizeDirectCFI`, for jumps. -/
def relativizeJump (m : BlockMangler) (i : ℕ) (c : BranchClass) (ecx : Bool) (dest : Dest)
    (cfi : Around) : Around :=
  let targetPc := m.targetPc dest
  let targetIsFarAway := m.addressNeedsRelativizing targetPc
  if c = .jmp then
    if targetIsFarAway then
      insertUD2AfterCFI { cfi with instr := .jump .jmp false (.mem targetPc) }
    else cfi
  else if c.isLoopInstruction then relativizeLoop i c ecx dest targetPc targetIsFarAway cfi
  else if c.isConditionalJump then
    if targetIsFarAway then relativizeConditionalBranch i c ecx targetPc cfi else cfi
  else cfi

/-- `RelativizeDirectCFI`, for calls. -/
def relativizeCall (m : BlockMangler) (dest : Dest) : Target :=
  if m.addressNeedsRelativizing (m.targetPc dest) then .mem (m.targetPc dest) else dest.direct

def mangleTailCall (returnAddress : Addr) (cfi : Around) : Around :=
  if (returnAddress.setWidth 32).setWidth 64 = returnAddress then
    cfi.insertBefore (.pushImm returnAddress)
  else (cfi.insertBefore (.movTemp returnAddress)).insertBefore .pushTemp

def mangleJump (m : BlockMangler) (i : ℕ) (c : BranchClass) (ecx : Bool) (dest : Dest) : Around :=
  let cfi : Around := { instr := .jump c ecx dest.direct }
  match dest with
  | .block .native _ | .pc _ | .label _ => relativizeJump m i c ecx dest cfi
  | .block .cached pc | .block .other pc =>
    if c.isLoopInstruction then relativizeLoop i c ecx dest pc false cfi else cfi

def mangleCall (m : BlockMangler) (dest : Dest) (isApp : Bool) (returnAddress : Addr) : Around :=
  match dest with
  | .block kind _ =>
    let target := if kind = .native then relativizeCall m dest else dest.direct
    if m.transparentReturns && isApp then
      mangleTailCall returnAddress { instr := .jump .jmp false target }
    else { instr := .call target returnAddress }
  | .pc _ | .label _ => { instr := .call (relativizeCall m dest) returnAddress }

def relativizeInstruction (m : BlockMangler) (i : ℕ) : SourceInstr → List Item
  | .label n => [.label (.user n)]
  | .jump c ecx dest => (mangleJump m i c ecx dest).items
  | .call dest isApp returnAddress => (mangleCall m dest isApp returnAddress).items
  | .plain j => [.plain j]

def mangle (m : BlockMangler) (i : ℕ) : List SourceInstr → List Item
  | [] => []
  | x :: xs => relativizeInstruction m i x ++ mangle m (i + 1) xs

/-- Where control goes after an instruction: to the next one, to a label of the
block, or to an address. -/
inductive Where
  | next
  | label (n : ℕ)
  | addr (a : Addr)
deriving DecidableEq, Repr

def Dest.place : Dest → Where
  | .block _ a => .addr a
  | .pc a => .addr a
  | .label n => .label n

def SourceInstr.exec : SourceInstr → AppState → Where × AppState
  | .jump c ecx dest, s =>
    let r := c.branch ecx s
    (if r.1 then dest.place else .next, r.2)
  | .call dest _ returnAddress, s => (dest.place, s.push returnAddress)
  | .label _, s | .plain _, s => (.next, s)

def SourceInstr.isDirectCFI : SourceInstr → Bool
  | .jump c _ _ => c != .jmpFar && c != .callNear
  | .call .. => true
  | .label _ | .plain _ => false

/-- The state of the mangled code, with the temporary register that it uses. -/
structure State where
  app : AppState
  temp : BitVec 64

inductive Config
  | at (rest : List Item) (s : State)
  | left (a : Addr) (s : State)
  | trapped
  | notEncoded

def dropTo (l : Label) (code : List Item) : List Item := code.dropWhile (· ≠ .label l)

def goto (code : List Item) (s : State) : Target → Config
  | .pc a | .mem a => .left a s
  | .label l => .at (dropTo l code) s

/-- What a `PUSH` with 64-bit operands pushes. It has an immediate of 8 or of 32
bits, and no other. -/
def pushed (x : EncodedImm) : Option (BitVec 64) :=
  if x.width = 8 ∨ x.width = 32 then some (signExtended x.width x.imm0) else none

/-- What a `MOV` to a 64-bit register moves there. It has an immediate of 32 or of
64 bits. -/
def moved (x : EncodedImm) : Option (BitVec 64) :=
  if x.width = 32 ∨ x.width = 64 then some (signExtended x.width x.imm0) else none

/-- What one of the instructions that `MangleTailCall` inserts does, as it is
encoded; it has no encoding when the processor has no such immediate. -/
def execEncoded (s : State) : Item → Option State
  | .pushImm v =>
    ((encodeImm .imm0 v true 32).bind pushed).map fun v ↦ { s with app := s.app.push v }
  | .movTemp v => ((encodeImm .imm0 v false 64).bind moved).map fun v ↦ { s with temp := v }
  | .pushTemp => some { s with app := s.app.push s.temp }
  | _ => none

variable (effect : ℕ → AppState → AppState)

def step (code : List Item) : Config → Config
  | .at (.label _ :: rest) s => .at rest s
  | .at (.jump c ecx t :: rest) s =>
    let r := c.branch ecx s.app
    if r.1 then goto code { s with app := r.2 } t else .at rest { s with app := r.2 }
  | .at (.call t returnAddress :: _) s => goto code { s with app := s.app.push returnAddress } t
  | .at (.ud2 :: _) _ => .trapped
  | .at (.pushImm v :: rest) s => ((execEncoded s (.pushImm v)).map (.at rest)).getD .notEncoded
  | .at (.movTemp v :: rest) s => ((execEncoded s (.movTemp v)).map (.at rest)).getD .notEncoded
  | .at (.pushTemp :: rest) s => ((execEncoded s .pushTemp).map (.at rest)).getD .notEncoded
  | .at (.plain i :: rest) s => .at rest { s with app := effect i s.app }
  | .at [] s => .at [] s
  | .left a s => .left a s
  | .trapped => .trapped
  | .notEncoded => .notEncoded

/-- The configuration is at a place, where `post` is the code that follows. -/
def Config.IsAt (code post : List Item) : Config → Where → AppState → Prop
  | .at rest s, .next, app => rest = post ∧ s.app = app
  | .at rest s, .label n, app => rest = dropTo (.user n) code ∧ s.app = app
  | .left a s, .addr b, app => a = b ∧ s.app = app
  | _, _, _ => False

/-- Every direct control-flow instruction of the block does the same, in the place
where the mangled code has it, as it did before. -/
def Preserves (m : BlockMangler) (block : List SourceInstr) : Prop :=
  ∀ pre x post, block = pre ++ x :: post → x.isDirectCFI = true → ∀ s : State,
    ∃ n, ((step effect (mangle m 0 block))^[n + 1]
      (.at (mangle m pre.length (x :: post)) s)).IsAt (mangle m 0 block)
      (mangle m (pre.length + 1) post) (x.exec s.app).1 (x.exec s.app).2

/-- A loop that goes too far away, or a branch to a label whose object is too far
away. -/
def FarLoopOrLabel (m : BlockMangler) : SourceInstr → Prop
  | .jump c _ dest =>
    m.addressNeedsRelativizing (m.targetPc dest) = true ∧
      match dest with
      | .block .native _ | .pc _ => c.isLoopInstruction = true
      | .block _ _ => False
      | .label _ => c ≠ .jmpFar ∧ c ≠ .callNear
  | .call dest _ _ =>
    m.addressNeedsRelativizing (m.targetPc dest) = true ∧ ∃ n, dest = .label n
  | .label _ | .plain _ => False

/-- An immediate that is not all ones is pushed exactly when it is in the signed 32-bit
range. -/
theorem pushed_encodeImm {imm : BitVec 64} (h : imm ≠ -1) (width : ℕ) :
    (encodeImm .imm0 imm true width).bind pushed =
      if -2 ^ 31 ≤ imm.toInt ∧ imm.toInt < 2 ^ 31 then some imm else none := by
  have h8 := Util.signExtended_eq_iff 8 (by decide) (by decide) imm
  have h32 := Util.signExtended_eq_iff 32 (by decide) (by decide) imm
  simp only [Util.encodeImm_push h, Option.bind_some, pushed, signedWidthBits, Nat.reduceSub]
    at h8 h32 ⊢
  split_ifs with h₁ h₂ h₃ h₄ h₅ h₆ <;> first
    | rw [h8.2 (by omega)]
    | rw [h32.2 (by omega)]
    | omega
    | rfl

theorem execEncoded_pushImm {a : Addr} (h : a.toNat < 2 ^ 31) (s : State) :
    execEncoded s (.pushImm a) = some { s with app := s.app.push a } := by
  have hcond := BitVec.toInt_eq_toNat_cond a
  have hne : a ≠ -1 := by bv_omega
  have hpushed : (encodeImm .imm0 a true 32).bind pushed = some a := by
    rw [pushed_encodeImm hne, if_pos]
    split_ifs at hcond <;> omega
  show ((encodeImm .imm0 a true 32).bind pushed).map _ = _
  rw [hpushed, Option.map_some]

theorem execEncoded_pushImm_none {a : Addr} (hge : 2 ^ 31 ≤ a.toNat) (hlt : a.toNat < 2 ^ 32)
    (s : State) : execEncoded s (.pushImm a) = none := by
  have hcond := BitVec.toInt_eq_toNat_cond a
  have hne : a ≠ -1 := by bv_omega
  have hpushed : (encodeImm .imm0 a true 32).bind pushed = none := by
    rw [pushed_encodeImm hne, if_neg]
    split_ifs at hcond <;> omega
  show ((encodeImm .imm0 a true 32).bind pushed).map _ = _
  rw [hpushed, Option.map_none]

theorem execEncoded_movTemp (a : Addr) (s : State) :
    execEncoded s (.movTemp a) = some { s with temp := a } := by
  have h64 := Util.signExtended_eq_iff 64 (by decide) (by decide) a
  have hmoved : (encodeImm .imm0 a false 64).bind moved = some (signExtended 64 a) := rfl
  show ((encodeImm .imm0 a false 64).bind moved).map _ = _
  rw [hmoved, h64.2 ⟨BitVec.le_toInt a, BitVec.toInt_lt⟩, Option.map_some]

theorem execEncoded_pushTemp (s : State) :
    execEncoded s .pushTemp = some { s with app := s.app.push s.temp } := rfl

/-- A call has become a jump, but the return address cannot be pushed. -/
def ReturnAddressNotEncoded (m : BlockMangler) : SourceInstr → Prop
  | .call (.block _ _) isApp ret =>
    m.transparentReturns = true ∧ isApp = true ∧ 2 ^ 31 ≤ ret.toNat ∧ ret.toNat < 2 ^ 32
  | .call (.pc _) _ _ | .call (.label _) _ _ | .jump .. | .label _ | .plain _ => False

theorem mangle_append (m : BlockMangler) (i : ℕ) (xs ys : List SourceInstr) :
    mangle m i (xs ++ ys) = mangle m i xs ++ mangle m (i + xs.length) ys := by
  induction xs generalizing i with
  | nil => rfl
  | cons x xs ih =>
    simp only [List.cons_append, mangle, ih, List.append_assoc, List.length_cons]
    rw [Nat.add_assoc, Nat.add_comm 1]

theorem fresh_of_mem {m : BlockMangler} {i j k : ℕ} {x : SourceInstr}
    (h : Item.label (.fresh j k) ∈ relativizeInstruction m i x) : j = i := by
  cases x with
  | label n => simp [relativizeInstruction] at h
  | plain n => simp [relativizeInstruction] at h
  | call dest isApp ret =>
    simp only [relativizeInstruction, Around.items, mangleCall, mangleTailCall] at h
    cases dest <;> dsimp only at h <;> (try split_ifs at h) <;> simp [Around.insertBefore] at h
  | jump c ecx dest =>
    have hloop (d : Dest) (a : Addr) (far : Bool)
        (h : Item.label (.fresh j k) ∈ (relativizeLoop i c ecx d a far
          { instr := .jump c ecx d.direct }).items) : j = i := by
      cases far <;>
        simp [relativizeLoop, insertUD2AfterCFI, Around.insertBefore, Around.insertAfter,
          Around.items] at h <;> omega
    have hjump (d : Dest) (h : Item.label (.fresh j k) ∈ (relativizeJump m i c ecx d
        { instr := .jump c ecx d.direct }).items) : j = i := by
      unfold relativizeJump at h
      dsimp only at h
      split_ifs at h
      · simp [insertUD2AfterCFI, Around.insertAfter, Around.items] at h
      · simp [Around.items] at h
      · exact hloop _ _ _ h
      · unfold relativizeConditionalBranch at h
        dsimp only at h
        split at h
        · simp [Around.items] at h
        · simp [insertUD2AfterCFI, Around.insertBefore, Around.insertAfter, Around.items] at h
          exact h.1
      · simp [Around.items] at h
      · simp [Around.items] at h
    simp only [relativizeInstruction, mangleJump] at h
    cases dest with
    | pc a => exact hjump _ h
    | label n => exact hjump _ h
    | block kind a =>
      cases kind with
      | native => exact hjump _ h
      | cached =>
        dsimp only at h
        split_ifs at h
        · exact hloop _ _ _ h
        · simp [Around.items] at h
      | other =>
        dsimp only at h
        split_ifs at h
        · exact hloop _ _ _ h
        · simp [Around.items] at h

theorem fresh_lt_of_mem {m : BlockMangler} {i j k : ℕ} {xs : List SourceInstr}
    (h : Item.label (.fresh j k) ∈ mangle m i xs) : j < i + xs.length := by
  induction xs generalizing i with
  | nil => exact absurd h List.not_mem_nil
  | cons x xs ih =>
    rw [List.length_cons]
    rcases List.mem_append.mp h with h | h
    · have hj := fresh_of_mem h
      omega
    · have hj := ih h
      omega

theorem dropTo_append {l : Label} {xs ys : List Item} (h : Item.label l ∉ xs) :
    dropTo l (xs ++ ys) = dropTo l ys := by
  induction xs with
  | nil => rfl
  | cons x xs ih =>
    rw [List.mem_cons, not_or] at h
    have hx : x ≠ .label l := fun he ↦ h.1 he.symm
    rw [List.cons_append, dropTo, List.dropWhile_cons, if_pos (by simpa using hx)]
    exact ih h.2

/-- A label that is made for an instruction is found among the instructions that
replace it. -/
theorem dropTo_fresh (m : BlockMangler) (pre : List SourceInstr) (x : SourceInstr)
    (post : List SourceInstr) (k : ℕ) :
    dropTo (.fresh pre.length k) (mangle m 0 (pre ++ x :: post)) =
      dropTo (.fresh pre.length k) (relativizeInstruction m pre.length x ++
        mangle m (pre.length + 1) post) := by
  rw [mangle_append, Nat.zero_add]
  refine dropTo_append fun h ↦ ?_
  have hlt := fresh_lt_of_mem h
  omega

/-- The items `S` do what the instruction `x` does, when `B` follows them. -/
def Implements (code S B : List Item) (x : SourceInstr) : Prop :=
  ∀ s : State, ∃ n, ((step effect code)^[n + 1] (.at (S ++ B) s)).IsAt code B
    (x.exec s.app).1 (x.exec s.app).2

theorem goto_direct (code post : List Item) (s : State) (dest : Dest) :
    (goto code s dest.direct).IsAt code post dest.place s.app := by
  cases dest <;> exact ⟨rfl, rfl⟩

theorem goto_mem {m : BlockMangler} (code post : List Item) (s : State) {dest : Dest}
    (hd : ∀ n, dest ≠ .label n) :
    (goto code s (.mem (m.targetPc dest))).IsAt code post dest.place s.app := by
  cases dest with
  | label n => exact absurd rfl (hd n)
  | block kind a => exact ⟨rfl, rfl⟩
  | pc a => exact ⟨rfl, rfl⟩

theorem branch_jmp (ecx : Bool) (s : AppState) : BranchClass.jmp.branch ecx s = (true, s) := rfl

theorem implements_same {code B : List Item} (c : BranchClass) (ecx : Bool) (dest : Dest) :
    Implements effect code [.jump c ecx dest.direct] B (.jump c ecx dest) := by
  intro s
  refine ⟨0, ?_⟩
  simp only [Nat.zero_add, Function.iterate_one, List.singleton_append, step, SourceInstr.exec]
  cases h : (c.branch ecx s.app).1 with
  | true => exact goto_direct code B _ dest
  | false => exact ⟨rfl, rfl⟩

theorem implements_farJmp {m : BlockMangler} {code B : List Item} {ecx : Bool} {dest : Dest}
    (hd : ∀ n, dest ≠ .label n) :
    Implements effect code [.jump .jmp false (.mem (m.targetPc dest)), .ud2] B
      (.jump .jmp ecx dest) := by
  intro s
  refine ⟨0, ?_⟩
  simp only [Nat.zero_add, Function.iterate_one, List.cons_append, step, SourceInstr.exec,
    branch_jmp]
  exact goto_mem code B s hd

theorem implements_farConditional {m : BlockMangler} {code B : List Item} {l : Label}
    {c r : BranchClass} {ecx : Bool} {dest : Dest} (hd : ∀ n, dest ≠ .label n)
    (hr : ∀ s, r.branch ecx s = (!(c.branch ecx s).1, s) ∧ (c.branch ecx s).2 = s)
    (hl : dropTo l code = .label l :: B) :
    Implements effect code [.jump r ecx (.label l), .jump .jmp false (.mem (m.targetPc dest)),
      .ud2, .label l] B (.jump c ecx dest) := by
  intro s
  obtain ⟨hrev, hsame⟩ := hr s.app
  cases h : (c.branch ecx s.app).1 with
  | true =>
    refine ⟨1, ?_⟩
    simp only [Function.iterate_succ_apply, Function.iterate_zero, id, List.cons_append, step,
      SourceInstr.exec, hrev, hsame, h, branch_jmp, Bool.not_true, Bool.false_eq_true, if_false,
      if_true]
    exact goto_mem code B s hd
  | false =>
    refine ⟨1, ?_⟩
    simp only [Function.iterate_succ_apply, Function.iterate_zero, id, List.cons_append, step,
      SourceInstr.exec, hrev, hsame, h, Bool.not_false, if_true, goto, hl, Bool.false_eq_true,
      if_false]
    exact ⟨rfl, rfl⟩

theorem implements_nearLoop {code B : List Item} {l k : Label} {c : BranchClass} {ecx : Bool}
    {dest : Dest}
    (hl : dropTo l code = .label l :: .jump .jmp false dest.direct :: .label k ::
      .jump c ecx (.label l) :: B)
    (hk : dropTo k code = .label k :: .jump c ecx (.label l) :: B) :
    Implements effect code [.jump .jmp false (.label k), .label l, .jump .jmp false dest.direct,
      .label k, .jump c ecx (.label l)] B (.jump c ecx dest) := by
  intro s
  cases h : (c.branch ecx s.app).1 with
  | true =>
    refine ⟨4, ?_⟩
    simp only [Function.iterate_succ_apply, Function.iterate_zero, id, List.cons_append, step,
      SourceInstr.exec, branch_jmp, if_true, goto, hk, hl, h]
    exact goto_direct code B _ dest
  | false =>
    refine ⟨2, ?_⟩
    simp only [Function.iterate_succ_apply, Function.iterate_zero, id, List.cons_append, step,
      SourceInstr.exec, branch_jmp, if_true, goto, hk, h, Bool.false_eq_true, if_false]
    exact ⟨rfl, rfl⟩

theorem implements_call {m : BlockMangler} {code B : List Item} {dest : Dest} {isApp : Bool}
    {ret : Addr} {t : Target}
    (ht : t = dest.direct ∨ t = .mem (m.targetPc dest) ∧ ∀ n, dest ≠ .label n) :
    Implements effect code [.call t ret] B (.call dest isApp ret) := by
  intro s
  refine ⟨0, ?_⟩
  simp only [Nat.zero_add, Function.iterate_one, List.cons_append, step, SourceInstr.exec]
  rcases ht with rfl | ⟨rfl, hd⟩
  · exact goto_direct code B _ dest
  · exact goto_mem code B _ hd

theorem implements_tailCall {m : BlockMangler} {code B : List Item} {dest : Dest} {isApp : Bool}
    {ret : Addr} {t : Target}
    (ht : t = dest.direct ∨ t = .mem (m.targetPc dest) ∧ ∀ n, dest ≠ .label n)
    (hret : ret.toNat < 2 ^ 31 ∨ 2 ^ 32 ≤ ret.toNat) :
    Implements effect code (mangleTailCall ret { instr := .jump .jmp false t }).items B
      (.call dest isApp ret) := by
  have hgoto (s : State) : (goto code s t).IsAt code B dest.place s.app := by
    rcases ht with rfl | ⟨rfl, hd⟩
    · exact goto_direct code B s dest
    · exact goto_mem code B s hd
  intro s
  unfold mangleTailCall
  split_ifs with h32
  · have hlow : ret.toNat < 2 ^ 31 := by
      have hlt : ret.toNat < 2 ^ 32 := by bv_omega
      omega
    refine ⟨1, ?_⟩
    simp only [Around.items, Around.insertBefore, List.nil_append, List.cons_append,
      Function.iterate_succ_apply, Function.iterate_zero, id, step, execEncoded_pushImm hlow,
      Option.map_some, Option.getD_some, branch_jmp, if_true, SourceInstr.exec]
    exact hgoto _
  · refine ⟨2, ?_⟩
    simp only [Around.items, Around.insertBefore, List.nil_append, List.cons_append,
      Function.iterate_succ_apply, Function.iterate_zero, id, step, execEncoded_movTemp,
      execEncoded_pushTemp, Option.map_some, Option.getD_some, branch_jmp, if_true,
      SourceInstr.exec]
    exact hgoto _

theorem implements_jump {m : BlockMangler} {code B : List Item} {i : ℕ} {c : BranchClass}
    {ecx : Bool} {dest : Dest} (hd : SourceInstr.isDirectCFI (.jump c ecx dest) = true)
    (hgood : ¬ FarLoopOrLabel m (.jump c ecx dest))
    (hcode : ∀ k, dropTo (.fresh i k) code =
      dropTo (.fresh i k) ((mangleJump m i c ecx dest).items ++ B)) :
    Implements effect code (mangleJump m i c ecx dest).items B (.jump c ecx dest) := by
  have hloop (a : Addr) (hitems : (mangleJump m i c ecx dest) =
      relativizeLoop i c ecx dest a false { instr := .jump c ecx dest.direct }) :
      Implements effect code (mangleJump m i c ecx dest).items B (.jump c ecx dest) := by
    rw [hitems] at hcode ⊢
    refine implements_nearLoop effect ?_ ?_
    · rw [hcode]
      simp [dropTo, relativizeLoop, Around.items, Around.insertBefore, Around.insertAfter]
    · rw [hcode]
      simp [dropTo, relativizeLoop, Around.items, Around.insertBefore, Around.insertAfter]
  have hrelativize (hm : mangleJump m i c ecx dest =
      relativizeJump m i c ecx dest { instr := .jump c ecx dest.direct })
      (hnear : m.addressNeedsRelativizing (m.targetPc dest) = true →
        c.isLoopInstruction = false ∧ ∀ n, dest ≠ .label n) :
      Implements effect code (mangleJump m i c ecx dest).items B (.jump c ecx dest) := by
    by_cases hjmp : c = .jmp
    · subst hjmp
      rw [hm]
      simp only [relativizeJump, if_true]
      split_ifs with hfar
      · exact implements_farJmp effect (hnear hfar).2
      · exact implements_same effect .jmp ecx dest
    · by_cases hl : c.isLoopInstruction = true
      · have hfar : m.addressNeedsRelativizing (m.targetPc dest) = false := by
          by_contra hfar
          simp [(hnear (by simpa using hfar)).1] at hl
        refine hloop (m.targetPc dest) (hm.trans ?_)
        simp only [relativizeJump, hjmp, hl, hfar, if_true, if_false]
      · have hc : c.isConditionalJump = true := by
          cases c <;> first | rfl | exact absurd rfl hjmp | simp [SourceInstr.isDirectCFI] at hd
        cases hfar : m.addressNeedsRelativizing (m.targetPc dest) with
        | false =>
          rw [hm]
          simp only [relativizeJump, hjmp, hl, hc, hfar, if_true, if_false, Bool.false_eq_true]
          exact implements_same effect c ecx dest
        | true =>
          obtain ⟨r, hrev, hbuild, hbranch⟩ := BranchClass.reversed_spec hc (by simpa using hl)
          have hitems : (mangleJump m i c ecx dest).items =
              [.jump r ecx (.label (.fresh i 0)), .jump .jmp false (.mem (m.targetPc dest)), .ud2,
                .label (.fresh i 0)] := by
            rw [hm]
            simp only [relativizeJump, hjmp, hl, hc, hfar, if_true, if_false, Bool.false_eq_true,
              relativizeConditionalBranch, hrev, Option.bind_some, hbuild]
            rfl
          rw [hitems] at hcode ⊢
          refine implements_farConditional effect (hnear hfar).2 (hbranch ecx) ?_
          rw [hcode]
          simp [dropTo]
  cases dest with
  | pc a =>
    refine hrelativize rfl fun hfar ↦ ⟨?_, by simp⟩
    by_contra hl
    exact hgood ⟨hfar, by simpa using hl⟩
  | label n =>
    refine hrelativize rfl fun hfar ↦ absurd ⟨hfar, ?_⟩ hgood
    simpa [SourceInstr.isDirectCFI] using hd
  | block kind a =>
    cases kind with
    | native =>
      refine hrelativize rfl fun hfar ↦ ⟨?_, by simp⟩
      by_contra hl
      exact hgood ⟨hfar, by simpa using hl⟩
    | cached =>
      by_cases hl : c.isLoopInstruction = true
      · exact hloop a (by simp only [mangleJump, hl, if_true])
      · simp only [mangleJump, hl]
        exact implements_same effect c ecx _
    | other =>
      by_cases hl : c.isLoopInstruction = true
      · exact hloop a (by simp only [mangleJump, hl, if_true])
      · simp only [mangleJump, hl]
        exact implements_same effect c ecx _

theorem implements_mangleCall {m : BlockMangler} {code B : List Item} {dest : Dest}
    {isApp : Bool} {ret : Addr} (hgood : ¬ FarLoopOrLabel m (.call dest isApp ret))
    (henc : ¬ ReturnAddressNotEncoded m (.call dest isApp ret)) :
    Implements effect code (mangleCall m dest isApp ret).items B (.call dest isApp ret) := by
  have ht : relativizeCall m dest = dest.direct ∨
      relativizeCall m dest = .mem (m.targetPc dest) ∧ ∀ n, dest ≠ .label n := by
    unfold relativizeCall
    split_ifs with hfar
    · exact .inr ⟨rfl, fun n hn ↦ hgood ⟨hfar, n, hn⟩⟩
    · exact .inl rfl
  cases dest with
  | pc a => exact implements_call effect ht
  | label n => exact implements_call effect ht
  | block kind a =>
    have hret (htail : (m.transparentReturns && isApp) = true) :
        ret.toNat < 2 ^ 31 ∨ 2 ^ 32 ≤ ret.toNat := by
      rw [Bool.and_eq_true] at htail
      by_contra hret
      exact henc ⟨htail.1, htail.2, by omega, by omega⟩
    simp only [mangleCall]
    split_ifs with htail
    · exact implements_tailCall effect ht (hret htail)
    · exact implements_tailCall (m := m) effect (.inl rfl) (hret htail)
    · exact implements_call effect ht
    · exact implements_call (m := m) effect (.inl rfl)

theorem implements_of_not_far {m : BlockMangler} {pre post : List SourceInstr} {x : SourceInstr}
    (hx : x.isDirectCFI = true) (hgood : ¬ FarLoopOrLabel m x)
    (henc : ¬ ReturnAddressNotEncoded m x) :
    Implements effect (mangle m 0 (pre ++ x :: post)) (relativizeInstruction m pre.length x)
      (mangle m (pre.length + 1) post) x := by
  cases x with
  | label n => exact absurd hx (by simp [SourceInstr.isDirectCFI])
  | plain i => exact absurd hx (by simp [SourceInstr.isDirectCFI])
  | call dest isApp ret => exact implements_mangleCall effect hgood henc
  | jump c ecx dest => exact implements_jump effect hx hgood fun k ↦ dropTo_fresh m pre _ post k

theorem ne_dropTo {l : Label} {code rest : List Item} {x : Item} (hx : x ≠ .label l) :
    x :: rest ≠ dropTo l code := by
  intro h
  have hhead := List.head?_dropWhile_not (fun y ↦ decide (y ≠ Item.label l)) code
  rw [← dropTo, ← h] at hhead
  simp [hx] at hhead

theorem not_isAt_of_stuck {code B : List Item} {c d : Config} {w : Where} {app : AppState}
    {k : ℕ} (hc : (step effect code)^[k] c = d) (hd : step effect code d = d)
    (hnot : ∀ j ≤ k, 0 < j → ¬ ((step effect code)^[j] c).IsAt code B w app) (hk : 0 < k) (n : ℕ) :
    ¬ ((step effect code)^[n + 1] c).IsAt code B w app := by
  rcases le_or_gt (n + 1) k with hn | hn
  · exact hnot (n + 1) hn (Nat.succ_pos n)
  · obtain ⟨j, hj⟩ := Nat.exists_eq_add_of_le hn.le
    have hstuck : (step effect code)^[n + 1] c = (step effect code)^[k] c := by
      rw [hj, Nat.add_comm, Function.iterate_add_apply, hc]
      exact Function.iterate_fixed hd j
    rw [hstuck]
    exact hnot k le_rfl hk

theorem not_implements_farLoop {code B : List Item} {l k : Label}
    {c : BranchClass} {ecx : Bool} {dest : Dest} {a : Addr} {s : State}
    (hs : (c.branch ecx s.app).1 = false)
    (hk : dropTo k code = .label k :: .jump c ecx (.label l) :: .ud2 :: B) :
    ¬ Implements effect code [.jump .jmp false (.label k), .label l,
      .jump .jmp false (.mem a), .label k, .jump c ecx (.label l), .ud2] B
      (.jump c ecx dest) := by
  intro h
  obtain ⟨n, hn⟩ := h s
  refine not_isAt_of_stuck effect (k := 4) (d := .trapped) ?_ rfl ?_ (by decide) n hn
  · simp only [Function.iterate_succ_apply, Function.iterate_zero, id, List.cons_append, step,
      branch_jmp, if_true, goto, hk, hs, Bool.false_eq_true, if_false]
  · intro j hj hpos
    interval_cases j
    all_goals
      simp only [Function.iterate_succ_apply, Function.iterate_zero, id, List.cons_append, step,
        branch_jmp, if_true, goto, hk, hs, Bool.false_eq_true, if_false, SourceInstr.exec,
        Config.IsAt, not_false_eq_true, not_and]
    all_goals
      intro hB
      have hlen := congrArg List.length hB
      simp only [List.length_cons] at hlen
      omega

theorem exists_taken {c : BranchClass} (hfar : c ≠ .jmpFar) (hcall : c ≠ .callNear) (ecx : Bool) :
    ∃ s, (c.branch ecx s).1 = true := by
  let s (f : Flags) : AppState := { (default : AppState) with rcx := 0, flags := f }
  cases c
  all_goals first
    | exact absurd rfl hfar
    | exact absurd rfl hcall
    | (refine ⟨s {}, ?_⟩; cases ecx <;> rfl)
    | (refine ⟨s { cf := true, pf := true, zf := true, of := true }, ?_⟩; cases ecx <;> rfl)
    | exact ⟨s { sf := true }, rfl⟩

theorem exists_not_taken {c : BranchClass} (hl : c.isLoopInstruction = true) (ecx : Bool) :
    ∃ s, (c.branch ecx s).1 = false := by
  refine ⟨{ (default : AppState) with rcx := 1 }, ?_⟩
  cases c <;> first | exact absurd hl (by decide) | (cases ecx <;> rfl)

theorem not_isAt_of_left {code B : List Item} {c : Config} {a : Addr} {s : State} {l : ℕ}
    {app : AppState} {k : ℕ} (hc : (step effect code)^[k + 1] c = .left a s)
    (hnot : ∀ j, 0 < j → j ≤ k → ∃ x rest t, (step effect code)^[j] c = .at (x :: rest) t ∧
      x ≠ .label (.user l)) (n : ℕ) :
    ¬ ((step effect code)^[n + 1] c).IsAt code B (.label l) app := by
  refine not_isAt_of_stuck effect hc rfl ?_ (Nat.succ_pos k) n
  intro j hj hpos
  rcases Nat.lt_or_ge k j with hkj | hkj
  · obtain rfl : j = k + 1 := by omega
    rw [hc]
    exact id
  · obtain ⟨x, rest, t, ht, hx⟩ := hnot j hpos hkj
    rw [ht]
    exact fun h ↦ ne_dropTo hx h.1

theorem not_implements_farLabel {m : BlockMangler} {code B : List Item} {i : ℕ} {c : BranchClass}
    {ecx : Bool} {l : ℕ} (hfar : c ≠ .jmpFar) (hcall : c ≠ .callNear)
    (ha : m.addressNeedsRelativizing (m.targetPc (.label l)) = true)
    (hcode : ∀ k, dropTo (.fresh i k) code =
      dropTo (.fresh i k) ((mangleJump m i c ecx (.label l)).items ++ B)) :
    ¬ Implements effect code (mangleJump m i c ecx (.label l)).items B
      (.jump c ecx (.label l)) := by
  intro h
  obtain ⟨app, happ⟩ := exists_taken hfar hcall ecx
  obtain ⟨n, hn⟩ := h ⟨app, 0⟩
  simp only [SourceInstr.exec, happ, if_true, Dest.place] at hn
  by_cases hjmp : c = .jmp
  · subst hjmp
    have hitems : (mangleJump m i .jmp ecx (.label l)).items =
        [.jump .jmp false (.mem (m.labelAddr l)), .ud2] := by
      simp only [mangleJump, relativizeJump, ha, if_true]
      rfl
    rw [hitems] at hn
    refine not_isAt_of_left effect (k := 0) rfl ?_ n hn
    intro j hpos hj
    omega
  · by_cases hl : c.isLoopInstruction = true
    · have hitems : (mangleJump m i c ecx (.label l)).items =
          [.jump .jmp false (.label (.fresh i 1)), .label (.fresh i 0),
            .jump .jmp false (.mem (m.labelAddr l)), .label (.fresh i 1),
            .jump c ecx (.label (.fresh i 0)), .ud2] := by
        simp only [mangleJump, relativizeJump, ha, hjmp, hl, if_true, if_false]
        rfl
      rw [hitems] at hn hcode
      have hdo : dropTo (.fresh i 0) code = .label (.fresh i 0) ::
          .jump .jmp false (.mem (m.labelAddr l)) :: .label (.fresh i 1) ::
          .jump c ecx (.label (.fresh i 0)) :: .ud2 :: B := by
        rw [hcode]
        simp [dropTo]
      have htry : dropTo (.fresh i 1) code = .label (.fresh i 1) ::
          .jump c ecx (.label (.fresh i 0)) :: .ud2 :: B := by
        rw [hcode]
        simp [dropTo]
      refine not_isAt_of_left effect (k := 4) (a := m.labelAddr l)
        (s := ⟨(c.branch ecx app).2, 0⟩) ?_ ?_ n hn
      · simp only [Function.iterate_succ_apply, Function.iterate_zero, id, List.cons_append, step,
          branch_jmp, if_true, goto, htry, hdo, happ]
      · intro j hpos hj
        interval_cases j
        all_goals
          simp only [Function.iterate_succ_apply, Function.iterate_zero, id, List.cons_append,
            step, branch_jmp, if_true, goto, htry, hdo, happ]
          exact ⟨_, _, _, rfl, by simp⟩
    · have hc : c.isConditionalJump = true := by
        cases c <;> first | rfl | exact absurd rfl hjmp | exact absurd rfl hfar |
          exact absurd rfl hcall
      obtain ⟨r, hrev, hbuild, hbranch⟩ := BranchClass.reversed_spec hc (by simpa using hl)
      have hitems : (mangleJump m i c ecx (.label l)).items =
          [.jump r ecx (.label (.fresh i 0)), .jump .jmp false (.mem (m.labelAddr l)), .ud2,
            .label (.fresh i 0)] := by
        simp only [mangleJump, relativizeJump, hjmp, hl, hc, ha, if_true, if_false,
          Bool.false_eq_true, relativizeConditionalBranch, hrev, Option.bind_some, hbuild]
        rfl
      rw [hitems] at hn
      have hr : r.branch ecx app = (false, app) := by
        rw [(hbranch ecx app).1, happ]
        rfl
      refine not_isAt_of_left effect (k := 1) (a := m.labelAddr l) (s := ⟨app, 0⟩) ?_ ?_ n hn
      · simp only [Function.iterate_succ_apply, Function.iterate_zero, id, List.cons_append, step,
          branch_jmp, if_true, goto, hr, Bool.false_eq_true, if_false]
      · intro j hpos hj
        obtain rfl : j = 1 := by omega
        simp only [Function.iterate_one, List.cons_append, step, hr, Bool.false_eq_true, if_false]
        exact ⟨_, _, _, rfl, by simp⟩

theorem not_implements_farLabelCall {m : BlockMangler} {code B : List Item} {isApp : Bool}
    {l : ℕ} {ret : Addr}
    (ha : m.addressNeedsRelativizing (m.targetPc (.label l)) = true) :
    ¬ Implements effect code (mangleCall m (.label l) isApp ret).items B
      (.call (.label l) isApp ret) := by
  intro h
  obtain ⟨n, hn⟩ := h ⟨default, 0⟩
  simp only [mangleCall, relativizeCall, ha, if_true, SourceInstr.exec, Dest.place] at hn
  refine not_isAt_of_left effect (k := 0) rfl ?_ n hn
  intro j hpos hj
  omega

theorem not_implements_of_far {m : BlockMangler} {pre post : List SourceInstr} {x : SourceInstr}
    (hfar : FarLoopOrLabel m x) :
    ¬ Implements effect (mangle m 0 (pre ++ x :: post)) (relativizeInstruction m pre.length x)
      (mangle m (pre.length + 1) post) x := by
  cases x with
  | label n => exact hfar.elim
  | plain i => exact hfar.elim
  | call dest isApp ret =>
    obtain ⟨ha, l, rfl⟩ := hfar
    exact not_implements_farLabelCall effect ha
  | jump c ecx dest =>
    have hcode (k : ℕ) := dropTo_fresh m pre (.jump c ecx dest) post k
    have hloop (ha : m.addressNeedsRelativizing (m.targetPc dest) = true)
        (hl : c.isLoopInstruction = true)
        (hm : mangleJump m pre.length c ecx dest =
          relativizeJump m pre.length c ecx dest { instr := .jump c ecx dest.direct }) :
        ¬ Implements effect (mangle m 0 (pre ++ .jump c ecx dest :: post))
          (relativizeInstruction m pre.length (.jump c ecx dest))
          (mangle m (pre.length + 1) post) (.jump c ecx dest) := by
      have hjmp : c ≠ .jmp := fun hc ↦ by simp [hc, BranchClass.isLoopInstruction] at hl
      have hitems : relativizeInstruction m pre.length (.jump c ecx dest) =
          [.jump .jmp false (.label (.fresh pre.length 1)), .label (.fresh pre.length 0),
            .jump .jmp false (.mem (m.targetPc dest)), .label (.fresh pre.length 1),
            .jump c ecx (.label (.fresh pre.length 0)), .ud2] := by
        simp only [relativizeInstruction, hm, relativizeJump, ha, hjmp, hl, if_true, if_false]
        rfl
      rw [hitems] at hcode ⊢
      obtain ⟨app, happ⟩ := exists_not_taken hl ecx
      refine not_implements_farLoop effect (s := ⟨app, 0⟩) happ ?_
      rw [hcode]
      simp [dropTo]
    cases dest with
    | pc a => exact hloop hfar.1 hfar.2 rfl
    | label l => exact not_implements_farLabel effect hfar.2.1 hfar.2.2 hfar.1 hcode
    | block kind a =>
      cases kind with
      | native => exact hloop hfar.1 hfar.2 rfl
      | cached => exact hfar.2.elim
      | other => exact hfar.2.elim

theorem isDirectCFI_of_far {m : BlockMangler} {x : SourceInstr} (hfar : FarLoopOrLabel m x) :
    x.isDirectCFI = true := by
  cases x with
  | label n => exact hfar.elim
  | plain i => exact hfar.elim
  | call dest isApp ret => rfl
  | jump c ecx dest =>
    have hloop (hl : c.isLoopInstruction = true) :
        SourceInstr.isDirectCFI (.jump c ecx dest) = true := by
      cases c <;> first | rfl | exact absurd hl (by decide)
    obtain ⟨-, hfar⟩ := hfar
    cases dest with
    | pc a => exact hloop hfar
    | label l => simpa [SourceInstr.isDirectCFI] using hfar
    | block kind a =>
      cases kind with
      | native => exact hloop hfar
      | cached => exact hfar.elim
      | other => exact hfar.elim

theorem not_implements_of_notEncoded {m : BlockMangler} {code B : List Item} {i : ℕ}
    {x : SourceInstr} (henc : ReturnAddressNotEncoded m x) :
    ¬ Implements effect code (relativizeInstruction m i x) B x := by
  match x, henc with
  | .call (.block kind a) isApp ret, ⟨htr, happ, hge, hlt⟩ =>
    intro h
    obtain ⟨n, hn⟩ := h ⟨default, 0⟩
    have h32 : (ret.setWidth 32).setWidth 64 = ret := by bv_omega
    obtain ⟨t, hitems⟩ : ∃ t, relativizeInstruction m i (.call (.block kind a) isApp ret) =
        [.pushImm ret, .jump .jmp false t] := by
      simp only [relativizeInstruction, mangleCall, htr, happ, Bool.and_self, if_true,
        mangleTailCall, if_pos h32]
      exact ⟨_, rfl⟩
    rw [hitems] at hn
    have hstuck : step effect code (.at ([.pushImm ret, .jump .jmp false t] ++ B) ⟨default, 0⟩) =
        .notEncoded := by
      simp only [List.cons_append, step, execEncoded_pushImm_none hge hlt]
      rfl
    refine not_isAt_of_stuck effect (k := 1) (by exact hstuck) rfl ?_ Nat.one_pos n hn
    intro j hj hpos
    obtain rfl : j = 1 := by omega
    rw [Function.iterate_one, hstuck]
    exact id

/-- Mangling keeps the control flow of a block exactly when no loop goes too far
away, no branch to a label finds the label's object too far away, and every return address
that is pushed in place of a call can be encoded. -/
theorem mangle_preserves_iff (m : BlockMangler) (block : List SourceInstr) :
    Preserves effect m block ↔
      ∀ x ∈ block, ¬ FarLoopOrLabel m x ∧ ¬ ReturnAddressNotEncoded m x := by
  constructor
  · intro h x hx
    obtain ⟨pre, post, rfl⟩ := List.append_of_mem hx
    constructor
    · intro hfar
      exact not_implements_of_far effect hfar (h pre x post rfl (isDirectCFI_of_far hfar))
    · intro henc
      have hdirect : x.isDirectCFI = true := by
        match x, henc with
        | .call (.block _ _) _ _, _ => rfl
      exact not_implements_of_notEncoded effect henc (h pre x post rfl hdirect)
  · rintro h pre x post rfl hx
    obtain ⟨hgood, henc⟩ := h x (by simp)
    exact implements_of_not_far effect hx hgood henc

def farLoop : List SourceInstr := [.jump .loop false (.block .native (2 ^ 32))]

theorem farLoop_not_preserved :
    ¬ Preserves (fun _ s ↦ s) ⟨0, false, fun _ ↦ 0⟩ farLoop := by
  intro h
  obtain ⟨n, hn⟩ := h [] _ [] rfl rfl ⟨{ (default : AppState) with rcx := 1 }, 0⟩
  refine not_isAt_of_stuck _ (k := 4) (d := .trapped) rfl rfl ?_ (by decide) n hn
  intro j hj hpos
  interval_cases j
  · rintro ⟨h, -⟩
    cases h
  · rintro ⟨h, -⟩
    cases h
  · rintro ⟨h, -⟩
    cases h
  · exact id

end Granary.Assemble.LateMangle
