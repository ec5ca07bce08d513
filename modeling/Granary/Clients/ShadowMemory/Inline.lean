import Granary.Arch.Asm
import Granary.Assemble.CompileInlineAssembly
import Granary.Clients.ShadowMemory

namespace Granary.Clients.ShadowMemory

open Granary.Arch.Asm
open Granary.Assemble.CompileInlineAssembly (parseImmediateLiteralOperand peek)
open Granary.Base.Packing
open Granary.Base.SlabAllocator (wordSize subWord)

/-- The registers of the inline assembly: `%3`, `%4`, `%5` and those of the instrumenters. -/
inductive Var
  | native | shadow | base
  | other (n : ℕ)
deriving DecidableEq

def Granularity.shiftAmountByte (granularity : Granularity) : BitVec 8 :=
  BitVec.ofNat 8 granularity.shiftAmount

def shadowPointer (g : Globals) (granularity : Granularity) (shadowMem : BitVec 64) :
    List (Instr Var) :=
  -- MOV r64 %4, r64 %3; LEA r64 %5, m64 %2;
  [.mov .w64 .shadow .native, .lea .base shadowMem] ++
  -- SHR r64 %4, i8 %0;
  (if 0 < granularity.shiftAmountByte then [.shr .shadow granularity.shiftAmountByte] else []) ++
  -- MOV r32 %4, r32 %4;
  [.mov .w32 .shadow .shadow] ++
  -- SHL r64 %4, i8 %1;
  (if 1 < g.alignedSize then [.shl .shadow g.scaleAmount] else []) ++
  -- ADD r64 %4, r64 %5;
  [.add .shadow .base]

/-- The addition that the text of a structure stands for. Its immediate is cut to eight bits. -/
def compileOffset (asm : List Char) : Option (List (Instr Var)) :=
  if asm = [] then some []
  else do
    guard ("ADD r64 %4, i8 ".toList <+: asm)
    let (op, _, ch) ← parseImmediateLiteralOperand 0 (asm.drop 15)
    guard (peek ';' ch)
    match op.value with
    | .imm value => some [.addImm8 .shadow (value.setWidth 8)]
    | _ => none

/-- The predicates and the instrumenters, which leave the shadow pointer as it is. -/
structure Client where
  predicate : Registered → Bool
  instrumenter : Registered → List (Instr Var)
  keeps (desc : Registered) (s : State Var) : s.target = none →
    (run (instrumenter desc) s).target = none ∧
      (run (instrumenter desc) s).regs .shadow = s.regs .shadow

inductive Emitted
  | asm (is : List (Instr Var))
  | instrumenter (desc : Registered)

def emitStructure (client : Client) (desc : Registered) : Option (List Emitted) := do
  let is ← compileOffset desc.offsetAsmInstruction
  return .asm is :: if client.predicate desc then [.instrumenter desc] else []

/-- `InstrumentMemOp`, which keeps the answers of the predicates in an array of
`kMaxNumShadowStructures`. -/
def instrumentMemOp (g : Globals) (granularity : Granularity) (shadowMem : BitVec 64)
    (client : Client) : Option (List Emitted) := do
  guard (g.descriptions.length ≤ kMaxNumShadowStructures)
  if g.descriptions.any client.predicate then
    let structures ← g.descriptions.mapM (emitStructure client)
    return .asm (shadowPointer g granularity shadowMem) :: structures.flatten
  else return []

def shadowPointers (client : Client) : List Emitted → State Var → List (Registered × BitVec 64)
  | [], _ => []
  | .asm is :: es, s => shadowPointers client es (run is s)
  | .instrumenter desc :: es, s =>
    (desc, s.regs .shadow) :: shadowPointers client es (run (client.instrumenter desc) s)

/-- Every instrumenter sees the address that `ShadowOf` computes. -/
def Agrees (g : Globals) (granularity : Granularity) (shadowMem addr : BitVec 64) : Prop :=
  ∀ client, ∃ emitted, instrumentMemOp g granularity shadowMem client = some emitted ∧
    ∀ s, s.target = none → s.regs .native = addr → ∀ p ∈ shadowPointers client emitted s,
      p.2 = shadowOf g granularity shadowMem p.1 addr

section Pointer

variable {g : Globals} {granularity : Granularity} {shadowMem addr : BitVec 64} {s : State Var}

/-- What the sequence computes: the granule is cut to 32 bits and then scaled. -/
def inlineUnit (granularity : Granularity) (shadowMem addr : BitVec 64) (k : ℕ) : BitVec 64 :=
  shadowMem + ((granularity.granule addr).setWidth 32).setWidth 64 <<< k

def unitOf (granularity : Granularity) (shadowMem addr : BitVec 64) (k : ℕ) : BitVec 64 :=
  shadowMem + (granularity.granule addr <<< k &&& 0xFFFFFFFF)

theorem shadowOf_eq (desc : Registered) : shadowOf g granularity shadowMem desc addr =
    unitOf granularity shadowMem addr g.scaleAmountLong + BitVec.ofNat 64 desc.offset := rfl

theorem shiftCount_ofNat {n : ℕ} (h : n < 64) : shiftCount (BitVec.ofNat 8 n) = n := by
  rw [shiftCount, BitVec.toNat_ofNat, Nat.mod_eq_of_lt (by omega : n < 2 ^ 8), Nat.mod_eq_of_lt h]

variable (granularity) in
theorem run_shr_of_pos (hs : s.target = none) :
    let is := if 0 < granularity.shiftAmountByte then
      [Instr.shr Var.shadow granularity.shiftAmountByte] else []
    (run is s).target = none ∧ (run is s).regs .base = s.regs .base ∧
      (run is s).regs .shadow = s.regs .shadow >>> granularity.shiftAmount := by
  have hlt := granularity.shiftAmount_lt
  intro is
  by_cases hpos : 0 < granularity.shiftAmountByte
  · have his : is = [.shr .shadow granularity.shiftAmountByte] := if_pos hpos
    rw [his, run_cons, step_of_running hs, run_nil]
    refine ⟨hs, State.set_of_ne _ (by decide) _, ?_⟩
    rw [Instr.exec, State.set_self, Granularity.shiftAmountByte, shiftCount_ofNat (by omega)]
  · have his : is = [] := if_neg hpos
    have hzero : granularity.shiftAmount = 0 := by
      have hle := BitVec.not_lt.1 hpos
      rw [BitVec.le_def, Granularity.shiftAmountByte, BitVec.toNat_ofNat] at hle
      have hle' : granularity.shiftAmount % 2 ^ 8 ≤ 0 := hle
      omega
    rw [his, run_nil, hzero, BitVec.ushiftRight_zero]
    exact ⟨hs, rfl, rfl⟩

theorem run_shl_of_scale {k : ℕ} (hk : k < 32) (hscale : g.scaleAmount = BitVec.ofNat 8 k)
    (haligned : g.alignedSize = 2 ^ k) (hs : s.target = none) :
    let is := if 1 < g.alignedSize then [Instr.shl Var.shadow g.scaleAmount] else []
    (run is s).target = none ∧ (run is s).regs .base = s.regs .base ∧
      (run is s).regs .shadow = s.regs .shadow <<< k := by
  intro is
  by_cases hone : 1 < g.alignedSize
  · have his : is = [.shl .shadow g.scaleAmount] := if_pos hone
    rw [his, run_cons, step_of_running hs, run_nil]
    refine ⟨hs, State.set_of_ne _ (by decide) _, ?_⟩
    rw [Instr.exec, State.set_self, hscale, shiftCount_ofNat (by omega)]
  · have his : is = [] := if_neg hone
    have hzero : k = 0 := by
      by_contra hne
      exact hone (haligned ▸ Nat.one_lt_two_pow hne)
    rw [his, run_nil, hzero, BitVec.shiftLeft_zero]
    exact ⟨hs, rfl, rfl⟩

variable (granularity shadowMem) in
theorem run_shadowPointer {k : ℕ} (hk : k < 32) (hscale : g.scaleAmount = BitVec.ofNat 8 k)
    (haligned : g.alignedSize = 2 ^ k) (hs : s.target = none) (hnative : s.regs .native = addr) :
    (run (shadowPointer g granularity shadowMem) s).target = none ∧
      (run (shadowPointer g granularity shadowMem) s).regs .shadow =
        inlineUnit granularity shadowMem addr k := by
  let s₁ := run [Instr.mov .w64 Var.shadow Var.native, .lea .base shadowMem] s
  have hs₁ : s₁ = (s.set .shadow addr).set .base shadowMem := by
    have hset : (s.set .shadow addr).target = none := hs
    simp only [s₁, run_cons, run_nil, step_of_running hs, Instr.exec, Width.write, hnative,
      step_of_running hset]
  obtain ⟨htarget₂, hbase₂, hshadow₂⟩ := run_shr_of_pos granularity (s := s₁) (hs₁ ▸ hs)
  set s₂ := run (if 0 < granularity.shiftAmountByte then
      [Instr.shr Var.shadow granularity.shiftAmountByte] else []) s₁ with hs₂
  let s₃ := run [Instr.mov .w32 Var.shadow Var.shadow] s₂
  have hs₃ : s₃ = s₂.set .shadow (((s₂.regs .shadow).setWidth 32).setWidth 64) :=
    step_of_running htarget₂ _
  obtain ⟨htarget₄, hbase₄, hshadow₄⟩ := run_shl_of_scale (s := s₃) hk hscale haligned
    (hs₃ ▸ htarget₂)
  set s₄ := run (if 1 < g.alignedSize then [Instr.shl Var.shadow g.scaleAmount] else []) s₃ with hs₄
  have hrun : run (shadowPointer g granularity shadowMem) s =
      s₄.set .shadow (s₄.regs .shadow + s₄.regs .base) := by
    simp only [shadowPointer, run_append]
    exact step_of_running htarget₄ _
  have hbase : s₄.regs .base = shadowMem := by
    rw [hbase₄, hs₃, State.set_of_ne _ (by decide), hbase₂, hs₁, State.set_self]
  have hshadow : s₄.regs .shadow = ((granularity.granule addr).setWidth 32).setWidth 64 <<< k := by
    rw [hshadow₄, hs₃, State.set_self, hshadow₂, hs₁, State.set_of_ne _ (by decide), State.set_self]
    rfl
  rw [hrun, State.set_self, hbase, hshadow, BitVec.add_comm]
  exact ⟨htarget₄, rfl⟩

theorem inlineUnit_eq_iff {k : ℕ} (hk : k < 32) :
    inlineUnit granularity shadowMem addr k = unitOf granularity shadowMem addr k ↔
      (granularity.granule addr).toNat % 2 ^ 32 < 2 ^ (32 - k) := by
  set n := (granularity.granule addr).toNat with hn
  have hpow : 2 ^ (32 - k) * 2 ^ k = 2 ^ 32 := by
    rw [← pow_add, Nat.sub_add_cancel hk.le]
  have hinline : (((granularity.granule addr).setWidth 32).setWidth 64 <<< k).toNat =
      n % 2 ^ 32 * 2 ^ k := by
    have hlt : n % 2 ^ 32 * 2 ^ k < 2 ^ 64 :=
      (Nat.mul_lt_mul_of_lt_of_lt (Nat.mod_lt n (Nat.two_pow_pos 32))
        (Nat.pow_lt_pow_right (by decide) hk)).trans_eq (pow_add 2 32 32).symm
    rw [BitVec.toNat_shiftLeft, BitVec.toNat_setWidth, BitVec.toNat_setWidth, ← hn,
      Nat.mod_eq_of_lt (a := n % 2 ^ 32) (by omega), Nat.shiftLeft_eq, Nat.mod_eq_of_lt hlt]
  have hcxx : (granularity.granule addr <<< k &&& 0xFFFFFFFF).toNat =
      n % 2 ^ 32 * 2 ^ k % 2 ^ 32 := by
    rw [toNat_and_low, BitVec.toNat_shiftLeft, ← hn, Nat.shiftLeft_eq,
      Nat.mod_mod_of_dvd _ (pow_dvd_pow 2 (by decide)), Nat.mod_mul_mod]
  rw [inlineUnit, unitOf, BitVec.add_right_inj, ← BitVec.toNat_inj, hinline, hcxx]
  constructor
  · intro heq
    by_contra hge
    have hle := Nat.mul_le_mul_right (2 ^ k) (not_lt.1 hge)
    have hlt := Nat.mod_lt (n % 2 ^ 32 * 2 ^ k) (Nat.two_pow_pos 32)
    omega
  · intro hlt
    have hmul := Nat.mul_lt_mul_of_pos_right hlt (Nat.two_pow_pos k)
    exact (Nat.mod_eq_of_lt (hmul.trans_eq hpow)).symm

end Pointer

section Structures

variable {client : Client} {ds : List ShadowStructureDescription} {x prev : ℕ} {s : State Var}

/-- The structures that registration appends from a total and an offset on. -/
def registered (x prev : ℕ) : List ShadowStructureDescription → List Registered
  | [] => []
  | desc :: ds =>
    let offset := (x + padding x desc.align) % wordSize
    { desc, offset, offsetAsmInstruction := offsetAsm (subWord offset prev) } ::
      registered ((offset + desc.size) % wordSize) offset ds

theorem descriptions_foldlM {g g' : Globals} (h : ds.foldlM addShadowStructure g = some g') :
    g'.descriptions = g.descriptions ++ registered g.unalignedSize g.prevOffset ds := by
  induction ds generalizing g with
  | nil =>
    obtain rfl := Option.some_inj.1 h
    exact (List.append_nil _).symm
  | cons desc ds ih =>
    obtain ⟨g₁, hadd, hrest⟩ := Option.bind_eq_some_iff.1 h
    have hdescs := ih hrest
    simp only [addShadowStructure, Option.bind_eq_bind, Option.pure_def] at hadd
    obtain ⟨_, -, hg₁⟩ := Option.bind_eq_some_iff.1 hadd
    obtain rfl := Option.some_inj.1 hg₁
    rw [hdescs, List.append_assoc]
    rfl

theorem descriptions_eq {g : Globals} (h : addShadowStructures ds = some g) :
    g.descriptions = registered 0 0 ds := descriptions_foldlM h

theorem length_registered (x prev : ℕ) (ds : List ShadowStructureDescription) :
    (registered x prev ds).length = ds.length := by
  induction ds generalizing x prev with
  | nil => rfl
  | cons desc ds ih => exact congrArg Nat.succ (ih _ _)

theorem compileOffset_offsetAsm {d : ℕ} (h : d ≤ 127) : compileOffset (offsetAsm d) =
    some (if d = 0 then [] else [.addImm8 .shadow (BitVec.ofNat 8 d)]) := by
  have hall : ∀ d < 128, compileOffset (offsetAsm d) =
      some (if d = 0 then [] else [.addImm8 .shadow (BitVec.ofNat 8 d)]) := by decide +kernel
  exact hall d (by omega)

theorem compileOffset_cases {asm : List Char} {is : List (Instr Var)}
    (h : compileOffset asm = some is) : is = [] ∨ ∃ imm, is = [.addImm8 .shadow imm] := by
  unfold compileOffset at h
  split_ifs at h
  · exact Or.inl (Option.some_inj.1 h).symm
  · simp only [Option.bind_eq_bind, Option.bind_eq_some_iff] at h
    obtain ⟨_, -, ⟨op, _, ch⟩, -, _, -, h⟩ := h
    split at h
    · exact Or.inr ⟨_, (Option.some_inj.1 h).symm⟩
    · exact absurd h (Option.some_ne_none _).symm

theorem run_compileOffset {d : ℕ} (h : d ≤ 127) (hs : s.target = none) :
    ∃ is, compileOffset (offsetAsm d) = some is ∧ (run is s).target = none ∧
      (run is s).regs .shadow = s.regs .shadow + BitVec.ofNat 64 d := by
  have hextend : (BitVec.ofNat 8 d).signExtend 64 = BitVec.ofNat 64 d := by
    have hall : ∀ d < 128, (BitVec.ofNat 8 d).signExtend 64 = BitVec.ofNat 64 d := by decide
    exact hall d (by omega)
  refine ⟨_, compileOffset_offsetAsm h, ?_⟩
  split_ifs with hzero
  · rw [run_nil, hzero]
    exact ⟨hs, (BitVec.add_zero _).symm⟩
  · rw [run_cons, step_of_running hs, run_nil, Instr.exec, State.set_self, hextend]
    exact ⟨hs, rfl⟩

theorem le_of_run_compileOffset {asm : List Char} {is : List (Instr Var)} {d : ℕ}
    (h : compileOffset asm = some is) (hs : s.target = none) (hd : d + 128 < wordSize)
    (hrun : (run is s).regs .shadow = s.regs .shadow + BitVec.ofNat 64 d) :
    (run is s).target = none ∧ d ≤ 127 := by
  have hmod : d % 2 ^ 64 = d := Nat.mod_eq_of_lt (by unfold wordSize at hd; omega)
  rcases compileOffset_cases h with rfl | ⟨imm, rfl⟩
  · have hzero : BitVec.ofNat 64 d = 0 := by
      apply (BitVec.add_right_inj (s.regs .shadow)).1
      exact hrun.symm.trans (BitVec.add_zero _).symm
    have htoNat := congrArg BitVec.toNat hzero
    rw [BitVec.toNat_ofNat, hmod] at htoNat
    have hd0 : d = 0 := htoNat
    exact ⟨hs, by omega⟩
  · rw [run_cons, step_of_running hs, run_nil] at hrun ⊢
    rw [Instr.exec, State.set_self, BitVec.add_right_inj] at hrun
    refine ⟨hs, ?_⟩
    have htoInt := congrArg BitVec.toInt hrun
    rw [BitVec.toInt_signExtend_of_le (by decide), BitVec.toInt_ofNat'] at htoInt
    have hlow := BitVec.le_toInt imm
    have hhigh := BitVec.toInt_lt (x := imm)
    unfold wordSize at hd
    rw [Int.bmod_def] at htoInt
    split_ifs at htoInt <;> omega

def Near (offsets : List ℕ) : Prop := offsets.IsChain fun a b ↦ b ≤ a + 127

theorem le_of_near {offsets : List ℕ} (h : Near (prev :: offsets)) :
    ∀ a ∈ offsets, a ≤ prev + 127 * offsets.length := by
  induction offsets generalizing prev with
  | nil => exact fun a ha ↦ absurd ha List.not_mem_nil
  | cons b offsets ih =>
    obtain ⟨hb, hrest⟩ := List.isChain_cons_cons.1 h
    intro a ha
    rw [List.length_cons]
    rcases List.mem_cons.1 ha with rfl | ha
    · omega
    · have hle := ih hrest a ha
      omega

def offsets (x : ℕ) (ds : List ShadowStructureDescription) : List ℕ :=
  (place x (pieces ds)).map Prod.fst

theorem offsets_cons (x : ℕ) (desc : ShadowStructureDescription)
    (ds : List ShadowStructureDescription) : offsets x (desc :: ds) =
      (x + padding x desc.align) :: offsets (x + padding x desc.align + desc.size) ds := rfl

theorem emitStructure_of_compileOffset {desc : Registered} {is : List (Instr Var)}
    (h : compileOffset desc.offsetAsmInstruction = some is) : emitStructure client desc =
      some (.asm is :: if client.predicate desc then [.instrumenter desc] else []) := by
  rw [emitStructure, h]
  rfl

theorem mapM_emitStructure_cons {desc : Registered} {rs : List Registered}
    {structures : List (List Emitted)}
    (h : (desc :: rs).mapM (emitStructure client) = some structures) :
    ∃ is rest, compileOffset desc.offsetAsmInstruction = some is ∧
      rs.mapM (emitStructure client) = some rest ∧
      structures = (.asm is :: if client.predicate desc then [.instrumenter desc] else []) ::
        rest := by
  rw [List.mapM_cons] at h
  obtain ⟨emitted, hemit, h⟩ := Option.bind_eq_some_iff.1 h
  obtain ⟨rest, hrest, h⟩ := Option.bind_eq_some_iff.1 h
  obtain ⟨is, his, hemitted⟩ := Option.bind_eq_some_iff.1 hemit
  obtain rfl := Option.some_inj.1 hemitted
  exact ⟨is, rest, his, hrest, (Option.some_inj.1 h).symm⟩

theorem shadowPointers_of_near {base : BitVec 64} (hs : s.target = none)
    (hshadow : s.regs .shadow = base + BitVec.ofNat 64 prev) (hle : prev ≤ x)
    (hbound : prev + 127 * ds.length ≤ 2 ^ 12) (hnear : Near (prev :: offsets x ds)) :
    ∃ structures, (registered x prev ds).mapM (emitStructure client) = some structures ∧
      ∀ p ∈ shadowPointers client structures.flatten s,
        p.2 = base + BitVec.ofNat 64 p.1.offset := by
  induction ds generalizing x prev s with
  | nil => exact ⟨[], rfl, fun p hp ↦ absurd hp List.not_mem_nil⟩
  | cons desc ds ih =>
    rw [offsets_cons] at hnear
    obtain ⟨hhead, hrest⟩ := List.isChain_cons_cons.1 hnear
    rw [List.length_cons] at hbound
    set offset := x + padding x desc.align with hoffset
    have hsize := desc.size_lt
    have hword : offset + desc.size < wordSize := by unfold wordSize; omega
    have hmod : offset % wordSize = offset := Nat.mod_eq_of_lt (by omega)
    have hsub : subWord offset prev = offset - prev := by
      unfold subWord wordSize at *
      omega
    set r : Registered := { desc, offset, offsetAsmInstruction := offsetAsm (offset - prev) }
      with hr
    have hregistered : registered x prev (desc :: ds) =
        r :: registered (offset + desc.size) offset ds := by
      rw [registered, ← hoffset, hmod, hsub, Nat.mod_eq_of_lt hword]
    obtain ⟨is, his, htarget, hrun⟩ := run_compileOffset (d := offset - prev) (by omega) hs
    have hshadow' : (run is s).regs .shadow = base + BitVec.ofNat 64 offset := by
      rw [hrun, hshadow, BitVec.add_assoc, ← BitVec.ofNat_add, Nat.add_sub_cancel' (by omega)]
    -- The rest runs after the instrumenter if there is one.
    let s' := if client.predicate r then run (client.instrumenter r) (run is s) else run is s
    have hs' : s'.target = none ∧ s'.regs .shadow = base + BitVec.ofNat 64 offset := by
      obtain ⟨hkeep, hkeep'⟩ := client.keeps r (run is s) htarget
      by_cases hpred : client.predicate r
      · exact ⟨by simp only [s', if_pos hpred, hkeep],
          by simp only [s', if_pos hpred, hkeep', hshadow']⟩
      · exact ⟨by simp only [s', if_neg hpred, htarget],
          by simp only [s', if_neg hpred, hshadow']⟩
    obtain ⟨structures, hmap, hseen⟩ := ih hs'.1 hs'.2 (by omega) (by omega) hrest
    refine ⟨(.asm is :: if client.predicate r then [.instrumenter r] else []) :: structures,
      ?_, ?_⟩
    · rw [hregistered, List.mapM_cons, emitStructure_of_compileOffset his, hmap]
      rfl
    · intro p hp
      by_cases hpred : client.predicate r
      · simp only [hpred, if_true, List.flatten_cons, List.cons_append, List.nil_append,
          shadowPointers] at hp
        rcases List.mem_cons.1 hp with rfl | hp
        · exact hshadow'
        · apply hseen p
          simpa only [s', if_pos hpred] using hp
      · simp only [hpred, Bool.false_eq_true, if_false, List.flatten_cons, List.cons_append,
          List.nil_append, shadowPointers] at hp
        apply hseen p
        simpa only [s', if_neg hpred] using hp

/-- Every structure is instrumented, with no code. -/
def observer : Client where
  predicate _ := true
  instrumenter _ := []
  keeps _ _ hs := ⟨hs, rfl⟩

theorem near_of_shadowPointers {base : BitVec 64} {structures : List (List Emitted)}
    (hs : s.target = none) (hshadow : s.regs .shadow = base + BitVec.ofNat 64 prev)
    (hle : prev ≤ x) (hx : x ≤ prev + 2 ^ 63) (hbound : prev + 127 * ds.length ≤ 2 ^ 12)
    (hmap : (registered x prev ds).mapM (emitStructure observer) = some structures)
    (hseen : ∀ p ∈ shadowPointers observer structures.flatten s,
      p.2 = base + BitVec.ofNat 64 p.1.offset) : Near (prev :: offsets x ds) := by
  induction ds generalizing x prev s structures with
  | nil => exact List.isChain_singleton prev
  | cons desc ds ih =>
    rw [List.length_cons] at hbound
    have hpad : padding x desc.align < 2 ^ 62 := (padding_lt desc.align_pos).trans_le desc.align_le
    set offset := x + padding x desc.align with hoffset
    have hsize := desc.size_lt
    have hword : offset + 128 < wordSize := by unfold wordSize; omega
    have hmod : offset % wordSize = offset := Nat.mod_eq_of_lt (by omega)
    have hsub : subWord offset prev = offset - prev := by
      unfold subWord wordSize at *
      omega
    rw [registered, ← hoffset, hmod, hsub] at hmap
    obtain ⟨is, rest, his, hrest, rfl⟩ := mapM_emitStructure_cons hmap
    have hhead : (run is s).regs .shadow = base + BitVec.ofNat 64 offset :=
      hseen _ List.mem_cons_self
    have hrun : (run is s).regs .shadow = s.regs .shadow + BitVec.ofNat 64 (offset - prev) := by
      rw [hshadow, BitVec.add_assoc, ← BitVec.ofNat_add, Nat.add_sub_cancel' (by omega),
        hhead]
    obtain ⟨htarget, hdist⟩ := le_of_run_compileOffset his hs (by omega) hrun
    have hend : (offset + desc.size) % wordSize = offset + desc.size :=
      Nat.mod_eq_of_lt (by unfold wordSize; omega)
    rw [hend] at hrest
    have hnear := ih htarget hhead (by omega) (by omega) (by omega) hrest
      fun p hp ↦ hseen p (List.mem_cons_of_mem _ hp)
    rw [offsets_cons, ← hoffset]
    exact List.isChain_cons_cons.2 ⟨by omega, hnear⟩

end Structures

/-- The logarithm of the low half of the total if the total is that power of two, and one
less otherwise. -/
def IsScale (n k : ℕ) : Prop :=
  ∃ l, 2 ^ l ≤ n % 2 ^ 32 ∧ n % 2 ^ 32 < 2 ^ (l + 1) ∧ if n = 2 ^ l then k = l else l = k + 1

theorem unitScale_eq_some_iff {n k : ℕ} : unitScale n = some (k, 2 ^ k) ↔ IsScale n k := by
  constructor
  · intro h
    by_cases hzero : n % 2 ^ 32 = 0
    · rw [unitScale_of_mod_eq_zero hzero] at h
      exact absurd h (Option.some_ne_none _).symm
    · obtain ⟨l, hlow, hhigh⟩ := exists_log hzero
      rw [(unitScale_of_log hlow hhigh).2] at h
      refine ⟨l, hlow, hhigh, ?_⟩
      split_ifs at h ⊢
      · exact (Prod.mk.inj (Option.some_inj.1 h)).1.symm
      · have hk := (Prod.mk.inj (Option.some_inj.1 h)).1
        omega
  · rintro ⟨l, hlow, hhigh, hk⟩
    rw [(unitScale_of_log hlow hhigh).2]
    split_ifs at hk ⊢ with hpow hzero
    · rw [hk]
    · omega
    · rw [hk, Nat.add_sub_cancel]

section Agreement

variable {descs : List ShadowStructureDescription} {g : Globals} {granularity : Granularity}
  {shadowMem addr : BitVec 64}

theorem offsets_zero (desc : ShadowStructureDescription) (ds : List ShadowStructureDescription) :
    offsets 0 (desc :: ds) = 0 :: offsets desc.size ds := by
  rw [offsets_cons, padding_of_dvd (dvd_zero desc.align), Nat.zero_add, Nat.zero_add]

theorem near_zero_cons (h : Near (offsets 0 descs)) : Near (0 :: offsets 0 descs) := by
  cases descs with
  | nil => exact List.isChain_singleton 0
  | cons desc ds =>
    rw [offsets_zero] at h ⊢
    exact List.isChain_cons_cons.2 ⟨Nat.zero_le _, h⟩

theorem total_le_of_near {last : ShadowStructureDescription}
    (hlen : (descs ++ [last]).length ≤ 16) (hnear : Near (offsets 0 (descs ++ [last]))) :
    total descs ≤ 127 * 16 ∧ total (descs ++ [last]) < wordSize := by
  have hpieces : pieces (descs ++ [last]) = pieces descs ++ [last.toPiece] := List.map_append
  have hlength : (offsets 0 (descs ++ [last])).length = (descs ++ [last]).length := by
    have hplace (x : ℕ) (ps : List Piece) : (place x ps).length = ps.length := by
      induction ps generalizing x with
      | nil => rfl
      | cons p ps ih => exact congrArg Nat.succ (ih _)
    rw [offsets, List.length_map, hplace, List.length_map]
  have hmem : total descs + padding (total descs) last.align ∈ offsets 0 (descs ++ [last]) := by
    rw [offsets, hpieces, place_append, List.map_append]
    exact List.mem_append_right _ List.mem_cons_self
  have hle := le_of_near (near_zero_cons hnear) _ hmem
  have hsize := last.size_lt
  rw [hlength] at hle
  rw [total_concat]
  unfold wordSize
  omega

theorem total_lt_of_near (hlen : descs.length ≤ 16) (hnear : Near (offsets 0 descs)) :
    total descs < wordSize := by
  rcases List.eq_nil_or_concat' descs with rfl | ⟨front, last, rfl⟩
  · exact Nat.two_pow_pos 64
  · exact (total_le_of_near hlen hnear).2

theorem unalignedSize_of_lt (hg : addShadowStructures descs = some g)
    (hword : total descs < wordSize) : g.unalignedSize = total descs :=
  (addShadowStructures_layout hg).1.trans (wrapPlace_of_finish_lt hword).2

theorem exists_state (addr : BitVec 64) :
    ∃ s : State Var, s.target = none ∧ s.regs .native = addr :=
  ⟨{ regs := fun _ ↦ addr }, rfl, rfl⟩

theorem near_of_agrees (hg : addShadowStructures descs = some g) (hne : descs ≠ [])
    (hagrees : Agrees g granularity shadowMem addr) :
    descs.length ≤ 16 ∧ Near (offsets 0 descs) ∧
      inlineUnit granularity shadowMem addr g.scaleAmountLong =
        unitOf granularity shadowMem addr g.scaleAmountLong := by
  obtain ⟨hscale, hamount⟩ := addShadowStructures_scale hg hne
  obtain ⟨hlt, haligned⟩ := unitScale_cases hscale
  have hdescs := descriptions_eq hg
  obtain ⟨emitted, hemit, hseen⟩ := hagrees observer
  obtain ⟨_, hguard, hemit⟩ := Option.bind_eq_some_iff.1 hemit
  obtain ⟨desc, ds, rfl⟩ := List.exists_cons_of_ne_nil hne
  have hlen : (desc :: ds).length ≤ 16 := by
    have hle : g.descriptions.length ≤ 16 := by
      by_contra hgt
      have hgt : ¬g.descriptions.length ≤ kMaxNumShadowStructures := hgt
      rw [guard, if_neg hgt] at hguard
      exact absurd hguard (Option.some_ne_none _).symm
    rwa [hdescs, length_registered] at hle
  rw [hdescs, registered, if_pos (List.any_eq_true.2 ⟨_, List.mem_cons_self, rfl⟩),
    ← registered] at hemit
  obtain ⟨structures, hmap, hemit⟩ := Option.bind_eq_some_iff.1 hemit
  obtain rfl := Option.some_inj.1 hemit
  obtain ⟨s, hs, hnative⟩ := exists_state addr
  obtain ⟨htarget, hshadow⟩ := run_shadowPointer granularity shadowMem hlt hamount haligned
    hs hnative
  have hseen' := hseen s hs hnative
  simp only [shadowPointers, shadowOf_eq] at hseen'
  have hzero : (0 + padding 0 desc.align) % wordSize = 0 := by
    rw [padding_of_dvd (dvd_zero desc.align)]
    rfl
  have hunit : inlineUnit granularity shadowMem addr g.scaleAmountLong =
      unitOf granularity shadowMem addr g.scaleAmountLong := by
    rw [registered, hzero] at hmap
    obtain ⟨is, rest, his, -, rfl⟩ := mapM_emitStructure_cons hmap
    have hnil : is = [] := by
      have hempty : compileOffset (offsetAsm (subWord 0 0)) = some [] :=
        compileOffset_offsetAsm (Nat.zero_le _)
      exact Option.some_inj.1 (his.symm.trans hempty)
    rw [hnil] at hseen'
    have hhead := hseen' _ List.mem_cons_self
    simpa only [run_nil, hshadow, BitVec.ofNat_eq_ofNat, BitVec.add_zero] using hhead
  refine ⟨hlen, ?_, hunit⟩
  have hbase : (run (shadowPointer g granularity shadowMem) s).regs .shadow =
      unitOf granularity shadowMem addr g.scaleAmountLong + BitVec.ofNat 64 0 := by
    rw [hshadow, hunit]
    exact (BitVec.add_zero _).symm
  have hnear := near_of_shadowPointers htarget hbase le_rfl (Nat.zero_le _)
    (by omega : 0 + 127 * (desc :: ds).length ≤ 2 ^ 12) hmap hseen'
  exact (List.isChain_cons.1 hnear).2

theorem agrees_of_near (hg : addShadowStructures descs = some g) (hlen : descs.length ≤ 16)
    (hnear : Near (offsets 0 descs))
    (hunit : descs ≠ [] → inlineUnit granularity shadowMem addr g.scaleAmountLong =
      unitOf granularity shadowMem addr g.scaleAmountLong) :
    Agrees g granularity shadowMem addr := by
  intro client
  have hdescs := descriptions_eq hg
  have hguard : g.descriptions.length ≤ kMaxNumShadowStructures := by
    rwa [hdescs, length_registered]
  rw [instrumentMemOp, guard, if_pos hguard]
  by_cases hany : g.descriptions.any client.predicate = true
  · rw [if_pos hany]
    have hne : descs ≠ [] := by
      rintro rfl
      rw [hdescs] at hany
      exact absurd hany Bool.false_ne_true
    obtain ⟨hscale, hamount⟩ := addShadowStructures_scale hg hne
    obtain ⟨hlt, haligned⟩ := unitScale_cases hscale
    have hstructures {s : State Var} (hs : s.target = none) (hnative : s.regs .native = addr) :
        ∃ structures, (registered 0 0 descs).mapM (emitStructure client) = some structures ∧
          ∀ p ∈ shadowPointers client structures.flatten
              (run (shadowPointer g granularity shadowMem) s),
            p.2 = unitOf granularity shadowMem addr g.scaleAmountLong +
              BitVec.ofNat 64 p.1.offset := by
      obtain ⟨htarget, hshadow⟩ := run_shadowPointer granularity shadowMem hlt hamount haligned
        hs hnative
      apply shadowPointers_of_near htarget _ le_rfl (by omega) (near_zero_cons hnear)
      rw [hshadow, hunit hne]
      exact (BitVec.add_zero _).symm
    obtain ⟨s₀, hs₀, hnative₀⟩ := exists_state addr
    obtain ⟨structures, hmap, -⟩ := hstructures hs₀ hnative₀
    refine ⟨.asm (shadowPointer g granularity shadowMem) :: structures.flatten, ?_, ?_⟩
    · rw [hdescs, hmap]
      rfl
    · intro s hs hnative p hp
      obtain ⟨structures', hmap', hseen⟩ := hstructures hs hnative
      obtain rfl := Option.some_inj.1 (hmap.symm.trans hmap')
      exact hseen p hp
  · rw [if_neg hany]
    exact ⟨[], rfl, fun _ _ _ p hp ↦ absurd hp List.not_mem_nil⟩

/-- The inline sequence agrees with `ShadowOf` exactly when neighbours are near and scaling
cuts no bit of the granule. -/
theorem agrees_iff (descs : List ShadowStructureDescription) (granularity : Granularity)
    (shadowMem addr : BitVec 64) :
    (∃ g, addShadowStructures descs = some g ∧ Agrees g granularity shadowMem addr) ↔
      descs = [] ∨ descs.length ≤ 16 ∧ Near (offsets 0 descs) ∧
        ∃ k, IsScale (total descs) k ∧
          (granularity.granule addr).toNat % 2 ^ 32 < 2 ^ (32 - k) := by
  constructor
  · rintro ⟨g, hg, hagrees⟩
    refine or_iff_not_imp_left.2 fun hne ↦ ?_
    obtain ⟨hlen, hnear, hunit⟩ := near_of_agrees hg hne hagrees
    obtain ⟨hscale, -⟩ := addShadowStructures_scale hg hne
    obtain ⟨hlt, haligned⟩ := unitScale_cases hscale
    rw [haligned, unalignedSize_of_lt hg (total_lt_of_near hlen hnear)] at hscale
    exact ⟨hlen, hnear, g.scaleAmountLong, unitScale_eq_some_iff.1 hscale,
      (inlineUnit_eq_iff hlt).1 hunit⟩
  · rintro (rfl | ⟨hlen, hnear, k, hk, hgranule⟩)
    · exact ⟨{}, rfl, agrees_of_near (show addShadowStructures [] = some {} from rfl)
        (Nat.zero_le _) List.IsChain.nil fun hne ↦ absurd rfl hne⟩
    · have hscale := unitScale_eq_some_iff.2 hk
      have hword := total_lt_of_near hlen hnear
      obtain ⟨g, hg⟩ : ∃ g, addShadowStructures descs = some g := by
        rcases List.eq_nil_or_concat' descs with rfl | ⟨front, last, rfl⟩
        · exact ⟨_, rfl⟩
        · have hfront := (total_le_of_near hlen hnear).1
          obtain ⟨g₀, hg₀⟩ := exists_addShadowStructures
            (show total front < 2 ^ 32 by omega)
          exact exists_addShadowStructures_concat hg₀ hword (hscale ▸ rfl)
      refine ⟨g, hg, agrees_of_near hg hlen hnear fun hne ↦ ?_⟩
      obtain ⟨hscale', -⟩ := addShadowStructures_scale hg hne
      rw [unalignedSize_of_lt hg hword, hscale] at hscale'
      obtain ⟨hk, -⟩ := Prod.mk.inj (Option.some_inj.1 hscale')
      rw [← hk]
      exact (inlineUnit_eq_iff (unitScale_cases hscale).1).2 hgranule

def granularity64 : Granularity where
  flag := 64
  isPow := ⟨6, rfl⟩

/-- Two bytes for every 64, and the address `2 ^ 37`. -/
theorem two_bytes_not_agrees :
    ∃ g, addShadowStructures [twoBytes] = some g ∧
      ¬Agrees g granularity64 0x7F0000000000 0x2000000000 := by
  have hsome : (addShadowStructures [twoBytes]).isSome := by decide
  obtain ⟨g, hg⟩ := Option.isSome_iff_exists.1 hsome
  have hscale : (addShadowStructures [twoBytes]).map Globals.scaleAmountLong = some 1 := by decide
  rw [hg] at hscale
  have hscale : g.scaleAmountLong = 1 := Option.some_inj.1 hscale
  refine ⟨g, hg, fun hagrees ↦ ?_⟩
  have hunit := (near_of_agrees hg (List.cons_ne_nil _ _) hagrees).2.2
  rw [hscale] at hunit
  exact absurd ((inlineUnit_eq_iff (by decide)).1 hunit) (by decide +kernel)

end Agreement

end Granary.Clients.ShadowMemory
