import Granary.Arch.EarlyMangle.Exec

namespace Granary.Arch.EarlyMangle

variable {ρ : Type} (P : Processor ρ)

theorem Below.mono {k l : ℕ} (h : k ≤ l) {r : VirtualRegister} (hr : Below k r) : Below l r :=
  fun hkind ↦ lt_of_lt_of_le (hr hkind) h

theorem Operand.Below.mono {k l : ℕ} (h : k ≤ l) {op : Operand} (hop : op.Below k) :
    op.Below l := by
  unfold Operand.Below at hop ⊢
  cases hvalue : op.value with
  | reg r =>
    rw [hvalue] at hop
    exact EarlyMangle.Below.mono h hop
  | mem r =>
    rw [hvalue] at hop
    exact EarlyMangle.Below.mono h hop
  | compound base index disp scale =>
    rw [hvalue] at hop
    exact ⟨EarlyMangle.Below.mono h hop.1, EarlyMangle.Below.mono h hop.2⟩
  | _ => trivial

structure IsVirtual (n : ℕ) (r : VirtualRegister) : Prop where
  kind : r.kind = .virtualGpr
  number : r.number = n
  isLegacy : r.isLegacy = false

theorem IsVirtual.below {n : ℕ} {r : VirtualRegister} (h : IsVirtual n r) : Below (n + 1) r :=
  fun _ ↦ h.number ▸ Nat.lt_succ_self _

theorem IsVirtual.widen {n : ℕ} {r : VirtualRegister} (h : IsVirtual n r) (numBytes : ℕ) :
    IsVirtual n (widen r numBytes) := ⟨h.kind, h.number, h.isLegacy⟩

theorem IsVirtual.alias {n : ℕ} {r : VirtualRegister} (h : IsVirtual n r) :
    IsVirtual n (markAsStackPointerAlias r) := ⟨h.kind, h.number, h.isLegacy⟩

theorem IsVirtual.isGeneralPurpose {n : ℕ} {r : VirtualRegister} (h : IsVirtual n r) :
    (r.isGeneralPurpose || isStackPointer r) = true := by
  simp [VirtualRegister.isGeneralPurpose, h.kind]

theorem IsVirtual.readReg {n : ℕ} {r : VirtualRegister} (h : IsVirtual n r) (s : State ρ) :
    s.readReg r = trunc r.numBytes (s.vr n) := by
  simp only [State.readReg, h.kind, h.number]

theorem isVirtual_allocate (m : EarlyMangler) (numBytes : ℕ) :
    IsVirtual m.regNum (m.allocateVirtualRegister numBytes).1 := by
  unfold EarlyMangler.allocateVirtualRegister
  dsimp only
  split_ifs <;> exact ⟨rfl, rfl, rfl⟩

def plain (iclass : IClass) (width : ℕ) (args : List Arg) (s : State ρ) : State ρ :=
  match iclass with
  | .mov | .movzx => s.move P args
  | _ => { s with app := P.effect iclass width args s.app }

variable {k : ℕ} {s t : State ρ}

theorem Agree.argValue (h : Agree k s t) (n : ℕ) {a : Arg} (ha : ∀ r, a = .reg r → Below k r) :
    s.argValue n a = t.argValue n a := by
  cases a with
  | value v => rfl
  | mem a width => simp only [State.argValue, h.app]
  | reg r => exact h.readReg (ha r rfl)

theorem Agree.move (h : Agree k s t) {args : List Arg}
    (hargs : ∀ r, Arg.reg r ∈ args → Below k r) : Agree k (s.move P args) (t.move P args) := by
  match args with
  | [.reg r, src] =>
    have hsrc := h.argValue r.numBytes (a := src) fun r' hr' ↦ hargs r' (by simp [hr'])
    simp only [State.move, hsrc]
    exact h.writeReg P r _ (hargs r (by simp))
  | [.mem a width, src] =>
    have hsrc := h.argValue (width / 8) (a := src) fun r' hr' ↦ hargs r' (by simp [hr'])
    simp only [State.move, hsrc]
    exact ⟨by simp only [h.app], h.vr⟩
  | [] => exact h
  | [.value _] | [.mem _ _] | [.reg _] => exact h
  | [.value _, _] => exact h
  | .value _ :: _ :: _ :: _ | .mem _ _ :: _ :: _ :: _ | .reg _ :: _ :: _ :: _ => exact h

theorem Agree.plain (h : Agree k s t) (iclass : IClass) (width : ℕ) {args : List Arg}
    (hargs : ∀ r, Arg.reg r ∈ args → Below k r) :
    Agree k (plain P iclass width args s) (plain P iclass width args t) := by
  unfold EarlyMangle.plain
  split
  · exact h.move P hargs
  · exact h.move P hargs
  · exact ⟨by simp only [h.app], h.vr⟩

/-- An operand takes the place of another one, for the state `s`: what is appended for
it changes new registers only. -/
structure Replaces (s₀ s : State ρ) (m m' : EarlyMangler) (op' op : Operand) : Prop where
  le : m.regNum ≤ m'.regNum
  agree : Agree m.regNum (m'.after P s₀) (m.after P s₀)
  arg : ∀ t, Agree m'.regNum t (m'.after P s₀) → t.arg op' = s.arg op

/-- What is done of the operands of an instruction finds what the operands found. -/
structure Done (k : ℕ) (s₀ s : State ρ) (m : EarlyMangler) (done orig : List Operand) : Prop where
  le : k ≤ m.regNum
  agree : Agree k (m.after P s₀) s
  args : ∀ t, Agree m.regNum t (m.after P s₀) → done.map t.arg = orig.map s.arg

variable {s₀ : State ρ} {m m' : EarlyMangler} {i : Instruction} {done orig todo : List Operand}

theorem Done.append (h : Done P k s₀ s m done orig) {op' op : Operand}
    (hop : Replaces P s₀ s m m' op' op) :
    Done P k s₀ s m' (done ++ [op']) (orig ++ [op]) := by
  refine ⟨h.le.trans hop.le, (hop.agree.mono h.le).trans h.agree, fun t ht ↦ ?_⟩
  rw [List.map_append, List.map_append, h.args t ((ht.mono hop.le).trans hop.agree),
    List.map_singleton, List.map_singleton, hop.arg t ht]

/-- The operands of a move between registers of eight bytes. -/
structure IsMove89 (i : Instruction) (dstOp srcOp : Operand) (dst src : VirtualRegister) :
    Prop where
  iclass : i.iclass = .mov
  ops : i.ops = [dstOp, srcOp]
  dstValue : dstOp.value = .reg dst
  srcValue : srcOp.value = .reg src
  isWrite : dstOp.rw.isWrite = true
  isRead : srcOp.rw.isWrite = false
  isStackPointer : dst.kind = .unschedulable → dst.isStackPointer = true
  numBytes : EarlyMangle.isStackPointer src = true → src.numBytes = 8

theorem mangleExplicitOps_move89 {dstOp srcOp : Operand} {dst src : VirtualRegister}
    (hi : IsMove89 i dstOp srcOp dst src) (hform : i.iform = .movGprGpr89)
    (hwidth : i.effectiveOperandWidth = 64) : mangleExplicitOps m i =
      if isStackPointer src then (moveStackPointerToGPR i dst, m) else (i, m) := by
  obtain ⟨⟨_, _, _, _, _⟩, _, _⟩ := dstOp
  obtain rfl := hi.dstValue
  have hw : Action.isWrite _ = true := hi.isWrite
  simp only [mangleExplicitOps, hi.ops, mangleExplicitOpsFrom, hi.srcValue, hi.isRead, hw, hform,
    hwidth,
    Bool.not_true, Bool.and_false, Bool.false_eq_true, if_false, Bool.not_false, Bool.and_true,
    and_self, if_true, List.nil_append, List.singleton_append]
  split_ifs
  · rfl
  · rw [← hi.ops]
    obtain ⟨iclass, iform, ops, implicitOps, width, pc, len⟩ := i
    cases hform
    cases hwidth
    rfl

end Granary.Arch.EarlyMangle
