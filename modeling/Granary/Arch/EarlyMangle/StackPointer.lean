import Granary.Arch.EarlyMangle.Effect

namespace Granary.Arch.EarlyMangle

def Instruction.readsStackPointer (i : Instruction) : Bool :=
  i.ops.any fun op ↦ op.isStackPointer && op.rw.isRead

/-- No instruction in the block reads the stack pointer as an operand. -/
def Clean (m : EarlyMangler) : Prop :=
  ∀ ni, .native ni ∈ m.block → ni.readsStackPointer = false

variable {m : EarlyMangler} {i ni : Instruction} {op : Operand} {dst src : VirtualRegister}

theorem Clean.append (h : Clean m) {x : Item}
    (hx : ∀ ni, x = .native ni → ni.readsStackPointer = false) : Clean (m.append x) := by
  intro ni hni
  rcases List.mem_append.1 hni with hni | hni
  · exact h ni hni
  · exact hx ni (List.mem_singleton.1 hni).symm

theorem Clean.app (h : Clean m) (hni : ni.readsStackPointer = false) : Clean (m.app ni) := by
  apply h.append
  intro ni' heq
  cases heq
  exact hni

theorem Clean.appNative (h : Clean m) (hni : ni.readsStackPointer = false) :
    Clean (m.appNative i ni) := h.app hni

theorem isStackPointer_of_isMemory (h : op.isMemory = true) : op.isStackPointer = false := by
  unfold Arch.Operand.isMemory at h
  unfold Operand.isStackPointer
  cases hvalue : op.value with
  | reg r =>
    rw [hvalue] at h
    exact absurd h Bool.false_ne_true
  | _ => rfl

theorem IsVirtual.isStackPointer {n : ℕ} {r : VirtualRegister} (h : IsVirtual n r) :
    isStackPointer r = false := by
  simp [EarlyMangle.isStackPointer, h.kind]

variable (op) in
theorem reads_two (dst : VirtualRegister) (hop : op.isStackPointer = false)
    (hni : ni.ops = [regOp dst .w, op]) : ni.readsStackPointer = false := by
  simp [Instruction.readsStackPointer, hni, hop, regOp, Action.isRead]

theorem reads_leaGprAgen (dst : VirtualRegister) (h : op.isMemory = true) :
    (leaGprAgen dst op).readsStackPointer = false :=
  reads_two { op with rw := .r } dst (isStackPointer_of_isMemory (by exact h)) rfl

/-- The instruction reads the stack pointer only as an operand of the other instruction
that is also written. -/
def Residual (ni i : Instruction) : Prop :=
  ∀ op ∈ ni.ops, op.isStackPointer = true → op.rw.isRead = true →
    op ∈ i.ops ∧ op.rw.isWrite = true ∧ ni.iclass = i.iclass

theorem mangleExplicitMemOp_clean (h : Clean m) (hmem : op.isMemory = true) :
    Clean (mangleExplicitMemOp m op).2 ∧ (mangleExplicitMemOp m op).1.isStackPointer = false := by
  have hself : Clean m ∧ op.isStackPointer = false := ⟨h, isStackPointer_of_isMemory hmem⟩
  unfold mangleExplicitMemOp
  cases hvalue : op.value with
  | compound base index disp scale =>
    dsimp only
    split_ifs
    · exact ⟨h, rfl⟩
    · exact hself
    · exact ⟨Clean.app (by exact h) (reads_leaGprAgen _ (by exact hmem)), rfl⟩
    · exact ⟨Clean.app (by exact h) (reads_leaGprAgen _ (by exact hmem)), rfl⟩
  | _ => exact hself

variable (op) in
theorem mangleSegmentOffset_clean (h : Clean m) (addr : BitVec 64) :
    Clean (mangleSegmentOffset m op addr).2 ∧
      (mangleSegmentOffset m op addr).1.isStackPointer = false :=
  ⟨Clean.app (by exact h) (reads_two { value := .imm addr, width := 64 } _ rfl rfl), rfl⟩

variable (op) in
theorem mangleStackPointerOperand_clean (h : Clean m) (numBytes : ℕ) :
    Clean (mangleStackPointerOperand m op numBytes).2 ∧
      (mangleStackPointerOperand m op numBytes).1.isStackPointer = false :=
  ⟨Clean.app (by exact h) (reads_leaGprAgen _ (isMemory_baseDispMemOp _ _ _)),
    ((isVirtual_allocate m 8).alias.widen numBytes).isStackPointer⟩

theorem mangleExplicitOpsFrom_clean {done todo : List Operand} (h : Clean m)
    (hform : ¬ (i.iform = .movGprGpr89 ∧ i.effectiveOperandWidth = 64))
    (htodo : ∀ op ∈ todo, op ∈ i.ops)
    (hdone : ∀ op ∈ done, op.isStackPointer = true → op ∈ i.ops ∧ op.rw.isWrite = true) :
    Clean (mangleExplicitOpsFrom i done todo m).2 ∧
      Residual (mangleExplicitOpsFrom i done todo m).1 i := by
  induction todo generalizing done m with
  | nil =>
    refine ⟨h, fun op hop hsp _ ↦ ?_⟩
    have hmem := hdone op hop hsp
    exact ⟨hmem.1, hmem.2, rfl⟩
  | cons op todo ih =>
    have htodo' : ∀ op ∈ todo, op ∈ i.ops := fun op' hop' ↦ htodo op' (List.mem_cons_of_mem _ hop')
    -- The operand is replaced by one that is not the stack pointer.
    have hnext : ∀ {m' : EarlyMangler} {op' : Operand}, Clean m' →
        (op'.isStackPointer = true → op' ∈ i.ops ∧ op'.rw.isWrite = true) →
        Clean (mangleExplicitOpsFrom i (done ++ [op']) todo m').2 ∧
          Residual (mangleExplicitOpsFrom i (done ++ [op']) todo m').1 i := by
      intro m' op' hm' hop'
      refine ih hm' htodo' fun op'' hop'' hsp ↦ ?_
      rcases List.mem_append.1 hop'' with hop'' | hop''
      · exact hdone op'' hop'' hsp
      · rw [List.mem_singleton.1 hop''] at hsp ⊢
        exact hop' hsp
    have hnot : ∀ {op' : Operand}, op'.isStackPointer = false →
        (op'.isStackPointer = true → op' ∈ i.ops ∧ op'.rw.isWrite = true) :=
      fun hop' hsp ↦ absurd (hop'.symm.trans hsp) Bool.false_ne_true
    unfold mangleExplicitOpsFrom
    cases hvalue : op.value with
    | mem r =>
      have hop : op.isMemory = true := by simp [Arch.Operand.isMemory, hvalue]
      have hmem := mangleExplicitMemOp_clean h hop
      exact hnext hmem.1 (hnot hmem.2)
    | compound base index disp scale =>
      have hop : op.isMemory = true := by simp [Arch.Operand.isMemory, hvalue]
      have hmem := mangleExplicitMemOp_clean h hop
      exact hnext hmem.1 (hnot hmem.2)
    | ptr addr =>
      dsimp only
      split_ifs
      · have hptr := mangleSegmentOffset_clean op h addr
        exact hnext hptr.1 (hnot hptr.2)
      · exact hnext h (hnot (by rw [Operand.isStackPointer, hvalue]))
    | reg r =>
      dsimp only
      split_ifs with hsp
      · have hreg := mangleStackPointerOperand_clean op h r.numBytes
        exact hnext hreg.1 (hnot hreg.2)
      · refine hnext h fun hop ↦ ⟨htodo op List.mem_cons_self, ?_⟩
        rw [isStackPointer_reg hvalue] at hop
        rw [hop, Bool.true_and, Bool.not_eq_true', Bool.not_eq_false] at hsp
        exact hsp
    | imm v => exact hnext h (hnot (by rw [Operand.isStackPointer, hvalue]))
    | branchTarget pc => exact hnext h (hnot (by rw [Operand.isStackPointer, hvalue]))

theorem residual_self (hread : ni.readsStackPointer = false) : Residual ni i := by
  intro op hop hsp hr
  have hany : ni.readsStackPointer = true :=
    List.any_eq_true.2 ⟨op, hop, by rw [hsp, hr, Bool.and_self]⟩
  exact absurd (hread.symm.trans hany) Bool.false_ne_true

theorem mangleExplicitOps_clean (h : Clean m)
    (hmove : i.iform = .movGprGpr89 → i.effectiveOperandWidth = 64 →
      ∃ dstOp srcOp dst src, IsMove89 i dstOp srcOp dst src) :
    Clean (mangleExplicitOps m i).2 ∧ Residual (mangleExplicitOps m i).1 i := by
  by_cases hform : i.iform = .movGprGpr89 ∧ i.effectiveOperandWidth = 64
  · obtain ⟨dstOp, srcOp, dst, src, hi⟩ := hmove hform.1 hform.2
    rw [mangleExplicitOps_move89 hi hform.1 hform.2]
    split_ifs with hsp
    · exact ⟨h, residual_self (reads_leaGprAgen _ (isMemory_baseDispMemOp _ _ _))⟩
    · refine ⟨h, fun op hop hop' hread ↦ ?_⟩
      rw [hi.ops] at hop
      rcases List.mem_cons.1 hop with rfl | hop
      · exact ⟨by simp [hi.ops], hi.isWrite, rfl⟩
      · rw [List.mem_singleton.1 hop, isStackPointer_reg hi.srcValue] at hop'
        exact absurd hop' hsp
  · exact mangleExplicitOpsFrom_clean h hform (fun _ hop ↦ hop)
      fun op hop ↦ absurd hop List.not_mem_nil

theorem Clean.appNativeMangled (h : Clean m) (hform : ni.iform ≠ .movGprGpr89)
    (hops : ∀ op ∈ ni.ops, op.isStackPointer = false) : Clean (m.appNativeMangled i ni) := by
  obtain ⟨hclean, hresidual⟩ := mangleExplicitOps_clean h (i := { ni with
    decodedPc := i.decodedPc, effectiveOperandWidth := i.effectiveOperandWidth })
    fun hf ↦ absurd hf hform
  refine hclean.app ?_
  rw [Instruction.readsStackPointer, List.any_eq_false]
  intro op hop hread
  rw [Bool.and_eq_true] at hread
  have hmem := (hresidual op hop hread.1 hread.2).1
  exact Bool.false_ne_true ((hops op hmem).symm.trans hread.1)

/-- The instructions that shift the stack pointer in place: an `ADD` or `SUB` of an
immediate, an `INC` and a `DEC`. -/
def Instruction.AdjustsStackPointer (i : Instruction) : Prop :=
  (i.iclass = .add ∨ i.iclass = .sub ∨ i.iclass = .inc ∨ i.iclass = .dec) ∧
    i.shiftsStackPointer = true

/-- An instruction in the block that reads the stack pointer as an operand is the one
that shifts it. -/
def CleanBlock (i : Instruction) (block : List Item) : Prop :=
  ∀ ni, .native ni ∈ block → ni.readsStackPointer = true →
    i.AdjustsStackPointer ∧ ni.iclass = i.iclass

theorem Clean.block {ni : Instruction} (h : Clean m)
    (hni : ni.readsStackPointer = true → i.AdjustsStackPointer ∧ ni.iclass = i.iclass) :
    CleanBlock i (m.block ++ [.native ni]) := by
  intro ni' hmem hread
  rcases List.mem_append.1 hmem with hmem | hmem
  · exact absurd ((h ni' hmem).symm.trans hread) Bool.false_ne_true
  · cases List.mem_singleton.1 hmem
    exact hni hread

end Granary.Arch.EarlyMangle
