import Granary.Arch.Instruction

namespace Granary.Code.Register

open Granary.Arch

def numGeneralPurposeRegisters : ℕ := 15

abbrev RegisterSet := BitVec 16

namespace RegisterSet

variable (s : RegisterSet)

def set (i : ℕ) (val : Bool) : RegisterSet :=
  if val then s ||| 1#16 <<< i else s &&& ~~~(1#16 <<< i)

def isLive (num : ℕ) : Bool :=
  s.getLsbD num

def kill (reg : VirtualRegister) : RegisterSet :=
  if reg.isNative && reg.isGeneralPurpose then set s reg.number false else s

def revive (reg : VirtualRegister) : RegisterSet :=
  if reg.isNative && reg.isGeneralPurpose then set s reg.number true else s

end RegisterSet

open RegisterSet

/-- `LiveRegisterSet::Visit` of an operand. -/
def visitOperand (live : RegisterSet) (op : Operand) : RegisterSet :=
  match op.value with
  | .reg reg =>
    if op.rw.isRead || op.rw.isConditionalWrite || reg.preservesBytesOnWrite then revive live reg
    else if op.rw.isWrite then kill live reg
    -- an assertion rules this out
    else live
  | .mem reg => revive live reg
  | .compound base index _ _ => revive (revive live base) index
  | .ptr _ | .imm _ | .branchTarget _ => live

def visit (live : RegisterSet) (instr : Arch.Instruction) : RegisterSet :=
  instr.ops.foldl visitOperand live

def IsGpr (reg : VirtualRegister) (num : ℕ) : Prop :=
  (reg.isNative && reg.isGeneralPurpose) = true ∧ reg.number = num

/-- Some of what is in the register stays, or may stay, when the operand is written. -/
def KeepsSome (op : Operand) (reg : VirtualRegister) : Prop :=
  op.rw.isConditionalWrite = true ∨ reg.preservesBytesOnWrite = true

def OperandReads (op : Operand) (num : ℕ) : Prop :=
  match op.value with
  | .reg reg => IsGpr reg num ∧ (op.rw.isRead = true ∨ KeepsSome op reg)
  | .mem reg => IsGpr reg num
  | .compound base index _ _ => IsGpr base num ∨ IsGpr index num
  | .ptr _ | .imm _ | .branchTarget _ => False

def OperandOverwrites (op : Operand) (num : ℕ) : Prop :=
  ∃ reg, op.value = .reg reg ∧ IsGpr reg num ∧ op.rw.isWrite = true ∧ op.rw.isRead = false ∧
    ¬KeepsSome op reg

def Reads (instr : Arch.Instruction) (num : ℕ) : Prop :=
  ∃ op ∈ instr.ops, OperandReads op num

def Overwrites (instr : Arch.Instruction) (num : ℕ) : Prop :=
  ∃ op ∈ instr.ops, OperandOverwrites op num

/-- No operand after the last one that reads the register overwrites it. -/
def ReadLast (ops : List Operand) (num : ℕ) : Prop :=
  ∃ before op after, ops = before ++ op :: after ∧ OperandReads op num ∧
    ∀ op' ∈ after, ¬OperandOverwrites op' num

/-- The backward transfer of liveness over an instruction, from the registers that are live after it
to those that are live before it. -/
structure Transfers (instr : Arch.Instruction) (after before : RegisterSet) : Prop where
  reads : ∀ num < numGeneralPurposeRegisters, Reads instr num → isLive before num = true
  passes : ∀ num < numGeneralPurposeRegisters, isLive after num = true → ¬Overwrites instr num →
    isLive before num = true
  overwrites : ∀ num < numGeneralPurposeRegisters, Overwrites instr num → ¬Reads instr num →
    isLive before num = false

def OrderIndependent (live : RegisterSet) (instr : Arch.Instruction) : Prop :=
  ∀ ops, ops.Perm instr.ops → ∀ num < numGeneralPurposeRegisters,
    isLive (visit live { instr with ops := ops }) num = isLive (visit live instr) num

section Operand

variable {s live : RegisterSet} {reg : VirtualRegister} {op : Operand} {num : ℕ}

theorem isLive_set (hnum : num < 16) (i : ℕ) (val : Bool) :
    isLive (set s i val) num = if i = num then val else isLive s num := by
  have hbit : (1#16 <<< i).getLsbD num = decide (i = num) := by
    rw [BitVec.getLsbD_shiftLeft, BitVec.getLsbD_one]
    by_cases hi : i = num
    · simp [hi, hnum]
    · simp only [hi, decide_false]
      have hcases : num < i ∨ num - i ≠ 0 := by omega
      rcases hcases with hlt | hne
      · simp [hlt]
      · simp [hne]
  cases val
  · rw [isLive, RegisterSet.set, if_neg Bool.false_ne_true, BitVec.getLsbD_and, BitVec.getLsbD_not,
      hbit]
    by_cases hi : i = num
    · simp [hi]
    · simp [hi, hnum, isLive]
  · rw [isLive, RegisterSet.set, if_pos rfl, BitVec.getLsbD_or, hbit]
    by_cases hi : i = num
    · simp [hi]
    · simp [hi, isLive]

theorem isLive_revive (hnum : num < 16) :
    isLive (revive s reg) num = true ↔ IsGpr reg num ∨ isLive s num = true := by
  unfold revive IsGpr
  by_cases hreg : (reg.isNative && reg.isGeneralPurpose) = true
  · rw [if_pos hreg, isLive_set hnum]
    by_cases hi : reg.number = num
    · simp [hreg, hi]
    · simp [hi]
  · simp [hreg]

theorem isLive_kill (hnum : num < 16) :
    isLive (kill s reg) num = true ↔ ¬IsGpr reg num ∧ isLive s num = true := by
  unfold kill IsGpr
  by_cases hreg : (reg.isNative && reg.isGeneralPurpose) = true
  · rw [if_pos hreg, isLive_set hnum]
    by_cases hi : reg.number = num
    · simp [hreg, hi]
    · simp [hi]
  · simp [hreg]

theorem not_overwrites_of_reads (h : OperandReads op num) : ¬OperandOverwrites op num := by
  rintro ⟨reg, hvalue, -, -, hread, hkeeps⟩
  rw [OperandReads, hvalue] at h
  obtain ⟨-, hread' | hkeeps'⟩ := h
  · rw [hread] at hread'
    exact Bool.noConfusion hread'
  · exact hkeeps hkeeps'

theorem isLive_visitOperand (hnum : num < 16) : isLive (visitOperand live op) num = true ↔
    OperandReads op num ∨ ¬OperandOverwrites op num ∧ isLive live num = true := by
  have hmemory (hnot : ∀ reg, op.value ≠ .reg reg) : ¬OperandOverwrites op num :=
    fun ⟨reg, hvalue, _⟩ ↦ hnot reg hvalue
  unfold visitOperand OperandReads
  cases hvalue : op.value with
  | reg reg =>
    have hover : OperandOverwrites op num ↔ IsGpr reg num ∧ op.rw.isWrite = true ∧
        op.rw.isRead = false ∧ ¬KeepsSome op reg := by
      simp [OperandOverwrites, hvalue]
    simp only [hover, KeepsSome]
    by_cases hkeeps :
        (op.rw.isRead || op.rw.isConditionalWrite || reg.preservesBytesOnWrite) = true
    · rw [if_pos hkeeps, isLive_revive hnum]
      rw [Bool.or_eq_true, Bool.or_eq_true, or_assoc] at hkeeps
      have hread : ¬(op.rw.isRead = false ∧
          ¬(op.rw.isConditionalWrite = true ∨ reg.preservesBytesOnWrite = true)) := by
        intro ⟨hread, hnot⟩
        rcases hkeeps with h | h
        · rw [hread] at h
          exact Bool.noConfusion h
        · exact hnot h
      simp only [hkeeps, hread, and_true, and_false, not_false_eq_true, true_and]
    · rw [if_neg hkeeps]
      rw [Bool.or_eq_true, Bool.or_eq_true, or_assoc, not_or] at hkeeps
      have hread : op.rw.isRead = false := Bool.not_eq_true _ ▸ hkeeps.1
      by_cases hwrite : op.rw.isWrite = true
      · rw [if_pos hwrite, isLive_kill hnum]
        simp only [hread, hwrite, hkeeps.2]
        simp
      · rw [if_neg hwrite]
        simp only [hread, hwrite, hkeeps.2]
        simp
  | mem reg =>
    have hover := hmemory (by simp [hvalue])
    simp only [isLive_revive hnum, hover, not_false_eq_true, true_and]
  | compound base index disp scale =>
    have hover := hmemory (by simp [hvalue])
    simp only [isLive_revive hnum, hover, not_false_eq_true, true_and]
    tauto
  | ptr addr =>
    have hover := hmemory (by simp [hvalue])
    simp only [hover, not_false_eq_true, true_and, false_or]
  | imm value =>
    have hover := hmemory (by simp [hvalue])
    simp only [hover, not_false_eq_true, true_and, false_or]
  | branchTarget pc =>
    have hover := hmemory (by simp [hvalue])
    simp only [hover, not_false_eq_true, true_and, false_or]

end Operand

section Operands

variable {live : RegisterSet} {instr : Arch.Instruction} {ops : List Operand} {num : ℕ}

theorem readLast_concat (op : Operand) : ReadLast (ops ++ [op]) num ↔
    OperandReads op num ∨ ReadLast ops num ∧ ¬OperandOverwrites op num := by
  constructor
  · rintro ⟨before, op', after, hsplit, hreads, hafter⟩
    rcases List.eq_nil_or_concat after with rfl | ⟨after, op'', rfl⟩
    · obtain ⟨-, hop⟩ := List.append_inj' hsplit rfl
      obtain rfl := List.singleton_inj.1 hop
      exact Or.inl hreads
    · have hsplit' : ops ++ [op] = (before ++ op' :: after) ++ [op''] := by
        rw [hsplit]
        simp
      obtain ⟨hops, hop⟩ := List.append_inj' hsplit' rfl
      obtain rfl := List.singleton_inj.1 hop
      refine Or.inr ⟨⟨before, op', after, hops, hreads, fun o ho ↦ hafter o ?_⟩, hafter op ?_⟩
      · simp [ho]
      · simp
  · rintro (hreads | ⟨⟨before, op', after, rfl, hreads, hafter⟩, hover⟩)
    · exact ⟨ops, op, [], rfl, hreads, by simp⟩
    · refine ⟨before, op', after ++ [op], by simp, hreads, fun o ho ↦ ?_⟩
      rcases List.mem_append.1 ho with ho | ho
      · exact hafter o ho
      · rw [List.mem_singleton.1 ho]
        exact hover

theorem isLive_foldl (hnum : num < 16) : isLive (ops.foldl visitOperand live) num = true ↔
    ReadLast ops num ∨ (∀ op ∈ ops, ¬OperandOverwrites op num) ∧ isLive live num = true := by
  induction ops using List.reverseRecOn with
  | nil => simp [ReadLast]
  | append_singleton ops op ih =>
    rw [List.foldl_append, List.foldl_cons, List.foldl_nil, isLive_visitOperand hnum, ih,
      readLast_concat]
    simp only [List.mem_append, List.mem_singleton, or_imp, forall_and, forall_eq]
    tauto

theorem reads_of_readLast (h : ReadLast instr.ops num) : Reads instr num := by
  obtain ⟨before, op, after, hsplit, hreads, -⟩ := h
  exact ⟨op, by simp [hsplit], hreads⟩

theorem readLast_of_not_overwrites (hreads : Reads instr num) (hover : ¬Overwrites instr num) :
    ReadLast instr.ops num := by
  obtain ⟨op, hop, hread⟩ := hreads
  obtain ⟨before, after, hsplit⟩ := List.append_of_mem hop
  refine ⟨before, op, after, hsplit, hread, fun op' hop' hover' ↦ hover ⟨op', ?_, hover'⟩⟩
  simp [hsplit, hop']

theorem isLive_visit (hnum : num < numGeneralPurposeRegisters) :
    isLive (visit live instr) num = true ↔
      ReadLast instr.ops num ∨ ¬Overwrites instr num ∧ isLive live num = true := by
  have hlt : num < 16 := Nat.lt_succ_of_lt hnum
  rw [visit, isLive_foldl hlt]
  simp [Overwrites]

theorem transfers_iff : Transfers instr live (visit live instr) ↔
    ∀ num < numGeneralPurposeRegisters, Reads instr num → ReadLast instr.ops num := by
  constructor
  · intro h num hnum hreads
    by_cases hover : Overwrites instr num
    · obtain hlast | ⟨hnot, -⟩ := (isLive_visit hnum).1 (h.reads num hnum hreads)
      · exact hlast
      · exact absurd hover hnot
    · exact readLast_of_not_overwrites hreads hover
  · intro h
    refine ⟨fun num hnum hreads ↦ ?_, fun num hnum hlive hover ↦ ?_, fun num hnum hover hreads ↦ ?_⟩
    · exact (isLive_visit hnum).2 (Or.inl (h num hnum hreads))
    · exact (isLive_visit hnum).2 (Or.inr ⟨hover, hlive⟩)
    · rw [Bool.eq_false_iff, Ne, isLive_visit hnum]
      rintro (hlast | ⟨hnot, -⟩)
      · exact hreads (reads_of_readLast hlast)
      · exact hnot hover

/-- One operand reads the register, another overwrites it: the one that comes last decides. -/
theorem not_orderIndependent (hnum : num < numGeneralPurposeRegisters) (hreads : Reads instr num)
    (hover : Overwrites instr num) : ¬OrderIndependent live instr := by
  intro h
  have hmoved {op : Operand} (hop : op ∈ instr.ops) : ((instr.ops.erase op) ++ [op]).Perm instr.ops :=
    (List.perm_append_singleton op _).trans (List.perm_cons_erase hop).symm
  obtain ⟨reader, hreader, hread⟩ := hreads
  obtain ⟨writer, hwriter, hwrite⟩ := hover
  have hlive := h _ (hmoved hreader) num hnum
  have hdead := h _ (hmoved hwriter) num hnum
  have hafterRead : isLive (visit live { instr with ops := instr.ops.erase reader ++ [reader] }) num
      = true := by
    rw [isLive_visit hnum, readLast_concat]
    exact Or.inl (Or.inl hread)
  have hafterWrite : isLive (visit live { instr with ops := instr.ops.erase writer ++ [writer] }) num
      ≠ true := by
    rw [Ne, isLive_visit hnum, readLast_concat]
    rintro ((hread' | ⟨-, hnot⟩) | ⟨hnot, -⟩)
    · exact not_overwrites_of_reads hread' hwrite
    · exact hnot hwrite
    · exact hnot ⟨writer, by simp, hwrite⟩
  exact hafterWrite (by rw [hdead, ← hlive, hafterRead])

theorem orderIndependent_of_separate (h : ∀ num < numGeneralPurposeRegisters,
    ¬(Reads instr num ∧ Overwrites instr num)) : OrderIndependent live instr := by
  intro ops hperm num hnum
  have hreads : Reads { instr with ops := ops } num ↔ Reads instr num := by
    simp [Reads, hperm.mem_iff]
  have hover : Overwrites { instr with ops := ops } num ↔ Overwrites instr num := by
    simp [Overwrites, hperm.mem_iff]
  have hlast (i : Arch.Instruction) (hi : ¬(Reads i num ∧ Overwrites i num)) :
      ReadLast i.ops num ↔ Reads i num :=
    ⟨reads_of_readLast, fun hr ↦ readLast_of_not_overwrites hr fun ho ↦ hi ⟨hr, ho⟩⟩
  have hsep := h num hnum
  rw [Bool.eq_iff_iff, isLive_visit hnum, isLive_visit hnum, hlast instr hsep, hlast, hreads, hover]
  rwa [hreads, hover]

end Operands

/-- Visiting an instruction is the transfer of liveness if, and only if, no register is overwritten
by an operand after the last one that reads it, and it is the transfer in every order of the
operands if, and only if, no register is both read and overwritten. -/
theorem visit_transfers_iff (live : RegisterSet) (instr : Arch.Instruction) :
    (Transfers instr live (visit live instr) ↔
      ∀ num < numGeneralPurposeRegisters, Reads instr num → ReadLast instr.ops num) ∧
    (Transfers instr live (visit live instr) ∧ OrderIndependent live instr ↔
      ∀ num < numGeneralPurposeRegisters, ¬(Reads instr num ∧ Overwrites instr num)) := by
  refine ⟨transfers_iff, fun ⟨_, horder⟩ num hnum ⟨hreads, hover⟩ ↦ ?_, fun h ↦ ⟨?_, ?_⟩⟩
  · exact not_orderIndependent hnum hreads hover horder
  · rw [transfers_iff]
    intro num hnum hreads
    exact readLast_of_not_overwrites hreads fun hover ↦ h num hnum ⟨hreads, hover⟩
  · exact orderIndependent_of_separate h

def gpr (number : ℕ) : VirtualRegister where
  kind := .archGpr
  number := number

/-- `MUL RDX`, which multiplies `RAX` and puts the product in `RDX` and `RAX`. -/
def mulRdx : Arch.Instruction where
  ops := [{ value := .reg (gpr 2), rw := .r },
    { value := .reg (gpr 0), rw := .rw, isExplicit := false },
    { value := .reg (gpr 2), rw := .w, isExplicit := false }]

/-- `RDX` is not live before the instruction that reads it, and it is with the operands in another
order. -/
theorem mulRdx_not_transfers : Reads mulRdx 2 ∧ isLive (visit 0 mulRdx) 2 = false ∧
    isLive (visit 0 { mulRdx with ops := mulRdx.ops.reverse }) 2 = true ∧
    ¬Transfers mulRdx 0 (visit 0 mulRdx) ∧ ¬OrderIndependent 0 mulRdx := by
  have hreads : Reads mulRdx 2 := by
    refine ⟨_, List.mem_cons_self, ?_⟩
    exact ⟨⟨rfl, rfl⟩, Or.inl rfl⟩
  have hdead : isLive (visit 0 mulRdx) 2 = false := by decide
  have hlive : isLive (visit 0 { mulRdx with ops := mulRdx.ops.reverse }) 2 = true := by decide
  refine ⟨hreads, hdead, hlive, fun h ↦ ?_, fun h ↦ ?_⟩
  · have h' := h.reads 2 (by decide) hreads
    rw [hdead] at h'
    exact Bool.noConfusion h'
  · have h' := h _ (List.reverse_perm mulRdx.ops) 2 (by decide)
    rw [hdead, hlive] at h'
    exact Bool.noConfusion h'

end Granary.Code.Register
