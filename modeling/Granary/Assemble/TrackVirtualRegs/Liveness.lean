import Granary.Assemble.TrackVirtualRegs

namespace Granary.Assemble.TrackVirtualRegs

open Granary.Base Granary.Base.Iterate Granary.Arch Granary.Code Function

def IsVr (r : VirtualRegister) (v : VRId) : Prop := r.isVirtual = true ∧ r.number = v

/-- A write of all of the register, or one that stands for it. -/
def OverwritesReg (op : Operand) (r : VirtualRegister) : Prop :=
  op.rw.isWrite = true ∧ op.rw.isConditionalWrite = false ∧ op.isReadWrite = false ∧
    (op.isDefinition = true ∨ r.preservesBytesOnWrite = false)

def Clears (instr : Arch.Instruction) (v : VRId) : Prop :=
  match instr.iform, instr.ops with
  | .xorGprGpr, op₀ :: op₁ :: _ | .subGprGpr, op₀ :: op₁ :: _ =>
    op₀.isExplicit = true ∧ ∃ r₀ r₁, op₀.value = .reg r₀ ∧ op₁.value = .reg r₁ ∧
      r₀.same r₁ = true ∧ r₀.preservesBytesOnWrite = false ∧ IsVr r₀ v
  | .andGprImm, op₀ :: op₁ :: _ =>
    op₀.isExplicit = true ∧ ∃ r₀, op₀.value = .reg r₀ ∧ op₁.isImmediateZero = true ∧
      r₀.preservesBytesOnWrite = false ∧ IsVr r₀ v
  | _, _ => False

def Overwrites (instr : Arch.Instruction) (v : VRId) : Prop :=
  Clears instr v ∨ ∃ op ∈ instr.ops, op.isExplicit = true ∧
    ∃ r, op.value = .reg r ∧ IsVr r v ∧ OverwritesReg op r

/-- Something that the instruction does depends on what was in the register. -/
def Reads (instr : Arch.Instruction) (v : VRId) : Prop :=
  ∃ op ∈ instr.ops, op.isExplicit = true ∧
    ((∃ r ∈ op.matchedRegisters, IsVr r v) ∨
      ∃ r, op.value = .reg r ∧ IsVr r v ∧ ¬OverwritesReg op r ∧ ¬Clears instr v)

/-- Some instruction reads the register, and none before it overwrites it. -/
def ReadsFirst (v : VRId) : List Code.Instruction → Prop
  | [] => False
  | .native instr :: instrs =>
    Reads instr.instruction v ∨ ¬Overwrites instr.instruction v ∧ ReadsFirst v instrs
  | _ :: instrs => ReadsFirst v instrs

def PassesThrough (v : VRId) (instrs : List Code.Instruction) : Prop :=
  ∀ instr, .native instr ∈ instrs → ¬Overwrites instr.instruction v

/-- The value of a register on entry to a fragment can be read on some path, before an instruction
overwrites it. The path does not go on from a fragment that follows the entry of its partition. -/
inductive ReadLater (h : Heap) (v : VRId) : FragmentId → Prop
  | here {i : FragmentId} (hv : ReadsFirst v (h i).instrs) : ReadLater h v i
  | later {i j : FragmentId} (hv : PassesThrough v (h i).instrs)
      (hf : (h i).attr.followsPartitionEntrypoint = false) (hj : j ∈ (h i).successors)
      (hc : (h j).isCode = true) (h' : ReadLater h v j) : ReadLater h v i

/-- An operand, its index, and a virtual register that it names. -/
structure Occurrence where
  op : Operand
  index : ℕ
  reg : VirtualRegister

def namedRegisters (op : Operand) : List VirtualRegister :=
  if op.isExplicit then
    match op.value with
    | .reg r => [r]
    | _ => op.matchedRegisters
  else []

def occurrences (instr : Arch.Instruction) : List Occurrence :=
  instr.ops.zipIdx.flatMap fun op ↦
    ((namedRegisters op.1).filter (·.isVirtual)).map fun r ↦ ⟨op.1, op.2, r⟩

/-- The operand is taken for a definition of the register that it names, not for a use. -/
def isDefinedAt (instr : Arch.Instruction) (o : Occurrence) : Bool :=
  if o.op.isMemory then false
  else if o.op.rw.isConditionalWrite || o.op.isReadWrite then operandIsWrite instr o.index
  else o.op.rw.isWrite && (o.op.isDefinition || !o.reg.preservesBytesOnWrite)

def Names (instr : Arch.Instruction) (v : VRId) : Prop :=
  ∃ o ∈ occurrences instr, o.reg.number = v

def Defines (instr : Arch.Instruction) (v : VRId) : Prop :=
  ∃ o ∈ occurrences instr, o.reg.number = v ∧ isDefinedAt instr o = true

def addOccurrence (instr : NativeInstruction) (o : Occurrence) : NativeInstruction :=
  if isDefinedAt instr.instruction o then { instr with definedVr := o.reg.number }
  else { instr with usedVrs := instr.usedVrs ++ [o.reg.number] }

theorem addOccurrence_instruction (instr : NativeInstruction) (o : Occurrence) :
    (addOccurrence instr o).instruction = instr.instruction := by
  unfold addOccurrence
  split_ifs <;> rfl

theorem addOperand_eq (n : ℕ) (op : Operand) (r : VirtualRegister) (s : Found) :
    (addOperand n op r s).instr =
      if r.isVirtual then addOccurrence s.instr ⟨op, n, r⟩ else s.instr := by
  unfold addOperand addOccurrence isDefinedAt
  by_cases hr : r.isVirtual = true
  · simp only [if_pos hr]
    by_cases hmem : op.isMemory = true
    · simp only [if_pos hmem]
      rfl
    · simp only [if_neg hmem]
      by_cases hrw : (op.rw.isConditionalWrite || op.isReadWrite) = true
      · simp only [if_pos hrw]
        split_ifs <;> rfl
      · simp only [if_neg hrw]
        cases op.rw.isWrite <;> cases op.isDefinition <;> cases r.preservesBytesOnWrite <;> rfl
  · simp only [if_neg hr]

theorem foldl_addOperand_eq (n : ℕ) (op : Operand) (regs : List VirtualRegister) (s : Found) :
    (regs.foldl (fun s r ↦ addOperand n op r s) s).instr =
      ((regs.filter (·.isVirtual)).map fun r ↦ (⟨op, n, r⟩ : Occurrence)).foldl addOccurrence
        s.instr := by
  induction regs generalizing s with
  | nil => rfl
  | cons r regs ih =>
    rw [List.foldl_cons, ih, addOperand_eq]
    by_cases hr : r.isVirtual = true
    · rw [if_pos hr, List.filter_cons_of_pos hr, List.map_cons, List.foldl_cons]
    · rw [if_neg hr, List.filter_cons_of_neg hr]

theorem addOpVRs_eq (op : Operand × ℕ) (s : Found) :
    addOpVRs s op = (namedRegisters op.1).foldl (fun s r ↦ addOperand op.2 op.1 r s) s := by
  unfold addOpVRs namedRegisters Operand.matchedRegisters
  split_ifs
  · cases op.1.value <;> rfl
  · rfl

theorem addInstructionVRs_eq (instr : NativeInstruction) :
    (addInstructionVRs instr []).instr =
      (occurrences instr.instruction).foldl addOccurrence instr := by
  suffices h : ∀ (ops : List (Operand × ℕ)) (s : Found), (ops.foldl addOpVRs s).instr =
      (ops.flatMap fun op ↦ ((namedRegisters op.1).filter (·.isVirtual)).map
        fun r ↦ (⟨op.1, op.2, r⟩ : Occurrence)).foldl addOccurrence s.instr from h _ _
  intro ops
  induction ops with
  | nil => exact fun s ↦ rfl
  | cons op ops ih =>
    intro s
    rw [List.foldl_cons, ih, addOpVRs_eq, foldl_addOperand_eq, List.flatMap_cons,
      List.foldl_append]

theorem foldl_addOccurrence (os : List Occurrence) (instr : NativeInstruction) :
    (os.foldl addOccurrence instr).usedVrs = instr.usedVrs ++
        (os.filter (!isDefinedAt instr.instruction ·)).map (·.reg.number) ∧
      (os.foldl addOccurrence instr).definedVr =
        (((os.filter (isDefinedAt instr.instruction ·)).map (·.reg.number)).getLast?).getD
          instr.definedVr := by
  induction os generalizing instr with
  | nil => simp
  | cons o os ih =>
    obtain ⟨hused, hdefined⟩ := ih (addOccurrence instr o)
    rw [List.foldl_cons, hused, hdefined, addOccurrence_instruction]
    by_cases ho : isDefinedAt instr.instruction o = true
    · simp [addOccurrence, ho, List.getLast?_cons]
    · simp [addOccurrence, ho]

/-- An instruction in which no registers were looked for, with at most one definition, as
`AddOperand` asserts. -/
structure Fresh (instr : NativeInstruction) : Prop where
  usedVrs_eq : instr.usedVrs = []
  definedVr_eq : instr.definedVr = 0
  oneDefinition : ((occurrences instr.instruction).filter (isDefinedAt instr.instruction ·)).length
    ≤ 1

section Instruction

variable {instr : NativeInstruction} {v : VRId}

theorem mem_usedBy (hi : Fresh instr) : v ∈ usedBy instr ↔
    v ≠ 0 ∧ ∃ o ∈ occurrences instr.instruction, o.reg.number = v ∧
      isDefinedAt instr.instruction o = false := by
  rw [usedBy, addInstructionVRs_eq, (foldl_addOccurrence _ instr).1, hi.usedVrs_eq]
  simp only [List.nil_append, List.mem_filter, List.mem_map, decide_eq_true_eq, Bool.not_eq_true']
  constructor
  · rintro ⟨⟨o, ⟨ho, hnot⟩, hreg⟩, hv⟩
    exact ⟨hv, o, ho, hreg, hnot⟩
  · rintro ⟨hv, o, ho, hreg, hnot⟩
    exact ⟨⟨o, ⟨ho, hnot⟩, hreg⟩, hv⟩

theorem definedBy_eq_iff (hi : Fresh instr) (hv : v ≠ 0) :
    definedBy instr = v ↔ Defines instr.instruction v := by
  rw [definedBy, addInstructionVRs_eq, (foldl_addOccurrence _ instr).2, hi.definedVr_eq]
  have hmem : Defines instr.instruction v ↔
      v ∈ ((occurrences instr.instruction).filter (isDefinedAt instr.instruction ·)).map
        (·.reg.number) := by
    simp only [Defines, List.mem_map, List.mem_filter]
    constructor
    · rintro ⟨o, ho, hreg, hdef⟩
      exact ⟨o, ⟨ho, hdef⟩, hreg⟩
    · rintro ⟨o, ⟨ho, hdef⟩, hreg⟩
      exact ⟨o, ho, hreg, hdef⟩
  rw [hmem]
  have hone := hi.oneDefinition
  generalize (occurrences instr.instruction).filter (isDefinedAt instr.instruction ·) = os at hone ⊢
  cases os with
  | nil => simpa using hv.symm
  | cons o os =>
    have hnil : os = [] := by
      rw [List.length_cons] at hone
      exact List.length_eq_zero_iff.1 (by omega)
    rw [hnil]
    simp [eq_comm]

theorem names_iff (hi : Fresh instr) (hv : v ≠ 0) :
    Names instr.instruction v ↔ v ∈ usedBy instr ∨ definedBy instr = v := by
  rw [mem_usedBy hi, definedBy_eq_iff hi hv]
  constructor
  · rintro ⟨o, ho, hreg⟩
    cases hdef : isDefinedAt instr.instruction o with
    | false => exact Or.inl ⟨hv, o, ho, hreg, hdef⟩
    | true => exact Or.inr ⟨o, ho, hreg, hdef⟩
  · rintro (⟨-, o, ho, hreg, -⟩ | ⟨o, ho, hreg, -⟩)
    · exact ⟨o, ho, hreg⟩
    · exact ⟨o, ho, hreg⟩

theorem mem_occurrences {instr : Arch.Instruction} {o : Occurrence} (h : o ∈ occurrences instr) :
    o.op ∈ instr.ops ∧ o.reg ∈ namedRegisters o.op ∧ o.reg.isVirtual = true := by
  obtain ⟨op, hop, ho⟩ := List.mem_flatMap.1 h
  obtain ⟨r, hr, rfl⟩ := List.mem_map.1 ho
  obtain ⟨hr, hvirtual⟩ := List.mem_filter.1 hr
  exact ⟨List.fst_mem_of_mem_zipIdx hop, hr, hvirtual⟩

theorem names_of_named {instr : Arch.Instruction} {op : Operand} (hop : op ∈ instr.ops)
    {r : VirtualRegister} (hr : r ∈ namedRegisters op) (hv : IsVr r v) : Names instr v := by
  obtain ⟨n, hn⟩ := List.mem_iff_getElem?.1 hop
  refine ⟨⟨op, n, r⟩, ?_, hv.2⟩
  refine List.mem_flatMap.2 ⟨(op, n), List.mem_zipIdx_iff_getElem?.2 hn, ?_⟩
  exact List.mem_map.2 ⟨r, List.mem_filter.2 ⟨hr, hv.1⟩, rfl⟩

theorem named_reg {op : Operand} (he : op.isExplicit = true) {r : VirtualRegister}
    (hr : op.value = .reg r) : r ∈ namedRegisters op := by
  simp [namedRegisters, he, hr]

theorem named_matched {op : Operand} (he : op.isExplicit = true) {r : VirtualRegister}
    (hr : r ∈ op.matchedRegisters) : r ∈ namedRegisters op := by
  unfold namedRegisters
  rw [if_pos he]
  split
  next r' hr' => simp [Operand.matchedRegisters, hr'] at hr
  next => exact hr

theorem names_of_clears {instr : Arch.Instruction} (h : Clears instr v) : Names instr v := by
  unfold Clears at h
  split at h
  next _ op₀ op₁ rest hform hops =>
    obtain ⟨he, r₀, r₁, hr₀, -, -, -, hv⟩ := h
    exact names_of_named (by simp [hops]) (named_reg he hr₀) hv
  next _ op₀ op₁ rest hform hops =>
    obtain ⟨he, r₀, r₁, hr₀, -, -, -, hv⟩ := h
    exact names_of_named (by simp [hops]) (named_reg he hr₀) hv
  next _ op₀ op₁ rest hform hops =>
    obtain ⟨he, r₀, hr₀, -, -, hv⟩ := h
    exact names_of_named (by simp [hops]) (named_reg he hr₀) hv
  next => exact h.elim

theorem names_iff_reads_or_overwrites {instr : Arch.Instruction} :
    Names instr v ↔ Reads instr v ∨ Overwrites instr v := by
  constructor
  · rintro ⟨o, ho, hreg⟩
    obtain ⟨hop, hnamed, hvirtual⟩ := mem_occurrences ho
    have hvr : IsVr o.reg v := ⟨hvirtual, hreg⟩
    unfold namedRegisters at hnamed
    split_ifs at hnamed with he
    · split at hnamed
      next r hr =>
        obtain rfl := List.mem_singleton.1 hnamed
        by_cases hover : OverwritesReg o.op o.reg
        · exact Or.inr (Or.inr ⟨o.op, hop, he, o.reg, hr, hvr, hover⟩)
        · by_cases hclears : Clears instr v
          · exact Or.inr (Or.inl hclears)
          · exact Or.inl ⟨o.op, hop, he, Or.inr ⟨o.reg, hr, hvr, hover, hclears⟩⟩
      next => exact Or.inl ⟨o.op, hop, he, Or.inl ⟨o.reg, hnamed, hvr⟩⟩
    · cases hnamed
  · rintro (⟨op, hop, he, ⟨r, hr, hv⟩ | ⟨r, hr, hv, -⟩⟩ | hclears | ⟨op, hop, he, r, hr, hv, -⟩)
    · exact names_of_named hop (named_matched he hr) hv
    · exact names_of_named hop (named_reg he hr) hv
    · exact names_of_clears hclears
    · exact names_of_named hop (named_reg he hr) hv

end Instruction

/-- The first instruction that names a register is not both: one that reads the register, and one
that `AddOperand` takes for a definition of it. -/
def KeepsReads (instrs : List Code.Instruction) : Prop :=
  ∀ past instr rest v, v ≠ 0 → instrs = past ++ .native instr :: rest →
    (∀ instr', .native instr' ∈ past → ¬Names instr'.instruction v) →
    Reads instr.instruction v → ¬Defines instr.instruction v

def FreshAll (instrs : List Code.Instruction) : Prop := ∀ instr, .native instr ∈ instrs → Fresh instr

section Fragment

variable {v : VRId}

theorem exposed_of_readsFirst {instrs : List Code.Instruction} (hf : FreshAll instrs) (hv : v ≠ 0)
    (hk : ∀ past i rest, instrs = past ++ .native i :: rest →
      (∀ i', .native i' ∈ past → ¬Names i'.instruction v) → Reads i.instruction v →
        ¬Defines i.instruction v)
    (hr : ReadsFirst v instrs) : v ∈ exposed instrs := by
  induction instrs with
  | nil => exact hr.elim
  | cons instr instrs ih =>
    have hfrest : FreshAll instrs := fun i hi ↦ hf i (List.mem_cons_of_mem instr hi)
    have hkrest (hnot : ∀ i, instr = .native i → ¬Names i.instruction v)
        (past : List Code.Instruction) (i : NativeInstruction) (rest : List Code.Instruction)
        (heq : instrs = past ++ .native i :: rest)
        (hpast : ∀ i', .native i' ∈ past → ¬Names i'.instruction v)
        (hread : Reads i.instruction v) : ¬Defines i.instruction v := by
      refine hk (instr :: past) i rest (by rw [heq, List.cons_append]) ?_ hread
      intro i' hi'
      obtain heq' | hi' := List.mem_cons.1 hi'
      · exact hnot i' heq'.symm
      · exact hpast i' hi'
    cases instr with
    | label => exact ih hfrest (hkrest (by simp)) hr
    | annot => exact ih hfrest (hkrest (by simp)) hr
    | native i =>
      have hi : Fresh i := hf i List.mem_cons_self
      rw [exposed, List.mem_filter, List.mem_append, decide_eq_true_eq]
      by_cases hnames : Names i.instruction v
      · have hread : Reads i.instruction v := by
          obtain hread | ⟨hnot, -⟩ := hr
          · exact hread
          · exact (names_iff_reads_or_overwrites.1 hnames).resolve_right hnot
        have hdef := hk [] i instrs rfl (by simp) hread
        have hused := ((names_iff hi hv).1 hnames).resolve_right
          fun h ↦ hdef ((definedBy_eq_iff hi hv).1 h)
        exact ⟨Or.inl hused, fun h ↦ hdef ((definedBy_eq_iff hi hv).1 h.symm)⟩
      · obtain hread | ⟨-, hr⟩ := hr
        · exact absurd (names_iff_reads_or_overwrites.2 (Or.inl hread)) hnames
        · have hlater := ih hfrest (hkrest (by
            intro i' hi'
            cases hi'
            exact hnames)) hr
          refine ⟨Or.inr hlater, fun h ↦ ?_⟩
          exact hnames ((names_iff hi hv).2 (Or.inr h.symm))

theorem mem_mentioned {instrs : List Code.Instruction} (hf : FreshAll instrs) (hv : v ≠ 0) :
    v ∈ mentioned instrs ↔ ∃ i, .native i ∈ instrs ∧ Names i.instruction v := by
  induction instrs with
  | nil => simp [mentioned]
  | cons instr instrs ih =>
    have hrest := ih fun i hi ↦ hf i (List.mem_cons_of_mem instr hi)
    cases instr with
    | label => simp [mentioned, hrest]
    | annot => simp [mentioned, hrest]
    | native i =>
      have hi : Fresh i := hf i List.mem_cons_self
      have hhead : v ∈ (definedBy i :: usedBy i).filter (· ≠ 0) ↔ Names i.instruction v := by
        rw [names_iff hi hv, List.mem_filter, List.mem_cons, decide_eq_true_eq, or_comm,
          eq_comm (a := v)]
        exact and_iff_left hv
      rw [mentioned, List.mem_append, hhead, hrest]
      constructor
      · rintro (hnames | ⟨j, hj, hnames⟩)
        · exact ⟨i, List.mem_cons_self, hnames⟩
        · exact ⟨j, List.mem_cons_of_mem _ hj, hnames⟩
      · rintro ⟨j, hj, hnames⟩
        obtain heq | hj := List.mem_cons.1 hj
        · cases heq
          exact Or.inl hnames
        · exact Or.inr ⟨j, hj, hnames⟩

theorem readsFirst_of_names {instrs : List Code.Instruction} (hp : PassesThrough v instrs)
    (h : ∃ i, .native i ∈ instrs ∧ Names i.instruction v) : ReadsFirst v instrs := by
  induction instrs with
  | nil => simp at h
  | cons instr instrs ih =>
    have hrest : PassesThrough v instrs := fun i hi ↦ hp i (List.mem_cons_of_mem instr hi)
    obtain ⟨i, hi, hnames⟩ := h
    cases instr with
    | label => exact ih hrest ⟨i, by simpa using hi, hnames⟩
    | annot => exact ih hrest ⟨i, by simpa using hi, hnames⟩
    | native j =>
      have hj : ¬Overwrites j.instruction v := hp j List.mem_cons_self
      obtain heq | hi := List.mem_cons.1 hi
      · cases heq
        exact Or.inl ((names_iff_reads_or_overwrites.1 hnames).resolve_right hj)
      · exact Or.inr ⟨hj, ih hrest ⟨i, hi, hnames⟩⟩

theorem readsFirst_append {past rest : List Code.Instruction}
    (hpast : ∀ i, .native i ∈ past → ¬Names i.instruction v) (h : ReadsFirst v rest) :
    ReadsFirst v (past ++ rest) := by
  induction past with
  | nil => exact h
  | cons instr past ih =>
    have hrest := ih fun i hi ↦ hpast i (List.mem_cons_of_mem instr hi)
    cases instr with
    | label => exact hrest
    | annot => exact hrest
    | native i =>
      have hi := hpast i List.mem_cons_self
      exact Or.inr ⟨fun hover ↦ hi (names_iff_reads_or_overwrites.2 (Or.inr hover)), hrest⟩

theorem not_mem_exposed {past rest : List Code.Instruction} {i : NativeInstruction}
    (hf : FreshAll (past ++ .native i :: rest)) (hv : v ≠ 0)
    (hpast : ∀ i, .native i ∈ past → ¬Names i.instruction v) (hdef : Defines i.instruction v) :
    v ∉ exposed (past ++ .native i :: rest) := by
  induction past with
  | nil =>
    have hi : Fresh i := hf i List.mem_cons_self
    rw [List.nil_append, exposed, List.mem_filter, decide_eq_true_eq]
    exact fun h ↦ h.2 ((definedBy_eq_iff hi hv).2 hdef).symm
  | cons instr past ih =>
    have hrest := ih (fun j hj ↦ hf j (List.mem_cons_of_mem instr hj))
      fun j hj ↦ hpast j (List.mem_cons_of_mem instr hj)
    cases instr with
    | label => exact hrest
    | annot => exact hrest
    | native j =>
      have hj : Fresh j := hf j List.mem_cons_self
      have hnot := hpast j List.mem_cons_self
      rw [List.cons_append, exposed, List.mem_filter, List.mem_append]
      rintro ⟨hused | hlater, -⟩
      · exact hnot ((names_iff hj hv).2 (Or.inl hused))
      · exact hrest hlater

end Fragment

def KeepsAllReads (g : FragmentList) : Prop :=
  ∀ i ∈ g.frags, (g.heap i).isCode = true → KeepsReads (g.heap i).instrs

def FreshList (g : FragmentList) : Prop :=
  ∀ i ∈ g.frags, (g.heap i).isCode = true → FreshAll (g.heap i).instrs

theorem usedLater_of_readLater {g : FragmentList} (hg : g.WellFormed) (hf : FreshList g)
    (hk : KeepsAllReads g) {v : VRId} (hv : v ≠ 0) {i : FragmentId} (hi : i ∈ g.frags)
    (hc : (g.heap i).isCode = true) (h : ReadLater g.heap v i) : UsedLater g.heap v i := by
  have hexposed {i : FragmentId} (hi : i ∈ g.frags) (hc : (g.heap i).isCode = true)
      (hr : ReadsFirst v (g.heap i).instrs) : v ∈ exposed (g.heap i).instrs := by
    refine exposed_of_readsFirst (hf i hi hc) hv ?_ hr
    exact fun past instr rest heq hpast hread ↦ hk i hi hc past instr rest v hv heq hpast hread
  induction h with
  | here hr => exact .here (hexposed hi hc hr)
  | @later i j hp hfollow hj hjc _ ih =>
    by_cases hm : v ∈ mentioned (g.heap i).instrs
    · exact .here (hexposed hi hc (readsFirst_of_names hp ((mem_mentioned (hf _ hi hc) hv).1 hm)))
    · exact .later hm hfollow hj hjc (ih (hg.closed _ hi _ hj hjc) hjc)

/-- The heaps while the registers of the instructions are found, and then passed from fragments to
their predecessors, one instruction and one register after the other. -/
inductive Tracking (g : FragmentList) : Heap → Prop
  | finds {done todo : List FragmentId} {i : FragmentId} {rest instrs : List Code.Instruction}
      (hfrags : g.frags = done ++ i :: todo) (hc : (findVRs done g.heap i).isCode = true)
      (hinstrs : (findVRs done g.heap i).instrs = rest ++ instrs) :
      Tracking g (update (findVRs done g.heap) i
        (instrs.foldr findInstructionVRs { findVRs done g.heap i with instrs := [] }))
  | found : Tracking g (findVRs g.frags g.heap)
  | inherits {h : Heap} (hh : Tracking g h) (pred : FragmentId) (v : VRId) :
      Tracking g (inheritVr pred h v).1

def EntryInExit (f : Fragment) : Prop := ∀ v ∈ f.entryRegs, v ∈ f.exitRegs

theorem entryInExit_foldr {f : Fragment} (hf : EntryInExit f) (instrs : List Code.Instruction) :
    EntryInExit (instrs.foldr findInstructionVRs f) := by
  induction instrs with
  | nil => exact hf
  | cons instr instrs ih =>
    rw [List.foldr_cons]
    generalize instrs.foldr findInstructionVRs f = f' at ih
    intro v hv
    cases instr with
    | label => exact ih v hv
    | annot => exact ih v hv
    | native i =>
      have hunion (w : VRId) (used : List VRId) (hw : w ∈ f'.entryRegs.union used) :
          w ∈ f'.exitRegs.union used := by
        rw [TinySet.mem_union] at hw ⊢
        exact hw.imp_left (ih w)
      simp only [findInstructionVRs] at hv ⊢
      split_ifs at hv ⊢
      · exact TinySet.mem_add.2 (Or.inl (hunion v _ (TinySet.mem_remove.1 hv).1))
      · exact hunion v _ hv

theorem entryInExit_update {h : Heap} (hh : ∀ i, EntryInExit (h i)) {i : FragmentId} {f : Fragment}
    (hf : EntryInExit f) (j : FragmentId) : EntryInExit (update h i f j) := by
  by_cases hj : j = i
  · rw [hj, update_self]
    exact hf
  · rw [update_of_ne hj]
    exact hh j

theorem entryInExit_findVRs (frags : List FragmentId) {h : Heap} (hh : ∀ i, EntryInExit (h i))
    (i : FragmentId) : EntryInExit (findVRs frags h i) := by
  unfold findVRs
  induction frags generalizing h with
  | nil => exact hh i
  | cons j frags ih =>
    rw [List.foldl_cons]
    apply ih
    split_ifs
    · exact entryInExit_update hh (entryInExit_foldr (f := { h j with instrs := [] }) (hh j) _)
    · exact hh

theorem entryInExit_inheritVr {h : Heap} (hh : ∀ i, EntryInExit (h i)) (pred : FragmentId)
    (v : VRId) (i : FragmentId) : EntryInExit ((inheritVr pred h v).1 i) := by
  unfold inheritVr
  split_ifs with hv hf
  · exact hh i
  · refine entryInExit_update hh ?_ i
    exact fun w hw ↦ TinySet.mem_add.2 (Or.inl (hh pred w hw))
  · refine entryInExit_update hh ?_ i
    exact fun w hw ↦ TinySet.mem_add.2 ((TinySet.mem_add.1 hw).imp_left (hh pred w))

theorem entryInExit_of_tracking {g : FragmentList} (hu : Untracked g) {h : Heap}
    (hh : Tracking g h) (i : FragmentId) : EntryInExit (h i) := by
  have hstart (j : FragmentId) : EntryInExit (g.heap j) := by
    intro v hv
    rw [hu.entry j] at hv
    cases hv
  induction hh generalizing i with
  | @finds done _ j =>
    refine entryInExit_update (entryInExit_findVRs done hstart) ?_ i
    exact entryInExit_foldr (f := { findVRs done g.heap j with instrs := [] })
      (entryInExit_findVRs done hstart j) _
  | found => exact entryInExit_findVRs _ hstart i
  | inherits _ pred v ih => exact entryInExit_inheritVr ih pred v i

theorem tracking_sweep {g : FragmentList} {α : Type*} {step : Heap → α → Heap × Bool}
    (hstep : ∀ h a, Tracking g h → Tracking g (step h a).1) (l : List α) {h : Heap}
    (hh : Tracking g h) : Tracking g (sweep step l h).1 :=
  sweep_preserves (fun a _ h hh ↦ hstep h a hh) hh

theorem tracking_pass {g : FragmentList} {h : Heap} (hh : Tracking g h) :
    Tracking g (backPropagatePass g.frags h).1 := by
  apply tracking_sweep _ _ hh
  intro h i hh
  unfold backPropagateFragment
  split_ifs
  · apply tracking_sweep _ _ hh
    intro h j hh
    unfold backPropagateEntryDefs
    split_ifs
    · apply tracking_sweep _ _ hh
      exact fun h v hh ↦ .inherits hh i v
    · exact hh
  · exact hh

theorem tracking_of_stops {g : FragmentList} {h : Heap}
    (hs : Stops (backPropagatePass g.frags) (findVRs g.frags g.heap) h) : Tracking g h := by
  obtain ⟨n, hn⟩ := hs
  obtain ⟨t, ht, -, rfl⟩ := repeatUntil_last (P := Tracking g) (fun h hh ↦ tracking_pass hh)
    .found (hn n le_rfl)
  exact tracking_pass ht

/-- `TrackVirtualRegs` finds every register whose value on entry to a fragment can be read, if, and
only if, no fragment hides a first read behind a definition. The registers on entry are always
registers on exit. -/
theorem entryRegs_sound_iff {g : FragmentList} (hg : g.WellFormed) (hu : Untracked g)
    (hf : FreshList g) :
    ∃ h, Stops (backPropagatePass g.frags) (findVRs g.frags g.heap) h ∧ Tracking g h ∧
      (((∀ i ∈ g.frags, (g.heap i).isCode = true → ∀ v, v ≠ 0 → ReadLater g.heap v i →
          v ∈ (h i).entryRegs) ∧
        ∀ h', Tracking g h' → ∀ i, ∀ v ∈ (h' i).entryRegs, v ∈ (h' i).exitRegs) ↔
        KeepsAllReads g) := by
  obtain ⟨h, hp, hstops⟩ := backPropagation_stops hg hu
  refine ⟨h, hstops, tracking_of_stops hstops, ?_⟩
  constructor
  · rintro ⟨hall, -⟩ i hi hc past instr rest v hv heq hpast hread hdef
    have hfirst : ReadsFirst v (g.heap i).instrs := by
      rw [heq]
      exact readsFirst_append hpast (Or.inl hread)
    have hused := (hp.entry i hi hc v).1 (hall i hi hc v hv (.here hfirst))
    have hfresh := hf i hi hc
    cases hused with
    | here hexposed =>
      rw [heq] at hexposed hfresh
      exact not_mem_exposed hfresh hv hpast hdef hexposed
    | later hnot =>
      apply hnot
      rw [mem_mentioned hfresh hv]
      obtain ⟨o, ho, hreg, -⟩ := hdef
      exact ⟨instr, by simp [heq], o, ho, hreg⟩
  · intro hk
    refine ⟨fun i hi hc v hv hr ↦ ?_, fun h' hh' ↦ entryInExit_of_tracking hu hh'⟩
    exact (hp.entry i hi hc v).2 (usedLater_of_readLater hg hf hk hv hi hc hr)

def vr : VirtualRegister := { kind := .virtualGpr, number := 1024 }

def oneInstruction (ops : List Operand) : FragmentList where
  frags := [0, 1]
  heap i := if i = 0 then
      { instrs := [.native { instruction := { ops := ops } }], fallThrough := some 1 }
    else { cls := .exit }
  next := 2

theorem oneInstruction_wellFormed (ops : List Operand) : (oneInstruction ops).WellFormed where
  nodup := by simp [oneInstruction]
  lt_next := by simp [oneInstruction]
  succ_lt := by simp [oneInstruction, Fragment.successors]
  closed := by simp [oneInstruction, Fragment.successors]

theorem oneInstruction_untracked (ops : List Operand) : Untracked (oneInstruction ops) := by
  constructor <;> intro i <;> simp only [oneInstruction] <;> split_ifs <;> rfl

theorem oneInstruction_fresh {ops : List Operand} (h : Fresh { instruction := { ops := ops } }) :
    FreshList (oneInstruction ops) := by
  intro i hi hc instr hinstr
  by_cases hzero : i = 0
  · simp only [oneInstruction, if_pos hzero, List.mem_singleton] at hinstr
    cases hinstr
    exact h
  · simp [oneInstruction, if_neg hzero] at hinstr

/-- `MOV %0, [%0]`. -/
def loadSelf : List Operand :=
  [{ value := .reg vr, rw := .w }, { value := .mem vr }]

/-- `MOV %0, [%1]`. -/
def loadOther : List Operand :=
  [{ value := .reg vr, rw := .w }, { value := .mem { vr with number := 1025 } }]

theorem entryRegs_sound_loadOther :
    ∃ h, Stops (backPropagatePass [0, 1]) (findVRs [0, 1] (oneInstruction loadOther).heap) h ∧
      1025 ∈ (h 0).entryRegs := by
  have hfresh : FreshList (oneInstruction loadOther) :=
    oneInstruction_fresh ⟨rfl, rfl, by decide⟩
  obtain ⟨h, hstops, -, hiff⟩ := entryRegs_sound_iff (oneInstruction_wellFormed loadOther)
    (oneInstruction_untracked loadOther) hfresh
  have hkeeps : KeepsAllReads (oneInstruction loadOther) := by
    intro i _ _ past instr rest v _ heq _ hread hdef
    have hinstr : instr = { instruction := { ops := loadOther } } := by
      have hmem : .native instr ∈ ((oneInstruction loadOther).heap i).instrs := by simp [heq]
      by_cases hzero : i = 0
      · simpa [oneInstruction, hzero] using hmem
      · simp [oneInstruction, hzero] at hmem
    subst hinstr
    have hdefined : v = 1024 := by
      obtain ⟨o, ho, hreg, hat⟩ := hdef
      obtain rfl | rfl : o = ⟨{ value := .reg vr, rw := .w }, 0, vr⟩ ∨
          o = ⟨{ value := .mem { vr with number := 1025 } }, 1, { vr with number := 1025 }⟩ := by
        simpa [occurrences, namedRegisters, Operand.matchedRegisters, loadOther, vr,
          VirtualRegister.isVirtual] using ho
      · exact hreg.symm
      · exact absurd hat (by decide)
    subst hdefined
    obtain ⟨op, hop, -, hread⟩ := hread
    simp only [loadOther, List.mem_cons, List.not_mem_nil, or_false] at hop
    obtain rfl | rfl := hop
    · simp [Operand.matchedRegisters, OverwritesReg, vr, Action.isWrite, Action.isRead,
        Action.isConditionalWrite, Operand.isReadWrite] at hread
    · simp [Operand.matchedRegisters, IsVr, vr] at hread
  have hread : ReadLater (oneInstruction loadOther).heap 1025 0 := by
    apply ReadLater.here
    left
    refine ⟨{ value := .mem { vr with number := 1025 } }, by simp [loadOther], rfl, ?_⟩
    exact Or.inl ⟨_, List.mem_singleton_self _, rfl, rfl⟩
  exact ⟨h, hstops, (hiff.2 hkeeps).1 0 (by simp [oneInstruction]) rfl 1025 (by decide) hread⟩

theorem loadSelf_hidden :
    ∃ h, Stops (backPropagatePass [0, 1]) (findVRs [0, 1] (oneInstruction loadSelf).heap) h ∧
      ReadLater (oneInstruction loadSelf).heap 1024 0 ∧ 1024 ∉ (h 0).entryRegs := by
  refine ⟨_, stops_of_quiet (by decide), ?_, by decide⟩
  apply ReadLater.here
  left
  refine ⟨{ value := .mem vr }, by simp [loadSelf], rfl, Or.inl ⟨vr, ?_, rfl, rfl⟩⟩
  exact List.mem_singleton_self vr

end Granary.Assemble.TrackVirtualRegs
