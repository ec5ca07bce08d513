import Granary.Arch.ContextSwitch

namespace Granary.Arch.ContextSwitch

open Function Granary.Base.WordMemory Granary.Arch.Machine
open Granary.Arch.Call (Gpr)

variable {X : Type}

def redzoneSizeBytes (isKernel : Bool) : ℕ :=
  if isKernel then 0 else 128

def switchOffStack (isKernel : Bool) : List (Instr X) :=
  encodeIf (redzoneSizeBytes isKernel ≠ 0) [.leaRsp (-BitVec.ofNat 64 (redzoneSizeBytes isKernel))]

def switchOnStack (isKernel : Bool) : List (Instr X) :=
  encodeIf (redzoneSizeBytes isKernel ≠ 0) [.leaRsp (BitVec.ofNat 64 (redzoneSizeBytes isKernel))]

/-- The addresses of the structure of an edge, of its field `entry_target_pc`, and of the code after
the jump through that field. -/
structure EdgeAddresses where
  edge : BitVec 64
  entryTargetPc : BitVec 64
  slowPath : BitVec 64

def generateDirectEdgeCode (isKernel : Bool) (edge : EdgeAddresses)
    (directExitFunction : State X → Option (State X)) (ra : BitVec 64) : List (Instr X) :=
  switchOffStack isKernel ++
  [.push .rdi, .movImm .rdi edge.edge, .call ra directExitFunction, .pop .rdi] ++
  switchOnStack isKernel

/-- Turns around the code of an edge: the jump goes to the code after it for as long as that is what
the field says. -/
def runDirectEdge (arith : BitVec 64 → BitVec 64) (isKernel : Bool) (edge : EdgeAddresses)
    (directExitFunction : State X → Option (State X)) (ra : BitVec 64) : ℕ → State X → Option (State X)
  | 0, _ => none
  | fuel + 1, s =>
    if load s.mem edge.entryTargetPc = edge.slowPath then
      (run arith (generateDirectEdgeCode isKernel edge directExitFunction ra) s).bind
        (runDirectEdge arith isKernel edge directExitFunction ra fuel)
    else some { s with pc := load s.mem edge.entryTargetPc }

def directExitFunction (arith : BitVec 64 → BitVec 64) (isKernel : Bool) (enter : State X → State X)
    (ra ra' : BitVec 64) : State X → Option (State X) :=
  run arith
    (generateDirectEdgeEntryCode isKernel (run arith (granaryArchEnterDirectEdge enter ra')) ra)

def indirectExitFunction (arith : BitVec 64 → BitVec 64) (isKernel : Bool) (enter : State X → State X)
    (ra ra' : BitVec 64) : State X → Option (State X) :=
  run arith
    (generateIndirectEdgeEntryCode isKernel (run arith (granaryArchEnterIndirectEdge enter ra')) ra)

def directSaved : List Gpr :=
  [.rax, .rsi, .rcx, .rdx, .rbx, .rbp, .r8, .r9, .r10, .r11, .r12, .r13, .r14, .r15]

def indirectSaved : List Gpr :=
  [.rax, .rdi, .rcx, .rdx, .rbx, .rbp, .r8, .r9, .r10, .r11, .r12, .r13, .r14, .r15]

variable {arith : BitVec 64 → BitVec 64} {isKernel : Bool} {enter : State X → State X}
  {edge : EdgeAddresses} {lo hi n : ℕ} {spared : Set (BitVec 64)} {s : State X}
  {ra ra' ra'' : BitVec 64}

theorem granaryArchEnterDirectEdge_eq (enter : State X → State X) (ra : BitVec 64) :
    granaryArchEnterDirectEdge enter ra = directSaved.map .push ++
      (alignStack16 .r15 ++ [callFunction ra enter] ++ unalignStack) ++
        directSaved.reverse.map .pop ++ [.ret] :=
  rfl

theorem granaryArchEnterIndirectEdge_eq (enter : State X → State X) (ra : BitVec 64) :
    granaryArchEnterIndirectEdge enter ra = indirectSaved.map .push ++
      (alignStack16 .r15 ++ [callFunction ra enter] ++ unalignStack) ++
        indirectSaved.reverse.map .pop ++ [.ret] :=
  rfl

theorem run_exitFunction (arith : BitVec 64 → BitVec 64) (ra : BitVec 64) {saved : List Gpr}
    {k : Gpr} {routine : List (Instr X)}
    (hroutine : routine = saved.map .push ++
      (alignStack16 .r15 ++ [callFunction ra' enter] ++ unalignStack) ++
        saved.reverse.map .pop ++ [.ret])
    (hsaved : ∀ r, r ∈ saved ↔ r ≠ k) (hlength : saved.length ≤ 15) (hn : 8 ≤ n)
    (hstacks : Stacks isKernel lo hi spared n s) (henter : Conforms enter lo hi spared) :
    ∃ e, run arith (offNativeStack isKernel [.call ra (run arith routine)]) s = some { s with
        regs := update s.regs k ((enter e).regs k)
        rsp := s.rsp + 8
        pc := s.top
        mem := (enter e).mem
        other := (enter e).other } ∧
      Entered isKernel s e ∧
      Set.EqOn (enter e).mem e.mem (Span s.rsp.toNat (s.rsp.toNat + n)) := by
  obtain ⟨e, hrun, hentered, hframe⟩ := run_edgeEntry arith ra hroutine hlength
    hn hstacks henter
  refine ⟨e, hrun.trans ?_, hentered, hframe⟩
  congr 2
  funext r
  by_cases hr : r = k
  · rw [if_neg (by simp [hsaved, hr]), hr, update_self]
  · rw [if_pos ((hsaved r).2 hr), update_of_ne hr]

theorem mem_directSaved (r : Gpr) : r ∈ directSaved ↔ r ≠ .rdi := by
  cases r <;> decide

theorem mem_indirectSaved (r : Gpr) : r ∈ indirectSaved ↔ r ≠ .rsi := by
  cases r <;> decide

def storeAndReturn (a v : BitVec 64) (s : State Unit) : State Unit :=
  { s.drop with pc := s.top, mem := store s.mem a v }

theorem conforms_storeAndReturn {a v : BitVec 64} (ha : a.toNat + 8 ≤ lo) (hlo : lo ≤ 2 ^ 64)
    (hspared : ∀ b ∈ spared, lo ≤ b.toNat) : Conforms (storeAndReturn a v) lo hi spared := by
  intro e _ he _
  refine ⟨rfl, rfl, eqOn_store (by omega) ?_, rfl, rfl⟩
  intro b hb
  rw [mem_span]
  obtain hstack | hb := hb
  · rw [mem_span] at hstack
    omega
  · have := hspared b hb
    omega

/-- The compiled function for indirect edges gets the edge and the native target in the registers
that hold them. Only the register of the target is different after the call. -/
theorem indirectExitFunction_transparent (hn : 8 ≤ n) (hstacks : Stacks isKernel lo hi spared n s)
    (henter : Conforms enter lo hi spared) :
    ∃ e, indirectExitFunction arith isKernel enter ra ra' s = some { s with
        regs := update s.regs .rsi ((enter e).regs .rsi)
        rsp := s.rsp + 8
        pc := s.top
        mem := (enter e).mem
        other := (enter e).other } ∧
      e.regs .rdi = s.regs .rdi ∧ e.regs .rsi = s.regs .rsi ∧
      e.rsp.toNat % 16 = 8 ∧
      (isKernel = true → e.flags &&& interruptFlag = 0) ∧
      e.other = s.other ∧
      (∀ b ∉ scratch isKernel s, e.mem b = s.mem b) ∧
      Set.EqOn (enter e).mem s.mem (Span s.rsp.toNat (s.rsp.toNat + n)) := by
  obtain ⟨e, hrun, hentered, hframe⟩ := run_exitFunction arith ra
    (granaryArchEnterIndirectEdge_eq enter ra') mem_indirectSaved (by decide) hn hstacks henter
  refine ⟨e, hrun, hentered.regs (by decide), hentered.regs (by decide), hentered.aligned,
    hentered.interrupts, hentered.other, fun b ↦ hentered.mem, ?_⟩
  intro b hb
  rw [hframe hb, hentered.mem (hstacks.native_notMem_scratch hb)]

theorem indirectExitFunction_transparent_user :
    ∃ e, indirectExitFunction id false (storeAndReturn 0x5000 0x2000) 1 2 userThread =
        some { userThread with
          regs := update userThread.regs .rsi ((storeAndReturn 0x5000 0x2000 e).regs .rsi)
          rsp := userThread.rsp + 8
          pc := userThread.top
          mem := (storeAndReturn 0x5000 0x2000 e).mem
          other := () } ∧
      e.regs .rdi = userThread.regs .rdi ∧ e.regs .rsi = userThread.regs .rsi ∧
      e.rsp.toNat % 16 = 8 ∧
      (false = true → e.flags &&& interruptFlag = 0) ∧
      e.other = () ∧
      (∀ b ∉ scratch false userThread, e.mem b = userThread.mem b) ∧
      Set.EqOn (storeAndReturn 0x5000 0x2000 e).mem userThread.mem
        (Span userThread.rsp.toNat (userThread.rsp.toNat + 8)) := by
  have hstacks : Stacks false 0x7000 0x8000 ∅ 8 userThread :=
    ⟨by decide, by decide, by decide, fun _ ↦ ⟨by decide, by decide⟩, nofun⟩
  exact indirectExitFunction_transparent le_rfl hstacks
    (conforms_storeAndReturn (by decide) (by decide) fun _ ↦ False.elim)

def atExit (isKernel : Bool) (edge : EdgeAddresses) (ra : BitVec 64) (s : State X) : State X :=
  ((({ s with rsp := s.rsp - BitVec.ofNat 64 (redzoneSizeBytes isKernel) }).pushWord
    (s.regs .rdi)).set .rdi edge.edge).pushWord ra

theorem regs_atExit : (atExit isKernel edge ra s).regs = update s.regs .rdi edge.edge :=
  rfl

theorem run_switchOffStack : run arith (switchOffStack isKernel) s =
    some { s with rsp := s.rsp - BitVec.ofNat 64 (redzoneSizeBytes isKernel) } := by
  by_cases h : redzoneSizeBytes isKernel = 0
  · simp [switchOffStack, encodeIf, h]
  · simp [switchOffStack, encodeIf, h, run, Instr.exec, sub_eq_add_neg]

theorem run_switchOnStack : run arith (switchOnStack isKernel) s =
    some { s with rsp := s.rsp + BitVec.ofNat 64 (redzoneSizeBytes isKernel) } := by
  by_cases h : redzoneSizeBytes isKernel = 0
  · simp [switchOnStack, encodeIf, h]
  · simp [switchOnStack, encodeIf, h, run, Instr.exec]

/-- The code of an edge is transparent, up to what the compiled function does to the memory. -/
theorem run_generateDirectEdgeCode (arith : BitVec 64 → BitVec 64) (ra' ra'' : BitVec 64)
    (hroom : redzoneSizeBytes isKernel + 16 ≤ s.rsp.toNat)
    (hstacks : Stacks isKernel lo hi spared 16 (atExit isKernel edge ra s))
    (henter : Conforms enter lo hi spared) :
    ∃ e, run arith (generateDirectEdgeCode isKernel edge
        (directExitFunction arith isKernel enter ra' ra'') ra) s =
        some { s with pc := ra, mem := (enter e).mem, other := (enter e).other } ∧
      Entered isKernel (atExit isKernel edge ra s) e := by
  obtain ⟨e, hrun, hentered, hframe⟩ := run_exitFunction arith ra'
    (granaryArchEnterDirectEdge_eq enter ra'') mem_directSaved (by decide) (by decide) hstacks
    henter
  let u : State X := { s with rsp := s.rsp - BitVec.ofNat 64 (redzoneSizeBytes isKernel) }
  have hu : u.rsp.toNat = s.rsp.toNat - redzoneSizeBytes isKernel := toNat_sub_ofNat (by omega)
  have hpushed := toNat_sub_eight (a := u.rsp) (by omega)
  have hcalled := toNat_sub_eight (a := u.rsp - 8) (by omega)
  have hrsp : (atExit isKernel edge ra s).rsp = u.rsp - 8 - 8 := rfl
  have := u.rsp.isLt
  -- the saved register is on the native stack, above the return address
  have hsaved : load (enter e).mem (u.rsp - 8) = s.regs .rdi := by
    calc load (enter e).mem (u.rsp - 8)
        = load (atExit isKernel edge ra s).mem (u.rsp - 8) := by
          apply load_congr (by omega)
          intro b hb
          have hb' : b ∈ Span (atExit isKernel edge ra s).rsp.toNat
              ((atExit isKernel edge ra s).rsp.toNat + 16) := by
            rw [hrsp, hcalled]
            exact span_subset (by omega) (by omega) hb
          rw [hframe hb', hentered.mem (hstacks.native_notMem_scratch hb')]
      _ = s.regs .rdi := by
          change load (store (store s.mem (u.rsp - 8) _) (u.rsp - 8 - 8) ra) (u.rsp - 8) = _
          rw [load_store_of_apart (by omega) (by omega) (by omega), load_store]
  have htop : (atExit isKernel edge ra s).top = ra := top_pushWord ..
  have hcall : (Instr.call ra (directExitFunction arith isKernel enter ra' ra'')).exec arith
      ((u.pushWord (s.regs .rdi)).set .rdi edge.edge) = some { s with
        regs := update (atExit isKernel edge ra s).regs .rdi ((enter e).regs .rdi)
        rsp := u.rsp - 8
        pc := ra
        mem := (enter e).mem
        other := (enter e).other } := by
    change (directExitFunction arith isKernel enter ra' ra'' (atExit isKernel edge ra s)).filter _ =
      _
    have hexit : directExitFunction arith isKernel enter ra' ra'' (atExit isKernel edge ra s) = _ :=
      hrun
    rw [hexit, htop, hrsp, BitVec.sub_add_cancel, Option.filter_some, if_pos (decide_eq_true rfl)]
    rfl
  have hregs : update (update (atExit isKernel edge ra s).regs .rdi ((enter e).regs .rdi)) .rdi
      (s.regs .rdi) = s.regs := by
    rw [regs_atExit, update_idem, update_idem, update_eq_self]
  refine ⟨e, ?_, hentered⟩
  rw [generateDirectEdgeCode, run_append, run_append, run_switchOffStack, Option.bind_some,
    run_cons_of_exec rfl, run_cons_of_exec rfl, run_cons_of_exec hcall, run_cons, Instr.exec,
    Option.bind_some, run_nil, Option.bind_some, run_switchOnStack]
  simp only [State.drop, State.set, State.top, hsaved, hregs, BitVec.sub_add_cancel, u]

/-- The bytes that the code of an edge writes before the compiled function is entered. In user space
the red zone is not among them. -/
def edgeScratch (isKernel : Bool) (s : State X) : Set (BitVec 64) :=
  if isKernel then
    Span (s.rsp.toNat - 24) s.rsp.toNat ∪ Span (s.privateStack.toNat - 167) s.privateStack.toNat
  else Span (s.rsp.toNat - 319) (s.rsp.toNat - 128)

theorem mem_atExit (edge : EdgeAddresses) (ra : BitVec 64) {b : BitVec 64}
    (hroom : redzoneSizeBytes isKernel + 24 ≤ s.rsp.toNat)
    (hb : b ∉ edgeScratch isKernel s) :
    (atExit isKernel edge ra s).mem b = s.mem b ∧
      b ∉ scratch isKernel (atExit isKernel edge ra s) := by
  let u : State X := { s with rsp := s.rsp - BitVec.ofNat 64 (redzoneSizeBytes isKernel) }
  have hu : u.rsp.toNat = s.rsp.toNat - redzoneSizeBytes isKernel := toNat_sub_ofNat (by omega)
  have hpushed := toNat_sub_eight (a := u.rsp) (by omega)
  have hcalled := toNat_sub_eight (a := u.rsp - 8) (by omega)
  have hrsp : (atExit isKernel edge ra s).rsp = u.rsp - 8 - 8 := rfl
  have := u.rsp.isLt
  have hmem : b ∉ Span (u.rsp.toNat - 16) u.rsp.toNat →
      (atExit isKernel edge ra s).mem b = s.mem b := by
    intro hapart
    rw [mem_span] at hapart
    change store (store s.mem (u.rsp - 8) _) (u.rsp - 8 - 8) ra b = s.mem b
    rw [store_of_notMem (by omega), store_of_notMem (by omega)]
    · rw [mem_span]
      omega
    · rw [mem_span]
      omega
  cases isKernel with
  | false =>
    have hsize : redzoneSizeBytes false = 128 := rfl
    rw [edgeScratch, if_neg Bool.false_ne_true, mem_span] at hb
    rw [scratch, if_neg Bool.false_ne_true, hrsp, mem_span]
    refine ⟨hmem ?_, by omega⟩
    rw [mem_span]
    omega
  | true =>
    have hsize : redzoneSizeBytes true = 0 := rfl
    rw [edgeScratch, if_pos rfl, Set.mem_union, mem_span, not_or] at hb
    rw [scratch, if_pos rfl, hrsp, Set.mem_union, mem_span, not_or]
    refine ⟨hmem ?_, by omega, hb.2⟩
    rw [mem_span]
    omega

/-- A thread that executes an unresolved edge once goes on where the compiled function has sent it,
and apart from the memory that the function has written nothing about its state has changed. -/
theorem runDirectEdge_transparent (hroom : redzoneSizeBytes isKernel + 24 ≤ s.rsp.toNat)
    (hstacks : Stacks isKernel lo hi spared 16 (atExit isKernel edge ra s))
    (henter : Conforms enter lo hi spared)
    (hslow : load s.mem edge.entryTargetPc = edge.slowPath)
    (hresolves : ∀ e, e.regs .rdi = edge.edge →
      load (enter e).mem edge.entryTargetPc ≠ edge.slowPath) :
    ∃ e, (∀ fuel, runDirectEdge arith isKernel edge
        (directExitFunction arith isKernel enter ra' ra'') ra (fuel + 2) s =
          some { s with
            pc := load (enter e).mem edge.entryTargetPc
            mem := (enter e).mem
            other := (enter e).other }) ∧
      e.regs .rdi = edge.edge ∧
      (∀ r, r ≠ .rdi → r ≠ .r15 → e.regs r = s.regs r) ∧
      e.rsp.toNat % 16 = 8 ∧
      (isKernel = true → e.flags &&& interruptFlag = 0) ∧
      e.other = s.other ∧
      ∀ b ∉ edgeScratch isKernel s, e.mem b = s.mem b := by
  obtain ⟨e, hrun, hentered⟩ := run_generateDirectEdgeCode arith ra' ra'' (by omega) hstacks henter
  have hedge : e.regs .rdi = edge.edge := by
    rw [hentered.regs (by decide), regs_atExit, update_self]
  refine ⟨e, ?_, hedge, ?_, hentered.aligned, hentered.interrupts,
    hentered.other, ?_⟩
  · intro fuel
    rw [runDirectEdge, if_pos hslow, hrun, Option.bind_some, runDirectEdge,
      if_neg (hresolves e hedge)]
  · intro r hrdi hr15
    rw [hentered.regs hr15, regs_atExit, update_of_ne hrdi]
  · intro b hb
    obtain ⟨hmem, hscratch⟩ := mem_atExit edge ra hroom hb
    rw [hentered.mem hscratch, hmem]

/-- A thread in the kernel in front of an edge that is not resolved yet. -/
def kernelThread : State Unit where
  regs _ := 7
  rsp := 0x8ff8
  pc := 0
  flags := 0x202
  mem := store (fun _ ↦ 0) 0x5000 0x1000
  privateStack := 0x7ff8
  savedFlags := 0
  other := ()

theorem runDirectEdge_transparent_kernel :
    ∃ e, (∀ fuel, runDirectEdge id true ⟨0x4ff0, 0x5000, 0x1000⟩
        (directExitFunction id true (storeAndReturn 0x5000 0x2000) 1 2) 3 (fuel + 2) kernelThread =
          some { kernelThread with
            pc := load (storeAndReturn 0x5000 0x2000 e).mem 0x5000
            mem := (storeAndReturn 0x5000 0x2000 e).mem
            other := () }) ∧
      e.regs .rdi = 0x4ff0 ∧
      (∀ r, r ≠ .rdi → r ≠ .r15 → e.regs r = kernelThread.regs r) ∧
      e.rsp.toNat % 16 = 8 ∧
      (true = true → e.flags &&& interruptFlag = 0) ∧
      e.other = () ∧
      ∀ b ∉ edgeScratch true kernelThread, e.mem b = kernelThread.mem b := by
  have hstacks : Stacks true 0x7000 0x8000 (Span 0x8000 0x9000) 16
      (atExit true ⟨0x4ff0, 0x5000, 0x1000⟩ 3 kernelThread) := by
    refine ⟨by decide, by decide, by decide, by decide, fun _ ↦ ⟨by decide, by decide, ?_, ?_⟩⟩
    · exact span_subset (by decide) (by decide)
    · exact .inr (by decide)
  have henter : Conforms (storeAndReturn 0x5000 0x2000) 0x7000 0x8000 (Span 0x8000 0x9000) := by
    apply conforms_storeAndReturn (by decide) (by decide)
    intro b hb
    exact (by decide : 0x7000 ≤ 0x8000).trans hb.1
  refine runDirectEdge_transparent (by decide) hstacks henter (load_store ..) fun e _ ↦ ?_
  rw [storeAndReturn, load_store]
  decide

end Granary.Arch.ContextSwitch
