import Granary.Arch.ContextSwitch.Callback
import Granary.Arch.ContextSwitch.DirectEdge

namespace Granary.Arch.Trace

open Function Granary.Base.WordMemory Granary.Arch.Machine Granary.Arch.ContextSwitch
open Granary.Arch.Call (Gpr)

structure RegisterState where
  thread : BitVec 64
  rflags : BitVec 64
  regs : Gpr → BitVec 64
  rsp : BitVec 64
  rip : BitVec 64

def RegisterState.words (r : RegisterState) : List (BitVec 64) :=
  r.thread :: r.rflags :: (machineContext.map r.regs ++ [r.rsp, r.rip])

def registerStateAt (mem : Mem) (a : BitVec 64) : RegisterState where
  thread := load mem a
  rflags := load mem (a + 8)
  regs r := (topWords mem (a + 8 + 8) 15).getD (machineContext.idxOf r) 0
  rsp := load mem (a + BitVec.ofNat 64 136)
  rip := load mem (a + BitVec.ofNat 64 144)

def blockLogLength : ℕ :=
  4096

/-- The global variables of the tracer. `threadId` is the one of the current thread, or zero. -/
structure Globals where
  threadId : BitVec 64
  numThreads : BitVec 64
  extraRipOffset : BitVec 64
  blockLog : ℕ → RegisterState
  blockLogIndex : BitVec 32

def pageSizeBytes : ℕ :=
  4096

def initThreadId (isKernel : Bool) (g : Globals) (regs : RegisterState) :
    Globals × RegisterState :=
  if isKernel then
    (g, { regs with thread := regs.rsp / BitVec.ofNat 64 (2 * pageSizeBytes) })
  else
    let g := if g.threadId = 0 then
      { g with threadId := g.numThreads, numThreads := g.numThreads + 1 } else g
    (g, { regs with thread := g.threadId })

def granaryTraceBlockRegs (isKernel : Bool) (g : Globals) (regs : RegisterState) : Globals :=
  let index := g.blockLogIndex
  let g := { g with blockLogIndex := g.blockLogIndex + 1 }
  let logRegs := { regs with
    rsp := regs.rsp + BitVec.ofNat 64 (8 + redzoneSizeBytes isKernel)
    rip := regs.rip - (5 + g.extraRipOffset + if isKernel then 0 else 5) }
  let (g, logRegs) := initThreadId isKernel g logRegs
  { g with blockLog := update g.blockLog (index.toNat % blockLogLength) logRegs }

variable {X : Type}

def granaryTraceBlock (isKernel : Bool) (traceBlockRegs : State X → State X) (ra : BitVec 64) :
    List (Instr X) :=
  ([.pushRsp,
    .push .rax, .push .rcx, .push .rdx, .push .rbx, .push .rbp, .push .rsi, .push .rdi, .push .r8,
    .push .r9, .push .r10, .push .r11, .push .r12, .push .r13, .push .r14, .push .r15,
    .pushfq, .pushImm 0, .movRsp .rdi] : List (Instr X)) ++
  encodeIf isKernel [.cli] ++
  ([callFunction ra traceBlockRegs] ++
  ([.leaRsp 8, .popfq,
    .pop .r15, .pop .r14, .pop .r13, .pop .r12, .pop .r11, .pop .r10, .pop .r9, .pop .r8,
    .pop .rdi, .pop .rsi, .pop .rbp, .pop .rbx, .pop .rdx, .pop .rcx, .pop .rax,
    .leaRsp 8, .ret] : List (Instr X)))

/-- A block with a tracer. The call in the tracer is longer when the routine is out of reach. -/
structure Block where
  start : BitVec 64
  outOfReach : Bool

/-- The length of the call and of the instruction before it, which is there in user space only. -/
def Block.returnAddress (isKernel : Bool) (b : Block) : BitVec 64 :=
  b.start + (if isKernel then 0 else 5) + (if b.outOfReach then 7 else 5)

def addBlockTracer (arith : BitVec 64 → BitVec 64) (isKernel : Bool)
    (traceBlockRegs : State X → State X) (ra : BitVec 64) (b : Block) : List (Instr X) :=
  switchOffStack isKernel ++
  [.call (b.returnAddress isKernel) (run arith (granaryTraceBlock isKernel traceBlockRegs ra))] ++
  switchOnStack isKernel

def noteTracer (b : Block) (g : Globals) : Globals :=
  if b.outOfReach ∧ g.extraRipOffset = 0 then { g with extraRipOffset := 2 } else g

section HandOver

variable {arith : BitVec 64 → BitVec 64} {isKernel : Bool} {f : State X → State X} {lo hi : ℕ}
  {s t u : State X} {ra ra' : BitVec 64} {mem : Mem} {a : BitVec 64} {r : RegisterState}

theorem fields_of_topWords (h : topWords mem a 19 = r.words) :
    load mem a = r.thread ∧ load mem (a + 8) = r.rflags ∧
      topWords mem (a + 8 + 8) 15 = machineContext.map r.regs ∧
      load mem (a + BitVec.ofNat 64 136) = r.rsp ∧ load mem (a + BitVec.ofNat 64 144) = r.rip := by
  rw [RegisterState.words, topWords, topWords, List.cons.injEq, List.cons.injEq,
    topWords_add mem (a + 8 + 8) 15 2] at h
  obtain ⟨hthread, hrflags, h⟩ := h
  obtain ⟨hregs, hrest⟩ := List.append_inj h (by rw [length_topWords]; rfl)
  rw [topWords, topWords, List.cons.injEq, List.cons.injEq] at hrest
  refine ⟨hthread, hrflags, hregs, ?_, ?_⟩
  · rw [← hrest.1, add_assoc, add_assoc]
    rfl
  · rw [← hrest.2.1, add_assoc, add_assoc, add_assoc]
    rfl

theorem registerStateAt_of_topWords (h : topWords mem a 19 = r.words) :
    registerStateAt mem a = r := by
  obtain ⟨hthread, hrflags, hregs, hrsp, hrip⟩ := fields_of_topWords h
  have hall : (fun q ↦ (topWords mem (a + 8 + 8) 15).getD (machineContext.idxOf q) 0) = r.regs := by
    funext q
    have hq : machineContext.idxOf q < machineContext.length :=
      List.idxOf_lt_length_of_mem (mem_machineContext q)
    rw [hregs, List.getD_eq_getElem _ _ (by rwa [List.length_map]), List.getElem_map,
      List.getElem_idxOf]
  rw [registerStateAt, hthread, hrflags, hall, hrsp, hrip]

def handedOver (s : State X) : RegisterState where
  thread := 0
  rflags := s.flags
  regs := s.regs
  rsp := s.rsp
  rip := s.top

def pushed (s : State X) : State X :=
  (((s.pushWord s.rsp).pushRegs machineContext.reverse).pushWord s.flags).pushWord 0

def pushedWords (s : State X) : List (BitVec 64) :=
  s.rsp :: (machineContext.reverse.map s.regs ++ [s.flags, 0])

theorem mem_pushed (s : State X) : (pushed s).mem = pushAll s.mem s.rsp (pushedWords s) := by
  rw [pushedWords, pushAll, pushAll_append]
  rfl

theorem rsp_pushed (s : State X) : (pushed s).rsp = s.rsp - BitVec.ofNat 64 144 := by
  have hrsp : (pushed s).rsp = s.rsp - 8 - BitVec.ofNat 64 120 - 8 - 8 := rfl
  rw [hrsp, sub_sub, sub_sub, sub_sub]
  rfl

theorem mem_pushed_of_notMem {b : BitVec 64} (hroom : 144 ≤ s.rsp.toNat)
    (hb : b ∉ Span (s.rsp.toNat - 144) s.rsp.toNat) : (pushed s).mem b = s.mem b := by
  rw [mem_pushed]
  exact pushAll_of_notMem hroom hb

theorem topWords_pushed (hroom : 144 ≤ s.rsp.toNat) (htop : s.rsp.toNat + 8 ≤ 2 ^ 64) :
    topWords (pushed s).mem (pushed s).rsp 19 = (handedOver s).words := by
  have hwords := topWords_pushAll s.mem s.rsp (pushedWords s) hroom
  have hlast : topWords (pushed s).mem s.rsp 1 = [s.top] := by
    apply congrArg (· :: [])
    apply load_congr htop
    intro b hb
    apply mem_pushed_of_notMem hroom
    rw [mem_span] at hb ⊢
    omega
  have hback : (pushed s).rsp + BitVec.ofNat 64 (8 * 18) = s.rsp := by
    rw [rsp_pushed]
    exact BitVec.sub_add_cancel ..
  have hlength : (pushedWords s).length = 18 := rfl
  rw [hlength] at hwords
  rw [topWords_add _ _ 18 1, hback, hlast, mem_pushed, rsp_pushed, hwords, pushedWords,
    List.reverse_cons, List.reverse_append, ← List.map_reverse, List.reverse_reverse]
  rfl

def calling (isKernel : Bool) (s : State X) : State X :=
  { (pushed s).set .rdi (pushed s).rsp with
    flags := if isKernel then s.flags &&& ~~~interruptFlag else s.flags }

theorem run_pushed : run arith
    (([.pushRsp,
      .push .rax, .push .rcx, .push .rdx, .push .rbx, .push .rbp, .push .rsi, .push .rdi,
      .push .r8, .push .r9, .push .r10, .push .r11, .push .r12, .push .r13, .push .r14,
      .push .r15, .pushfq, .pushImm 0, .movRsp .rdi] : List (Instr X)) ++
        encodeIf isKernel [.cli]) s =
      some (calling isKernel s) := by
  have hpushes : run arith
      ([.pushRsp] ++ machineContext.reverse.map .push ++ [.pushfq, .pushImm 0, .movRsp .rdi]) s =
      some ((pushed s).set .rdi (pushed s).rsp) := by
    rw [run_append, run_append, run_cons, Instr.exec, Option.bind_some, run_nil, Option.bind_some,
      run_pushes, Option.bind_some]
    rfl
  refine (run_append_of_run hpushes).trans ?_
  cases isKernel <;> rfl

variable {spared : Set (BitVec 64)}

theorem run_popped (hmem : topWords t.mem t.rsp 19 = (handedOver s).words)
    (hrsp : t.rsp = (pushed s).rsp) :
    run arith
      [.leaRsp 8, .popfq,
        .pop .r15, .pop .r14, .pop .r13, .pop .r12, .pop .r11, .pop .r10, .pop .r9, .pop .r8,
        .pop .rdi, .pop .rsi, .pop .rbp, .pop .rbx, .pop .rdx, .pop .rcx, .pop .rax,
        .leaRsp 8, .ret] t =
      some { t with regs := s.regs, rsp := s.rsp + 8, flags := s.flags, pc := s.top } := by
  obtain ⟨-, hflags, hregs, -, hrip⟩ := fields_of_topWords hmem
  let t' : State X := { t with rsp := t.rsp + 8 + 8, flags := s.flags }
  have hstart : run arith [.leaRsp 8, .popfq] t = some t' := by
    rw [run_cons_of_exec rfl, run_cons, Instr.exec, Option.bind_some, run_nil]
    simp only [State.drop, State.top, hflags, handedOver, t']
  have hpops := run_pops arith machineContext (t := t') (g := s.regs) hregs
  simp only [mem_machineContext, if_true] at hpops
  have hback : t.rsp + 8 + 8 + BitVec.ofNat 64 (8 * machineContext.length) + 8 = s.rsp := by
    rw [hrsp, rsp_pushed, add_assoc, add_assoc, add_assoc]
    exact BitVec.sub_add_cancel ..
  have hlast : t.rsp + BitVec.ofNat 64 144 = s.rsp := by
    rw [hrsp, rsp_pushed, BitVec.sub_add_cancel]
  rw [hlast] at hrip
  have hcode : run arith ([.leaRsp 8, .popfq] ++ machineContext.map .pop ++ [.leaRsp 8, .ret]) t =
      some { t with regs := s.regs, rsp := s.rsp + 8, flags := s.flags, pc := s.top } := by
    rw [run_append, run_append, hstart, Option.bind_some, hpops, Option.bind_some,
      run_cons_of_exec rfl, run_cons, Instr.exec, Option.bind_some, run_nil]
    simp only [State.drop, State.top, t', hback, hrip, handedOver]
  exact hcode

/-- The routine is transparent, up to what `granaryTraceBlockRegs` does to the memory. -/
theorem run_granaryTraceBlock (arith : BitVec 64 → BitVec 64) (hroom : 152 ≤ s.rsp.toNat)
    (hhi : s.rsp.toNat + 8 ≤ hi) (hwrap : hi ≤ 2 ^ 64)
    (hf : Returns f (Span (s.rsp.toNat - 144) hi) ((calling isKernel s).pushWord ra)) :
    run arith (granaryTraceBlock isKernel f ra) s =
        some { f ((calling isKernel s).pushWord ra) with
          regs := s.regs
          rsp := s.rsp + 8
          flags := s.flags
          pc := s.top } ∧
      registerStateAt ((calling isKernel s).pushWord ra).mem
        (((calling isKernel s).pushWord ra).regs .rdi) = handedOver s ∧
      ∀ b ∉ Span (s.rsp.toNat - 152) s.rsp.toNat,
        ((calling isKernel s).pushWord ra).mem b = s.mem b := by
  have hrsp : (calling isKernel s).rsp = (pushed s).rsp := rfl
  have hpushed : (pushed s).rsp.toNat = s.rsp.toNat - 144 := by
    rw [rsp_pushed, toNat_sub_ofNat (by omega)]
  have hmem : ∀ b ∉ Span ((pushed s).rsp.toNat - 8) (pushed s).rsp.toNat,
      ((calling isKernel s).pushWord ra).mem b = (pushed s).mem b :=
    fun b hb ↦ mem_pushWord (s := calling isKernel s) (by rw [hrsp]; omega) hb
  have hentered : topWords ((calling isKernel s).pushWord ra).mem (pushed s).rsp 19 =
      (handedOver s).words := by
    rw [← topWords_pushed (by omega) (by omega)]
    apply topWords_congr
    · omega
    · intro b hb
      apply hmem
      rw [mem_span] at hb ⊢
      omega
  refine ⟨?_, ?_, ?_⟩
  · have hback : (f ((calling isKernel s).pushWord ra)).rsp = (pushed s).rsp := by
      rw [hf.rsp]
      exact BitVec.sub_add_cancel ..
    have hleft : topWords (f ((calling isKernel s).pushWord ra)).mem
        (f ((calling isKernel s).pushWord ra)).rsp 19 = (handedOver s).words := by
      rw [hback, ← hentered]
      apply topWords_congr
      · omega
      · apply hf.mem.mono
        apply span_subset <;> omega
    rw [granaryTraceBlock, run_append_of_run run_pushed, run_append, run_callFunction hf,
      Option.bind_some, run_popped hleft hback]
  · exact registerStateAt_of_topWords hentered
  · intro b hb
    rw [mem_span] at hb
    rw [hmem, mem_pushed_of_notMem (by omega)]
    · rw [mem_span]
      omega
    · rw [mem_span]
      omega

end HandOver

/-- The compiled `granaryTraceBlockRegs`, on a stack between `lo` and `hi`. -/
structure Traces (isKernel : Bool) (f : State Globals → State Globals) (lo hi : ℕ) : Prop where
  wrap : hi ≤ 2 ^ 64
  returns (e : State Globals) : lo ≤ e.rsp.toNat → e.rsp.toNat + 8 ≤ hi →
    Returns f (Span (e.rsp.toNat + 8) hi) e
  other (e : State Globals) : lo ≤ e.rsp.toNat → e.rsp.toNat + 8 ≤ hi →
    (f e).other =
      granaryTraceBlockRegs isKernel e.other (registerStateAt e.mem (e.regs .rdi))

def blockState (isKernel : Bool) (b : Block) (s : State X) : RegisterState where
  thread := 0
  rflags := s.flags
  regs := s.regs
  rsp := s.rsp - BitVec.ofNat 64 (redzoneSizeBytes isKernel) - 8
  rip := b.returnAddress isKernel

/-- What the log says about an execution of a block. The address is the start of the block, unless
the block is within reach of the routine and some other one is not. -/
def blockEntry (isKernel : Bool) (added : List Block) (b : Block) (s : State Globals) :
    RegisterState where
  thread :=
    if isKernel then s.rsp / BitVec.ofNat 64 (2 * pageSizeBytes)
    else if s.other.threadId = 0 then s.other.numThreads else s.other.threadId
  rflags := s.flags
  regs := s.regs
  rsp := s.rsp
  rip := if added.any Block.outOfReach ∧ ¬b.outOfReach then b.start - 2 else b.start

/-- Runs of one thread from a state on, with the blocks that got a tracer and the entries of the
blocks that were executed, the last one at the end. -/
inductive Traced (arith : BitVec 64 → BitVec 64) (isKernel : Bool)
    (f : State Globals → State Globals) (ra : BitVec 64) (lo hi : ℕ) (s : State Globals) :
    List Block → List RegisterState → State Globals → Prop
  | refl : Traced arith isKernel f ra lo hi s [] [] s
  | app {added : List Block} {es : List RegisterState} {t t' : State Globals} :
    Traced arith isKernel f ra lo hi s added es t → t'.other = t.other →
      Traced arith isKernel f ra lo hi s added es t'
  | add {added : List Block} {es : List RegisterState} {t : State Globals} (b : Block) :
    Traced arith isKernel f ra lo hi s added es t →
      Traced arith isKernel f ra lo hi s (b :: added) es { t with other := noteTracer b t.other }
  | block {added : List Block} {es : List RegisterState} {t t' : State Globals} {b : Block} :
    Traced arith isKernel f ra lo hi s added es t → b ∈ added →
      lo + redzoneSizeBytes isKernel + 160 ≤ t.rsp.toNat → t.rsp.toNat ≤ hi →
      run arith (addBlockTracer arith isKernel f ra b) t = some t' →
      Traced arith isKernel f ra lo hi s added (es ++ [blockEntry isKernel added b t]) t'

section Runs

variable {arith : BitVec 64 → BitVec 64} {isKernel : Bool} {f : State Globals → State Globals}
  {lo hi : ℕ} {s t t' : State Globals} {ra : BitVec 64} {b : Block} {added : List Block}
  {es : List RegisterState}

theorem blockState_rsp :
    (blockState isKernel b s).rsp + BitVec.ofNat 64 (8 + redzoneSizeBytes isKernel) = s.rsp := by
  rw [blockState, BitVec.ofNat_add, ← add_assoc]
  exact (congrArg (· + _) (BitVec.sub_add_cancel _ 8)).trans (BitVec.sub_add_cancel ..)

theorem blockState_rip (extra : BitVec 64) :
    (blockState isKernel b s).rip - (5 + extra + if isKernel then 0 else 5) =
      b.start + (if b.outOfReach then 2 else 0) - extra := by
  rw [blockState, Block.returnAddress]
  cases isKernel <;> cases b.outOfReach <;> simp <;> bv_omega

theorem granaryTraceBlockRegs_extraRipOffset (g : Globals) (r : RegisterState) :
    (granaryTraceBlockRegs isKernel g r).extraRipOffset = g.extraRipOffset := by
  rw [granaryTraceBlockRegs, initThreadId]
  cases isKernel with
  | false => by_cases hthread : g.threadId = 0#64 <;> simp [hthread]
  | true => rfl

theorem granaryTraceBlockRegs_blockState (isKernel : Bool)
    (hextra : s.other.extraRipOffset = if added.any Block.outOfReach then 2 else 0)
    (hb : b ∈ added) :
    (granaryTraceBlockRegs isKernel s.other (blockState isKernel b s)).blockLog =
        update s.other.blockLog (s.other.blockLogIndex.toNat % blockLogLength)
          (blockEntry isKernel added b s) ∧
      (granaryTraceBlockRegs isKernel s.other (blockState isKernel b s)).blockLogIndex =
        s.other.blockLogIndex + 1 := by
  have hrip : b.start + (if b.outOfReach then 2 else 0) - s.other.extraRipOffset =
      if added.any Block.outOfReach ∧ ¬b.outOfReach then b.start - 2 else b.start := by
    rw [hextra]
    cases hout : b.outOfReach with
    | false => by_cases hany : added.any Block.outOfReach = true <;> simp [hany]
    | true =>
      have hany : added.any Block.outOfReach = true := List.any_eq_true.2 ⟨b, hb, hout⟩
      simp [hany]
  rw [granaryTraceBlockRegs, blockState_rsp, blockState_rip, hrip, initThreadId, blockEntry]
  cases isKernel with
  | false => by_cases hthread : s.other.threadId = 0#64 <;> simp [hthread, blockState]
  | true => simp [blockState]

/-- Tracing a block is transparent, up to the memory that compiled code writes, and it adds the
state at the start of the block to the log. -/
theorem run_addBlockTracer (arith : BitVec 64 → BitVec 64) (ra : BitVec 64) (b : Block)
    (hf : Traces isKernel f lo hi)
    (hroom : lo + redzoneSizeBytes isKernel + 160 ≤ s.rsp.toNat) (hhi : s.rsp.toNat ≤ hi) :
    ∃ e, run arith (addBlockTracer arith isKernel f ra b) s = some { s with
        pc := b.returnAddress isKernel
        mem := (f e).mem
        other := granaryTraceBlockRegs isKernel s.other (blockState isKernel b s) } ∧
      Set.EqOn (f e).mem e.mem (Span (s.rsp.toNat - redzoneSizeBytes isKernel) hi) ∧
      ∀ c ∉ Span (s.rsp.toNat - redzoneSizeBytes isKernel - 160)
        (s.rsp.toNat - redzoneSizeBytes isKernel), e.mem c = s.mem c := by
  let u : State Globals := { s with rsp := s.rsp - BitVec.ofNat 64 (redzoneSizeBytes isKernel) }
  let v : State Globals := u.pushWord (b.returnAddress isKernel)
  have hu : u.rsp.toNat = s.rsp.toNat - redzoneSizeBytes isKernel := toNat_sub_ofNat (by omega)
  have hv : v.rsp.toNat = u.rsp.toNat - 8 := toNat_sub_eight (by omega)
  have he : ((calling isKernel v).pushWord ra).rsp.toNat = v.rsp.toNat - 152 := by
    have hpushed : (pushed v).rsp.toNat = v.rsp.toNat - 144 := by
      rw [rsp_pushed, toNat_sub_ofNat (by omega)]
    have hcalled := toNat_sub_eight (a := (pushed v).rsp) (by omega)
    change ((pushed v).rsp - 8).toNat = _
    omega
  have hwrap := hf.wrap
  have hreturns := hf.returns ((calling isKernel v).pushWord ra) (by omega) (by omega)
  obtain ⟨hrun, hhanded, hmem⟩ := run_granaryTraceBlock arith (f := f) (s := v)
    (by omega) (by omega) hwrap
    (hreturns.mono (span_subset (by omega) le_rfl))
  have hstate : handedOver v = blockState isKernel b s := by
    rw [handedOver, top_pushWord]
    rfl
  refine ⟨(calling isKernel v).pushWord ra, ?_, ?_, ?_⟩
  · have hother := hf.other ((calling isKernel v).pushWord ra) (by omega) (by omega)
    rw [hhanded, hstate] at hother
    have hcall := run_call arith hrun (top_pushWord ..)
    have hprivate : (f ((calling isKernel v).pushWord ra)).privateStack = s.privateStack :=
      hreturns.privateStack
    have hslot : (f ((calling isKernel v).pushWord ra)).savedFlags = s.savedFlags :=
      hreturns.savedFlags
    have hrsp : v.rsp + 8 + BitVec.ofNat 64 (redzoneSizeBytes isKernel) = s.rsp :=
      (congrArg (· + _) (BitVec.sub_add_cancel u.rsp 8)).trans (BitVec.sub_add_cancel ..)
    rw [addBlockTracer, run_append, run_append, run_switchOffStack, Option.bind_some, hcall,
      Option.bind_some, run_switchOnStack]
    simp only [hprivate, hslot, hrsp, hother, top_pushWord, v]
    rfl
  · apply hreturns.mem.mono
    apply span_subset <;> omega
  · intro c hc
    rw [mem_span] at hc
    have hcalled : v.mem c = u.mem c := by
      apply mem_pushWord (by omega)
      rw [mem_span]
      omega
    refine (hmem c ?_).trans hcalled
    rw [mem_span]
    omega

theorem Traced.extraRipOffset_eq (h : Traced arith isKernel f ra lo hi s added es t)
    (hf : Traces isKernel f lo hi) (hs : s.other.extraRipOffset = 0) :
    t.other.extraRipOffset = if added.any Block.outOfReach then 2 else 0 := by
  induction h with
  | refl => exact hs
  | app _ hother ih => rw [hother, ih]
  | @add added es t b _ ih =>
    rw [noteTracer, List.any_cons, ih]
    cases b.outOfReach with
    | false => simp [ih]
    | true => by_cases hany : added.any Block.outOfReach = true <;> simp [hany, ih]
  | block _ _ hroom hhi hrun ih =>
    obtain ⟨e, he, -, -⟩ := run_addBlockTracer arith ra _ hf hroom hhi
    rw [he, Option.some.injEq] at hrun
    rw [← hrun, granaryTraceBlockRegs_extraRipOffset, ih]

theorem noteTracer_blockLog (g : Globals) : (noteTracer b g).blockLog = g.blockLog ∧
    (noteTracer b g).blockLogIndex = g.blockLogIndex := by
  rw [noteTracer]
  split_ifs <;> exact ⟨rfl, rfl⟩

theorem Traced.blockLog_eq (h : Traced arith isKernel f ra lo hi s added es t)
    (hf : Traces isKernel f lo hi) (hs : s.other.extraRipOffset = 0) :
    t.other.blockLogIndex.toNat % blockLogLength =
        (s.other.blockLogIndex.toNat + es.length) % blockLogLength ∧
      ∀ j r, es[j]? = some r → es.length ≤ j + blockLogLength →
        t.other.blockLog ((s.other.blockLogIndex.toNat + j) % blockLogLength) = r := by
  induction h with
  | refl => exact ⟨rfl, fun j r hj ↦ by simp at hj⟩
  | app _ hother ih => rwa [hother]
  | add b _ ih =>
    obtain ⟨hlog, hindex⟩ := noteTracer_blockLog (b := b) _
    rwa [hlog, hindex]
  | @block added es t t' b htraced hb hroom hhi hrun ih =>
    obtain ⟨e, he, -, -⟩ := run_addBlockTracer arith ra _ hf hroom hhi
    rw [he, Option.some.injEq] at hrun
    obtain ⟨hlog, hindex⟩ := granaryTraceBlockRegs_blockState isKernel
      (htraced.extraRipOffset_eq hf hs) hb
    obtain ⟨hold, hentries⟩ := ih
    rw [blockLogLength] at hold hentries hlog ⊢
    rw [← hrun, hlog, hindex, List.length_append, List.length_singleton]
    refine ⟨?_, fun j r hj hlast ↦ ?_⟩
    · have hone : (1 : BitVec 32).toNat = 1 := rfl
      rw [BitVec.toNat_add, hone]
      omega
    · rw [hold]
      obtain hlt | rfl | hgt := Nat.lt_trichotomy j es.length
      · rw [List.getElem?_append_left hlt] at hj
        rw [update_of_ne (by omega), hentries j r hj (by omega)]
      · rw [List.getElem?_concat_length, Option.some.injEq] at hj
        rw [update_self, hj]
      · rw [List.getElem?_eq_none (by simp; omega)] at hj
        cases hj

/-- In every run the tracers are transparent, up to the memory below the red zone that compiled code
writes, and the log is a ring with the last entries, also after its index has wrapped around. -/
theorem granaryTraceBlock_run (h : Traced arith isKernel f ra lo hi s added es t)
    (hf : Traces isKernel f lo hi) (hs : s.other.extraRipOffset = 0) :
    (∀ b, lo + redzoneSizeBytes isKernel + 160 ≤ t.rsp.toNat → t.rsp.toNat ≤ hi →
      ∃ mem, run arith (addBlockTracer arith isKernel f ra b) t = some { t with
          pc := b.returnAddress isKernel
          mem := mem
          other := granaryTraceBlockRegs isKernel t.other (blockState isKernel b t) } ∧
        Set.EqOn mem t.mem (Span (t.rsp.toNat - redzoneSizeBytes isKernel) hi)) ∧
      ∀ j r, es[j]? = some r → es.length ≤ j + blockLogLength →
        t.other.blockLog ((s.other.blockLogIndex.toNat + j) % blockLogLength) = r := by
  refine ⟨fun b hroom hhi ↦ ?_, (h.blockLog_eq hf hs).2⟩
  obtain ⟨e, hrun, hframe, hmem⟩ := run_addBlockTracer arith ra b hf hroom hhi
  refine ⟨_, hrun, fun c hc ↦ ?_⟩
  rw [hframe hc, hmem]
  rw [mem_span] at hc ⊢
  omega

/-- The function as compiled code that uses no memory of its own. -/
def traceBlockRegs (isKernel : Bool) (s : State Globals) : State Globals :=
  { s.drop with
    pc := s.top
    other := granaryTraceBlockRegs isKernel s.other (registerStateAt s.mem (s.regs .rdi)) }

theorem traces_traceBlockRegs (hwrap : hi ≤ 2 ^ 64) :
    Traces isKernel (traceBlockRegs isKernel) lo hi :=
  ⟨hwrap, fun _ _ _ ↦ ⟨rfl, rfl, fun _ _ ↦ rfl, rfl, rfl⟩, fun _ _ _ ↦ rfl⟩

/-- A thread in the kernel, with an index that is about to wrap around. -/
def tracedThread : State Globals where
  regs _ := 7
  rsp := 0x7ff8
  pc := 0
  flags := 0x202
  mem _ := 0
  privateStack := 0
  savedFlags := 0
  other :=
    { threadId := 0
      numThreads := 1
      extraRipOffset := 0
      blockLog := fun _ ↦ ⟨0, 0, fun _ ↦ 0, 0, 0⟩
      blockLogIndex := 0xffffffff }

def farBlock : Block :=
  ⟨0x1000, true⟩

def notedThread : State Globals :=
  { tracedThread with other := noteTracer farBlock tracedThread.other }

theorem granaryTraceBlock_run_wraps : ∃ t,
    Traced id true (traceBlockRegs true) 9 0x7000 0x8000 tracedThread [farBlock]
      [blockEntry true [farBlock] farBlock notedThread] t ∧
      (∀ b, 0x7000 + redzoneSizeBytes true + 160 ≤ t.rsp.toNat → t.rsp.toNat ≤ 0x8000 →
        ∃ mem, run id (addBlockTracer id true (traceBlockRegs true) 9 b) t = some { t with
            pc := b.returnAddress true
            mem := mem
            other := granaryTraceBlockRegs true t.other (blockState true b t) } ∧
          Set.EqOn mem t.mem (Span (t.rsp.toNat - redzoneSizeBytes true) 0x8000)) ∧
      t.other.blockLog 4095 = blockEntry true [farBlock] farBlock notedThread := by
  have hf : Traces true (traceBlockRegs true) 0x7000 0x8000 :=
    traces_traceBlockRegs (by decide)
  have hroom : 0x7000 + redzoneSizeBytes true + 160 ≤ notedThread.rsp.toNat := by decide
  have hhi : notedThread.rsp.toNat ≤ 0x8000 := by decide
  obtain ⟨e, hrun, -, -⟩ := run_addBlockTracer id 9 farBlock hf hroom hhi
  have hadded : Traced id true (traceBlockRegs true) 9 0x7000 0x8000 tracedThread [farBlock] []
      notedThread := .add farBlock .refl
  have htraced := hadded.block List.mem_cons_self hroom hhi hrun
  obtain ⟨htransparent, hlog⟩ := granaryTraceBlock_run htraced hf rfl
  exact ⟨_, htraced, htransparent, hlog 0 _ rfl (by decide)⟩

end Runs

end Granary.Arch.Trace
