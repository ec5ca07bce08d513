import Granary.Arch.Machine

namespace Granary.Arch.ContextSwitch

open Function Granary.Base.WordMemory Granary.Arch.Machine
open Granary.Arch.Call (Gpr)

variable {X : Type}

def alignStack16 (clobberReg : Gpr) : List (Instr X) :=
  [.movRsp clobberReg,
   .lea clobberReg clobberReg (-16),
   .and clobberReg (-16),
   .xchgRsp clobberReg,
   .storeRsp clobberReg]

def unalignStack : List (Instr X) :=
  [.popRsp]

/-- Calls of a compiled function, which goes on after its last instruction. -/
def callFunction (returnAddress : BitVec 64) (f : State X → State X) : Instr X :=
  .call returnAddress fun s ↦ some (f s)

def granaryArchEnterDirectEdge (enter : State X → State X) (ra : BitVec 64) : List (Instr X) :=
  ([.push .rax, .push .rsi, .push .rcx, .push .rdx, .push .rbx, .push .rbp, .push .r8, .push .r9,
    .push .r10, .push .r11, .push .r12, .push .r13, .push .r14, .push .r15] : List (Instr X)) ++
  (alignStack16 .r15 ++ [callFunction ra enter] ++ unalignStack) ++
  ([.pop .r15, .pop .r14, .pop .r13, .pop .r12, .pop .r11, .pop .r10, .pop .r9, .pop .r8,
    .pop .rbp, .pop .rbx, .pop .rdx, .pop .rcx, .pop .rsi, .pop .rax] : List (Instr X)) ++
  [.ret]

def granaryArchEnterIndirectEdge (enter : State X → State X) (ra : BitVec 64) : List (Instr X) :=
  ([.push .rax, .push .rdi, .push .rcx, .push .rdx, .push .rbx, .push .rbp, .push .r8, .push .r9,
    .push .r10, .push .r11, .push .r12, .push .r13, .push .r14, .push .r15] : List (Instr X)) ++
  (alignStack16 .r15 ++ [callFunction ra enter] ++ unalignStack) ++
  ([.pop .r15, .pop .r14, .pop .r13, .pop .r12, .pop .r11, .pop .r10, .pop .r9, .pop .r8,
    .pop .rbp, .pop .rbx, .pop .rdx, .pop .rcx, .pop .rdi, .pop .rax] : List (Instr X)) ++
  [.ret]

def encodeIf (p : Bool) (is : List (Instr X)) : List (Instr X) :=
  if p then is else []

/-- Code that runs with the flags saved and, in the kernel, on a private stack with the interrupts
disabled. -/
def offNativeStack (isKernel : Bool) (is : List (Instr X)) : List (Instr X) :=
  [.pushfq] ++
  (encodeIf isKernel [.cli, .xchgPrivateStack] ++ is ++ encodeIf isKernel [.xchgPrivateStack]) ++
  [.popfq] ++
  [.ret]

def generateDirectEdgeEntryCode (isKernel : Bool) (enter : State X → Option (State X))
    (ra : BitVec 64) : List (Instr X) :=
  offNativeStack isKernel [.call ra enter]

def generateIndirectEdgeEntryCode (isKernel : Bool) (enter : State X → Option (State X))
    (ra : BitVec 64) : List (Instr X) :=
  offNativeStack isKernel [.call ra enter]

def aligned (a : BitVec 64) : BitVec 64 :=
  (a + -16) &&& -16

theorem toNat_and_neg_sixteen (a : BitVec 64) : (a &&& -16).toNat = a.toNat / 16 * 16 := by
  have hmask : (-16 : BitVec 64) = BitVec.allOnes 64 <<< 4 := by decide
  rw [hmask, ← BitVec.shiftLeft_ushiftRight, BitVec.toNat_shiftLeft, BitVec.toNat_ushiftRight,
    Nat.shiftRight_eq_div_pow, Nat.shiftLeft_eq]
  have := a.isLt
  omega

theorem toNat_aligned {a : BitVec 64} (ha : 16 ≤ a.toNat) :
    (aligned a).toNat = (a.toNat - 16) / 16 * 16 := by
  have hsub : (a + -16).toNat = a.toNat - 16 := by
    bv_omega
  rw [aligned, toNat_and_neg_sixteen, hsub]

variable {arith : BitVec 64 → BitVec 64} {s t e : State X} {r : Gpr}

/-- The state after the stack has been aligned, with the old stack pointer on the new top. -/
def alignedState (arith : BitVec 64 → BitVec 64) (r : Gpr) (s : State X) : State X :=
  { s.set r s.rsp with
    rsp := aligned s.rsp
    mem := store s.mem (aligned s.rsp) s.rsp
    flags := s.flags &&& ~~~statusFlags ||| arith (aligned s.rsp) &&& statusFlags }

theorem run_alignStack16 : run arith (alignStack16 r) s = some (alignedState arith r s) := by
  simp [run, alignStack16, Instr.exec, State.set, State.setStatus, alignedState, aligned]

/-- A compiled function returns to where it was called from, and it leaves the addresses of `K`
alone. -/
structure Returns (f : State X → State X) (K : Set (BitVec 64)) (e : State X) : Prop where
  pc : (f e).pc = e.top
  rsp : (f e).rsp = e.rsp + 8
  mem : Set.EqOn (f e).mem e.mem K
  privateStack : (f e).privateStack = e.privateStack
  savedFlags : (f e).savedFlags = e.savedFlags

theorem Returns.mono {f : State X → State X} {K K' : Set (BitVec 64)} {e : State X}
    (h : Returns f K e) (hK : K' ⊆ K) : Returns f K' e :=
  { h with mem := h.mem.mono hK }

/-- A compiled function that is entered on the stack between `lo` and `hi`, with the alignment that
the calling convention wants, leaves alone what its callers have on that stack. -/
def Conforms (f : State X → State X) (lo hi : ℕ) (spared : Set (BitVec 64)) : Prop :=
  ∀ e : State X, e.rsp.toNat % 16 = 8 → lo ≤ e.rsp.toNat → e.rsp.toNat + 8 ≤ hi →
    Returns f (Span (e.rsp.toNat + 8) hi ∪ spared) e

variable {f : State X → State X} {K spared : Set (BitVec 64)} {ra : BitVec 64} {lo hi : ℕ}
  {saved : List Gpr}

theorem top_pushWord (s : State X) (v : BitVec 64) : (s.pushWord v).top = v :=
  load_store ..

theorem mem_pushWord {b v : BitVec 64} (hroom : 8 ≤ s.rsp.toNat)
    (hb : b ∉ Span (s.rsp.toNat - 8) s.rsp.toNat) : (s.pushWord v).mem b = s.mem b := by
  have hbelow := toNat_sub_eight hroom
  have := s.rsp.isLt
  apply store_of_notMem
  · omega
  · rw [hbelow, Nat.sub_add_cancel hroom]
    exact hb

theorem run_callFunction (h : Returns f K (s.pushWord ra)) :
    run arith [callFunction ra f] s = some (f (s.pushWord ra)) := by
  have hpc : (f (s.pushWord ra)).pc = ra := h.pc.trans (top_pushWord s ra)
  rw [run_cons, callFunction, Instr.exec, Option.filter_some, if_pos (by simpa using hpc)]
  rfl

def enteredState (arith : BitVec 64 → BitVec 64) (saved : List Gpr) (ra : BitVec 64) (s : State X) :
    State X :=
  (alignedState arith .r15 (s.pushRegs saved)).pushWord ra

theorem run_aligned (hroom : 39 ≤ s.rsp.toNat)
    (h : Returns f K ((alignedState arith r s).pushWord ra))
    (hK : Span (aligned s.rsp).toNat ((aligned s.rsp).toNat + 8) ⊆ K) :
    run arith (alignStack16 r ++ [callFunction ra f] ++ unalignStack) s =
      some { f ((alignedState arith r s).pushWord ra) with rsp := s.rsp } := by
  have haligned := toNat_aligned (a := s.rsp) (by omega)
  have hbelow := toNat_sub_eight (a := aligned s.rsp) (by omega)
  have := s.rsp.isLt
  have hrsp : (f ((alignedState arith r s).pushWord ra)).rsp = aligned s.rsp := by
    rw [h.rsp]
    exact BitVec.sub_add_cancel _ _
  have htop : (f ((alignedState arith r s).pushWord ra)).top = s.rsp := by
    rw [State.top, hrsp, load_congr (by omega) (h.mem.mono hK)]
    change load (store (store s.mem (aligned s.rsp) s.rsp) (aligned s.rsp - 8) ra) _ = s.rsp
    rw [load_store_of_apart (by omega) (by omega) (by omega), load_store]
  rw [run_append, run_append, run_alignStack16, Option.bind_some, run_callFunction h,
    Option.bind_some, unalignStack, run_cons, Instr.exec, Option.bind_some, run_nil, htop]

/-- The stack pointer when the saved registers are on the stack, the aligned one, and the one with
which the function is entered. -/
theorem pointers (arith : BitVec 64 → BitVec 64) (saved : List Gpr) (ra : BitVec 64) (s : State X)
    (hroom : 8 * saved.length + 39 ≤ s.rsp.toNat) :
    (s.pushRegs saved).rsp.toNat = s.rsp.toNat - 8 * saved.length ∧
      (aligned (s.pushRegs saved).rsp).toNat =
        (s.rsp.toNat - 8 * saved.length - 16) / 16 * 16 ∧
      (enteredState arith saved ra s).rsp.toNat =
        (s.rsp.toNat - 8 * saved.length - 16) / 16 * 16 - 8 := by
  have hsaved : (s.pushRegs saved).rsp.toNat = s.rsp.toNat - 8 * saved.length :=
    toNat_sub_ofNat (by omega)
  have haligned := toNat_aligned (a := (s.pushRegs saved).rsp) (by omega)
  have hentered : (enteredState arith saved ra s).rsp.toNat =
      (aligned (s.pushRegs saved).rsp).toNat - 8 :=
    toNat_sub_eight (a := aligned (s.pushRegs saved).rsp) (by omega)
  exact ⟨hsaved, by rw [haligned, hsaved], by rw [hentered, haligned, hsaved]⟩

theorem mem_aligned {b : BitVec 64} (hroom : 8 * saved.length + 39 ≤ s.rsp.toNat)
    (hb : b ∉ Span (s.rsp.toNat - 8 * saved.length - 39) (s.rsp.toNat - 8 * saved.length)) :
    (enteredState arith saved ra s).mem b = (s.pushRegs saved).mem b := by
  obtain ⟨hsaved, haligned, -⟩ := pointers arith saved ra s hroom
  have hbelow := toNat_sub_eight (a := aligned (s.pushRegs saved).rsp) (by omega)
  have := s.rsp.isLt
  rw [mem_span] at hb
  change store (store _ (aligned (s.pushRegs saved).rsp) _) (aligned (s.pushRegs saved).rsp - 8) ra
    b = _
  rw [store_of_notMem (by omega), store_of_notMem (by omega)]
  · rw [mem_span]
    omega
  · rw [mem_span]
    omega

theorem mem_entered {b : BitVec 64} (hroom : 8 * saved.length + 39 ≤ s.rsp.toNat)
    (hb : b ∉ Span (s.rsp.toNat - 8 * saved.length - 39) s.rsp.toNat) :
    (enteredState arith saved ra s).mem b = s.mem b := by
  rw [mem_span] at hb
  rw [mem_aligned hroom]
  · apply pushAll_of_notMem
    · rw [List.length_map]
      omega
    · rw [List.length_map, mem_span]
      omega
  · rw [mem_span]
    omega

/-- The routines around the function keep the registers that they save, and otherwise they leave
what the function left. -/
theorem run_enterEdge (hlo : lo + 8 * saved.length + 39 ≤ s.rsp.toNat)
    (hhi : s.rsp.toNat + 8 ≤ hi) (hwrap : hi ≤ 2 ^ 64) (hf : Conforms f lo hi spared) :
    run arith (saved.map .push ++ (alignStack16 .r15 ++ [callFunction ra f] ++ unalignStack) ++
      saved.reverse.map .pop ++ [.ret]) s =
      some { f (enteredState arith saved ra s) with
        regs := fun r ↦ if r ∈ saved then s.regs r
          else (f (enteredState arith saved ra s)).regs r
        rsp := s.rsp + 8
        pc := s.top } := by
  obtain ⟨hsaved, haligned, hentered⟩ := pointers arith saved ra s (by omega)
  have := s.rsp.isLt
  have hreturns := hf (enteredState arith saved ra s) (by omega) (by omega) (by omega)
  -- what the function leaves alone includes the words that the routine has put on the stack
  have hstack : Span (aligned (s.pushRegs saved).rsp).toNat hi ⊆
      Span ((enteredState arith saved ra s).rsp.toNat + 8) hi ∪ spared :=
    Set.subset_union_of_subset_left (span_subset (by omega) le_rfl) _
  have hbody : run arith (alignStack16 .r15 ++ [callFunction ra f] ++ unalignStack)
      (s.pushRegs saved) =
      some { f (enteredState arith saved ra s) with rsp := (s.pushRegs saved).rsp } :=
    run_aligned (by omega) hreturns ((span_subset le_rfl (by omega)).trans hstack)
  have hframe : Set.EqOn (f (enteredState arith saved ra s)).mem (s.pushRegs saved).mem
      (Span (s.rsp.toNat - 8 * saved.length) hi) := by
    intro b hb
    rw [hreturns.mem (hstack (span_subset (by omega) le_rfl hb)), mem_aligned (by omega)]
    rw [mem_span] at hb ⊢
    omega
  have htop : load (f (enteredState arith saved ra s)).mem s.rsp = s.top := by
    apply load_congr (by omega)
    intro b hb
    rw [hframe (span_subset (by omega) hhi hb)]
    apply pushAll_of_notMem
    · rw [List.length_map]
      omega
    · rw [List.length_map, mem_span]
      rw [mem_span] at hb
      omega
  rw [run_append, run_saved (by omega) hbody rfl]
  · rw [Option.bind_some, run_cons, Instr.exec, Option.bind_some, run_nil]
    simp only [State.drop, State.top, htop]
  · exact hframe.mono (span_subset le_rfl (by omega))

/-- The state in which a routine goes on after it has left the native stack. -/
def leaveNativeStack (isKernel : Bool) (s : State X) : State X :=
  if isKernel then
    { s with
      flags := s.flags &&& ~~~interruptFlag
      rsp := s.privateStack
      privateStack := s.rsp }
  else s

theorem run_leaveNativeStack {isKernel : Bool} {is : List (Instr X)}
    (hrun : run arith is (leaveNativeStack isKernel s) = some t)
    (hrsp : t.rsp = (leaveNativeStack isKernel s).rsp)
    (hslot : t.privateStack = (leaveNativeStack isKernel s).privateStack) :
    run arith (encodeIf isKernel [.cli, .xchgPrivateStack] ++ is ++
        encodeIf isKernel [.xchgPrivateStack]) s =
      some { t with rsp := s.rsp, privateStack := s.privateStack } := by
  cases isKernel with
  | false =>
    rw [leaveNativeStack, if_neg Bool.false_ne_true] at hrun hrsp hslot
    rw [run_append, run_append, encodeIf, if_neg Bool.false_ne_true, run_nil, Option.bind_some,
      hrun, Option.bind_some, encodeIf, if_neg Bool.false_ne_true, run_nil, ← hrsp, ← hslot]
  | true =>
    rw [leaveNativeStack, if_pos rfl] at hrun hrsp hslot
    have hleave : run arith (encodeIf true [.cli, .xchgPrivateStack]) s =
        some (leaveNativeStack true s) := rfl
    rw [run_append, run_append, hleave, Option.bind_some, leaveNativeStack, if_pos rfl, hrun,
      Option.bind_some, encodeIf, if_pos rfl, run_cons, Instr.exec, Option.bind_some, run_nil, hrsp,
      hslot]

theorem run_saveFlags {is : List (Instr X)} (hrun : run arith is (s.pushWord s.flags) = some t)
    (hrsp : t.rsp = s.rsp - 8) (hflags : load t.mem (s.rsp - 8) = s.flags) :
    run arith ([.pushfq] ++ is ++ [.popfq]) s = some { t with rsp := s.rsp, flags := s.flags } := by
  have hsave : run arith [.pushfq] s = some (s.pushWord s.flags) := rfl
  rw [run_append, run_append, hsave, Option.bind_some, hrun, Option.bind_some, run_cons, Instr.exec,
    Option.bind_some, run_nil, State.drop, State.top, hrsp, hflags, BitVec.sub_add_cancel]

theorem run_offNativeStack {isKernel : Bool} {is : List (Instr X)} (hlo : 8 ≤ s.rsp.toNat)
    (hhi : s.rsp.toNat + 8 ≤ 2 ^ 64)
    (hrun : run arith is (leaveNativeStack isKernel (s.pushWord s.flags)) = some t)
    (hrsp : t.rsp = (leaveNativeStack isKernel (s.pushWord s.flags)).rsp)
    (hslot : t.privateStack = (leaveNativeStack isKernel (s.pushWord s.flags)).privateStack)
    (hmem : Set.EqOn t.mem (s.pushWord s.flags).mem
      (Span (s.rsp.toNat - 8) (s.rsp.toNat + 8))) :
    run arith (offNativeStack isKernel is) s = some { t with
      rsp := s.rsp + 8
      pc := s.top
      flags := s.flags
      privateStack := s.privateStack } := by
  have hbelow := toNat_sub_eight hlo
  have hflags : load t.mem (s.rsp - 8) = s.flags := by
    rw [load_congr (by omega) (hmem.mono (span_subset (by omega) (by omega)))]
    exact load_store ..
  have htop : load t.mem s.rsp = s.top := by
    rw [load_congr hhi (hmem.mono (span_subset (by omega) (by omega)))]
    exact load_store_of_apart (by omega) hhi (by omega)
  have hbody := run_leaveNativeStack hrun hrsp hslot
  rw [offNativeStack, run_append, run_saveFlags hbody rfl hflags, Option.bind_some, run_cons,
    Instr.exec, Option.bind_some, run_nil]
  simp only [State.drop, State.top, htop]
  rfl

/-- There is room on the stacks. Compiled code runs on the one between `lo` and `hi`. In the kernel
that is a private stack, and the native stack is among what compiled code leaves alone. `n` is how
many bytes of the native stack matter. -/
structure Stacks (isKernel : Bool) (lo hi : ℕ) (spared : Set (BitVec 64)) (n : ℕ) (s : State X) :
    Prop where
  wrap : hi ≤ 2 ^ 64
  native : 8 ≤ s.rsp.toNat
  nativeWrap : s.rsp.toNat + n ≤ 2 ^ 64
  user : isKernel = false → lo + 175 ≤ s.rsp.toNat ∧ s.rsp.toNat + n ≤ hi
  kernel : isKernel = true →
    lo + 167 ≤ s.privateStack.toNat ∧ s.privateStack.toNat ≤ hi ∧
      Span (s.rsp.toNat - 8) (s.rsp.toNat + n) ⊆ spared ∧
      (s.rsp.toNat + n ≤ lo ∨ hi ≤ s.rsp.toNat - 8)

def scratch (isKernel : Bool) (s : State X) : Set (BitVec 64) :=
  if isKernel then
    Span (s.rsp.toNat - 8) s.rsp.toNat ∪
      Span (s.privateStack.toNat - 167) s.privateStack.toNat
  else Span (s.rsp.toNat - 175) s.rsp.toNat

/-- The stack pointer after the native stack has been left, with the flags saved. -/
def stackPointer (isKernel : Bool) (s : State X) : BitVec 64 :=
  (leaveNativeStack isKernel (s.pushWord s.flags)).rsp

section Stacks

variable {isKernel : Bool} {n : ℕ}

theorem Stacks.room (h : Stacks isKernel lo hi spared n s) :
    lo + 167 ≤ (stackPointer isKernel s).toNat ∧ (stackPointer isKernel s).toNat ≤ hi := by
  have hbelow := toNat_sub_eight h.native
  cases isKernel with
  | false =>
    change lo + 167 ≤ (s.rsp - 8).toNat ∧ (s.rsp - 8).toNat ≤ hi
    have := h.user rfl
    omega
  | true => exact ⟨(h.kernel rfl).1, (h.kernel rfl).2.1⟩

/-- Compiled code leaves alone what is on the native stack, the saved flags included. -/
theorem Stacks.native_spared (h : Stacks isKernel lo hi spared n s) :
    Span (s.rsp.toNat - 8) (s.rsp.toNat + n) ⊆
      Span (stackPointer isKernel s).toNat hi ∪ spared := by
  have hbelow := toNat_sub_eight h.native
  cases isKernel with
  | false =>
    apply Set.subset_union_of_subset_left
    apply span_subset
    · exact hbelow.le
    · exact (h.user rfl).2
  | true => exact Set.subset_union_of_subset_right (h.kernel rfl).2.2.1 _

theorem Stacks.native_apart (h : Stacks isKernel lo hi spared n s) {b : BitVec 64}
    (hb : b ∈ Span (s.rsp.toNat - 8) (s.rsp.toNat + n)) :
    b ∉ Span ((stackPointer isKernel s).toNat - 167) (stackPointer isKernel s).toNat := by
  have hbelow := toNat_sub_eight h.native
  have hroom := h.room
  rw [mem_span] at hb ⊢
  cases isKernel with
  | false =>
    change ¬(_ ∧ b.toNat < (s.rsp - 8).toNat)
    omega
  | true =>
    have := (h.kernel rfl).2.2.2
    omega

theorem Stacks.native_notMem_scratch (h : Stacks isKernel lo hi spared n s) {b : BitVec 64}
    (hb : b ∈ Span s.rsp.toNat (s.rsp.toNat + n)) : b ∉ scratch isKernel s := by
  have hapart := h.native_apart (span_subset (Nat.sub_le _ 8) le_rfl hb)
  rw [mem_span] at hb
  cases isKernel with
  | false =>
    rw [scratch, if_neg Bool.false_ne_true, mem_span]
    omega
  | true =>
    rw [scratch, if_pos rfl, Set.mem_union, not_or]
    refine ⟨?_, hapart⟩
    rw [mem_span]
    omega

theorem Stacks.notMem_scratch (h : Stacks isKernel lo hi spared n s) {b : BitVec 64}
    (hb : b ∉ scratch isKernel s) :
    b ∉ Span ((stackPointer isKernel s).toNat - 167) (stackPointer isKernel s).toNat ∧
      b ∉ Span (s.rsp.toNat - 8) s.rsp.toNat := by
  have hbelow := toNat_sub_eight h.native
  cases isKernel with
  | false =>
    change b ∉ Span ((s.rsp - 8).toNat - 167) (s.rsp - 8).toNat ∧ _
    rw [scratch, if_neg Bool.false_ne_true, mem_span] at hb
    rw [mem_span, mem_span]
    omega
  | true =>
    rw [scratch, if_pos rfl, Set.mem_union, not_or] at hb
    exact ⟨hb.2, hb.1⟩

end Stacks

/-- What a compiled function finds when it is entered. -/
structure Entered (isKernel : Bool) (s e : State X) : Prop where
  regs {r : Gpr} : r ≠ .r15 → e.regs r = s.regs r
  aligned : e.rsp.toNat % 16 = 8
  interrupts : isKernel = true → e.flags &&& interruptFlag = 0
  other : e.other = s.other
  mem {b : BitVec 64} : b ∉ scratch isKernel s → e.mem b = s.mem b

theorem enabled_entered (hflags : s.flags &&& interruptFlag = 0) :
    (enteredState arith saved ra s).flags &&& interruptFlag = 0 := by
  have hapart : statusFlags &&& interruptFlag = 0 := by decide
  have hentered : (enteredState arith saved ra s).flags =
      s.flags &&& ~~~statusFlags ||| arith (aligned (s.pushRegs saved).rsp) &&& statusFlags := rfl
  rw [hentered]
  ext i hi
  have hold : (s.flags.getLsbD i && interruptFlag.getLsbD i) = false := by
    simpa using congrArg (BitVec.getLsbD · i) hflags
  have hstatus : (statusFlags.getLsbD i && interruptFlag.getLsbD i) = false := by
    simpa using congrArg (BitVec.getLsbD · i) hapart
  rw [← BitVec.getLsbD_eq_getElem, BitVec.getLsbD_and, BitVec.getLsbD_or, BitVec.getLsbD_and,
    BitVec.getLsbD_and]
  cases hbit : interruptFlag.getLsbD i with
  | false => simp
  | true =>
    rw [hbit, Bool.and_true] at hold hstatus
    simp [hold, hstatus]

theorem run_call (arith : BitVec 64 → BitVec 64) {callee : State X → Option (State X)}
    (h : callee (s.pushWord ra) = some t)
    (hpc : t.pc = ra) : run arith [.call ra callee] s = some t := by
  rw [run_cons, Instr.exec, h, Option.filter_some, if_pos (by simpa using hpc)]
  rfl

theorem run_call_enterEdge (arith : BitVec 64 → BitVec 64) (ra : BitVec 64)
    {routine : List (Instr X)} {ra' : BitVec 64}
    (hroutine : routine = saved.map .push ++
      (alignStack16 .r15 ++ [callFunction ra' f] ++ unalignStack) ++ saved.reverse.map .pop ++
        [.ret])
    (hlo : lo + 8 * saved.length + 47 ≤ s.rsp.toNat) (hhi : s.rsp.toNat ≤ hi)
    (hwrap : hi ≤ 2 ^ 64) (hf : Conforms f lo hi spared) :
    ∃ e, run arith [.call ra (run arith routine)] s = some { f e with
        regs := fun r ↦ if r ∈ saved then s.regs r else (f e).regs r
        rsp := s.rsp
        pc := ra } ∧
      Returns f (Span s.rsp.toNat hi ∪ spared) e ∧
      e.rsp.toNat % 16 = 8 ∧
      (∀ r, r ≠ .r15 → e.regs r = s.regs r) ∧
      e.privateStack = s.privateStack ∧ e.savedFlags = s.savedFlags ∧ e.other = s.other ∧
      (s.flags &&& interruptFlag = 0 → e.flags &&& interruptFlag = 0) ∧
      ∀ b, b ∉ Span (s.rsp.toNat - 8 * saved.length - 47) s.rsp.toNat → e.mem b = s.mem b := by
  have hbelow : (s.pushWord ra).rsp.toNat = s.rsp.toNat - 8 := toNat_sub_eight (by omega)
  obtain ⟨-, haligned, hentered⟩ := pointers arith saved ra' (s.pushWord ra) (by omega)
  have hreturns := hf (enteredState arith saved ra' (s.pushWord ra)) (by omega) (by omega)
    (by omega)
  refine ⟨enteredState arith saved ra' (s.pushWord ra), ?_, ?_, by omega, ?_, rfl, rfl, rfl, ?_, ?_⟩
  · have hrsp : (s.pushWord ra).rsp + 8 = s.rsp := BitVec.sub_add_cancel ..
    apply run_call
    · rw [hroutine, run_enterEdge (by omega) (by omega) hwrap hf, top_pushWord, hrsp]
      rfl
    · rfl
  · exact hreturns.mono (Set.union_subset_union_left _ (span_subset (by omega) le_rfl))
  · intro r hr
    exact update_of_ne hr ..
  · exact enabled_entered (s := s.pushWord ra)
  · intro b hb
    rw [mem_span] at hb
    rw [mem_entered (by omega), mem_pushWord (by omega)]
    · rw [mem_span]
      omega
    · rw [mem_span]
      omega

theorem andNot_and_interruptFlag (v : BitVec 64) :
    v &&& ~~~interruptFlag &&& interruptFlag = 0 := by
  rw [BitVec.and_assoc, BitVec.and_comm (~~~interruptFlag)]
  simp

theorem leaveNativeStack_pushWord (isKernel : Bool) (s : State X) :
    (leaveNativeStack isKernel (s.pushWord s.flags)).regs = s.regs ∧
      (leaveNativeStack isKernel (s.pushWord s.flags)).mem = (s.pushWord s.flags).mem ∧
      (leaveNativeStack isKernel (s.pushWord s.flags)).savedFlags = s.savedFlags ∧
      (leaveNativeStack isKernel (s.pushWord s.flags)).other = s.other ∧
      (isKernel = true →
        (leaveNativeStack isKernel (s.pushWord s.flags)).flags &&& interruptFlag = 0) := by
  cases isKernel with
  | false => exact ⟨rfl, rfl, rfl, rfl, nofun⟩
  | true => exact ⟨rfl, rfl, rfl, rfl, fun _ ↦ andNot_and_interruptFlag s.flags⟩

/-- What entering a compiled function from the edge code comes to, and what the function finds. -/
theorem run_edgeEntry (arith : BitVec 64 → BitVec 64) (ra : BitVec 64) {isKernel : Bool} {n : ℕ}
    {routine : List (Instr X)} {ra' : BitVec 64}
    (hroutine : routine = saved.map .push ++
      (alignStack16 .r15 ++ [callFunction ra' f] ++ unalignStack) ++ saved.reverse.map .pop ++
        [.ret])
    (hsaved : saved.length ≤ 15) (hn : 8 ≤ n) (hstacks : Stacks isKernel lo hi spared n s)
    (hf : Conforms f lo hi spared) :
    ∃ e, run arith (offNativeStack isKernel [.call ra (run arith routine)]) s = some { s with
        regs := fun r ↦ if r ∈ saved then s.regs r else (f e).regs r
        rsp := s.rsp + 8
        pc := s.top
        mem := (f e).mem
        other := (f e).other } ∧
      Entered isKernel s e ∧
      Set.EqOn (f e).mem e.mem (Span s.rsp.toNat (s.rsp.toNat + n)) := by
  obtain ⟨hregs, hpushed, hslot, hother, hdisabled⟩ := leaveNativeStack_pushWord isKernel s
  obtain ⟨hlo, hhi⟩ := hstacks.room
  rw [stackPointer] at hlo hhi
  obtain ⟨e, hrun, hreturns, haligned, hentered, hprivate, hsavedFlags, hdata, hflags, hmem⟩ :=
    run_call_enterEdge arith ra hroutine (by omega) hhi hstacks.wrap hf
  have hwritten : ∀ b ∉ Span ((stackPointer isKernel s).toNat - 167)
      (stackPointer isKernel s).toNat, e.mem b = (s.pushWord s.flags).mem b := by
    intro b hb
    rw [hmem, hpushed]
    rw [mem_span] at hb ⊢
    rw [stackPointer] at hb
    omega
  refine ⟨e, ?_, ⟨?_, haligned, fun hk ↦ hflags (hdisabled hk),
    hdata.trans hother, ?_⟩, ?_⟩
  · rw [run_offNativeStack hstacks.native (by have := hstacks.nativeWrap; omega) hrun rfl
      (hreturns.privateStack.trans hprivate)]
    · simp only [hregs, hreturns.savedFlags, hsavedFlags, hslot]
    · intro b hb
      have hb' := span_subset le_rfl (Nat.add_le_add_left hn _) hb
      exact (hreturns.mem (hstacks.native_spared hb')).trans
        (hwritten b (hstacks.native_apart hb'))
  · intro r hr
    rw [hentered r hr, hregs]
  · intro b hb
    obtain ⟨hprivate, hnative⟩ := hstacks.notMem_scratch hb
    rw [hwritten b hprivate, mem_pushWord hstacks.native hnative]
  · exact hreturns.mem.mono ((span_subset (Nat.sub_le _ _) le_rfl).trans hstacks.native_spared)

def userThread : State Unit where
  regs _ := 7
  rsp := 0x7ff8
  pc := 0
  flags := 0x202
  mem _ := 0
  privateStack := 0
  savedFlags := 0
  other := ()

end Granary.Arch.ContextSwitch
