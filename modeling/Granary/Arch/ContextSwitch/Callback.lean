import Granary.Arch.ContextSwitch
import Mathlib.Data.List.GetD

namespace Granary.Arch.ContextSwitch

open Function Granary.Base.WordMemory Granary.Arch.Machine
open Granary.Arch.Call (Gpr)

variable {X : Type}

/-- The fields of the structure that a callback gets, from its address up. -/
def machineContext : List Gpr :=
  [.r15, .r14, .r13, .r12, .r11, .r10, .r9, .r8, .rdi, .rsi, .rbp, .rbx, .rdx, .rcx, .rax]

def readContext (mem : Mem) (a : BitVec 64) : List (BitVec 64) :=
  topWords mem a machineContext.length

def generateContextCallCode (isKernel : Bool) (callback : State X → State X) (ra : BitVec 64) :
    List (Instr X) :=
  offNativeStack isKernel
    (([.push .rax, .push .rcx, .push .rdx, .push .rbx, .push .rbp, .push .rsi, .push .rdi,
        .push .r8, .push .r9, .push .r10, .push .r11, .push .r12, .push .r13, .push .r14,
        .push .r15] : List (Instr X)) ++
      ([.movRsp .rdi, callFunction ra callback] ++
      ([.pop .r15, .pop .r14, .pop .r13, .pop .r12, .pop .r11, .pop .r10, .pop .r9, .pop .r8,
        .pop .rdi, .pop .rsi, .pop .rbp, .pop .rbx, .pop .rdx, .pop .rcx, .pop .rax] :
        List (Instr X))))

/-- A callback may write the structure that it gets, but nothing that its callers have above it on
the stack. -/
def CallbackConforms (f : State X → State X) (lo hi : ℕ) (spared : Set (BitVec 64)) : Prop :=
  ∀ e : State X, lo ≤ e.rsp.toNat → e.rsp.toNat + 8 ≤ hi →
    Returns f (Span ((e.regs .rdi).toNat + 8 * machineContext.length) hi ∪ spared) e

variable {arith : BitVec 64 → BitVec 64} {isKernel : Bool} {callback : State X → State X}
  {lo hi n : ℕ} {spared : Set (BitVec 64)} {s w : State X} {ra : BitVec 64}

theorem mem_machineContext (r : Gpr) : r ∈ machineContext := by
  cases r <;> decide

theorem eq_map_getD {α β : Type*} [DecidableEq α] (rs : List α) (vs : List β) (d : β)
    (hrs : rs.Nodup) (hlength : vs.length = rs.length) :
    vs = rs.map fun r ↦ vs.getD (rs.idxOf r) d := by
  apply List.ext_getElem
  · rw [hlength, List.length_map]
  · intro i hi hi'
    rw [List.getElem_map, hrs.idxOf_getElem, List.getD_eq_getElem _ _ hi]

def callbackState (ra : BitVec 64) (s : State X) : State X :=
  ((s.pushRegs machineContext.reverse).set .rdi (s.pushRegs machineContext.reverse).rsp).pushWord ra

theorem toNat_rsp_callbackState (ra : BitVec 64) (hroom : 128 ≤ w.rsp.toNat) :
    ((callbackState ra w).regs .rdi).toNat = w.rsp.toNat - 120 ∧
      (callbackState ra w).rsp.toNat = w.rsp.toNat - 128 := by
  have hcontext : ((callbackState ra w).regs .rdi).toNat = w.rsp.toNat - 120 :=
    toNat_sub_ofNat (a := w.rsp) (k := 120) (by omega)
  have hentered : (callbackState ra w).rsp.toNat = ((callbackState ra w).regs .rdi).toNat - 8 :=
    toNat_sub_eight (a := (callbackState ra w).regs .rdi) (by omega)
  exact ⟨hcontext, by omega⟩

/-- The callback runs between the pushes and the pops, and the pops take what it has left. -/
theorem run_callback (arith : BitVec 64 → BitVec 64)
    (hreturns : Returns callback spared (callbackState ra w)) :
    ∃ regs : Gpr → BitVec 64,
      run arith (machineContext.reverse.map .push ++ ([.movRsp .rdi, callFunction ra callback] ++
        machineContext.map .pop)) w =
        some { callback (callbackState ra w) with regs := regs, rsp := w.rsp } ∧
      readContext (callback (callbackState ra w)).mem ((callbackState ra w).regs .rdi) =
        machineContext.map regs := by
  have hrsp : (callback (callbackState ra w)).rsp = (callbackState ra w).regs .rdi := by
    rw [hreturns.rsp]
    exact BitVec.sub_add_cancel ..
  have hread := eq_map_getD machineContext
    (readContext (callback (callbackState ra w)).mem ((callbackState ra w).regs .rdi)) 0
    (by decide) rfl
  refine ⟨_, ?_, hread⟩
  have hpops := run_pops arith machineContext (t := callback (callbackState ra w)) (by
    rw [hrsp]
    exact hread)
  have hback : (callbackState ra w).regs .rdi + BitVec.ofNat 64 (8 * machineContext.length) =
      w.rsp :=
    BitVec.sub_add_cancel ..
  simp only [mem_machineContext, if_true, hrsp, hback] at hpops
  rw [run_append_of_run (run_pushes ..), run_append, run_cons_of_exec rfl,
    run_callFunction hreturns, Option.bind_some]
  exact hpops

/-- Of the stack only the part that the code itself uses is written before the callback is
entered. -/
theorem mem_callbackState {b : BitVec 64} (hroom : 128 ≤ w.rsp.toNat)
    (hb : b ∉ Span (w.rsp.toNat - 128) w.rsp.toNat) : (callbackState ra w).mem b = w.mem b := by
  obtain ⟨hcontext, hentered⟩ := toNat_rsp_callbackState ra hroom
  have := w.rsp.isLt
  have hbelow : ((callbackState ra w).regs .rdi - 8).toNat = w.rsp.toNat - 128 := hentered
  rw [mem_span] at hb
  change store (pushAll w.mem w.rsp (machineContext.reverse.map w.regs))
    ((callbackState ra w).regs .rdi - 8) ra b = _
  rw [store_of_notMem (by omega), pushAll_of_notMem]
  · rw [List.length_map]
    exact (by decide : 8 * machineContext.reverse.length ≤ 128).trans hroom
  · have hlength : (machineContext.reverse.map w.regs).length = 15 := rfl
    rw [mem_span, hlength]
    omega
  · rw [mem_span]
    omega

theorem readContext_callbackState (hroom : 128 ≤ w.rsp.toNat) :
    readContext (callbackState ra w).mem ((callbackState ra w).regs .rdi) =
      machineContext.map w.regs := by
  obtain ⟨hcontext, hentered⟩ := toNat_rsp_callbackState ra hroom
  have := w.rsp.isLt
  have hbelow : ((callbackState ra w).regs .rdi - 8).toNat = w.rsp.toNat - 128 := hentered
  have hpushed : topWords (pushAll w.mem w.rsp (machineContext.reverse.map w.regs))
      ((callbackState ra w).regs .rdi) machineContext.length = machineContext.map w.regs := by
    have h := topWords_pushAll w.mem w.rsp (machineContext.reverse.map w.regs)
      ((by decide : 8 * machineContext.length ≤ 128).trans hroom)
    rw [← List.map_reverse, List.reverse_reverse] at h
    exact h
  have hlength : machineContext.length = 15 := rfl
  rw [readContext, ← hpushed]
  apply topWords_congr
  · omega
  · apply eqOn_store (a := (callbackState ra w).regs .rdi - 8)
    · omega
    · intro b hb
      rw [mem_span] at hb ⊢
      omega

/-- A callback gets the registers in the structure that it is called with, and what it leaves there
is in the registers afterwards. Everything else is as it was, up to the memory that the callback has
written. Nothing aligns the stack for it. -/
theorem generateContextCallCode_context (hstacks : Stacks isKernel lo hi spared 8 s)
    (hcallback : CallbackConforms callback lo hi spared) :
    ∃ (e : State X) (regs : Gpr → BitVec 64),
      run arith (generateContextCallCode isKernel callback ra) s = some { s with
        regs := regs
        rsp := s.rsp + 8
        pc := s.top
        mem := (callback e).mem
        other := (callback e).other } ∧
      readContext e.mem (e.regs .rdi) = machineContext.map s.regs ∧
      readContext (callback e).mem (e.regs .rdi) = machineContext.map regs ∧
      (e.rsp.toNat % 16 = 8 ↔ (stackPointer isKernel s).toNat % 16 = 8) ∧
      (isKernel = true → e.flags &&& interruptFlag = 0) ∧
      e.other = s.other ∧
      ∀ b ∉ scratch isKernel s, e.mem b = s.mem b := by
  obtain ⟨hregs, hpushed, hslot, hother, hdisabled⟩ := leaveNativeStack_pushWord isKernel s
  obtain ⟨hlo, hhi⟩ := hstacks.room
  let w := leaveNativeStack isKernel (s.pushWord s.flags)
  obtain ⟨hcontext, hentered⟩ := toNat_rsp_callbackState ra (w := w)
    ((by omega : 128 ≤ lo + 167).trans hlo)
  have hrsp : (stackPointer isKernel s).toNat = w.rsp.toNat := rfl
  have hlength : machineContext.length = 15 := rfl
  have hreturns := hcallback (callbackState ra w) (by omega) (by omega)
  have hwritten : ∀ b ∉ Span ((stackPointer isKernel s).toNat - 167)
      (stackPointer isKernel s).toNat,
      (callbackState ra w).mem b = (s.pushWord s.flags).mem b := by
    intro b hb
    rw [mem_callbackState (by omega), hpushed]
    rw [mem_span] at hb ⊢
    omega
  obtain ⟨regs, hrun, hleft⟩ := run_callback arith hreturns
  refine ⟨callbackState ra w, regs, ?_, ?_, hleft, by omega, hdisabled, hother, ?_⟩
  · have hcode : generateContextCallCode isKernel callback ra = offNativeStack isKernel
        (machineContext.reverse.map .push ++ ([.movRsp .rdi, callFunction ra callback] ++
          machineContext.map .pop)) := rfl
    rw [hcode, run_offNativeStack hstacks.native hstacks.nativeWrap hrun rfl hreturns.privateStack]
    · have hsavedFlags : (callback (callbackState ra w)).savedFlags = s.savedFlags :=
        hreturns.savedFlags.trans hslot
      rw [hsavedFlags]
    · intro b hb
      have hspared := hstacks.native_spared hb
      have hspared' : b ∈ Span (((callbackState ra w).regs .rdi).toNat +
          8 * machineContext.length) hi ∪ spared :=
        Set.union_subset_union_left _ (span_subset (by omega) le_rfl) hspared
      rw [hreturns.mem hspared', hwritten b (hstacks.native_apart hb)]
  · rw [readContext_callbackState (by omega), hregs]
  · intro b hb
    obtain ⟨hprivate, hnative⟩ := hstacks.notMem_scratch hb
    rw [hwritten b hprivate, mem_pushWord hstacks.native hnative]

def setRax (v : BitVec 64) (s : State Unit) : State Unit :=
  { s.drop with pc := s.top, mem := store s.mem (s.regs .rdi + 112) v }

theorem callbackConforms_setRax (v : BitVec 64) : CallbackConforms (setRax v) lo hi ∅ := by
  intro e _ _
  refine ⟨rfl, rfl, ?_, rfl, rfl⟩
  intro b hb
  have hlength : machineContext.length = 15 := rfl
  rw [Set.union_empty, mem_span, hlength] at hb
  have hfield : (e.regs .rdi + 112).toNat = (e.regs .rdi).toNat + 112 := by
    bv_omega
  apply store_of_notMem
  · have := b.isLt
    omega
  · rw [mem_span]
    omega

theorem generateContextCallCode_context_user :
    ∃ (e : State Unit) (regs : Gpr → BitVec 64),
      run id (generateContextCallCode false (setRax 9) 5) userThread = some { userThread with
        regs := regs
        rsp := userThread.rsp + 8
        pc := userThread.top
        mem := (setRax 9 e).mem
        other := () } ∧
      readContext e.mem (e.regs .rdi) = machineContext.map userThread.regs ∧
      readContext (setRax 9 e).mem (e.regs .rdi) = machineContext.map regs ∧
      (e.rsp.toNat % 16 = 8 ↔ (stackPointer false userThread).toNat % 16 = 8) ∧
      (false = true → e.flags &&& interruptFlag = 0) ∧
      e.other = () ∧
      ∀ b ∉ scratch false userThread, e.mem b = userThread.mem b := by
  have hstacks : Stacks false 0x7000 0x8000 ∅ 8 userThread :=
    ⟨by decide, by decide, by decide, fun _ ↦ ⟨by decide, by decide⟩, nofun⟩
  exact generateContextCallCode_context hstacks (callbackConforms_setRax 9)

end Granary.Arch.ContextSwitch
