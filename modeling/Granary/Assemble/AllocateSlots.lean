import Granary.Arch.Stack
import Granary.Base.Iterate
import Granary.Code.Fragment

namespace Granary.Assemble.AllocateSlots

open Function Granary.Arch.Stack Granary.Base.Iterate
open Granary.Code (FragmentId FragmentClass)

def baseDispMemOp (disp : ℤ) (width : ℕ) : MemOperand where
  address := if disp ≠ 0 then .compound (some .rsp) none 0 disp else .reg .rsp
  width := width

def manglePush (src : Operand) (width : ℕ) (adjustedOffset : ℤ) : List Instr :=
  [.mov (.mem (baseDispMemOp adjustedOffset width)) src]

def manglePop (dst : ℕ) (width : ℕ) (adjustedOffset : ℤ) : List Instr :=
  [.mov (.reg (.gpr dst)) (.mem (baseDispMemOp adjustedOffset width))]

def isSpillSlot : Operand → Option ℕ
  | .mem ⟨.reg (.slot n), _, _⟩ => some n
  | _ => none

/-- Each of the two insertions goes right after the instruction. -/
def manglePushFlags (q : Bool) (flagReg : ℕ) (isSticky : Bool) (adjustedOffset : ℤ) : List Instr :=
  [.pushf q flagReg isSticky, .pop flagReg (flagsWidth q),
    .mov (.mem (baseDispMemOp adjustedOffset (flagsWidth q))) (.reg (.gpr flagReg))]

def manglePopFlags (q : Bool) (adjustedOffset : ℤ) : List Instr :=
  [.push (.mem (baseDispMemOp adjustedOffset (flagsWidth q))) (flagsWidth q), .popf q]

def adjustMemOp (m : MemOperand) (adjustedOffset : ℤ) : MemOperand :=
  match m.address with
  | .ptr _ => m
  | .compound (some .rsp) index scale disp =>
    { m with address := .compound (some .rsp) index scale (disp + adjustedOffset) }
  | .compound .. => m
  -- the assignment of an operand keeps the width that the old one has
  | .reg .rsp => baseDispMemOp adjustedOffset (if m.width ≠ 0 then m.width else 64)
  | .reg _ => m

def Operand.adjust (o : Operand) (adjustedOffset : ℤ) : Operand :=
  match o with
  | .mem m => .mem (adjustMemOp m adjustedOffset)
  | .reg _ | .imm _ => o

def Operand.readsStackPointer : Operand → Bool
  | .reg .rsp | .mem ⟨.reg .rsp, _, _⟩ | .mem ⟨.compound (some .rsp) _ _ _, _, _⟩ => true
  | _ => false

def genericAdjustMemOps (ops : List Operand) (adjustedOffset : ℤ) : List Operand :=
  if ops.any Operand.readsStackPointer then ops.map (Operand.adjust · adjustedOffset) else ops

/-- A spill slot is at the bottom of the frame, by its number. -/
def slotOperand (o : Operand) (n : ℕ) : Operand :=
  match o with
  | .mem m => .mem { m with address := (baseDispMemOp (n * 8) 64).address }
  | .reg _ | .imm _ => o

def isMemory : Operand → Bool
  | .mem _ => true
  | .reg _ | .imm _ => false

def mangleMov (dst src : Operand) (adjustedOffset : ℤ) : Instr :=
  match isSpillSlot dst, isSpillSlot src with
  | some n, _ => .mov (slotOperand dst n) src
  | none, some n => .mov dst (slotOperand src n)
  | none, none =>
    if isMemory dst then .mov (Operand.adjust dst adjustedOffset) src
    else .mov dst (Operand.adjust src adjustedOffset)

def mangleXchg (dst : Operand) (src : ℕ) (adjustedOffset : ℤ) : Instr :=
  match isSpillSlot dst with
  | some n => .xchg (slotOperand dst n) src
  | none => .xchg (Operand.adjust dst adjustedOffset) src

def mangleLEA (dst : Reg) (src : MemOperand) (adjustedOffset : ℤ) : Instr :=
  if dst = .rsp then .nop else .lea dst (adjustMemOp src adjustedOffset)

def mangleArith (op : Arith) (dst src : Operand) (adjustedOffset : ℤ) : Instr :=
  if dst = .reg .rsp then .test
  else match genericAdjustMemOps [dst, src] adjustedOffset with
    | [dst, src] => .arith op dst src
    | _ => .arith op dst src

def adjustStackInstruction (i : Instr) (adjustedOffset nextAdjustedOffset : ℤ) : List Instr :=
  match i with
  | .push src width => manglePush src width nextAdjustedOffset
  | .pop dst width => manglePop dst width adjustedOffset
  | .pushf q flagReg isSticky =>
    if isSticky then [i] else manglePushFlags q flagReg isSticky nextAdjustedOffset
  | .popf q => manglePopFlags q adjustedOffset
  | .mov dst src => [mangleMov dst src adjustedOffset]
  | .xchg dst src => [mangleXchg dst src adjustedOffset]
  | .lea dst src => [mangleLEA dst src adjustedOffset]
  | .arith op dst src => [mangleArith op dst src adjustedOffset]
  | .other ops => [.other (genericAdjustMemOps ops adjustedOffset)]
  -- calls are asserted not to be seen
  | .callNear _ | .retNear _ | .nop | .test | .blind _ => [i]

/-- What a sequence of instructions touches and computes, and the stack pointer
after it. -/
structure Effect where
  explicit : List Access := []
  stacked : List Access := []
  computed : List ℤ := []
  rsp : ℤ
deriving DecidableEq

def effect (regs : Regs) : List Instr → ℤ → Effect
  | [], rsp => { rsp := rsp }
  | i :: is, rsp =>
    let e := effect regs is (i.rspAfter rsp)
    { explicit := i.explicit rsp regs ++ e.explicit
      stacked := i.stacked rsp ++ e.stacked
      computed := i.computed rsp regs ++ e.computed
      rsp := e.rsp }

def place (top : ℤ) (a : Access) : Access :=
  match a.loc with
  | .mem _ _ => a
  | .slot n => ⟨.mem none (top + n * 8), a.width⟩

/-- With the stack pointer held at `top`, the instructions `is` touch and compute
what `i` does when the stack pointer is `rsp`, and do not move the stack pointer.
What they push goes below the frame. -/
structure Simulates (top rsp : ℤ) (i : Instr) (is : List Instr) (regs : Regs) : Prop where
  explicit : (effect regs is top).explicit = (i.stacked rsp ++ i.explicit rsp regs).map (place top)
  computed : (effect regs is top).computed = i.computed rsp regs
  rsp : (effect regs is top).rsp = top
  below : ∀ a ∈ (effect regs is top).stacked,
    ∃ x, a.loc = .mem none x ∧ x + (a.width / 8 : ℕ) ≤ top

/-- A memory operand through the stack pointer alone, of an unknown width or with a
segment. -/
def BadMem (m : MemOperand) : Prop := m.address = .reg .rsp ∧ (m.width = 0 ∨ m.segment ≠ none)

/-- The instructions that are not adjusted right: those with such an operand, a
near call or return, and a sticky push of the flags. -/
def Bad : Instr → Prop
  | .mov dst src => (∃ m, dst = .mem m ∧ BadMem m) ∨ ∃ m, src = .mem m ∧ BadMem m
  | .xchg dst _ => ∃ m, dst = .mem m ∧ BadMem m
  | .arith _ dst src => (∃ m, dst = .mem m ∧ BadMem m) ∨ ∃ m, src = .mem m ∧ BadMem m
  | .other ops => ∃ m, .mem m ∈ ops ∧ BadMem m
  | .callNear _ | .retNear _ => True
  | .pushf _ _ isSticky => isSticky = true
  | _ => False

/-- A slot of an operand is one of the first `k`, and has no segment. -/
def SlotIn (k : ℕ) (o : Operand) : Prop :=
  ∀ m n, o = .mem m → m.address = .reg (.slot n) → m.segment = none ∧ n < k

theorem slotIn_mem {k : ℕ} {m : MemOperand} :
    SlotIn k (.mem m) ↔ ∀ n, m.address = .reg (.slot n) → m.segment = none ∧ n < k :=
  ⟨fun h n hn ↦ h m n rfl hn, fun h _ n hm hn ↦ by cases hm; exact h n hn⟩

theorem slotIn_reg {k : ℕ} {r : Reg} : SlotIn k (.reg r) :=
  fun _ _ h _ ↦ Operand.noConfusion h

/-- Only moves and exchanges have slots. -/
def SlotsIn (k : ℕ) : Instr → Prop
  | .mov dst src => SlotIn k dst ∧ SlotIn k src
  | .xchg dst _ => SlotIn k dst
  | .arith _ dst src => SlotIn 0 dst ∧ SlotIn 0 src
  | .other ops => ∀ o ∈ ops, SlotIn 0 o
  | .callNear target => SlotIn 0 target
  | _ => True

section Adjust

variable {top rsp adj : ℤ} {regs : Regs}

theorem access_baseDispMemOp (top disp : ℤ) (width : ℕ) (regs : Regs) :
    (baseDispMemOp disp width).access top regs = ⟨.mem none (top + disp), width⟩ := by
  unfold baseDispMemOp MemOperand.access
  by_cases hd : disp = 0
  · simp [hd, Address.value, Reg.value]
  · simp [hd, Address.value, Reg.value]

theorem access_adjustMemOp (regs : Regs) (hrsp : rsp = top + adj) {m : MemOperand}
    (hslot : ∀ n, m.address ≠ .reg (.slot n)) :
    (adjustMemOp m adj).access top regs = place top (m.access rsp regs) ↔ ¬ BadMem m := by
  obtain ⟨a, segment, width⟩ := m
  rcases a with ⟨_ | _ | n | n, index, scale, disp⟩ | (_ | n | n) | a
  case reg.rsp =>
    have hacc : (adjustMemOp ⟨.reg .rsp, segment, width⟩ adj).access top regs =
        ⟨.mem none (top + adj), if width ≠ 0 then width else 64⟩ :=
      access_baseDispMemOp top adj _ regs
    have horig : place top (MemOperand.access ⟨.reg .rsp, segment, width⟩ rsp regs) =
        ⟨.mem segment rsp, width⟩ := rfl
    rw [hacc, horig, hrsp]
    simp only [BadMem, Access.mk.injEq, Loc.mem.injEq, and_true, true_and, not_or, not_not, ne_eq]
    split_ifs with hw
    · simp [hw]
    · simp only [hw, and_true, not_false_eq_true, true_and, eq_comm]
  case reg.slot => exact absurd rfl (hslot n)
  case compound.some.rsp =>
    simp only [adjustMemOp, MemOperand.access, Address.value, Reg.value, Option.elim_some, place,
      BadMem, reduceCtorEq, false_and, not_false_eq_true, iff_true, Access.mk.injEq, Loc.mem.injEq,
      true_and, and_true]
    rw [hrsp]
    ring
  all_goals simp [adjustMemOp, MemOperand.access, Address.value, Reg.value, place, BadMem]

theorem accesses_adjust (regs : Regs) (hrsp : rsp = top + adj) {o : Operand} (hslot : SlotIn 0 o) :
    (Operand.adjust o adj).accesses top regs = (o.accesses rsp regs).map (place top) ↔
      ¬ ∃ m, o = .mem m ∧ BadMem m := by
  cases o with
  | reg r => simp [Operand.adjust, Operand.accesses]
  | imm v => simp [Operand.adjust, Operand.accesses]
  | mem m =>
    have hs (n : ℕ) : m.address ≠ .reg (.slot n) := fun hn ↦
      absurd (hslot m n rfl hn).2 (Nat.not_lt_zero n)
    have hm := access_adjustMemOp regs hrsp hs
    simp only [Operand.adjust, Operand.accesses, List.map_cons, List.map_nil, List.cons.injEq,
      and_true, hm, Operand.mem.injEq, exists_eq_left']

theorem length_accesses_adjust (top rsp adj : ℤ) (regs : Regs) (o : Operand) :
    ((Operand.adjust o adj).accesses top regs).length =
      ((o.accesses rsp regs).map (place top)).length := by
  cases o <;> rfl

theorem accesses_slotOperand (top rsp : ℤ) (regs : Regs) {k n : ℕ} {o : Operand} (hslot : SlotIn k o)
    (hn : isSpillSlot o = some n) :
    (slotOperand o n).accesses top regs = (o.accesses rsp regs).map (place top) := by
  unfold isSpillSlot at hn
  split at hn
  · rename_i n' segment width
    obtain rfl := Option.some.inj hn
    have hseg : segment = none := (hslot _ n' rfl rfl).1
    subst hseg
    have hacc := access_baseDispMemOp top (n' * 8) width regs
    simp only [slotOperand, Operand.accesses, List.map_cons, List.map_nil, place,
      MemOperand.access]
    exact congrArg (fun a ↦ [a]) hacc
  · exact absurd hn (by simp)

theorem slotIn_zero {k : ℕ} {o : Operand} (hslot : SlotIn k o) (hn : isSpillSlot o = none) :
    SlotIn 0 o := by
  intro m n ho hm
  subst ho
  obtain ⟨a, segment, width⟩ := m
  obtain rfl : a = .reg (.slot n) := hm
  exact absurd hn (by simp [isSpillSlot])

theorem not_bad_of_slot {o : Operand} {n : ℕ} (hn : isSpillSlot o = some n) :
    ¬ ∃ m, o = .mem m ∧ BadMem m := by
  rintro ⟨m, rfl, hm, -⟩
  obtain ⟨a, segment, width⟩ := m
  obtain rfl : a = .reg .rsp := hm
  simp [isSpillSlot] at hn

theorem accesses_of_not_mem {o : Operand} (ho : ∀ m, o ≠ .mem m) (x : ℤ) :
    o.accesses x regs = [] := by
  cases o with
  | reg r => rfl
  | imm v => rfl
  | mem m => exact absurd rfl (ho m)

theorem flatMap_adjust (regs : Regs) (hrsp : rsp = top + adj) (ops : List Operand)
    (hslot : ∀ o ∈ ops, SlotIn 0 o) :
    (ops.map (Operand.adjust · adj)).flatMap (fun o ↦ o.accesses top regs) =
        (ops.flatMap fun o ↦ o.accesses rsp regs).map (place top) ↔
      ¬ ∃ m, .mem m ∈ ops ∧ BadMem m := by
  induction ops with
  | nil => simp
  | cons o ops ih =>
    have ho := accesses_adjust regs hrsp (hslot o List.mem_cons_self)
    have hops := ih fun o ho ↦ hslot o (List.mem_cons_of_mem _ ho)
    have hlen := length_accesses_adjust top rsp adj regs o
    rw [List.map_cons, List.flatMap_cons, List.flatMap_cons, List.map_append]
    constructor
    · intro h
      obtain ⟨h₁, h₂⟩ := List.append_inj h hlen
      rintro ⟨m, hm, hbad⟩
      rcases List.mem_cons.mp hm with hm | hm
      · exact ho.mp h₁ ⟨m, hm.symm, hbad⟩
      · exact hops.mp h₂ ⟨m, hm, hbad⟩
    · intro h
      rw [ho.mpr fun ⟨m, hm, hbad⟩ ↦ h ⟨m, hm ▸ List.mem_cons_self, hbad⟩,
        hops.mpr fun ⟨m, hm, hbad⟩ ↦ h ⟨m, List.mem_cons_of_mem _ hm, hbad⟩]

theorem adjust_of_not_reads {o : Operand} (ho : Operand.readsStackPointer o = false) :
    Operand.adjust o adj = o := by
  rcases o with r | v | ⟨⟨_ | _ | n | n, index, scale, disp⟩ | (_ | n | n) | a, segment, width⟩
  all_goals first | rfl | exact absurd ho (by simp [Operand.readsStackPointer])

theorem genericAdjustMemOps_eq (ops : List Operand) :
    genericAdjustMemOps ops adj = ops.map (Operand.adjust · adj) := by
  unfold genericAdjustMemOps
  split_ifs with hany
  · rfl
  · have hnone (o : Operand) (ho : o ∈ ops) : Operand.adjust o adj = o := by
      refine adjust_of_not_reads ?_
      simp only [List.any_eq_true, not_exists, not_and, Bool.not_eq_true] at hany
      exact hany o ho
    exact ((List.map_congr_left hnone).trans (List.map_id ops)).symm

end Adjust

section Simulates

variable {top rsp adj : ℤ} {regs : Regs} {k : ℕ}

theorem simulates_singleton {i x : Instr} (hst : x.stacked top = []) (hrsp : x.rspAfter top = top) :
    Simulates top rsp i [x] regs ↔
      x.explicit top regs = (i.stacked rsp ++ i.explicit rsp regs).map (place top) ∧
        x.computed top regs = i.computed rsp regs := by
  have heff : effect regs [x] top =
      { explicit := x.explicit top regs, stacked := [], computed := x.computed top regs
        rsp := top } := by
    simp [effect, hst, hrsp]
  constructor
  · rintro ⟨he, hc, -, -⟩
    rw [heff] at he hc
    exact ⟨he, hc⟩
  · rintro ⟨he, hc⟩
    refine ⟨?_, ?_, ?_, ?_⟩
    · rw [heff]
      exact he
    · rw [heff]
      exact hc
    · rw [heff]
    · rw [heff]
      simp

theorem simulates_mov (hrsp : rsp = top + adj) {dst src : Operand}
    (hi : (∀ m, dst ≠ .mem m) ∨ ∀ m, src ≠ .mem m) (hd : SlotIn k dst) (hs : SlotIn k src) :
    Simulates top rsp (.mov dst src) [mangleMov dst src adj] regs ↔ ¬ Bad (.mov dst src) := by
  have hmov (dst' src' : Operand) : Simulates top rsp (.mov dst src) [.mov dst' src'] regs ↔
      dst'.accesses top regs ++ src'.accesses top regs =
        (dst.accesses rsp regs ++ src.accesses rsp regs).map (place top) := by
    rw [simulates_singleton rfl rfl]
    simp [Instr.explicit, Instr.stacked, Instr.computed]
  have hnot (o : Operand) (ho : ∀ m, o ≠ .mem m) : ¬ ∃ m, o = .mem m ∧ BadMem m :=
    fun ⟨m, hm, _⟩ ↦ ho m hm
  unfold mangleMov Bad
  cases hsd : isSpillSlot dst with
  | some n =>
    have hsrc : ∀ m, src ≠ .mem m := by
      refine hi.resolve_left fun h ↦ ?_
      unfold isSpillSlot at hsd
      split at hsd
      · exact h _ rfl
      · exact absurd hsd (by simp)
    simp only [hmov, accesses_slotOperand top rsp regs hd hsd, accesses_of_not_mem hsrc,
      List.append_nil, true_iff, not_or]
    exact ⟨not_bad_of_slot hsd, hnot src hsrc⟩
  | none =>
    cases hss : isSpillSlot src with
    | some n =>
      have hdst : ∀ m, dst ≠ .mem m := by
        refine hi.resolve_right fun h ↦ ?_
        unfold isSpillSlot at hss
        split at hss
        · exact h _ rfl
        · exact absurd hss (by simp)
      simp only [hmov, accesses_slotOperand top rsp regs hs hss, accesses_of_not_mem hdst,
        List.nil_append, true_iff, not_or]
      exact ⟨hnot dst hdst, not_bad_of_slot hss⟩
    | none =>
      have hdst := accesses_adjust regs hrsp (slotIn_zero hd hsd)
      have hsrc := accesses_adjust regs hrsp (slotIn_zero hs hss)
      cases hmd : isMemory dst with
      | true =>
        have hnsrc : ∀ m, src ≠ .mem m := by
          refine hi.resolve_left fun h ↦ ?_
          cases dst with
          | mem m => exact h m rfl
          | reg r => exact absurd hmd (by simp [isMemory])
          | imm v => exact absurd hmd (by simp [isMemory])
        simp only [if_true, hmov, accesses_of_not_mem hnsrc, List.append_nil, hdst, not_or]
        exact ⟨fun h ↦ ⟨h, hnot src hnsrc⟩, And.left⟩
      | false =>
        have hndst : ∀ m, dst ≠ .mem m := by
          rintro m rfl
          exact absurd hmd (by simp [isMemory])
        simp only [Bool.false_eq_true, if_false, hmov, accesses_of_not_mem hndst,
          List.nil_append, hsrc, not_or]
        exact ⟨fun h ↦ ⟨hnot dst hndst, h⟩, And.right⟩

theorem simulates_xchg (hrsp : rsp = top + adj) {dst : Operand} {src : ℕ} (hd : SlotIn k dst) :
    Simulates top rsp (.xchg dst src) [mangleXchg dst src adj] regs ↔ ¬ Bad (.xchg dst src) := by
  have hxchg (dst' : Operand) : Simulates top rsp (.xchg dst src) [.xchg dst' src] regs ↔
      dst'.accesses top regs = (dst.accesses rsp regs).map (place top) := by
    rw [simulates_singleton rfl rfl]
    simp [Instr.explicit, Instr.stacked, Instr.computed]
  unfold mangleXchg Bad
  cases hsd : isSpillSlot dst with
  | some n =>
    simp only [hxchg, accesses_slotOperand top rsp regs hd hsd, true_iff]
    exact not_bad_of_slot hsd
  | none =>
    simp only [hxchg]
    exact accesses_adjust regs hrsp (slotIn_zero hd hsd)

theorem simulates_other (hrsp : rsp = top + adj) {ops : List Operand}
    (hs : ∀ o ∈ ops, SlotIn 0 o) :
    Simulates top rsp (.other ops) [.other (genericAdjustMemOps ops adj)] regs ↔
      ¬ Bad (.other ops) := by
  rw [simulates_singleton rfl rfl, genericAdjustMemOps_eq]
  simp only [Instr.explicit, Instr.stacked, Instr.computed, List.nil_append, and_true]
  exact flatMap_adjust regs hrsp ops hs

theorem simulates_arith (hrsp : rsp = top + adj) {op : Arith} {dst src : Operand}
    (hi : Instr.EarlyMangled (.arith op dst src)) (hd : SlotIn 0 dst) (hs : SlotIn 0 src) :
    Simulates top rsp (.arith op dst src) [mangleArith op dst src adj] regs ↔
      ¬ Bad (.arith op dst src) := by
  unfold mangleArith
  split_ifs with hdst
  · subst hdst
    have hsrc : ∀ m, src ≠ .mem m := by
      cases op with
      | add =>
        obtain ⟨v, rfl⟩ := hi
        simp
      | sub =>
        obtain ⟨v, rfl⟩ := hi
        simp
      | inc => exact hi
      | dec => exact hi
    have hacc : Instr.explicit (.arith op (.reg .rsp) src) rsp regs = [] :=
      accesses_of_not_mem hsrc rsp
    rw [simulates_singleton rfl rfl, hacc]
    simp only [Instr.explicit, Instr.stacked, Instr.computed, List.append_nil, List.map_nil,
      and_self, true_iff, Bad, reduceCtorEq, false_and, exists_false, false_or]
    exact fun ⟨m, hm, _⟩ ↦ hsrc m hm
  · rw [genericAdjustMemOps_eq]
    have hne : Operand.adjust dst adj ≠ .reg .rsp := by
      cases dst with
      | reg r => exact hdst
      | imm v => simp [Operand.adjust]
      | mem m => simp [Operand.adjust]
    have hrspAfter : Instr.rspAfter (.arith op (Operand.adjust dst adj) (Operand.adjust src adj))
        top = top := by
      generalize Operand.adjust dst adj = d at hne
      rcases d with (_ | n | n) | v | m
      · exact absurd rfl hne
      all_goals cases op <;> rfl
    simp only [List.map_cons, List.map_nil]
    rw [simulates_singleton rfl hrspAfter]
    simp only [Instr.explicit, Instr.stacked, Instr.computed, List.nil_append, and_true]
    have hslots : ∀ o ∈ [dst, src], SlotIn 0 o := by
      intro o ho
      rcases List.mem_cons.mp ho with rfl | ho
      · exact hd
      · rw [List.mem_singleton.mp ho]
        exact hs
    have hops := flatMap_adjust regs hrsp [dst, src] hslots
    simp only [List.map_cons, List.map_nil, List.flatMap_cons, List.flatMap_nil,
      List.append_nil] at hops
    rw [hops]
    simp only [Bad, List.mem_cons, List.not_mem_nil, or_false, or_and_right, exists_or, eq_comm]

theorem value_adjustMemOp (hrsp : rsp = top + adj) (m : MemOperand) :
    (adjustMemOp m adj).address.value top regs = m.address.value rsp regs := by
  obtain ⟨a, segment, width⟩ := m
  rcases a with ⟨_ | _ | n | n, index, scale, disp⟩ | (_ | n | n) | a
  case compound.some.rsp =>
    simp only [adjustMemOp, Address.value, Reg.value, Option.elim_some]
    rw [hrsp]
    ring
  case reg.rsp =>
    by_cases hd : adj = 0
    · simp [adjustMemOp, baseDispMemOp, Address.value, Reg.value, hrsp, hd]
    · simp [adjustMemOp, baseDispMemOp, Address.value, Reg.value, hrsp, hd]
  all_goals rfl

theorem simulates_lea (hrsp : rsp = top + adj) {dst : Reg} {src : MemOperand} :
    Simulates top rsp (.lea dst src) [mangleLEA dst src adj] regs := by
  cases dst with
  | rsp => exact (simulates_singleton rfl rfl).mpr ⟨rfl, rfl⟩
  | gpr n =>
    refine (simulates_singleton rfl rfl).mpr ⟨rfl, ?_⟩
    exact congrArg (fun a ↦ [a]) (value_adjustMemOp hrsp src)
  | slot n =>
    refine (simulates_singleton rfl rfl).mpr ⟨rfl, ?_⟩
    exact congrArg (fun a ↦ [a]) (value_adjustMemOp hrsp src)

theorem simulates_push {src : Operand} {width : ℕ} (hi : ∀ m, src ≠ .mem m)
    (hrsp : rsp = top + adj) :
    Simulates top rsp (.push src width) (manglePush src width (adj - (width / 8 : ℕ))) regs := by
  have hexp : Instr.explicit (.push src width) rsp regs = [] := accesses_of_not_mem hi rsp
  have hmov (m : MemOperand) : Instr.explicit (.mov (.mem m) src) top regs = [m.access top regs] :=
    congrArg (m.access top regs :: ·) (accesses_of_not_mem hi top)
  refine (simulates_singleton rfl rfl).mpr ⟨?_, rfl⟩
  rw [hexp]
  simp only [hmov, access_baseDispMemOp, Instr.stacked, place, hrsp, List.append_nil,
    List.map_cons, List.map_nil, add_sub_assoc]

theorem simulates_pop {dst width : ℕ} (hrsp : rsp = top + adj) :
    Simulates top rsp (.pop dst width) (manglePop dst width adj) regs := by
  refine (simulates_singleton rfl rfl).mpr ⟨?_, rfl⟩
  simp only [Instr.explicit, Operand.accesses, access_baseDispMemOp, Instr.stacked, place, hrsp,
    List.append_nil, List.nil_append, List.map_cons, List.map_nil]

theorem simulates_pushf {q : Bool} {flagReg : ℕ} {isSticky : Bool} (hrsp : rsp = top + adj) :
    Simulates top rsp (.pushf q flagReg isSticky)
      (manglePushFlags q flagReg isSticky (adj - (flagsWidth q / 8 : ℕ))) regs := by
  refine ⟨?_, rfl, ?_, ?_⟩
  · simp only [manglePushFlags, effect, Instr.explicit, Operand.accesses, access_baseDispMemOp,
      Instr.stacked, Instr.rspAfter, place, hrsp, List.append_nil, List.nil_append, List.map_cons,
      List.map_nil, add_sub_assoc, sub_add_cancel]
  · simp [manglePushFlags, effect, Instr.rspAfter]
  · intro a ha
    simp only [manglePushFlags, effect, Instr.stacked, Instr.rspAfter, List.append_nil,
      List.cons_append, List.nil_append, List.mem_cons, List.not_mem_nil, or_false, or_self] at ha
    rw [ha]
    exact ⟨_, rfl, by simp⟩

theorem simulates_popf {q : Bool} (hrsp : rsp = top + adj) :
    Simulates top rsp (.popf q) (manglePopFlags q adj) regs := by
  refine ⟨?_, rfl, ?_, ?_⟩
  · simp only [manglePopFlags, effect, Instr.explicit, Operand.accesses, access_baseDispMemOp,
      Instr.stacked, place, hrsp, List.append_nil, List.map_cons, List.map_nil]
  · simp [manglePopFlags, effect, Instr.rspAfter]
  · intro a ha
    simp only [manglePopFlags, effect, Instr.stacked, Instr.rspAfter, List.append_nil,
      List.cons_append, List.nil_append, List.mem_cons, List.not_mem_nil, or_false, or_self] at ha
    rw [ha]
    exact ⟨_, rfl, by simp⟩

theorem not_simulates_of_rsp_ne {i x : Instr} (hne : x.rspAfter top ≠ top) :
    ¬ Simulates top rsp i [x] regs := fun h ↦ hne h.rsp

/-- What is put in the place of an instruction does what it did, unless it is one of
the bad ones. -/
theorem simulates_iff (hrsp : rsp = top + adj) {i : Instr} (hi : i.EarlyMangled)
    (hk : SlotsIn k i) :
    Simulates top rsp i (adjustStackInstruction i adj (adj + i.stackPointerShiftAmount)) regs ↔
      ¬ Bad i := by
  cases i with
  | push src width =>
    simp only [Bad, not_false_eq_true, iff_true]
    exact simulates_push hi hrsp
  | pop dst width =>
    simp only [Bad, not_false_eq_true, iff_true]
    exact simulates_pop hrsp
  | pushf q flagReg isSticky =>
    cases isSticky with
    | true =>
      have hne : top - (flagsWidth q / 8 : ℕ) ≠ top := by
        cases q
        all_goals
          simp [flagsWidth]
      simp only [Bad, not_true_eq_false, iff_false]
      exact not_simulates_of_rsp_ne hne
    | false =>
      simp only [Bad, Bool.false_eq_true, not_false_eq_true, iff_true]
      exact simulates_pushf hrsp
  | popf q =>
    simp only [Bad, not_false_eq_true, iff_true]
    exact simulates_popf hrsp
  | callNear target =>
    have hne : top - 8 ≠ top := by omega
    simp only [Bad, not_true_eq_false, iff_false]
    exact not_simulates_of_rsp_ne hne
  | retNear bytes =>
    have hne : top + 8 + bytes ≠ top := by omega
    simp only [Bad, not_true_eq_false, iff_false]
    exact not_simulates_of_rsp_ne hne
  | mov dst src => exact simulates_mov hrsp hi.2 hk.1 hk.2
  | xchg dst src => exact simulates_xchg hrsp hk
  | lea dst src =>
    simp only [Bad, not_false_eq_true, iff_true]
    exact simulates_lea hrsp
  | arith op dst src => exact simulates_arith hrsp hi hk.1 hk.2
  | nop =>
    simp only [Bad, not_false_eq_true, iff_true]
    exact (simulates_singleton rfl rfl).mpr ⟨rfl, rfl⟩
  | test =>
    simp only [Bad, not_false_eq_true, iff_true]
    exact (simulates_singleton rfl rfl).mpr ⟨rfl, rfl⟩
  | other ops => exact simulates_other hrsp hk
  | blind n =>
    simp only [Bad, not_false_eq_true, iff_true]
    exact (simulates_singleton rfl rfl).mpr ⟨rfl, rfl⟩

end Simulates

structure Fragment where
  cls : FragmentClass := .code
  partition : ℕ := 0
  stackInvalid : Bool := false
  instrs : List Instr := []
  fallThrough : Option FragmentId := none
  branch : Option FragmentId := none
  entryOffset : ℤ := 0
  exitOffset : ℤ := 0
deriving DecidableEq, Repr

def Fragment.successors (f : Fragment) : List FragmentId :=
  f.fallThrough.toList ++ f.branch.toList

structure PartitionInfo where
  numSlots : ℕ := 0
  minFrameOffset : ℤ := 0
  analyzeStackFrame : Bool := true
deriving DecidableEq, Repr

structure Heap where
  frag : FragmentId → Fragment
  part : ℕ → PartitionInfo

namespace Heap

def setFrag (h : Heap) (i : FragmentId) (f : Fragment) : Heap :=
  { h with frag := update h.frag i f }

def setPart (h : Heap) (p : ℕ) (info : PartitionInfo) : Heap :=
  { h with part := update h.part p info }

def partOf (h : Heap) (i : FragmentId) : PartitionInfo := h.part (h.frag i).partition

end Heap

def initStackFrameAnalysis (frags : List FragmentId) (h : Heap) : Heap :=
  frags.foldl (fun h i ↦
    if (h.frag i).stackInvalid then
      h.setPart (h.frag i).partition { h.partOf i with analyzeStackFrame := false }
    else h) h

def frameAdjust (s : ℤ × ℤ) (i : Instr) : ℤ × ℤ :=
  let shift := i.stackPointerShiftAmount
  let compute := i.computedOffsetBelowStackPointer
  let low := if compute ≠ 0 then min s.2 (s.1 + compute) else s.2
  if shift ≠ 0 then (s.1 + shift, min low (s.1 + shift)) else (s.1, low)

def findFrameSize (h : Heap) (i : FragmentId) : Heap × Bool :=
  let f := h.frag i
  let old := (h.partOf i).minFrameOffset
  let r := f.instrs.foldl frameAdjust (f.entryOffset, old)
  let h := h.setPart f.partition { h.partOf i with minFrameOffset := r.2 }
  if r.1 ≠ f.exitOffset then (h.setFrag i { f with exitOffset := r.1 }, true)
  else (h, decide (old ≠ r.2))

/-- A successor that takes its offset from the fragment before it. -/
def propagates (h : Heap) (i j : FragmentId) : Bool :=
  (h.frag j).partition == (h.frag i).partition && (h.frag j).cls != .partitionEntry

def propagate (h : Heap) (i : FragmentId) : Heap :=
  (h.frag i).successors.foldl (fun h j ↦
    if propagates h i j then
      h.setFrag j { h.frag j with entryOffset := (h.frag i).exitOffset }
    else h) h

def findFrameSizesStep (h : Heap) (i : FragmentId) : Heap × Bool :=
  if (h.partOf i).analyzeStackFrame then
    let r := findFrameSize h i
    (propagate r.1 i, r.2)
  else (h, false)

/-- `FindFrameSizes`, with at most `fuel` passes. -/
def findFrameSizes (frags : List FragmentId) (fuel : ℕ) (h : Heap) : Option Heap :=
  repeatUntil (sweep findFrameSizesStep frags) fuel h

/-- `GRANARY_ALIGN_TO`, where `%` rounds to zero. -/
def alignTo (x align : ℤ) : ℤ :=
  x + if x.tmod align ≠ 0 then align - x.tmod align else 0

def allocateStackSpace (numBytes : ℤ) : Instr := .lea .rsp (baseDispMemOp numBytes 64)

def freeStackSpace (numBytes : ℤ) : Instr := allocateStackSpace numBytes

/-- What is put in the place of each instruction. -/
def adjustStackInstructions (frameSpace : ℤ) : List Instr → ℤ → List (List Instr)
  | [], _ => []
  | i :: is, offset =>
    let nextOffset := offset + i.stackPointerShiftAmount
    adjustStackInstruction i (offset - frameSpace) (nextOffset - frameSpace) ::
      adjustStackInstructions frameSpace is nextOffset

def forFrags (F : PartitionInfo → Fragment → Fragment) (frags : List FragmentId) (h : Heap) : Heap :=
  frags.foldl (fun h i ↦ h.setFrag i (F (h.partOf i) (h.frag i))) h

section Allocate

variable (redzone : ℕ) (slotMemOp : ℕ → ℕ → MemOperand)

def frameSpace (info : PartitionInfo) : ℤ :=
  alignTo (info.minFrameOffset - (info.numSlots * 8 + redzone : ℕ)) (-8)

def allocateStackSlotsStackValid (info : PartitionInfo) (f : Fragment) : Fragment :=
  let frameSpace := frameSpace redzone info
  if f.cls = .partitionEntry then
    { f with instrs := f.instrs ++ [allocateStackSpace frameSpace] }
  else if f.cls = .partitionExit then
    { f with instrs := f.instrs ++ [freeStackSpace (-(frameSpace - f.entryOffset))] }
  else if f.cls.isCode then
    { f with instrs := (adjustStackInstructions frameSpace f.instrs f.entryOffset).flatten }
  else f

/-- A partition without slots is skipped, and so is one whose stack is not valid. -/
def allocateStackSlots : List FragmentId → Heap → Heap :=
  forFrags fun info f ↦
    if info.numSlots = 0 || !info.analyzeStackFrame then f
    else allocateStackSlotsStackValid redzone info f

/-- `SlotMemOp` gives the slots that are not on the stack. -/
def allocateSlot (o : Operand) : Operand :=
  match o with
  | .mem ⟨.reg (.slot n), _, width⟩ => .mem (slotMemOp n width)
  | _ => o

def archAllocateSlot (i : Instr) : Instr :=
  match i with
  | .mov dst src => .mov (allocateSlot slotMemOp dst) (allocateSlot slotMemOp src)
  | .xchg dst src => .xchg (allocateSlot slotMemOp dst) src
  | _ => i

def archAllocateSlots : List FragmentId → Heap → Heap :=
  forFrags fun info f ↦
    if f.cls.isCode && !info.analyzeStackFrame then
      { f with instrs := f.instrs.map (archAllocateSlot slotMemOp) }
    else f

def allocateSlots (frags : List FragmentId) (fuel : ℕ) (h : Heap) : Option Heap :=
  (findFrameSizes frags fuel (initStackFrameAnalysis frags h)).map fun h ↦
    archAllocateSlots slotMemOp frags (allocateStackSlots redzone frags h)

end Allocate

def Edge (frags : List FragmentId) (h : Heap) (i j : FragmentId) : Prop :=
  i ∈ frags ∧ j ∈ (h.frag i).successors ∧ propagates h i j = true

def run (is : List Instr) (rsp : ℤ) : ℤ := is.foldl (fun rsp i ↦ i.rspAfter rsp) rsp

/-- Some path from the entry of a partition leads to a fragment. -/
inductive Reaches (frags : List FragmentId) (h : Heap) (p : ℕ) : FragmentId → Prop
  | entry {i : FragmentId} (hi : i ∈ frags) (hc : (h.frag i).cls = .partitionEntry)
      (hp : (h.frag i).partition = p) : Reaches frags h p i
  | step {i j : FragmentId} (hi : Reaches frags h p i) (hj : Edge frags h i j) : Reaches frags h p j

/-- The original code, in `h`, and the rewritten code, in `h'`, follow the same path
from the entry of a partition, where the stack pointer is `e`. The stack pointers are
those at the start of the fragment where the path ends. -/
inductive Lockstep (frags : List FragmentId) (h h' : Heap) (p : ℕ) (e : ℤ) :
    FragmentId → ℤ → ℤ → Prop
  | entry {i : FragmentId} (hi : i ∈ frags) (hc : (h.frag i).cls = .partitionEntry)
      (hp : (h.frag i).partition = p) : Lockstep frags h h' p e i e e
  | step {i j : FragmentId} {rsp top : ℤ} (hi : Lockstep frags h h' p e i rsp top)
      (hj : Edge frags h i j) :
      Lockstep frags h h' p e j (run (h.frag i).instrs rsp) (run (h'.frag i).instrs top)

def SimulatesAll (top : ℤ) : List Instr → List (List Instr) → ℤ → Prop
  | [], [], _ => True
  | i :: is, c :: cs, rsp =>
    (∀ regs, Simulates top rsp i c regs) ∧ SimulatesAll top is cs (i.rspAfter rsp)
  | _, _, _ => False

/-- The offsets from `rsp` that some instructions reach: those of the stack pointer,
and those of the addresses below it that they compute. -/
def offsets : List Instr → ℤ → List ℤ
  | [], rsp => [rsp]
  | i :: is, rsp =>
    rsp :: (rsp + i.computedOffsetBelowStackPointer) :: offsets is (i.rspAfter rsp)

/-- What the rewritten code of a partition does to the stack. -/
structure Held (redzone : ℕ) (frags : List FragmentId) (h h' : Heap) (p : ℕ) (e : ℤ) : Prop where
  simulates : ∀ i rsp top, Lockstep frags h h' p e i rsp top → (h.frag i).cls.isCode = true →
    ∃ cs, (h'.frag i).instrs = cs.flatten ∧
      cs = adjustStackInstructions (top - e) (h.frag i).instrs (rsp - e) ∧
      SimulatesAll top (h.frag i).instrs cs rsp
  exit : ∀ i rsp top, Lockstep frags h h' p e i rsp top → (h.frag i).cls = .partitionExit →
    run (h'.frag i).instrs top = run (h.frag i).instrs rsp
  slots : ∀ i rsp top, Lockstep frags h h' p e i rsp top → (h.frag i).cls.isCode = true →
    ∀ j rsp' top', Lockstep frags h h' p e j rsp' top' → (h.frag j).cls.isCode = true →
      ∀ n < (h.part p).numSlots, ∀ x ∈ offsets (h.frag j).instrs rsp',
        top + n * 8 + 8 ≤ x - redzone

def Agree (frags : List FragmentId) (h h' : Heap) (p : ℕ) : Prop :=
  ∀ i j, Edge frags h i j → (h.frag j).partition = p →
    (h'.frag j).entryOffset = (h'.frag i).exitOffset

/-- A partition that needs no slots keeps its instructions. -/
def Transparent (redzone : ℕ) (frags : List FragmentId) (h h' : Heap) (p : ℕ) (e : ℤ) : Prop :=
  (∀ i ∈ frags, (h.frag i).partition = p → (h'.frag i).instrs = (h.frag i).instrs) ∨
    Held redzone frags h h' p e

/-- What the passes before this one promise of a partition whose stack can be
analyzed. -/
structure Ready (frags : List FragmentId) (h : Heap) (p : ℕ) : Prop where
  nodup : frags.Nodup
  closed : ∀ i j, Edge frags h i j → j ∈ frags
  zero : ∀ i, (h.frag i).entryOffset = 0 ∧ (h.frag i).exitOffset = 0
  low : (h.part p).minFrameOffset = 0
  boundary : ∀ i ∈ frags, (h.frag i).partition = p →
    (h.frag i).cls = .partitionEntry ∨ (h.frag i).cls = .partitionExit → (h.frag i).instrs = []
  source : ∀ i j, Edge frags h i j → (h.frag i).partition = p →
    (h.frag i).cls = .partitionEntry ∨ (h.frag i).cls.isCode = true
  mangled : ∀ i ∈ frags, (h.frag i).partition = p → (h.frag i).cls.isCode = true →
    ∀ x ∈ (h.frag i).instrs, x.EarlyMangled ∧ SlotsIn (h.part p).numSlots x
  analyzed : ((initStackFrameAnalysis frags h).part p).analyzeStackFrame = true

/-- Two heaps have the same code, and the same partitions but for the offsets. -/
structure SameCode (h h' : Heap) : Prop where
  cls : ∀ i, (h'.frag i).cls = (h.frag i).cls
  partition : ∀ i, (h'.frag i).partition = (h.frag i).partition
  instrs : ∀ i, (h'.frag i).instrs = (h.frag i).instrs
  successors : ∀ i, (h'.frag i).successors = (h.frag i).successors
  numSlots : ∀ p, (h'.part p).numSlots = (h.part p).numSlots

namespace SameCode

theorem refl (h : Heap) : SameCode h h :=
  ⟨fun _ ↦ rfl, fun _ ↦ rfl, fun _ ↦ rfl, fun _ ↦ rfl, fun _ ↦ rfl⟩

theorem trans {a b c : Heap} (h : SameCode a b) (h' : SameCode b c) : SameCode a c :=
  ⟨fun i ↦ (h'.cls i).trans (h.cls i), fun i ↦ (h'.partition i).trans (h.partition i),
    fun i ↦ (h'.instrs i).trans (h.instrs i), fun i ↦ (h'.successors i).trans (h.successors i),
    fun p ↦ (h'.numSlots p).trans (h.numSlots p)⟩

variable {h h' : Heap}

theorem propagates (hs : SameCode h h') (i j : FragmentId) :
    propagates h' i j = propagates h i j := by
  unfold AllocateSlots.propagates
  rw [hs.partition, hs.partition, hs.cls]

theorem edge (hs : SameCode h h') {frags : List FragmentId} {i j : FragmentId} :
    Edge frags h' i j ↔ Edge frags h i j := by
  unfold Edge
  rw [hs.successors, hs.propagates]

theorem setFrag (h : Heap) (i : FragmentId) {f : Fragment} (hcls : f.cls = (h.frag i).cls)
    (hpart : f.partition = (h.frag i).partition) (hinstrs : f.instrs = (h.frag i).instrs)
    (hsucc : f.successors = (h.frag i).successors) : SameCode h (h.setFrag i f) := by
  refine ⟨fun j ↦ ?_, fun j ↦ ?_, fun j ↦ ?_, fun j ↦ ?_, fun p ↦ rfl⟩
  all_goals
    by_cases hj : j = i
    · subst hj
      simp [Heap.setFrag, *]
    · simp [Heap.setFrag, hj]

theorem setPart (h : Heap) (p : ℕ) {info : PartitionInfo}
    (hn : info.numSlots = (h.part p).numSlots) : SameCode h (h.setPart p info) := by
  refine ⟨fun j ↦ rfl, fun j ↦ rfl, fun j ↦ rfl, fun j ↦ rfl, fun q ↦ ?_⟩
  by_cases hq : q = p
  · subst hq
    simp [Heap.setPart, hn]
  · simp [Heap.setPart, hq]

theorem foldl {step : Heap → FragmentId → Heap} (hstep : ∀ h i, SameCode h (step h i))
    (l : List FragmentId) (h : Heap) : SameCode h (l.foldl step h) := by
  induction l generalizing h with
  | nil => exact refl h
  | cons i l ih => exact (hstep h i).trans (ih (step h i))

end SameCode

section Analysis

variable {frags : List FragmentId} {p : ℕ}

theorem frag_initStackFrameAnalysis (frags : List FragmentId) (h : Heap) :
    (initStackFrameAnalysis frags h).frag = h.frag := by
  unfold initStackFrameAnalysis
  induction frags generalizing h with
  | nil => rfl
  | cons i l ih =>
    rw [List.foldl_cons, ih]
    split_ifs <;> rfl

theorem part_initStackFrameAnalysis (frags : List FragmentId) (h : Heap) (p : ℕ) :
    ((initStackFrameAnalysis frags h).part p).numSlots = (h.part p).numSlots ∧
      ((initStackFrameAnalysis frags h).part p).minFrameOffset = (h.part p).minFrameOffset := by
  unfold initStackFrameAnalysis
  induction frags generalizing h with
  | nil => exact ⟨rfl, rfl⟩
  | cons i l ih =>
    rw [List.foldl_cons, (ih _).1, (ih _).2]
    split_ifs with hinv
    · by_cases hp : p = (h.frag i).partition
      · subst hp
        simp [Heap.setPart, Heap.partOf]
      · simp [Heap.setPart, hp]
    · exact ⟨rfl, rfl⟩

theorem sameCode_initStackFrameAnalysis (frags : List FragmentId) (h : Heap) :
    SameCode h (initStackFrameAnalysis frags h) := by
  have hf := frag_initStackFrameAnalysis frags h
  refine ⟨fun i ↦ ?_, fun i ↦ ?_, fun i ↦ ?_, fun i ↦ ?_,
    fun q ↦ (part_initStackFrameAnalysis frags h q).1⟩
  all_goals rw [hf]

theorem propagate_foldl (i : FragmentId) (l : List FragmentId) (h : Heap) :
    let h' := l.foldl (fun h j ↦
      if propagates h i j then
        h.setFrag j { h.frag j with entryOffset := (h.frag i).exitOffset }
      else h) h
    h'.part = h.part ∧ ∀ k, h'.frag k =
      if k ∈ l ∧ propagates h i k = true then
        { h.frag k with entryOffset := (h.frag i).exitOffset } else h.frag k := by
  induction l generalizing h with
  | nil => simp
  | cons j l ih =>
    simp only [List.foldl_cons]
    split_ifs with hj
    · have hs : SameCode h (h.setFrag j { h.frag j with entryOffset := (h.frag i).exitOffset }) :=
        .setFrag h j rfl rfl rfl rfl
      obtain ⟨hpart, hfrag⟩ := ih (h.setFrag j { h.frag j with entryOffset := (h.frag i).exitOffset })
      refine ⟨hpart, fun k ↦ ?_⟩
      have hexit : ((h.setFrag j { h.frag j with
          entryOffset := (h.frag i).exitOffset }).frag i).exitOffset = (h.frag i).exitOffset := by
        by_cases hij : i = j
        · subst hij
          simp [Heap.setFrag]
        · simp [Heap.setFrag, hij]
      rw [hfrag k, hs.propagates, hexit]
      by_cases hkj : k = j
      · subst hkj
        simp [Heap.setFrag, hj]
      · simp [Heap.setFrag, hkj]
    · obtain ⟨hpart, hfrag⟩ := ih h
      refine ⟨hpart, fun k ↦ ?_⟩
      rw [hfrag k]
      by_cases hkj : k = j
      · subst hkj
        simp [hj]
      · simp [hkj]

/-- The offset on exit from a fragment and the lowest offset, as the code computes
them. -/
def frameSize (h : Heap) (i : FragmentId) : ℤ × ℤ :=
  (h.frag i).instrs.foldl frameAdjust ((h.frag i).entryOffset, (h.partOf i).minFrameOffset)

structure StepSpec (h : Heap) (i : FragmentId) (h' : Heap) : Prop where
  code : SameCode h h'
  analyze : ∀ p, (h'.part p).analyzeStackFrame = (h.part p).analyzeStackFrame
  exit : ∀ j, (h'.frag j).exitOffset =
    if j = i then (frameSize h i).1 else (h.frag j).exitOffset
  low : ∀ p, (h'.part p).minFrameOffset =
    if p = (h.frag i).partition then (frameSize h i).2 else (h.part p).minFrameOffset
  entry : ∀ j, (h'.frag j).entryOffset =
    if j ∈ (h.frag i).successors ∧ propagates h i j = true then (frameSize h i).1
    else (h.frag j).entryOffset

theorem findFrameSize_fst (h : Heap) (i : FragmentId) :
    (findFrameSize h i).1 =
      (h.setPart (h.frag i).partition
        { h.partOf i with minFrameOffset := (frameSize h i).2 }).setFrag i
          { h.frag i with exitOffset := (frameSize h i).1 } := by
  simp only [findFrameSize]
  split_ifs with he
  · rfl
  · have he' : (frameSize h i).1 = (h.frag i).exitOffset := not_not.mp he
    rw [he']
    have hid : ({ h.frag i with exitOffset := (h.frag i).exitOffset } : Fragment) = h.frag i := rfl
    rw [hid]
    simp [Heap.setFrag, Heap.setPart, frameSize]

theorem findFrameSizesStep_spec {h : Heap} {i : FragmentId}
    (ha : (h.partOf i).analyzeStackFrame = true) : StepSpec h i (findFrameSizesStep h i).1 := by
  have hstep : (findFrameSizesStep h i).1 = propagate (findFrameSize h i).1 i := by
    simp [findFrameSizesStep, ha]
  rw [hstep, findFrameSize_fst]
  generalize hm : (h.setPart (h.frag i).partition
    { h.partOf i with minFrameOffset := (frameSize h i).2 }).setFrag i
      { h.frag i with exitOffset := (frameSize h i).1 } = m
  have hmid : SameCode h m := by
    rw [← hm]
    refine SameCode.trans (SameCode.setPart h (h.frag i).partition ?_)
      (SameCode.setFrag _ i ?_ ?_ ?_ ?_)
    all_goals rfl
  have hexit (j : FragmentId) : (m.frag j).exitOffset =
      if j = i then (frameSize h i).1 else (h.frag j).exitOffset := by
    rw [← hm]
    by_cases hj : j = i
    · subst hj
      simp [Heap.setFrag]
    · simp [Heap.setFrag, Heap.setPart, hj]
  have hentry (j : FragmentId) : (m.frag j).entryOffset = (h.frag j).entryOffset := by
    rw [← hm]
    by_cases hj : j = i
    · subst hj
      simp [Heap.setFrag]
    · simp [Heap.setFrag, Heap.setPart, hj]
  have hpart (p : ℕ) : m.part p = if p = (h.frag i).partition then
      { h.partOf i with minFrameOffset := (frameSize h i).2 } else h.part p := by
    rw [← hm]
    simp only [Heap.setFrag, Heap.setPart, update_apply]
  obtain ⟨hpart', hfrag'⟩ := propagate_foldl i (m.frag i).successors m
  change (propagate m i).part = m.part at hpart'
  change ∀ k, (propagate m i).frag k = _ at hfrag'
  refine ⟨?_, fun p ↦ ?_, fun j ↦ ?_, fun p ↦ ?_, fun j ↦ ?_⟩
  · refine hmid.trans ⟨fun j ↦ ?_, fun j ↦ ?_, fun j ↦ ?_, fun j ↦ ?_, fun p ↦ by rw [hpart']⟩
    all_goals
      rw [hfrag']
      split_ifs <;> rfl
  · rw [hpart', hpart]
    split_ifs with hp
    · subst hp
      rfl
    · rfl
  · rw [hfrag', ← hexit]
    split_ifs <;> rfl
  · rw [hpart', hpart]
    split_ifs <;> rfl
  · rw [hfrag', hmid.successors, hmid.propagates, ← hentry, hexit i, if_pos rfl]
    split_ifs <;> rfl

theorem findFrameSizesStep_quiet {h : Heap} {i : FragmentId}
    (ha : (h.partOf i).analyzeStackFrame = true) (hq : (findFrameSizesStep h i).2 = false) :
    frameSize h i = ((h.frag i).exitOffset, (h.partOf i).minFrameOffset) := by
  have hq' : (findFrameSize h i).2 = false := by
    simpa [findFrameSizesStep, ha] using hq
  simp only [findFrameSize] at hq'
  split_ifs at hq' with he
  have he' : (frameSize h i).1 = (h.frag i).exitOffset := not_not.mp he
  have hlow : (frameSize h i).2 = (h.partOf i).minFrameOffset := by
    simp only [decide_eq_false_iff_not, ne_eq, not_not] at hq'
    exact hq'.symm
  exact Prod.ext he' hlow

/-- The offset on entry to a fragment of the partition is the one on exit from some
fragment before it, and is zero if there is none. -/
structure Offsets (frags : List FragmentId) (p : ℕ) (h : Heap) : Prop where
  analyzed : (h.part p).analyzeStackFrame = true
  low : (h.part p).minFrameOffset ≤ 0
  pred : ∀ i j, Edge frags h i j → (h.frag j).partition = p →
    ∃ k, Edge frags h k j ∧ (h.frag j).entryOffset = (h.frag k).exitOffset
  orphan : ∀ j, (∀ i, ¬ Edge frags h i j) → (h.frag j).entryOffset = 0

theorem frameAdjust_fst (s : ℤ × ℤ) (i : Instr) :
    (frameAdjust s i).1 = s.1 + i.stackPointerShiftAmount := by
  simp only [frameAdjust]
  by_cases hs : i.stackPointerShiftAmount = 0
  · simp [hs]
  · simp [hs]

theorem frameAdjust_low_le (is : List Instr) (s : ℤ × ℤ) : (is.foldl frameAdjust s).2 ≤ s.2 := by
  induction is generalizing s with
  | nil => exact le_rfl
  | cons i is ih =>
    refine (ih _).trans ?_
    simp only [frameAdjust]
    split_ifs <;> simp

theorem Edge.partition_eq {h : Heap} {i j : FragmentId} (he : Edge frags h i j) :
    (h.frag j).partition = (h.frag i).partition := by
  have hp := he.2.2
  simp only [propagates, Bool.and_eq_true, beq_iff_eq] at hp
  exact hp.1

theorem offsets_step {h : Heap} (ho : Offsets frags p h) {i : FragmentId} (hi : i ∈ frags) :
    Offsets frags p (findFrameSizesStep h i).1 := by
  by_cases ha : (h.partOf i).analyzeStackFrame = true
  · have hs := findFrameSizesStep_spec ha
    generalize (findFrameSizesStep h i).1 = h' at hs
    refine ⟨(hs.analyze p).trans ho.analyzed, ?_, ?_, ?_⟩
    · rw [hs.low]
      split_ifs with hp
      · refine (frameAdjust_low_le _ _).trans ?_
        rw [hp] at ho
        exact ho.low
      · exact ho.low
    · intro k j hkj hj
      rw [hs.code.edge] at hkj
      rw [hs.code.partition] at hj
      by_cases hij : Edge frags h i j
      · refine ⟨i, hs.code.edge.mpr hij, ?_⟩
        rw [hs.entry, if_pos hij.2, hs.exit, if_pos rfl]
      · obtain ⟨l, hlj, he⟩ := ho.pred k j hkj hj
        have hli : l ≠ i := by
          rintro rfl
          exact hij hlj
        refine ⟨l, hs.code.edge.mpr hlj, ?_⟩
        rw [hs.entry, if_neg fun h ↦ hij ⟨hi, h⟩, hs.exit, if_neg hli, he]
    · intro j hj
      have hj' (k : FragmentId) : ¬ Edge frags h k j := fun h ↦ hj k (hs.code.edge.mpr h)
      rw [hs.entry, if_neg fun h ↦ hj' i ⟨hi, h⟩]
      exact ho.orphan j hj'
  · have hsame : (findFrameSizesStep h i).1 = h := by simp [findFrameSizesStep, ha]
    rw [hsame]
    exact ho

theorem offsets_sweep {l : List FragmentId} (hl : ∀ i ∈ l, i ∈ frags) {h : Heap}
    (ho : Offsets frags p h) : Offsets frags p (sweep findFrameSizesStep l h).1 :=
  sweep_preserves (P := Offsets frags p) (fun i hi _ h ↦ offsets_step h (hl i hi)) ho

theorem sameCode_step (h : Heap) (i : FragmentId) : SameCode h (findFrameSizesStep h i).1 := by
  by_cases ha : (h.partOf i).analyzeStackFrame = true
  · exact (findFrameSizesStep_spec ha).code
  · have hsame : (findFrameSizesStep h i).1 = h := by simp [findFrameSizesStep, ha]
    rw [hsame]
    exact .refl h

theorem sameCode_sweep (l : List FragmentId) (h : Heap) :
    SameCode h (sweep findFrameSizesStep l h).1 :=
  sweep_preserves (P := SameCode h) (fun i _ _ hs ↦ hs.trans (sameCode_step _ i)) (.refl h)

def SameExits (h h' : Heap) : Prop :=
  (∀ i, (h'.frag i).exitOffset = (h.frag i).exitOffset) ∧
    ∀ p, (h'.part p).minFrameOffset = (h.part p).minFrameOffset

theorem sameExits_step {h : Heap} {i : FragmentId} (hq : (findFrameSizesStep h i).2 = false) :
    SameExits h (findFrameSizesStep h i).1 := by
  by_cases ha : (h.partOf i).analyzeStackFrame = true
  · have hs := findFrameSizesStep_spec ha
    have hsize := findFrameSizesStep_quiet ha hq
    refine ⟨fun j ↦ ?_, fun p ↦ ?_⟩
    · rw [hs.exit, hsize]
      split_ifs with hj
      · rw [hj]
      · rfl
    · rw [hs.low, hsize]
      split_ifs with hp
      · rw [hp]
        rfl
      · rfl
  · have hsame : (findFrameSizesStep h i).1 = h := by simp [findFrameSizesStep, ha]
    rw [hsame]
    exact ⟨fun _ ↦ rfl, fun _ ↦ rfl⟩

theorem sameExits_sweep {l : List FragmentId} {h : Heap}
    (hq : (sweep findFrameSizesStep l h).2 = false) :
    SameExits h (sweep findFrameSizesStep l h).1 := by
  refine sweep_quiet_preserves (P := SameExits h) ?_ ⟨fun _ ↦ rfl, fun _ ↦ rfl⟩ hq
  intro i _ h' hq' hh
  have hs := sameExits_step hq'
  exact ⟨fun j ↦ (hs.1 j).trans (hh.1 j), fun p ↦ (hs.2 p).trans (hh.2 p)⟩

/-- The analysis of a partition whose offsets agree: a fragment is left at the offset
that its instructions lead to, and they lower the lowest offset no further. -/
structure Measured (frags : List FragmentId) (p : ℕ) (h : Heap) : Prop where
  offsets : Offsets frags p h
  size : ∀ i ∈ frags, (h.frag i).partition = p →
    frameSize h i = ((h.frag i).exitOffset, (h.part p).minFrameOffset)

theorem measured_of_quiet {h : Heap} (ho : Offsets frags p h)
    (hq : (sweep findFrameSizesStep frags h).2 = false)
    (hagree : Agree frags h (sweep findFrameSizesStep frags h).1 p) :
    Measured frags p (sweep findFrameSizesStep frags h).1 := by
  have hoff : Offsets frags p (sweep findFrameSizesStep frags h).1 :=
    offsets_sweep (fun _ hi ↦ hi) ho
  refine ⟨hoff, fun i hi hp ↦ ?_⟩
  obtain ⟨l, m, hl⟩ := List.append_of_mem hi
  -- The state at the visit of `i`, and what follows it.
  have hu : Offsets frags p (sweep findFrameSizesStep l h).1 := by
    refine offsets_sweep (fun j hj ↦ ?_) ho
    rw [hl]
    exact List.mem_append_left _ hj
  have hcode₀ : SameCode h (sweep findFrameSizesStep frags h).1 := sameCode_sweep frags h
  have hcode : SameCode (sweep findFrameSizesStep l h).1 (sweep findFrameSizesStep frags h).1 := by
    rw [hl, sweep_append]
    exact sameCode_sweep _ _
  have hexits : SameExits (sweep findFrameSizesStep l h).1 (sweep findFrameSizesStep frags h).1 := by
    rw [hl, sweep_append] at hq ⊢
    exact sameExits_sweep (Bool.or_eq_false_iff.mp hq).2
  have hquiet : (findFrameSizesStep (sweep findFrameSizesStep l h).1 i).2 = false := by
    rw [hl] at hq
    exact sweep_quiet hq
  generalize (sweep findFrameSizesStep l h).1 = u at hu hcode hexits hquiet
  generalize (sweep findFrameSizesStep frags h).1 = h' at hagree hoff hp hcode hexits hcode₀
  have hpu : (u.frag i).partition = p := (hcode.partition i).symm.trans hp
  have hentry : (h'.frag i).entryOffset = (u.frag i).entryOffset := by
    by_cases hpred : ∃ k, Edge frags u k i
    · obtain ⟨k, hk⟩ := hpred
      obtain ⟨k, hk, he⟩ := hu.pred k i hk hpu
      have hk₀ : Edge frags h k i := hcode₀.edge.mp (hcode.edge.mpr hk)
      rw [hagree k i hk₀ ((hcode₀.partition i).symm.trans hp), hexits.1, he]
    · have hnone (k : FragmentId) : ¬ Edge frags u k i := fun hk ↦ hpred ⟨k, hk⟩
      rw [hu.orphan i hnone, hoff.orphan i fun k hk ↦ hnone k (hcode.edge.mp hk)]
  have ha : (u.partOf i).analyzeStackFrame = true := by
    rw [Heap.partOf, hpu]
    exact hu.analyzed
  have hsize := findFrameSizesStep_quiet ha hquiet
  rw [Heap.partOf, hpu] at hsize
  rw [hexits.1, hexits.2, ← hsize]
  unfold frameSize Heap.partOf
  rw [hcode.instrs, hentry, hp, hpu, hexits.2]

theorem findFrameSizes_last {fuel : ℕ} {h h' : Heap} (ho : Offsets frags p h)
    (hrun : findFrameSizes frags fuel h = some h') :
    ∃ t, (Offsets frags p t ∧ SameCode h t) ∧ (sweep findFrameSizesStep frags t).2 = false ∧
      (sweep findFrameSizesStep frags t).1 = h' :=
  repeatUntil_last (P := fun t ↦ Offsets frags p t ∧ SameCode h t)
    (fun s hs ↦ ⟨offsets_sweep (fun _ hi ↦ hi) hs.1, hs.2.trans (sameCode_sweep frags s)⟩)
    ⟨ho, .refl h⟩ hrun

theorem findFrameSizes_keeps {fuel : ℕ} {h h' : Heap} (ho : Offsets frags p h)
    (hrun : findFrameSizes frags fuel h = some h') : Offsets frags p h' ∧ SameCode h h' := by
  obtain ⟨t, ht, -, rfl⟩ := findFrameSizes_last ho hrun
  exact ⟨offsets_sweep (fun _ hi ↦ hi) ht.1, ht.2.trans (sameCode_sweep frags t)⟩

theorem findFrameSizes_measured {fuel : ℕ} {h h' : Heap} (ho : Offsets frags p h)
    (hrun : findFrameSizes frags fuel h = some h') (hagree : Agree frags h h' p) :
    Measured frags p h' := by
  obtain ⟨t, ht, hq, rfl⟩ := findFrameSizes_last ho hrun
  refine measured_of_quiet ht.1 hq fun i j hij hj ↦ ?_
  exact hagree i j (ht.2.edge.mp hij) ((ht.2.partition j).symm.trans hj)

end Analysis

section Frame

variable {e : ℤ}

theorem run_eq {is : List Instr} (hi : ∀ i ∈ is, i.EarlyMangled) (e : ℤ) (s : ℤ × ℤ) :
    run is (e + s.1) = e + (is.foldl frameAdjust s).1 := by
  induction is generalizing s with
  | nil => rfl
  | cons i is ih =>
    have hfst := frameAdjust_fst s i
    have hrest := ih (fun j hj ↦ hi j (List.mem_cons_of_mem i hj)) (frameAdjust s i)
    rw [hfst] at hrest
    rw [List.foldl_cons, ← hrest, run, List.foldl_cons, rspAfter_eq (hi i List.mem_cons_self),
      add_assoc]
    rfl

theorem frameAdjust_low {s : ℤ × ℤ} (hs : s.2 ≤ s.1) (i : Instr) :
    (frameAdjust s i).2 ≤ s.1 + i.computedOffsetBelowStackPointer ∧
      (frameAdjust s i).2 ≤ (frameAdjust s i).1 := by
  rw [frameAdjust_fst]
  simp only [frameAdjust]
  split_ifs with h₁ h₂ h₂ <;> simp only <;> omega

theorem low_le_fst (is : List Instr) {s : ℤ × ℤ} (hs : s.2 ≤ s.1) :
    (is.foldl frameAdjust s).2 ≤ (is.foldl frameAdjust s).1 := by
  induction is generalizing s with
  | nil => exact hs
  | cons i is ih => exact ih (frameAdjust_low hs i).2

theorem low_le_offsets {is : List Instr} (hi : ∀ i ∈ is, i.EarlyMangled) {e : ℤ} {s : ℤ × ℤ}
    (hs : s.2 ≤ s.1) : ∀ x ∈ offsets is (e + s.1), e + (is.foldl frameAdjust s).2 ≤ x := by
  induction is generalizing s with
  | nil =>
    intro x hx
    rw [List.mem_singleton.mp hx]
    exact Int.add_le_add_left hs e
  | cons i is ih =>
    have hfst := frameAdjust_fst s i
    obtain ⟨hcomp, hle⟩ := frameAdjust_low hs i
    have hlow := frameAdjust_low_le (i :: is) s
    have hlow' := frameAdjust_low_le is (frameAdjust s i)
    rw [List.foldl_cons] at hlow
    intro x hx
    simp only [offsets, List.mem_cons] at hx
    rw [List.foldl_cons]
    rcases hx with rfl | rfl | hx
    · omega
    · omega
    · refine ih (fun j hj ↦ hi j (List.mem_cons_of_mem i hj)) hle x ?_
      rwa [hfst, ← add_assoc, ← rspAfter_eq (hi i List.mem_cons_self)]

theorem alignTo_le {x : ℤ} (hx : x ≤ 0) : alignTo x (-8) ≤ x := by
  have hmod : x.tmod (-8) = -((-x) % 8) := by
    rw [Int.tmod_neg, ← Int.tmod_eq_emod_of_nonneg (by omega : 0 ≤ -x), Int.neg_tmod, neg_neg]
  unfold alignTo
  rw [hmod]
  split_ifs <;> omega

theorem simulatesAll_iff {k : ℕ} {is : List Instr}
    (hi : ∀ i ∈ is, i.EarlyMangled ∧ SlotsIn k i) {top rsp offset frameSpace : ℤ}
    (hrsp : rsp = top + (offset - frameSpace)) :
    SimulatesAll top is (adjustStackInstructions frameSpace is offset) rsp ↔
      ∀ i ∈ is, ¬ Bad i := by
  induction is generalizing rsp offset with
  | nil => simp [SimulatesAll, adjustStackInstructions]
  | cons i is ih =>
    obtain ⟨hm, hk⟩ := hi i List.mem_cons_self
    have hshift : offset + i.stackPointerShiftAmount - frameSpace =
        offset - frameSpace + i.stackPointerShiftAmount := by ring
    have hone (regs : Regs) : Simulates top rsp i (adjustStackInstruction i (offset - frameSpace)
        (offset + i.stackPointerShiftAmount - frameSpace)) regs ↔ ¬ Bad i := by
      rw [hshift]
      exact simulates_iff hrsp hm hk
    have hrsp' : i.rspAfter rsp = top + (offset + i.stackPointerShiftAmount - frameSpace) := by
      rw [rspAfter_eq hm, hrsp]
      ring
    have hrest := ih (fun j hj ↦ hi j (List.mem_cons_of_mem i hj)) hrsp'
    simp only [adjustStackInstructions, SimulatesAll, hone, hrest, List.forall_mem_cons,
      forall_const]

theorem rsp_effect (regs : Regs) (is : List Instr) (rsp : ℤ) :
    (effect regs is rsp).rsp = run is rsp := by
  induction is generalizing rsp with
  | nil => rfl
  | cons i is ih => exact ih (i.rspAfter rsp)

theorem run_of_simulatesAll {top rsp : ℤ} {is : List Instr} {cs : List (List Instr)}
    (h : SimulatesAll top is cs rsp) : run cs.flatten top = top := by
  induction is generalizing cs rsp with
  | nil =>
    cases cs with
    | nil => rfl
    | cons c cs => exact h.elim
  | cons i is ih =>
    cases cs with
    | nil => exact h.elim
    | cons c cs =>
      have hc : run c top = top := by
        rw [← rsp_effect fun _ ↦ 0]
        exact (h.1 _).rsp
      rw [List.flatten_cons, run, List.foldl_append]
      change run cs.flatten (run c top) = top
      rw [hc]
      exact ih h.2

end Frame

section Rewrite

variable {redzone : ℕ} {slotMemOp : ℕ → ℕ → MemOperand} {frags : List FragmentId} {p : ℕ}

theorem part_forFrags (F : PartitionInfo → Fragment → Fragment) (l : List FragmentId) (h : Heap) :
    (forFrags F l h).part = h.part := by
  unfold forFrags
  induction l generalizing h with
  | nil => rfl
  | cons j l ih =>
    rw [List.foldl_cons, ih]
    rfl

theorem frag_forFrags (F : PartitionInfo → Fragment → Fragment) {l : List FragmentId} (hl : l.Nodup)
    (h : Heap) (i : FragmentId) :
    (forFrags F l h).frag i = if i ∈ l then F (h.partOf i) (h.frag i) else h.frag i := by
  unfold forFrags
  induction l generalizing h with
  | nil => rfl
  | cons j l ih =>
    obtain ⟨hj, hl⟩ := List.nodup_cons.mp hl
    rw [List.foldl_cons, ih hl]
    by_cases hij : i = j
    · subst hij
      simp [hj, Heap.setFrag]
    · simp [hij, Heap.setFrag, Heap.partOf]

theorem frag_allocated (hl : frags.Nodup) {h : Heap} {i : FragmentId} (hi : i ∈ frags)
    (hp : (h.frag i).partition = p) (ha : (h.part p).analyzeStackFrame = true) :
    (archAllocateSlots slotMemOp frags (allocateStackSlots redzone frags h)).frag i =
      if (h.part p).numSlots = 0 then h.frag i
      else allocateStackSlotsStackValid redzone (h.part p) (h.frag i) := by
  have hvalid (info : PartitionInfo) (f : Fragment) :
      (allocateStackSlotsStackValid redzone info f).partition = f.partition := by
    unfold allocateStackSlotsStackValid
    split_ifs <;> rfl
  have hstack : (allocateStackSlots redzone frags h).frag i =
      if (h.part p).numSlots = 0 then h.frag i
      else allocateStackSlotsStackValid redzone (h.part p) (h.frag i) := by
    rw [allocateStackSlots, frag_forFrags _ hl, if_pos hi, Heap.partOf, hp]
    simp [ha]
  have hp' : ((allocateStackSlots redzone frags h).frag i).partition = p := by
    rw [hstack]
    split_ifs
    · exact hp
    · rw [hvalid, hp]
  rw [archAllocateSlots, frag_forFrags _ hl, if_pos hi, ← hstack, Heap.partOf, hp',
    allocateStackSlots, part_forFrags]
  simp [ha]

theorem offsets_of_ready {h : Heap} (hr : Ready frags h p) :
    Offsets frags p (initStackFrameAnalysis frags h) := by
  have hf := frag_initStackFrameAnalysis frags h
  refine ⟨hr.analyzed, ?_, fun i j hij _ ↦ ⟨i, hij, ?_⟩, fun j _ ↦ ?_⟩
  · rw [(part_initStackFrameAnalysis frags h p).2, hr.low]
  · rw [hf, (hr.zero j).1, (hr.zero i).2]
  · rw [hf, (hr.zero j).1]

theorem allocateSlots_spec {fuel : ℕ} {h h' : Heap} (hr : Ready frags h p)
    (hrun : allocateSlots redzone slotMemOp frags fuel h = some h') (hagree : Agree frags h h' p) :
    ∃ m, SameCode h m ∧ Measured frags p m ∧ Agree frags h m p ∧
      ∀ i ∈ frags, (h.frag i).partition = p →
        h'.frag i = if (h.part p).numSlots = 0 then m.frag i
          else allocateStackSlotsStackValid redzone (m.part p) (m.frag i) := by
  obtain ⟨m, hm, rfl⟩ := Option.map_eq_some_iff.mp hrun
  have hinit := sameCode_initStackFrameAnalysis frags h
  obtain ⟨ho, hcode₁⟩ := findFrameSizes_keeps (offsets_of_ready hr) hm
  have hcode : SameCode h m := hinit.trans hcode₁
  have hfrag (i : FragmentId) (hi : i ∈ frags) (hp : (h.frag i).partition = p) :
      (archAllocateSlots slotMemOp frags (allocateStackSlots redzone frags m)).frag i =
        if (h.part p).numSlots = 0 then m.frag i
        else allocateStackSlotsStackValid redzone (m.part p) (m.frag i) := by
    rw [← hcode.numSlots]
    exact frag_allocated hr.nodup hi ((hcode.partition i).trans hp) ho.analyzed
  -- The offsets are not changed any more.
  have hoffset (i : FragmentId) (hi : i ∈ frags) (hp : (h.frag i).partition = p) :
      ((archAllocateSlots slotMemOp frags (allocateStackSlots redzone frags m)).frag i).entryOffset =
          (m.frag i).entryOffset ∧
        ((archAllocateSlots slotMemOp frags (allocateStackSlots redzone frags m)).frag i).exitOffset =
          (m.frag i).exitOffset := by
    rw [hfrag i hi hp]
    unfold allocateStackSlotsStackValid
    split_ifs <;> exact ⟨rfl, rfl⟩
  have hagree' : Agree frags h m p := by
    intro i j hij hj
    have hi : (h.frag i).partition = p := hij.partition_eq.symm.trans hj
    rw [← (hoffset j (hr.closed i j hij) hj).1, ← (hoffset i hij.1 hi).2]
    exact hagree i j hij hj
  refine ⟨m, hcode, findFrameSizes_measured (offsets_of_ready hr) hm ?_, hagree', hfrag⟩
  intro i j hij hj
  exact hagree' i j (hinit.edge.mp hij) ((hinit.partition j).symm.trans hj)

theorem run_allocateStackSpace (n rsp : ℤ) : run [allocateStackSpace n] rsp = rsp + n := by
  unfold run allocateStackSpace baseDispMemOp
  by_cases hn : n = 0
  · simp [Instr.rspAfter, Address.value, Reg.value, hn]
  · simp [Instr.rspAfter, Address.value, Reg.value, hn]

theorem reaches_of_lockstep {h h' : Heap} {e : ℤ} {i : FragmentId} {rsp top : ℤ}
    (hl : Lockstep frags h h' p e i rsp top) : Reaches frags h p i := by
  induction hl with
  | entry hi hc hp => exact .entry hi hc hp
  | step hi hj ih => exact .step ih hj

theorem lockstep_of_reaches {h : Heap} {i : FragmentId} (hi : Reaches frags h p i) (h' : Heap)
    (e : ℤ) : ∃ rsp top, Lockstep frags h h' p e i rsp top := by
  induction hi with
  | entry hi hc hp => exact ⟨e, e, .entry hi hc hp⟩
  | step hi hj ih =>
    obtain ⟨rsp, top, hl⟩ := ih
    exact ⟨_, _, .step hl hj⟩

theorem reaches_mem {h : Heap} (hr : Ready frags h p) {i : FragmentId}
    (hi : Reaches frags h p i) : i ∈ frags ∧ (h.frag i).partition = p := by
  induction hi with
  | entry hi hc hp => exact ⟨hi, hp⟩
  | step hi hj ih => exact ⟨hr.closed _ _ hj, hj.partition_eq.trans ih.2⟩

/-- The code that a path from the entry of a partition can meet is adjusted right. -/
def Adjustable (frags : List FragmentId) (h : Heap) (p : ℕ) : Prop :=
  ∀ i, Reaches frags h p i → (h.frag i).cls.isCode = true → ∀ x ∈ (h.frag i).instrs, ¬ Bad x

/-- A partition with slots, before the pass in `h` and after it in `h'`, with the
offsets that the analysis finds in `m`. -/
structure Allocated (redzone : ℕ) (frags : List FragmentId) (p : ℕ) (h m h' : Heap) : Prop where
  ready : Ready frags h p
  numSlots : (h.part p).numSlots ≠ 0
  code : SameCode h m
  measured : Measured frags p m
  agree : Agree frags h m p
  frag : ∀ i ∈ frags, (h.frag i).partition = p →
    h'.frag i = allocateStackSlotsStackValid redzone (m.part p) (m.frag i)

namespace Allocated

variable {h m h' : Heap} {i j : FragmentId} {e rsp top : ℤ}

theorem instrs_entry (ha : Allocated redzone frags p h m h') (hi : i ∈ frags)
    (hp : (h.frag i).partition = p) (hc : (h.frag i).cls = .partitionEntry) :
    (h'.frag i).instrs = [allocateStackSpace (frameSpace redzone (m.part p))] := by
  have hc' : (m.frag i).cls = .partitionEntry := (ha.code.cls i).trans hc
  rw [ha.frag i hi hp, allocateStackSlotsStackValid, if_pos hc', ha.code.instrs,
    ha.ready.boundary i hi hp (.inl hc)]
  rfl

theorem instrs_exit (ha : Allocated redzone frags p h m h') (hi : i ∈ frags)
    (hp : (h.frag i).partition = p) (hc : (h.frag i).cls = .partitionExit) :
    (h'.frag i).instrs =
      [allocateStackSpace (-(frameSpace redzone (m.part p) - (m.frag i).entryOffset))] := by
  have hc' : (m.frag i).cls = .partitionExit := (ha.code.cls i).trans hc
  have hne : (m.frag i).cls ≠ .partitionEntry := by simp [hc']
  rw [ha.frag i hi hp, allocateStackSlotsStackValid, if_neg hne, if_pos hc', ha.code.instrs,
    ha.ready.boundary i hi hp (.inr hc)]
  rfl

theorem instrs_code (ha : Allocated redzone frags p h m h') (hi : i ∈ frags)
    (hp : (h.frag i).partition = p) (hc : (h.frag i).cls.isCode = true) :
    (h'.frag i).instrs = (adjustStackInstructions (frameSpace redzone (m.part p))
      (h.frag i).instrs (m.frag i).entryOffset).flatten := by
  have hc' : (m.frag i).cls.isCode = true := by rw [ha.code.cls, hc]
  have hne : (m.frag i).cls ≠ .partitionEntry := fun h ↦ by simp [h, FragmentClass.isCode] at hc'
  have hne' : (m.frag i).cls ≠ .partitionExit := fun h ↦ by simp [h, FragmentClass.isCode] at hc'
  rw [ha.frag i hi hp, allocateStackSlotsStackValid, if_neg hne, if_neg hne', if_pos hc',
    ha.code.instrs]

theorem size (ha : Allocated redzone frags p h m h') (hi : i ∈ frags)
    (hp : (h.frag i).partition = p) :
    (h.frag i).instrs.foldl frameAdjust ((m.frag i).entryOffset, (m.part p).minFrameOffset) =
      ((m.frag i).exitOffset, (m.part p).minFrameOffset) := by
  have hsize := ha.measured.size i hi ((ha.code.partition i).trans hp)
  unfold frameSize Heap.partOf at hsize
  rwa [ha.code.instrs, ha.code.partition, hp] at hsize

theorem frameSpace_le (ha : Allocated redzone frags p h m h') :
    frameSpace redzone (m.part p) ≤
      (m.part p).minFrameOffset - ((h.part p).numSlots * 8 + redzone : ℕ) := by
  have hlow := ha.measured.offsets.low
  unfold frameSpace
  rw [ha.code.numSlots]
  exact alignTo_le (by omega)

end Allocated

/-- At the start of a fragment the stack pointers are where the analysis says. -/
structure At (redzone : ℕ) (m : Heap) (p : ℕ) (e : ℤ) (i : FragmentId) (rsp top : ℤ) : Prop where
  low : (m.part p).minFrameOffset ≤ (m.frag i).entryOffset
  rsp : rsp = e + (m.frag i).entryOffset
  top : top = if (m.frag i).cls = .partitionEntry then e else e + frameSpace redzone (m.part p)

namespace Allocated

variable {h m h' : Heap} {i j : FragmentId} {e rsp top : ℤ}

theorem at_entry (ha : Allocated redzone frags p h m h')
    (hc : (h.frag i).cls = .partitionEntry) : At redzone m p e i e e := by
  have hzero : (m.frag i).entryOffset = 0 := by
    refine ha.measured.offsets.orphan i fun k hk ↦ ?_
    have hprop := (ha.code.edge.mp hk).2.2
    simp [propagates, hc] at hprop
  refine ⟨?_, ?_, ?_⟩
  · rw [hzero]
    exact ha.measured.offsets.low
  · rw [hzero, add_zero]
  · rw [ha.code.cls, if_pos hc]

theorem at_code (ha : Allocated redzone frags p h m h') (hat : At redzone m p e i rsp top)
    (hc : (h.frag i).cls ≠ .partitionEntry) : top = e + frameSpace redzone (m.part p) := by
  rw [← ha.code.cls] at hc
  rw [hat.top, if_neg hc]

theorem simulatesAll (ha : Allocated redzone frags p h m h') (hi : Reaches frags h p i)
    (hadj : Adjustable frags h p) (hc : (h.frag i).cls.isCode = true)
    (hat : At redzone m p e i rsp top) :
    SimulatesAll top (h.frag i).instrs (adjustStackInstructions (frameSpace redzone (m.part p))
      (h.frag i).instrs (m.frag i).entryOffset) rsp := by
  obtain ⟨hmem, hp⟩ := reaches_mem ha.ready hi
  have hne : (h.frag i).cls ≠ .partitionEntry := fun h ↦ by simp [h, FragmentClass.isCode] at hc
  have hrsp : rsp = top + ((m.frag i).entryOffset - frameSpace redzone (m.part p)) := by
    rw [hat.rsp, ha.at_code hat hne]
    ring
  exact (simulatesAll_iff (ha.ready.mangled i hmem hp hc) hrsp).mpr (hadj i hi hc)

theorem at_step (ha : Allocated redzone frags p h m h') (hadj : Adjustable frags h p)
    (hi : Reaches frags h p i) (hij : Edge frags h i j) (hat : At redzone m p e i rsp top) :
    At redzone m p e j (run (h.frag i).instrs rsp) (run (h'.frag i).instrs top) := by
  obtain ⟨hmem, hp⟩ := reaches_mem ha.ready hi
  have hmangled : ∀ x ∈ (h.frag i).instrs, x.EarlyMangled := by
    rcases ha.ready.source i j hij hp with hc | hc
    · rw [ha.ready.boundary i hmem hp (.inl hc)]
      simp
    · exact fun x hx ↦ (ha.ready.mangled i hmem hp hc x hx).1
  have hsize := ha.size hmem hp
  have hentry : (m.frag j).entryOffset = (m.frag i).exitOffset :=
    ha.agree i j hij (hij.partition_eq.trans hp)
  have hnotEntry : (m.frag j).cls ≠ .partitionEntry := by
    have hprop := hij.2.2
    simp only [propagates, Bool.and_eq_true, bne_iff_ne] at hprop
    rw [ha.code.cls]
    exact hprop.2
  refine ⟨?_, ?_, ?_⟩
  · have hlow := low_le_fst (h.frag i).instrs
      (s := ((m.frag i).entryOffset, (m.part p).minFrameOffset)) hat.low
    rw [hsize] at hlow
    rw [hentry]
    exact hlow
  · have hrun := run_eq hmangled e ((m.frag i).entryOffset, (m.part p).minFrameOffset)
    rw [hsize] at hrun
    rw [hat.rsp, hentry]
    exact hrun
  · rw [if_neg hnotEntry]
    rcases ha.ready.source i j hij hp with hc | hc
    · rw [ha.instrs_entry hmem hp hc, run_allocateStackSpace, hat.top, ha.code.cls, if_pos hc]
    · have hne : (h.frag i).cls ≠ .partitionEntry := fun h ↦ by
        simp [h, FragmentClass.isCode] at hc
      rw [ha.instrs_code hmem hp hc, run_of_simulatesAll (ha.simulatesAll hi hadj hc hat),
        ha.at_code hat hne]

theorem at_of_lockstep (ha : Allocated redzone frags p h m h') (hadj : Adjustable frags h p)
    (hl : Lockstep frags h h' p e i rsp top) : At redzone m p e i rsp top := by
  induction hl with
  | entry hi hc hp => exact ha.at_entry hc
  | step hl hij ih => exact ha.at_step hadj (reaches_of_lockstep hl) hij ih

theorem held (ha : Allocated redzone frags p h m h') (hadj : Adjustable frags h p) :
    Held redzone frags h h' p e := by
  refine ⟨?_, ?_, ?_⟩
  · intro i rsp top hl hc
    have hi := reaches_of_lockstep hl
    obtain ⟨hmem, hp⟩ := reaches_mem ha.ready hi
    have hat := ha.at_of_lockstep hadj hl
    have hne : (h.frag i).cls ≠ .partitionEntry := fun h ↦ by simp [h, FragmentClass.isCode] at hc
    have htop : top - e = frameSpace redzone (m.part p) := by
      rw [ha.at_code hat hne]
      ring
    have hrsp : rsp - e = (m.frag i).entryOffset := by
      rw [hat.rsp]
      ring
    rw [htop, hrsp]
    exact ⟨_, ha.instrs_code hmem hp hc, rfl, ha.simulatesAll hi hadj hc hat⟩
  · intro i rsp top hl hc
    obtain ⟨hmem, hp⟩ := reaches_mem ha.ready (reaches_of_lockstep hl)
    have hat := ha.at_of_lockstep hadj hl
    have hne : (h.frag i).cls ≠ .partitionEntry := by simp [hc]
    rw [ha.instrs_exit hmem hp hc, run_allocateStackSpace, ha.ready.boundary i hmem hp (.inr hc),
      ha.at_code hat hne]
    change _ = rsp
    rw [hat.rsp]
    ring
  · intro i rsp top hl hc j rsp' top' hl' hc' n hn x hx
    obtain ⟨hmem, hp⟩ := reaches_mem ha.ready (reaches_of_lockstep hl')
    have hat := ha.at_of_lockstep hadj hl
    have hat' := ha.at_of_lockstep hadj hl'
    have hne : (h.frag i).cls ≠ .partitionEntry := fun h ↦ by simp [h, FragmentClass.isCode] at hc
    have hlow := low_le_offsets (fun x hx ↦ (ha.ready.mangled j hmem hp hc' x hx).1) (e := e)
      (s := ((m.frag j).entryOffset, (m.part p).minFrameOffset)) hat'.low x
      (by rwa [hat'.rsp] at hx)
    rw [ha.size hmem hp] at hlow
    have hspace := ha.frameSpace_le
    have htop := ha.at_code hat hne
    simp only at hlow
    omega

theorem adjustable (ha : Allocated redzone frags p h m h') (hh : Held redzone frags h h' p e) :
    Adjustable frags h p := by
  intro i hi hc
  obtain ⟨hmem, hp⟩ := reaches_mem ha.ready hi
  obtain ⟨rsp, top, hl⟩ := lockstep_of_reaches hi h' e
  obtain ⟨cs, -, rfl, hs⟩ := hh.simulates i rsp top hl hc
  have hrsp : rsp = top + (rsp - e - (top - e)) := by ring
  exact (simulatesAll_iff (ha.ready.mangled i hmem hp hc) hrsp).mp hs

end Allocated

theorem no_reaches_of_unchanged {h m h' : Heap} (ha : Allocated redzone frags p h m h')
    (hsame : ∀ i ∈ frags, (h.frag i).partition = p → (h'.frag i).instrs = (h.frag i).instrs)
    {i : FragmentId} (hi : Reaches frags h p i) : False := by
  induction hi with
  | @entry i hi hc hp =>
    have hinstrs := hsame i hi hp
    rw [ha.instrs_entry hi hp hc, ha.ready.boundary i hi hp (.inl hc)] at hinstrs
    exact absurd hinstrs (by simp)
  | step hi hj ih => exact ih

theorem transparent_iff_of_slots {fuel : ℕ} {h h' : Heap} (hr : Ready frags h p)
    (hn : (h.part p).numSlots ≠ 0)
    (hrun : allocateSlots redzone slotMemOp frags fuel h = some h') (hagree : Agree frags h h' p)
    (e : ℤ) : Transparent redzone frags h h' p e ↔ Adjustable frags h p := by
  obtain ⟨m, hcode, hm, hagree', hfrag⟩ := allocateSlots_spec hr hrun hagree
  have ha : Allocated redzone frags p h m h' := by
    refine ⟨hr, hn, hcode, hm, hagree', fun i hi hp ↦ ?_⟩
    rw [hfrag i hi hp, if_neg hn]
  constructor
  · rintro (hsame | hheld)
    · exact fun i hi ↦ (no_reaches_of_unchanged ha hsame hi).elim
    · exact ha.adjustable hheld
  · exact fun hadj ↦ .inr (ha.held hadj)

/-- The allocation of slots on the stack is transparent exactly when the partition has
no slots, or no path from its entry meets an instruction that is adjusted wrong. -/
theorem allocateSlots_transparent_iff {fuel : ℕ} {h h' : Heap} (hr : Ready frags h p)
    (hrun : allocateSlots redzone slotMemOp frags fuel h = some h') (hagree : Agree frags h h' p)
    (e : ℤ) :
    Transparent redzone frags h h' p e ↔ (h.part p).numSlots = 0 ∨ Adjustable frags h p := by
  by_cases hn : (h.part p).numSlots = 0
  · obtain ⟨m, hcode, -, -, hfrag⟩ := allocateSlots_spec hr hrun hagree
    refine iff_of_true (.inl fun i hi hp ↦ ?_) (.inl hn)
    rw [hfrag i hi hp, if_pos hn, hcode.instrs]
  · rw [transparent_iff_of_slots hr hn hrun hagree e]
    exact ⟨.inr, fun h ↦ h.resolve_left hn⟩

def oneFragment (is : List Instr) : Heap where
  frag
    | 0 => { cls := .partitionEntry, fallThrough := some 1 }
    | 1 => { instrs := is, fallThrough := some 2 }
    | 2 => { cls := .partitionExit }
    | _ => {}
  part _ := { numSlots := 1 }

theorem ready_oneFragment {is : List Instr}
    (hi : ∀ x ∈ is, x.EarlyMangled ∧ SlotsIn 1 x) : Ready [0, 1, 2] (oneFragment is) 0 where
  nodup := by decide
  closed i j hij := by
    obtain ⟨hmem, hj, -⟩ := hij
    fin_cases hmem
    all_goals
      simp only [oneFragment, Fragment.successors, Option.toList, List.append_nil,
        List.mem_singleton, List.not_mem_nil] at hj
    · simp [hj]
    · simp [hj]
  zero i := by
    rcases i with _ | _ | _ | i <;> exact ⟨rfl, rfl⟩
  low := rfl
  boundary i hmem _ hc := by
    fin_cases hmem
    · rfl
    · rcases hc with hc | hc <;> exact absurd hc FragmentClass.noConfusion
    · rfl
  source i j hij _ := by
    obtain ⟨hmem, hj, -⟩ := hij
    fin_cases hmem
    · exact .inl rfl
    · exact .inr rfl
    · exact absurd hj List.not_mem_nil
  mangled i hmem _ hc := by
    fin_cases hmem
    · exact absurd hc Bool.false_ne_true
    · exact hi
    · exact absurd hc Bool.false_ne_true
  analyzed := rfl

/-- The offsets on entry to the two fragments after the first, and on exit from the
two before the last. -/
def ends (h : Heap) : List ℤ × List ℤ :=
  ([(h.frag 1).entryOffset, (h.frag 2).entryOffset], [(h.frag 0).exitOffset, (h.frag 1).exitOffset])

theorem agree_oneFragment {is : List Instr} {h' : Heap} (he : (ends h').1 = (ends h').2) :
    Agree [0, 1, 2] (oneFragment is) h' 0 := by
  simp only [ends, List.cons.injEq, and_true] at he
  rintro i j ⟨hmem, hj, -⟩ -
  fin_cases hmem
  · obtain rfl : j = 1 := List.mem_singleton.mp hj
    exact he.1
  · obtain rfl : j = 2 := List.mem_singleton.mp hj
    exact he.2
  · exact absurd hj List.not_mem_nil

theorem adjustable_oneFragment {is : List Instr} (hr : Ready [0, 1, 2] (oneFragment is) 0) :
    Adjustable [0, 1, 2] (oneFragment is) 0 ↔ ∀ x ∈ is, ¬ Bad x := by
  constructor
  · intro hadj
    refine hadj 1 (.step (.entry (i := 0) (by decide) rfl rfl) ⟨by decide, ?_, rfl⟩) rfl
    exact List.mem_singleton_self 1
  · intro h i hi hc
    have hmem := (reaches_mem hr hi).1
    fin_cases hmem
    · exact absurd hc Bool.false_ne_true
    · exact h
    · exact absurd hc Bool.false_ne_true

def slot0 : Operand := .mem ⟨.reg (.slot 0), none, 64⟩

def segmentSlot (n width : ℕ) : MemOperand := ⟨.ptr (n * 8), some .gs, width⟩

/-- `push rbx`, around which `rax` is spilled. -/
def pushSpilled : List Instr :=
  [.mov slot0 (.reg (.gpr 0)), .push (.reg (.gpr 1)) 64, .mov (.reg (.gpr 0)) slot0]

theorem allocateSlots_transparent_iff_pushSpilled :
    ∃ h', allocateSlots 128 segmentSlot [0, 1, 2] 3 (oneFragment pushSpilled) = some h' ∧
      Transparent 128 [0, 1, 2] (oneFragment pushSpilled) h' 0 4096 := by
  have hr : Ready [0, 1, 2] (oneFragment pushSpilled) 0 := by
    refine ready_oneFragment ?_
    simp [pushSpilled, slot0, Instr.EarlyMangled, SlotsIn, slotIn_mem, slotIn_reg]
  have hends : (allocateSlots 128 segmentSlot [0, 1, 2] 3 (oneFragment pushSpilled)).map ends =
      some ([0, -8], [0, -8]) := by decide +kernel
  obtain ⟨h', hrun, hh⟩ := Option.map_eq_some_iff.mp hends
  have hagree : Agree [0, 1, 2] (oneFragment pushSpilled) h' 0 :=
    agree_oneFragment (by rw [hh])
  refine ⟨h', hrun, (allocateSlots_transparent_iff hr hrun hagree 4096).mpr (.inr ?_)⟩
  refine (adjustable_oneFragment hr).mpr ?_
  simp [pushSpilled, slot0, Bad, BadMem]

/-- A load through the stack pointer with a segment, as inline assembly has it, into a register
that is spilled. -/
def loadSegment : List Instr :=
  [.mov slot0 (.reg (.gpr 0)), .mov (.reg (.gpr 0)) (.mem ⟨.reg .rsp, some .gs, 64⟩),
    .mov (.mem ⟨.reg (.gpr 1), none, 64⟩) (.reg (.gpr 0)), .mov (.reg (.gpr 0)) slot0]

theorem loadSegment_not_transparent :
    ∃ h', Ready [0, 1, 2] (oneFragment loadSegment) 0 ∧
      allocateSlots 128 segmentSlot [0, 1, 2] 3 (oneFragment loadSegment) = some h' ∧
      Agree [0, 1, 2] (oneFragment loadSegment) h' 0 ∧
      ¬ Transparent 128 [0, 1, 2] (oneFragment loadSegment) h' 0 4096 := by
  have hr : Ready [0, 1, 2] (oneFragment loadSegment) 0 := by
    refine ready_oneFragment ?_
    simp [loadSegment, slot0, Instr.EarlyMangled, SlotsIn, slotIn_mem, slotIn_reg]
  have hends : (allocateSlots 128 segmentSlot [0, 1, 2] 3 (oneFragment loadSegment)).map ends =
      some ([0, 0], [0, 0]) := by decide +kernel
  obtain ⟨h', hrun, hh⟩ := Option.map_eq_some_iff.mp hends
  have hagree : Agree [0, 1, 2] (oneFragment loadSegment) h' 0 :=
    agree_oneFragment (by rw [hh])
  refine ⟨h', hr, hrun, hagree, fun ht ↦ ?_⟩
  have hadj := (transparent_iff_of_slots hr one_ne_zero hrun hagree 4096).mp ht
  refine (adjustable_oneFragment hr).mp hadj
    (.mov (.reg (.gpr 0)) (.mem ⟨.reg .rsp, some .gs, 64⟩)) ?_ ?_
  · simp [loadSegment]
  · simp [Bad, BadMem]

end Rewrite

end Granary.Assemble.AllocateSlots
