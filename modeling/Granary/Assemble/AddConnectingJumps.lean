import Granary.Arch.Branch
import Granary.Base.Chain
import Granary.Base.Iterate
import Granary.Code.Fragment

namespace Granary.Assemble.AddConnectingJumps

open Function Granary.Arch Granary.Base Granary.Base.Chain Granary.Base.Iterate
open Granary.Code (FragmentId CodeCacheKind)

inductive Opcode
  | noOp
  | plain (i : ℕ)
  | branch (c : BranchClass) (ecx : Bool)
deriving DecidableEq, Repr

structure NativeInstruction where
  opcode : Opcode
  hasIndirectTarget : Bool := false
  dontEncode : Bool := false
  branchTarget : ℕ := 0
deriving DecidableEq, Repr

namespace NativeInstruction

def taken (i : NativeInstruction) (s : AppState) : Bool :=
  match i.opcode with
  | .branch c ecx => (c.branch ecx s).1
  | .noOp | .plain _ => false

def isNearRelativeJump (i : NativeInstruction) : Bool :=
  match i.opcode with
  | .branch .jrcxz _ | .branch .loop _ | .branch .loope _ | .branch .loopne _ => true
  | _ => false

end NativeInstruction

/-- What the last passes read and write of a fragment. The two instructions that
it points to are given by their places in `instrs`, and an address `0` is null. -/
structure Fragment where
  isNonLocalEntry : Bool := false
  cache : CodeCacheKind := .hot
  instrs : List NativeInstruction := []
  fallThrough : Option FragmentId := none
  branch : Option FragmentId := none
  branchInstr : Option ℕ := none
  fallThroughInstr : Option ℕ := none
  next : Option FragmentId := none
  encodedOrder : ℕ := 0
  encodedSize : ℕ := 0
  encodedPc : ℕ := 0
deriving DecidableEq, Repr

abbrev Heap := FragmentId → Fragment

namespace Fragment

def successors (f : Fragment) : List FragmentId := f.fallThrough.toList ++ f.branch.toList

def branchInstruction (f : Fragment) : Option NativeInstruction :=
  f.branchInstr.bind fun i ↦ f.instrs[i]?

def branchTaken (f : Fragment) (s : AppState) : Bool :=
  f.branchInstruction.any fun i ↦ i.taken s

/-- The fragment that a fragment goes to when its branch is run in the state `s`. -/
def follow (f : Fragment) (s : AppState) : Option FragmentId :=
  if f.branchTaken s then f.branch else f.fallThrough

def modifyInstr (f : Fragment) (i : Option ℕ) (g : NativeInstruction → NativeInstruction) :
    Fragment :=
  { f with instrs := i.elim f.instrs fun i ↦ f.instrs.modify i g }

theorem getElem?_modifyInstr (f : Fragment) (i : Option ℕ)
    (g : NativeInstruction → NativeInstruction) (k : ℕ) :
    (f.modifyInstr i g).instrs[k]? = if i = some k then f.instrs[k]?.map g else f.instrs[k]? := by
  cases i with
  | none => simp [modifyInstr]
  | some i =>
    simp only [modifyInstr, Option.elim_some, List.getElem?_modify, Option.some.injEq]
    split_ifs <;> simp

end Fragment

def kReversedCFIBuilderss : List (Option BranchClass) :=
  [some .jnb, some .jnbe, some .jnl, some .jnle, none, none, some .jb, some .jbe, some .jl,
    some .jle, some .jo, some .jp, some .js, some .jz, some .jno, some .jnp, none, some .jns,
    some .jnz]

/-- `TryNegateBranchCondition`, where `none` stands for `false`. -/
def tryNegateBranchCondition (f : Fragment) : Option Fragment :=
  match f.branchInstruction with
  | none => none
  | some i =>
    if i.isNearRelativeJump then none
    else if i.hasIndirectTarget then none
    else match i.opcode with
      | .branch c _ =>
        if c.isConditionalJump then
          kReversedCFIBuilderss[c.index]?.join.map fun r ↦
            f.modifyInstr f.branchInstr fun _ ↦ { opcode := .branch r false }
        else none
      | .noOp | .plain _ => none

/-- A `FragmentWorkList`, with the fragments. The pointer `nextPtr` to a field
`next` is given by the fragment that has the field. -/
structure WorkList where
  heap : Heap
  next : Option FragmentId := none
  nextPtr : FragmentId
  order : ℕ := 1
  encodedOrder : ℕ := 1

namespace WorkList

def enqueue (w : WorkList) (o : Option FragmentId) : WorkList :=
  match o with
  | none => w
  | some f =>
    if (w.heap f).encodedOrder = 0 then
      { w with
        heap := update w.heap f { w.heap f with next := w.next, encodedOrder := w.order }
        order := w.order + 1
        next := some f }
    else w

theorem enqueue_of_marked {w : WorkList} {f : FragmentId} (h : (w.heap f).encodedOrder ≠ 0) :
    w.enqueue (some f) = w := if_neg h

def setFragment (w : WorkList) (f : FragmentId) (frag : Fragment) : WorkList :=
  { w with heap := update w.heap f frag }

/-- Swaps the successors of a fragment, if its branch can be negated. -/
def swapSuccessors (w : WorkList) (f : FragmentId) : WorkList :=
  match tryNegateBranchCondition (w.heap f) with
  | some frag => w.setFragment f
      { frag with fallThrough := (w.heap f).branch, branch := (w.heap f).fallThrough }
  | none => w

def orderFragment (w : WorkList) (f : FragmentId) : WorkList :=
  let frag := w.heap f
  match frag.fallThrough, frag.branch with
  | none, none => w
  | none, some b => w.enqueue (some b)
  | some t, none => w.enqueue (some t)
  | some t, some b =>
    if (w.heap b).cache < (w.heap t).cache then
      let w := if frag.cache = (w.heap b).cache then w.swapSuccessors f else w
      (w.enqueue (some t)).enqueue (some b)
    else if (w.heap t).cache < (w.heap b).cache then (w.enqueue (some b)).enqueue (some t)
    else if frag.branchInstruction.any NativeInstruction.isNearRelativeJump then
      (w.enqueue (some t)).enqueue (some b)
    else (w.enqueue (some b)).enqueue (some t)

def setNext (w : WorkList) (f : FragmentId) (o : Option FragmentId) : WorkList :=
  w.setFragment f { w.heap f with next := o }

def dequeue (w : WorkList) (curr : FragmentId) : WorkList :=
  let w := { w with next := (w.heap curr).next }
  let w := w.setNext curr none
  let w := w.setFragment curr { w.heap curr with encodedOrder := w.encodedOrder }
  let w := { w with encodedOrder := w.encodedOrder + 1 }
  let w := w.setNext w.nextPtr (some curr)
  { w with nextPtr := curr }

/-- One round of the loop in `OrderFragments`. -/
def orderStep (w : WorkList) : WorkList × Bool :=
  match w.next with
  | some curr => ((w.dequeue curr).orderFragment curr, true)
  | none => (w, false)

def orderFragments (fuel : ℕ) (w : WorkList) : Option WorkList := repeatUntil orderStep fuel w

end WorkList

def enqueueStragglerFragments (frags : List FragmentId) (w : WorkList) : WorkList :=
  frags.reverse.foldl
    (fun w f ↦ if (w.heap f).isNonLocalEntry then w.enqueue (some f) else w) w

def addFallThroughJump (h : Heap) (f : Fragment) (fallThrough : FragmentId) : Fragment :=
  { f with
    instrs := f.instrs ++ [{ opcode := .branch .jmp false
                             branchTarget := (h fallThrough).encodedPc }]
    fallThroughInstr := some f.instrs.length }

/-- What the second loop of `AddConnectingJumps` makes of a fragment. -/
def connect (h : Heap) (f : FragmentId) : Fragment :=
  let frag := h f
  match frag.fallThrough with
  | none =>
    match frag.branch with
    | some b =>
      if frag.next = some b ∧ frag.branchInstr.isSome ∧ frag.cache = (h b).cache ∧
          (h b).encodedPc = 0 then
        frag.modifyInstr frag.branchInstr fun i ↦ { i with dontEncode := true }
      else frag
    | none => frag
  | some t =>
    if frag.next ≠ some t ∨ (h t).encodedPc ≠ 0 ∨ frag.cache ≠ (h t).cache then
      addFallThroughJump h frag t
    else frag

/-- `EncodeOrderedFragmentIterator`, for a loop over `fuel` fragments at most. -/
def forEncodeOrdered (fuel : ℕ) (first : FragmentId) (body : Heap → FragmentId → Fragment)
    (h : Heap) : Option Heap :=
  walk (fun h f ↦ (h f).next) (fun h f ↦ update h f (body h f)) fuel (some first) h

def addConnectingJumps (fuel : ℕ) (first : FragmentId) (frags : List FragmentId) (h : Heap) :
    Option Heap := do
  let w := enqueueStragglerFragments frags { heap := h, nextPtr := first }
  let w := w.enqueue (some first)
  let w ← w.orderFragments fuel
  forEncodeOrdered fuel first connect w.heap

/-- The fragments that the passes before this one can make. -/
structure Input where
  first : FragmentId
  rest : List FragmentId
  heap : Heap
  bound : ℕ
  nodup : (first :: rest).Nodup
  lt_bound : ∀ f ∈ first :: rest, f < bound
  succ_lt : ∀ f < bound, ∀ g ∈ (heap f).successors, g < bound
  /-- Nothing has been ordered, and only fragments without successors, which have no
  size, are encoded. -/
  fresh : ∀ f, (heap f).encodedOrder = 0 ∧ (heap f).encodedSize = 0 ∧
    (heap f).fallThroughInstr = none
  exit : ∀ f, (heap f).encodedPc ≠ 0 → (heap f).successors = []
  /-- A branch is among the instructions of its fragment, and is direct. -/
  direct : ∀ f i, (heap f).branchInstr = some i →
    ∃ n, (heap f).instrs[i]? = some n ∧ n.hasIndirectTarget = false ∧ n.dontEncode = false
  /-- A fragment that goes two ways does so by a branch. -/
  twoWay : ∀ f t b, (heap f).fallThrough = some t → (heap f).branch = some b →
    (heap f).branchInstr.isSome

namespace Input

variable (g : Input)

def Succ (f f' : FragmentId) : Prop := f' ∈ (g.heap f).successors

def Root (f : FragmentId) : Prop :=
  f = g.first ∨ f ∈ g.rest ∧ (g.heap f).isNonLocalEntry = true

def Reachable (f : FragmentId) : Prop := ∃ r, g.Root r ∧ Relation.ReflTransGen g.Succ r f

end Input

/-- The branch of a fragment is one of its instructions, is direct, and is to be
encoded. -/
def Fragment.Direct (f : Fragment) : Prop :=
  ∀ i, f.branchInstr = some i →
    ∃ n, f.instrs[i]? = some n ∧ n.hasIndirectTarget = false ∧ n.dontEncode = false

/-- The fragment `b` does what `a` does, though its branch may have been negated. -/
structure Kept (a b : Fragment) : Prop where
  cache : b.cache = a.cache
  isNonLocalEntry : b.isNonLocalEntry = a.isNonLocalEntry
  encodedPc : b.encodedPc = a.encodedPc
  encodedSize : b.encodedSize = a.encodedSize
  branchInstr : b.branchInstr = a.branchInstr
  fallThroughInstr : b.fallThroughInstr = a.fallThroughInstr
  direct : a.Direct → b.Direct
  ways : (∀ s, b.branchTaken s = a.branchTaken s) ∧ b.fallThrough = a.fallThrough ∧
      b.branch = a.branch ∨
    (∀ s, b.branchTaken s = !a.branchTaken s) ∧ b.fallThrough = a.branch ∧
      b.branch = a.fallThrough

theorem Kept.refl (a : Fragment) : Kept a a :=
  ⟨rfl, rfl, rfl, rfl, rfl, rfl, id, .inl ⟨fun _ ↦ rfl, rfl, rfl⟩⟩

theorem Kept.link {a b : Fragment} (h : Kept a b) (o : Option FragmentId) (n : ℕ) :
    Kept a { b with next := o, encodedOrder := n } :=
  ⟨h.cache, h.isNonLocalEntry, h.encodedPc, h.encodedSize, h.branchInstr, h.fallThroughInstr,
    h.direct, h.ways⟩

theorem Kept.trans {a b c : Fragment} (h : Kept a b) (h' : Kept b c) : Kept a c := by
  refine ⟨h'.cache.trans h.cache, h'.isNonLocalEntry.trans h.isNonLocalEntry,
    h'.encodedPc.trans h.encodedPc, h'.encodedSize.trans h.encodedSize,
    h'.branchInstr.trans h.branchInstr, h'.fallThroughInstr.trans h.fallThroughInstr,
    fun hd ↦ h'.direct (h.direct hd), ?_⟩
  rcases h.ways with ⟨ht, hf, hb⟩ | ⟨ht, hf, hb⟩
  · rcases h'.ways with ⟨ht', hf', hb'⟩ | ⟨ht', hf', hb'⟩
    · exact .inl ⟨fun s ↦ (ht' s).trans (ht s), hf'.trans hf, hb'.trans hb⟩
    · exact .inr ⟨fun s ↦ by rw [ht', ht], hf'.trans hb, hb'.trans hf⟩
  · rcases h'.ways with ⟨ht', hf', hb'⟩ | ⟨ht', hf', hb'⟩
    · exact .inr ⟨fun s ↦ (ht' s).trans (ht s), hf'.trans hf, hb'.trans hb⟩
    · exact .inl ⟨fun s ↦ by rw [ht', ht, Bool.not_not], hf'.trans hb, hb'.trans hf⟩

theorem Kept.follow {a b : Fragment} (h : Kept a b) (s : AppState) : b.follow s = a.follow s := by
  unfold Fragment.follow
  rcases h.ways with ⟨ht, hf, hb⟩ | ⟨ht, hf, hb⟩
  · rw [ht, hf, hb]
  · rw [ht, hf, hb]
    cases a.branchTaken s <;> rfl

theorem Kept.mem_successors {a b : Fragment} (h : Kept a b) (t : FragmentId) :
    t ∈ b.successors ↔ t ∈ a.successors := by
  simp only [Fragment.successors, List.mem_append]
  rcases h.ways with ⟨-, hf, hb⟩ | ⟨-, hf, hb⟩
  · rw [hf, hb]
  · rw [hf, hb]
    exact Or.comm

theorem reversed_branch {c r : BranchClass} (hl : c.isLoopInstruction = false)
    (hc : c.isConditionalJump = true) (hr : kReversedCFIBuilderss[c.index]?.join = some r)
    (ecx : Bool) (s : AppState) : (r.branch false s).1 = !(c.branch ecx s).1 := by
  obtain ⟨r', hrev, -, hbranch⟩ := BranchClass.reversed_spec hc hl
  obtain rfl : r' = r := Option.some.inj (hrev.symm.trans hr)
  have hecx : c.branch ecx s = c.branch false s := by
    cases c <;> first | rfl | exact absurd hl (by decide)
  rw [(hbranch false s).1, hecx]

theorem tryNegate_cases {a b : Fragment} (h : tryNegateBranchCondition a = some b) :
    ∃ k i c ecx r, a.branchInstr = some k ∧ a.instrs[k]? = some i ∧ i.opcode = .branch c ecx ∧
      (∀ s, (r.branch false s).1 = !(c.branch ecx s).1) ∧
      b = { a with instrs := a.instrs.modify k fun _ ↦ { opcode := .branch r false } } := by
  unfold tryNegateBranchCondition at h
  cases hi : a.branchInstruction with
  | none =>
    rw [hi] at h
    exact absurd h (by simp)
  | some i =>
    simp only [hi] at h
    split_ifs at h with hnear hind
    cases ho : i.opcode with
    | noOp => simp [ho] at h
    | plain n => simp [ho] at h
    | branch c ecx =>
      simp only [ho] at h
      split_ifs at h with hc
      obtain ⟨r, hr, rfl⟩ := Option.map_eq_some_iff.mp h
      obtain ⟨k, hk, hget⟩ := Option.bind_eq_some_iff.mp hi
      have hl : c.isLoopInstruction = false := by
        unfold NativeInstruction.isNearRelativeJump at hnear
        rw [ho] at hnear
        cases c <;> first | rfl | exact absurd rfl hnear
      refine ⟨k, i, c, ecx, r, hk, hget, ho, reversed_branch hl hc hr ecx, ?_⟩
      simp only [Fragment.modifyInstr, hk, Option.elim_some]

/-- A fragment whose branch was negated goes the same ways once its successors are
swapped. -/
theorem Kept.swap {a b : Fragment} (h : tryNegateBranchCondition a = some b) :
    Kept a { b with fallThrough := a.branch, branch := a.fallThrough } := by
  obtain ⟨k, i, c, ecx, r, hk, hget, ho, htaken, rfl⟩ := tryNegate_cases h
  have hnew : (a.instrs.modify k fun _ ↦ { opcode := .branch r false })[k]? =
      some { opcode := .branch r false } := by
    rw [List.getElem?_modify, hget]
    simp
  refine ⟨rfl, rfl, rfl, rfl, rfl, rfl, fun _ j hj ↦ ?_, .inr ⟨fun s ↦ ?_, rfl, rfl⟩⟩
  · obtain rfl : k = j := Option.some.inj (hk.symm.trans hj)
    exact ⟨_, hnew, rfl, rfl⟩
  · simp only [Fragment.branchTaken, Fragment.branchInstruction, hk, Option.bind_some, hnew, hget,
      Option.any_some, NativeInstruction.taken, ho, htaken]

/-- The fragments that have been put in order, and those on the work list. -/
structure Listed (g : Input) (w : WorkList) (done todo : List FragmentId) : Prop where
  nodup : (done ++ todo).Nodup
  path : Path (fun f ↦ (w.heap f).next) w.next todo none
  marked : ∀ f, (w.heap f).encodedOrder ≠ 0 ↔ f ∈ done ++ todo
  reachable : ∀ f ∈ done ++ todo, g.Reachable f
  kept : ∀ f, Kept (g.heap f) (w.heap f)
  order_pos : 0 < w.order
  encodedOrder_pos : 0 < w.encodedOrder

/-- The work list has grown, and nothing else that matters to the order has
changed. -/
structure Grows (w w' : WorkList) (done todo todo' : List FragmentId) : Prop where
  subset : todo ⊆ todo'
  nextPtr : w'.nextPtr = w.nextPtr
  encodedOrder : w'.encodedOrder = w.encodedOrder
  next : ∀ f ∈ done, (w'.heap f).next = (w.heap f).next

theorem Grows.refl (w : WorkList) (done todo : List FragmentId) : Grows w w done todo todo :=
  ⟨List.Subset.refl _, rfl, rfl, fun _ _ ↦ rfl⟩

theorem Grows.trans {w w' w'' : WorkList} {done todo todo' todo'' : List FragmentId}
    (h : Grows w w' done todo todo') (h' : Grows w' w'' done todo' todo'') :
    Grows w w'' done todo todo'' :=
  ⟨List.Subset.trans h.subset h'.subset, h'.nextPtr.trans h.nextPtr,
    h'.encodedOrder.trans h.encodedOrder, fun f hf ↦ (h'.next f hf).trans (h.next f hf)⟩

theorem Listed.enqueue {g : Input} {w : WorkList} {done todo : List FragmentId}
    (h : Listed g w done todo) {f : FragmentId} (hf : g.Reachable f) :
    ∃ todo', Listed g (w.enqueue (some f)) done todo' ∧
      Grows w (w.enqueue (some f)) done todo todo' ∧ f ∈ done ++ todo' ∧
      todo' = if f ∈ done ++ todo then todo else f :: todo := by
  by_cases hm : (w.heap f).encodedOrder = 0
  · simp only [WorkList.enqueue, hm, if_true]
    have hnot : f ∉ done ++ todo := fun hin ↦ (h.marked f).mpr hin hm
    have hdone : f ∉ done := fun hin ↦ hnot (List.mem_append_left _ hin)
    have htodo : f ∉ todo := fun hin ↦ hnot (List.mem_append_right _ hin)
    have hother (a : FragmentId) (ha : a ≠ f) :
        (update w.heap f { w.heap f with next := w.next, encodedOrder := w.order }) a =
          w.heap a := update_of_ne ha _ _
    refine ⟨f :: todo, ⟨?_, ?_, ?_, ?_, ?_, ?_, h.encodedOrder_pos⟩, ⟨?_, rfl, rfl, ?_⟩, ?_,
      (if_neg hnot).symm⟩
    · rw [List.nodup_middle, List.nodup_cons]
      exact ⟨hnot, h.nodup⟩
    · refine ⟨rfl, ?_⟩
      simp only [update_self]
      refine path_congr (fun a ha ↦ ?_) h.path
      rw [hother a fun he ↦ htodo (he ▸ ha)]
    · intro a
      by_cases ha : a = f
      · subst ha
        have hpos := h.order_pos
        simp only [update_self, List.mem_append, List.mem_cons, true_or, or_true, iff_true]
        omega
      · simp only [hother a ha, h.marked a, List.mem_append, List.mem_cons, ha, false_or]
    · intro a ha
      rcases List.mem_append.mp ha with ha | ha
      · exact h.reachable a (List.mem_append_left _ ha)
      · rcases List.mem_cons.mp ha with rfl | ha
        · exact hf
        · exact h.reachable a (List.mem_append_right _ ha)
    · intro a
      by_cases ha : a = f
      · subst ha
        simp only [update_self]
        exact (h.kept a).link w.next w.order
      · simp only [hother a ha]
        exact h.kept a
    · exact Nat.succ_pos _
    · exact List.subset_cons_self f todo
    · intro a ha
      simp only [hother a fun he ↦ hdone (he ▸ ha)]
    · exact List.mem_append_right _ List.mem_cons_self
  · simp only [WorkList.enqueue, hm, if_false]
    have hin : f ∈ done ++ todo := (h.marked f).mp hm
    exact ⟨todo, h, .refl w done todo, hin, (if_pos hin).symm⟩

theorem Listed.swapSuccessors {g : Input} {w : WorkList} {done todo : List FragmentId}
    (h : Listed g w done todo) (f : FragmentId) :
    Listed g (w.swapSuccessors f) done todo ∧ Grows w (w.swapSuccessors f) done todo todo := by
  unfold WorkList.swapSuccessors
  cases hn : tryNegateBranchCondition (w.heap f) with
  | none => exact ⟨h, .refl w done todo⟩
  | some frag =>
    have hlinks : frag.next = (w.heap f).next ∧ frag.encodedOrder = (w.heap f).encodedOrder := by
      obtain ⟨k, i, c, ecx, r, -, -, -, -, rfl⟩ := tryNegate_cases hn
      exact ⟨rfl, rfl⟩
    have hheap (a : FragmentId) : ∃ b, (w.setFragment f { frag with
        fallThrough := (w.heap f).branch, branch := (w.heap f).fallThrough }).heap a = b ∧
        Kept (w.heap a) b ∧ b.next = (w.heap a).next ∧
        b.encodedOrder = (w.heap a).encodedOrder := by
      refine ⟨_, rfl, ?_⟩
      rcases eq_or_ne a f with rfl | ha
      · simp only [WorkList.setFragment, update_self]
        exact ⟨.swap hn, hlinks⟩
      · rw [show (w.setFragment f _).heap a = w.heap a from update_of_ne ha _ _]
        exact ⟨.refl _, rfl, rfl⟩
    refine ⟨⟨h.nodup, ?_, ?_, h.reachable, ?_, h.order_pos, h.encodedOrder_pos⟩,
      ⟨List.Subset.refl _, rfl, rfl, ?_⟩⟩
    · refine path_congr (fun a _ ↦ ?_) h.path
      obtain ⟨b, hb, -, hnext, -⟩ := hheap a
      rw [hb, hnext]
    · intro a
      obtain ⟨b, hb, -, -, horder⟩ := hheap a
      rw [hb, horder]
      exact h.marked a
    · intro a
      obtain ⟨b, hb, hkept, -, -⟩ := hheap a
      rw [hb]
      exact (h.kept a).trans hkept
    · intro a _
      obtain ⟨b, hb, -, hnext, -⟩ := hheap a
      rw [hb, hnext]

/-- A fragment hands its successors to the work list, after its branch may have been
negated. -/
theorem orderFragment_eq (w : WorkList) (f : FragmentId) :
    ∃ w₀ o₁ o₂, w.orderFragment f = (w₀.enqueue o₁).enqueue o₂ ∧
      (w₀ = w ∨ w₀ = w.swapSuccessors f) ∧
      ∀ t, t ∈ (w.heap f).successors ↔ o₁ = some t ∨ o₂ = some t := by
  unfold WorkList.orderFragment Fragment.successors
  dsimp only
  cases (w.heap f).fallThrough with
  | none =>
    cases (w.heap f).branch with
    | none => exact ⟨w, none, none, rfl, .inl rfl, by simp⟩
    | some b => exact ⟨w, some b, none, rfl, .inl rfl, by simp [eq_comm]⟩
  | some t =>
    cases (w.heap f).branch with
    | none => exact ⟨w, some t, none, rfl, .inl rfl, by simp [eq_comm]⟩
    | some b =>
      have hmem (a : FragmentId) : a ∈ (some t).toList ++ (some b).toList ↔
          some t = some a ∨ some b = some a := by simp [eq_comm]
      dsimp only
      split_ifs
      · exact ⟨w.swapSuccessors f, some t, some b, rfl, .inr rfl, hmem⟩
      · exact ⟨w, some t, some b, rfl, .inl rfl, hmem⟩
      · exact ⟨w, some b, some t, rfl, .inl rfl, fun a ↦ (hmem a).trans Or.comm⟩
      · exact ⟨w, some t, some b, rfl, .inl rfl, hmem⟩
      · exact ⟨w, some b, some t, rfl, .inl rfl, fun a ↦ (hmem a).trans Or.comm⟩

theorem Listed.enqueue_option {g : Input} {w : WorkList} {done todo : List FragmentId}
    (h : Listed g w done todo) {o : Option FragmentId} (ho : ∀ f, o = some f → g.Reachable f) :
    ∃ todo', Listed g (w.enqueue o) done todo' ∧ Grows w (w.enqueue o) done todo todo' ∧
      ∀ f, o = some f → f ∈ done ++ todo' := by
  cases o with
  | none => exact ⟨todo, h, .refl w done todo, by simp⟩
  | some f =>
    obtain ⟨todo', hl, hg, hf, -⟩ := h.enqueue (ho f rfl)
    refine ⟨todo', hl, hg, fun a ha ↦ ?_⟩
    obtain rfl := Option.some.inj ha
    exact hf

theorem Listed.orderFragment {g : Input} {w : WorkList} {done todo : List FragmentId}
    (h : Listed g w done todo) {f : FragmentId} (hf : f ∈ done ++ todo) :
    ∃ todo', Listed g (w.orderFragment f) done todo' ∧
      Grows w (w.orderFragment f) done todo todo' ∧ ∀ t, g.Succ f t → t ∈ done ++ todo' := by
  obtain ⟨w₀, o₁, o₂, he, hw₀, hsucc⟩ := orderFragment_eq w f
  have hlisted : Listed g w₀ done todo ∧ Grows w w₀ done todo todo := by
    rcases hw₀ with rfl | rfl
    · exact ⟨h, .refl _ _ _⟩
    · exact h.swapSuccessors f
  have hreach (t : FragmentId) (ht : t ∈ (w.heap f).successors) : g.Reachable t := by
    obtain ⟨r, hr, hpath⟩ := h.reachable f hf
    exact ⟨r, hr, hpath.tail (((h.kept f).mem_successors t).mp ht)⟩
  obtain ⟨todo₁, hl₁, hg₁, hin₁⟩ :=
    hlisted.1.enqueue_option fun t ht ↦ hreach t ((hsucc t).mpr (.inl ht))
  obtain ⟨todo₂, hl₂, hg₂, hin₂⟩ :=
    hl₁.enqueue_option fun t ht ↦ hreach t ((hsucc t).mpr (.inr ht))
  rw [he]
  refine ⟨todo₂, hl₂, (hlisted.2.trans hg₁).trans hg₂, fun t ht ↦ ?_⟩
  rcases (hsucc t).mp (((h.kept f).mem_successors t).mpr ht) with ht | ht
  · rcases List.mem_append.mp (hin₁ t ht) with ht | ht
    · exact List.mem_append_left _ ht
    · exact List.mem_append_right _ (hg₂.subset ht)
  · exact hin₂ t ht

theorem dequeue_heap (w : WorkList) (c a : FragmentId) :
    (w.dequeue c).heap a = { w.heap a with
      next := if a = w.nextPtr then some c else if a = c then none else (w.heap a).next
      encodedOrder := if a = c then w.encodedOrder else (w.heap a).encodedOrder } := by
  unfold WorkList.dequeue WorkList.setNext WorkList.setFragment
  by_cases hp : a = w.nextPtr <;> by_cases hc : a = c
  · subst hp
    subst hc
    simp
  · subst hp
    simp [hc]
  · subst hc
    simp [hp]
  · simp [hp, hc]

theorem Listed.dequeue {g : Input} {w : WorkList} {done todo : List FragmentId} {c : FragmentId}
    (h : Listed g w done (c :: todo)) (hptr : w.nextPtr ∉ todo) :
    Listed g (w.dequeue c) (done ++ [c]) todo := by
  have hlist : done ++ [c] ++ todo = done ++ c :: todo := by simp
  have hnodup := h.nodup
  rw [← hlist] at hnodup
  have hc : c ∉ todo := by
    have hdis := (List.nodup_append.mp hnodup).2.2
    exact fun hin ↦ hdis c (by simp) c hin rfl
  refine ⟨hnodup, ?_, ?_, ?_, ?_, h.order_pos, Nat.succ_pos _⟩
  · refine path_congr (fun a ha ↦ ?_) h.path.2
    have hap : a ≠ w.nextPtr := fun he ↦ hptr (he ▸ ha)
    have hac : a ≠ c := fun he ↦ hc (he ▸ ha)
    rw [dequeue_heap]
    simp only [hap, hac, if_false]
  · intro a
    rw [dequeue_heap, hlist]
    by_cases ha : a = c
    · subst ha
      have hpos := h.encodedOrder_pos
      simp only [if_true, List.mem_append, List.mem_cons, true_or, or_true, iff_true]
      omega
    · simp only [ha, if_false]
      exact h.marked a
  · intro a ha
    rw [hlist] at ha
    exact h.reachable a ha
  · intro a
    rw [dequeue_heap]
    exact (h.kept a).link _ _

/-- The fragments `l ++ [z]` have been put in order. The first one links to itself
for as long as it is the only one. -/
structure Ordered (g : Input) (w : WorkList) (l : List FragmentId) (z : FragmentId)
    (todo : List FragmentId) : Prop where
  listed : Listed g w (l ++ [z]) todo
  roots : ∀ r, g.Root r → r ∈ l ++ [z] ++ todo
  closed : ∀ f ∈ l ++ [z], ∀ t, g.Succ f t → t ∈ l ++ [z] ++ todo
  nextPtr : w.nextPtr = z
  encodedOrder : w.encodedOrder = l.length + 2
  chain : Path (fun f ↦ (w.heap f).next) (some g.first) l (some z)
  last : (w.heap z).next = if l = [] then some z else none

theorem ordered_of_dequeue {g : Input} {w : WorkList} {done todo : List FragmentId}
    {c : FragmentId} (h : Listed g w done (c :: todo)) (hptr : w.nextPtr ∉ todo)
    (hroots : ∀ r, g.Root r → r ∈ done ++ c :: todo)
    (hclosed : ∀ f ∈ done, ∀ t, g.Succ f t → t ∈ done ++ c :: todo)
    (horder : w.encodedOrder = done.length + 1)
    (hchain : Path (fun f ↦ ((w.dequeue c).heap f).next) (some g.first) done (some c))
    (hlast : ((w.dequeue c).heap c).next = if done = [] then some c else none) :
    ∃ todo', Ordered g ((w.dequeue c).orderFragment c) done c todo' := by
  obtain ⟨todo', hl, hg, hsucc⟩ :=
    (h.dequeue hptr).orderFragment (f := c) (by simp)
  have hgrow (a : FragmentId) (ha : a ∈ done ++ c :: todo) : a ∈ done ++ [c] ++ todo' := by
    rw [List.append_assoc, List.mem_append] at *
    refine ha.imp id fun ha ↦ ?_
    rcases List.mem_cons.mp ha with rfl | ha
    · exact List.mem_cons_self
    · exact List.mem_cons_of_mem _ (hg.subset ha)
  refine ⟨todo', hl, fun r hr ↦ hgrow r (hroots r hr), ?_, ?_, ?_, ?_, ?_⟩
  · intro f hf t ht
    rcases List.mem_append.mp hf with hf | hf
    · exact hgrow t (hclosed f hf t ht)
    · obtain rfl := List.mem_singleton.mp hf
      exact hsucc t ht
  · rw [hg.nextPtr]
    rfl
  · rw [hg.encodedOrder, WorkList.dequeue]
    exact congrArg (· + 1) horder
  · exact path_congr (fun a ha ↦ hg.next a (List.mem_append_left _ ha)) hchain
  · rw [hg.next c (by simp)]
    exact hlast

theorem Ordered.step {g : Input} {w : WorkList} {l todo : List FragmentId} {z c : FragmentId}
    (h : Ordered g w l z (c :: todo)) :
    ∃ todo', Ordered g ((w.dequeue c).orderFragment c) (l ++ [z]) c todo' := by
  have hnodup := h.listed.nodup
  have hdis := (List.nodup_append.mp hnodup).2.2
  have hz : z ∉ c :: todo := fun hin ↦ hdis z (by simp) z hin rfl
  have hcl (a : FragmentId) (ha : a ∈ l ++ [z]) : a ≠ c := hdis a ha c List.mem_cons_self
  have hzl : z ∉ l := by
    have hl := (List.nodup_append.mp (List.nodup_append.mp hnodup).1).2.2
    exact fun hin ↦ hl z hin z List.mem_cons_self rfl
  refine ordered_of_dequeue h.listed ?_ h.roots h.closed ?_ ?_ ?_
  · rw [h.nextPtr]
    exact fun hin ↦ hz (List.mem_cons_of_mem c hin)
  · rw [h.encodedOrder, List.length_append, List.length_singleton]
  · refine path_concat.mpr ⟨path_congr (fun a ha ↦ ?_) h.chain, ?_⟩
    · have haz : a ≠ w.nextPtr := by
        rw [h.nextPtr]
        exact fun he ↦ hzl (he ▸ ha)
      rw [dequeue_heap]
      simp only [haz, hcl a (List.mem_append_left _ ha), if_false]
    · rw [dequeue_heap]
      simp only [h.nextPtr, if_true]
  · have hcz : c ≠ w.nextPtr := by
      rw [h.nextPtr]
      exact (hcl z (by simp)).symm
    rw [dequeue_heap]
    simp [hcz]

theorem Input.lt_of_reachable {g : Input} {f : FragmentId} (h : g.Reachable f) : f < g.bound := by
  obtain ⟨r, hr, hpath⟩ := h
  induction hpath with
  | refl =>
    rcases hr with rfl | ⟨hr, -⟩
    · exact g.lt_bound _ List.mem_cons_self
    · exact g.lt_bound _ (List.mem_cons_of_mem _ hr)
  | tail _ hsucc ih => exact g.succ_lt _ ih _ hsucc

theorem Listed.length_le {g : Input} {w : WorkList} {done todo : List FragmentId}
    (h : Listed g w done todo) : done.length ≤ g.bound := by
  have hnodup : done.Nodup := (List.nodup_append.mp h.nodup).1
  have hsub : done ⊆ List.range g.bound := fun f hf ↦
    List.mem_range.mpr (Input.lt_of_reachable (h.reachable f (List.mem_append_left _ hf)))
  have hle := (List.subperm_of_subset hnodup hsub).length_le
  rwa [List.length_range] at hle

theorem raises_orderStep {g : Input} (w : WorkList) (h : ∃ l z todo, Ordered g w l z todo) :
    Raises (fun w ↦ ∃ l z todo, Ordered g w l z todo) WorkList.encodedOrder w w.orderStep := by
  obtain ⟨l, z, todo, h⟩ := h
  cases todo with
  | nil =>
    have hnext : w.next = none := h.listed.path
    rw [WorkList.orderStep, hnext]
    exact .refl ⟨l, z, [], h⟩
  | cons c todo =>
    have hnext : w.next = some c := h.listed.path.1
    rw [WorkList.orderStep, hnext]
    obtain ⟨todo', h'⟩ := h.step
    have hlt : w.encodedOrder < ((w.dequeue c).orderFragment c).encodedOrder := by
      rw [h.encodedOrder, h'.encodedOrder, List.length_append, List.length_singleton]
      omega
    exact ⟨⟨_, _, _, h'⟩, hlt.le, fun _ ↦ hlt⟩

theorem Ordered.stops {g : Input} {w : WorkList} {l todo : List FragmentId} {z : FragmentId}
    (h : Ordered g w l z todo) :
    ∃ w' l' z', Ordered g w' l' z' [] ∧ Stops WorkList.orderStep w w' := by
  have hbound (w : WorkList) (h : ∃ l z todo, Ordered g w l z todo) :
      w.encodedOrder ≤ g.bound + 1 := by
    obtain ⟨l, z, todo, h⟩ := h
    have hle := h.listed.length_le
    rw [List.length_append, List.length_singleton] at hle
    rw [h.encodedOrder]
    omega
  obtain ⟨w', ⟨l', z', todo', h'⟩, hq, hstops⟩ :=
    stops_of_measure raises_orderStep hbound ⟨l, z, todo, h⟩
  cases todo' with
  | cons c todo' =>
    have hnext : w'.next = some c := h'.listed.path.1
    rw [WorkList.orderStep, hnext] at hq
    exact absurd hq (by simp)
  | nil =>
    have hnext : w'.next = none := h'.listed.path
    rw [WorkList.orderStep, hnext] at hstops
    exact ⟨w', l', z', h', hstops⟩

theorem listed_stragglers {g : Input} {w : WorkList} {todo l : List FragmentId}
    (h : Listed g w [] todo) (hl : l ⊆ g.rest) :
    ∃ todo', Listed g (l.foldl
        (fun w f ↦ if (w.heap f).isNonLocalEntry then w.enqueue (some f) else w) w) [] todo' ∧
      Grows w (l.foldl
        (fun w f ↦ if (w.heap f).isNonLocalEntry then w.enqueue (some f) else w) w) [] todo todo' ∧
      todo' ⊆ l ++ todo ∧ ∀ f ∈ l, (g.heap f).isNonLocalEntry = true → f ∈ todo' := by
  induction l generalizing w todo with
  | nil => exact ⟨todo, h, .refl w [] todo, List.Subset.refl _, by simp⟩
  | cons f l ih =>
    obtain ⟨hf, hl⟩ := List.cons_subset.mp hl
    rw [List.foldl_cons]
    have hlocal : (w.heap f).isNonLocalEntry = (g.heap f).isNonLocalEntry :=
      (h.kept f).isNonLocalEntry
    by_cases hn : (g.heap f).isNonLocalEntry = true
    · rw [hlocal, if_pos hn]
      obtain ⟨todo₁, hl₁, hg₁, hin₁, he₁⟩ := h.enqueue (f := f) ⟨f, .inr ⟨hf, hn⟩, .refl⟩
      obtain ⟨todo₂, hl₂, hg₂, hsub, hall⟩ := ih hl₁ hl
      refine ⟨todo₂, hl₂, hg₁.trans hg₂, fun a ha ↦ ?_, fun a ha hna ↦ ?_⟩
      · rcases List.mem_append.mp (hsub ha) with ha | ha
        · exact List.mem_append_left _ (List.mem_cons_of_mem f ha)
        · rw [he₁] at ha
          split_ifs at ha
          · exact List.mem_append_right _ ha
          · rcases List.mem_cons.mp ha with rfl | ha
            · exact List.mem_append_left _ List.mem_cons_self
            · exact List.mem_append_right _ ha
      · rcases List.mem_cons.mp ha with rfl | ha
        · exact hg₂.subset hin₁
        · exact hall a ha hna
    · rw [hlocal, if_neg hn]
      obtain ⟨todo₂, hl₂, hg₂, hsub, hall⟩ := ih h hl
      refine ⟨todo₂, hl₂, hg₂, fun a ha ↦ ?_, fun a ha hna ↦ ?_⟩
      · rcases List.mem_append.mp (hsub ha) with ha | ha
        · exact List.mem_append_left _ (List.mem_cons_of_mem f ha)
        · exact List.mem_append_right _ ha
      · rcases List.mem_cons.mp ha with rfl | ha
        · exact absurd hna hn
        · exact hall a ha hna

def Input.start (g : Input) : WorkList :=
  (enqueueStragglerFragments (g.first :: g.rest) { heap := g.heap, nextPtr := g.first }).enqueue
    (some g.first)

theorem listed_start (g : Input) :
    ∃ todo, Listed g g.start [] (g.first :: todo) ∧ g.start.nextPtr = g.first ∧
      g.start.encodedOrder = 1 ∧ ∀ r, g.Root r → r ∈ g.first :: todo := by
  have hempty : Listed g { heap := g.heap, nextPtr := g.first } [] [] :=
    ⟨List.nodup_nil, rfl, fun f ↦ by simp [(g.fresh f).1], by simp, fun f ↦ .refl _, Nat.one_pos,
      Nat.one_pos⟩
  have hfirst : g.Reachable g.first := ⟨g.first, .inl rfl, .refl⟩
  obtain ⟨todo, hl, hg, hsub, hall⟩ :=
    listed_stragglers hempty (l := g.rest.reverse) (fun f hf ↦ List.mem_reverse.mp hf)
  have hnot : g.first ∉ [] ++ todo := fun hin ↦ by
    have hrest := List.mem_reverse.mp (by simpa using hsub hin)
    exact (List.nodup_cons.mp g.nodup).1 hrest
  obtain ⟨todo₁, hl₁, hg₁, hin₁, he₁⟩ := hl.enqueue hfirst
  rw [if_neg hnot] at he₁
  subst he₁
  have hstart : g.start = (g.rest.reverse.foldl
      (fun (w : WorkList) f ↦ if (w.heap f).isNonLocalEntry then w.enqueue (some f) else w)
      { heap := g.heap, nextPtr := g.first }).enqueue (some g.first) := by
    unfold Input.start enqueueStragglerFragments
    rw [List.reverse_cons, List.foldl_append, List.foldl_cons, List.foldl_nil]
    split_ifs
    · exact WorkList.enqueue_of_marked ((hl₁.marked _).mpr hin₁)
    · rfl
  rw [hstart]
  refine ⟨todo, hl₁, hg₁.nextPtr.trans hg.nextPtr, hg₁.encodedOrder.trans hg.encodedOrder, ?_⟩
  rintro r (rfl | ⟨hr, hn⟩)
  · exact List.mem_cons_self
  · exact List.mem_cons_of_mem _ (hall r (List.mem_reverse.mpr hr) hn)

/-- The fragments are linked, in an order that starts with the first one and holds
those that can be reached. -/
structure EncodeOrder (g : Input) (h : Heap) (order : List FragmentId) : Prop where
  path : Path (fun f ↦ (h f).next) (some g.first) order none
  nodup : order.Nodup
  mem_iff : ∀ f, f ∈ order ↔ g.Reachable f
  kept : ∀ f, Kept (g.heap f) (h f)

theorem Ordered.mem_of_reachable {g : Input} {w : WorkList} {l : List FragmentId}
    {z f : FragmentId} (h : Ordered g w l z []) (hf : g.Reachable f) : f ∈ l ++ [z] := by
  have hroots := h.roots
  have hclosed := h.closed
  rw [List.append_nil] at hroots hclosed
  obtain ⟨r, hr, hpath⟩ := hf
  induction hpath with
  | refl => exact hroots r hr
  | tail _ hsucc ih => exact hclosed _ ih _ hsucc

theorem Ordered.encodeOrder {g : Input} {w : WorkList} {l : List FragmentId} {z : FragmentId}
    (h : Ordered g w l z []) (hl : l ≠ []) : EncodeOrder g w.heap (l ++ [z]) := by
  refine ⟨path_concat.mpr ⟨h.chain, h.last.trans (if_neg hl)⟩, ?_, fun f ↦ ⟨fun hf ↦ ?_, ?_⟩,
    h.listed.kept⟩
  · have hnodup := h.listed.nodup
    rwa [List.append_nil] at hnodup
  · exact h.listed.reachable f (by rwa [List.append_nil])
  · exact h.mem_of_reachable

theorem ordered_start (g : Input) :
    ∃ w l z, Ordered g w l z [] ∧ Stops WorkList.orderStep g.start w := by
  obtain ⟨todo, hl, hptr, horder, hroots⟩ := listed_start g
  have hnext : g.start.next = some g.first := hl.path.1
  have hnot : g.start.nextPtr ∉ todo := by
    rw [hptr]
    exact (List.nodup_cons.mp hl.nodup).1
  have hlast : ((g.start.dequeue g.first).heap g.first).next =
      if ([] : List FragmentId) = [] then some g.first else none := by
    rw [dequeue_heap, hptr]
    simp
  obtain ⟨todo', hfirst⟩ := ordered_of_dequeue hl hnot hroots (by simp) horder rfl hlast
  obtain ⟨w, l, z, h, hstops⟩ := hfirst.stops
  refine ⟨w, l, z, h, stops_of_pass ?_ ?_⟩
  · rw [WorkList.orderStep, hnext]
    exact hstops
  · rw [WorkList.orderStep, hnext]

/-- The order that `OrderFragments` builds, when something other than the first
fragment is to be ordered. -/
theorem encodeOrder_start (g : Input) (hother : ∃ f, f ≠ g.first ∧ g.Reachable f) :
    ∃ w order, EncodeOrder g w.heap order ∧ Stops WorkList.orderStep g.start w := by
  obtain ⟨w, l, z, h, hstops⟩ := ordered_start g
  refine ⟨w, l ++ [z], h.encodeOrder fun hl ↦ ?_, hstops⟩
  subst hl
  have hz : g.first = z := Option.some.inj h.chain
  obtain ⟨f, hf, hreach⟩ := hother
  have hfz : f = z := List.mem_singleton.mp (h.mem_of_reachable hreach)
  exact hf (hfz.trans hz.symm)

theorem next_update {body : Heap → FragmentId → Fragment}
    (hnext : ∀ h f, (body h f).next = (h f).next) (h : Heap) (a b : FragmentId) :
    (update h a (body h a) b).next = (h b).next := by
  rcases eq_or_ne b a with rfl | hb
  · rw [update_self, hnext]
  · rw [update_of_ne hb]

/-- A loop over the fragments in their order that changes each of them, and reads
the others only through `view`, which it does not change. -/
theorem forEncodeOrdered_eq {V : Type*} {body : Heap → FragmentId → Fragment}
    {view : Fragment → V} (hnext : ∀ h f, (body h f).next = (h f).next)
    (hview : ∀ h f, view (body h f) = view (h f))
    (hlocal : ∀ h h' f, h f = h' f → (∀ a, view (h a) = view (h' a)) → body h f = body h' f)
    {h : Heap} {first : FragmentId} {order : List FragmentId} {fuel : ℕ}
    (hp : Path (fun f ↦ (h f).next) (some first) order none) (hn : order.Nodup)
    (hfuel : order.length ≤ fuel) :
    ∃ h', forEncodeOrdered fuel first body h = some h' ∧
      ∀ f, h' f = if f ∈ order then body h f else h f := by
  refine ⟨order.foldl (fun h f ↦ update h f (body h f)) h, ?_, foldl_update hview hlocal hn h⟩
  exact walk_eq_foldl (next_update hnext) hp hfuel

/-- What `AddConnectingJumps` makes of a fragment `a` for which the code of the
others is as in `h`. -/
inductive Connected (h : Heap) (a : Fragment) : Fragment → Prop
  /-- The fragment falls through to the next one, or has no fall-through. -/
  | same (ht : ∀ t, a.fallThrough = some t → a.next = some t ∧ (h t).encodedPc = 0 ∧
      a.cache = (h t).cache) : Connected h a a
  | jump (t : FragmentId) (ht : a.fallThrough = some t) : Connected h a (addFallThroughJump h a t)
  /-- The branch goes to the next fragment and is left out. -/
  | elided (t : FragmentId) (hf : a.fallThrough = none) (hb : a.branch = some t)
      (hn : a.next = some t) (hpc : (h t).encodedPc = 0) (hc : a.cache = (h t).cache) :
      Connected h a (a.modifyInstr a.branchInstr fun i ↦ { i with dontEncode := true })

theorem connected_connect (h : Heap) (f : FragmentId) : Connected h (h f) (connect h f) := by
  unfold connect
  dsimp only
  cases hf : (h f).fallThrough with
  | some t =>
    dsimp only
    split_ifs with hjump
    · exact .jump t hf
    · simp only [not_or, not_not] at hjump
      refine .same fun t' ht' ↦ ?_
      obtain rfl := Option.some.inj (hf.symm.trans ht')
      exact hjump
  | none =>
    have hsame : Connected h (h f) (h f) := .same (by simp [hf])
    cases hb : (h f).branch with
    | none => exact hsame
    | some t =>
      dsimp only
      split_ifs with he
      · exact .elided t hf hb he.1 he.2.2.2 he.2.2.1
      · exact hsame

theorem Connected.fields {h : Heap} {a b : Fragment} (hc : Connected h a b) :
    b.cache = a.cache ∧ b.next = a.next ∧ b.encodedPc = a.encodedPc ∧
      b.encodedSize = a.encodedSize ∧ b.fallThrough = a.fallThrough ∧ b.branch = a.branch ∧
      b.branchInstr = a.branchInstr := by
  cases hc with
  | same => exact ⟨rfl, rfl, rfl, rfl, rfl, rfl, rfl⟩
  | jump t ht => exact ⟨rfl, rfl, rfl, rfl, rfl, rfl, rfl⟩
  | elided t => exact ⟨rfl, rfl, rfl, rfl, rfl, rfl, rfl⟩

theorem next_connect (h : Heap) (f : FragmentId) : (connect h f).next = (h f).next :=
  (connected_connect h f).fields.2.1

def Fragment.place (f : Fragment) : CodeCacheKind × ℕ := (f.cache, f.encodedPc)

theorem connect_local (h h' : Heap) (f : FragmentId) (hf : h f = h' f)
    (hv : ∀ a, (h a).place = (h' a).place) : connect h f = connect h' f := by
  have hcache (a : FragmentId) : (h a).cache = (h' a).cache := congrArg Prod.fst (hv a)
  have hpc (a : FragmentId) : (h a).encodedPc = (h' a).encodedPc := congrArg Prod.snd (hv a)
  simp only [connect, addFallThroughJump, hf, hcache, hpc]

/-- `AddConnectingJumps` finishes when something other than the first fragment is
to be ordered. -/
theorem addConnectingJumps_eq (g : Input) (hother : ∃ f, f ≠ g.first ∧ g.Reachable f) :
    ∃ h h' order N, EncodeOrder g h order ∧
      (∀ f ∈ order, Connected h (h f) (h' f)) ∧ order.length ≤ N ∧
      ∀ fuel, N ≤ fuel →
        addConnectingJumps fuel g.first (g.first :: g.rest) g.heap = some h' := by
  obtain ⟨w, order, horder, N, hN⟩ := encodeOrder_start g hother
  have hview (h : Heap) (f : FragmentId) : (connect h f).place = (h f).place := by
    obtain ⟨hc, -, hpc, -⟩ := (connected_connect h f).fields
    rw [Fragment.place, hc, hpc, Fragment.place]
  refine ⟨w.heap, fun f ↦ if f ∈ order then connect w.heap f else w.heap f, order,
    max N order.length, horder, fun f hf ↦ ?_, le_max_right _ _, fun fuel hfuel ↦ ?_⟩
  · simpa only [if_pos hf] using connected_connect w.heap f
  · obtain ⟨h', he, hh'⟩ := forEncodeOrdered_eq next_connect hview connect_local horder.path
      horder.nodup
      ((le_max_right _ _).trans hfuel)
    have hstart : g.start.orderFragments fuel = some w :=
      hN fuel ((le_max_left _ _).trans hfuel)
    have hrun : addConnectingJumps fuel g.first (g.first :: g.rest) g.heap =
        (g.start.orderFragments fuel).bind fun w ↦
          forEncodeOrdered fuel g.first connect w.heap := rfl
    rw [hrun, hstart, Option.bind_some, he]
    exact congrArg some (funext hh')

end Granary.Assemble.AddConnectingJumps
