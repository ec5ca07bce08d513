import Granary.Base.Iterate
import Granary.Base.Bits
import Granary.Code.Fragment

namespace Granary.Assemble.AnalyzeFlagsUse

open Granary.Base.Iterate Granary.Base.Bits Granary.Arch Granary.Code Function

def allAflagsWithDf : BitVec 32 := 3285

def allAflagsWithoutDf : BitVec 32 := 2261

def zf : BitVec 32 := 1 <<< 6

def allArithmeticFlags : BitVec 32 := allAflagsWithoutDf

def visitInstructionFlags (instr : Arch.Instruction) (flags : FlagUsageInfo) : FlagUsageInfo :=
  let hasRep := instr.hasPrefixRep || instr.hasPrefixRepne
  let readFlags := if hasRep then instr.readFlags ||| zf else instr.readFlags
  let writtenFlags := if hasRep then instr.writtenFlags ||| zf else instr.writtenFlags
  let live := if instr.isConditionalFlagWrite then
      flags.entryLiveFlags ||| (writtenFlags &&& allAflagsWithDf)
    else
      flags.entryLiveFlags &&& (~~~writtenFlags &&& allAflagsWithDf)
  { flags with
    allWrittenFlags := flags.allWrittenFlags ||| (writtenFlags &&& allAflagsWithDf)
    allReadFlags := flags.allReadFlags ||| (readFlags &&& allAflagsWithDf)
    entryLiveFlags := live ||| (readFlags &&& allAflagsWithDf) }

def visitInstructions (instrs : List Code.Instruction) (flags : FlagUsageInfo) : FlagUsageInfo :=
  instrs.foldr (fun instr flags ↦
    match instr with
    | .native ninstr => visitInstructionFlags ninstr.instruction flags
    | _ => flags) flags

/-- The flags that are live before some instructions, given those that are live
after them. -/
def backwardTransfer (instrs : List Code.Instruction) (live : BitVec 32) : BitVec 32 :=
  (visitInstructions instrs { entryLiveFlags := live }).entryLiveFlags

structure LiveFlags where
  appFlags : BitVec 32 := 0
  instFlags : BitVec 32 := 0
deriving DecidableEq, Repr

def liveFlagsOnEntry (h : Heap) : Option FragmentId → LiveFlags
  | none => {}
  | some i =>
    if (h i).isExit then { appFlags := allArithmeticFlags }
    else { appFlags := (h i).appFlags.entryLiveFlags, instFlags := (h i).instFlags.entryLiveFlags }

/-- A fragment that ends in an unconditional branch or a call goes to its branch
successor only. -/
def onlyBranches (f : Fragment) : Bool :=
  match f.branchInstr with
  | some instr => !instr.instruction.isConditionalJump
  | none => false

def liveFlagsOnExit (h : Heap) (i : FragmentId) : LiveFlags :=
  if (h i).isExit then { appFlags := allArithmeticFlags }
  else if onlyBranches (h i) then liveFlagsOnEntry h (h i).branch
  else
    let fallLive := liveFlagsOnEntry h (h i).fallThrough
    let branchLive := liveFlagsOnEntry h (h i).branch
    { appFlags := fallLive.appFlags ||| branchLive.appFlags
      instFlags := fallLive.instFlags ||| branchLive.instFlags }

def allFlagsInfo : FlagUsageInfo :=
  ⟨allArithmeticFlags, allArithmeticFlags, allArithmeticFlags, allArithmeticFlags⟩

def initFlagsUse (frags : List FragmentId) (h : Heap) : Heap :=
  frags.reverse.foldl (fun h i ↦
    if (h i).isExit then update h i { h i with appFlags := allFlagsInfo } else h) h

def newFlags (f : Fragment) (flags : FlagUsageInfo) (live : BitVec 32) : FlagUsageInfo :=
  visitInstructions f.instrs { flags with exitLiveFlags := live, entryLiveFlags := live }

def tryUpdateFlagsUse (h : Heap) (i : FragmentId) : Heap × Bool :=
  let f := h i
  let exitFlags := liveFlagsOnExit h i
  if f.kind = .app then
    let new := newFlags f f.appFlags exitFlags.appFlags
    (update h i { f with appFlags := new }, f.appFlags != new)
  else
    let new := newFlags f f.instFlags exitFlags.instFlags
    let app := { f.appFlags with
      exitLiveFlags := f.appFlags.exitLiveFlags ||| exitFlags.appFlags
      entryLiveFlags := f.appFlags.entryLiveFlags ||| exitFlags.appFlags }
    (update h i { f with instFlags := new, appFlags := app }, f.instFlags != new)

def flagsPass (frags : List FragmentId) : Heap → Heap × Bool :=
  sweep tryUpdateFlagsUse frags.reverse

/-- `AnalyzeFlagsUse`, with at most `fuel` passes over the fragment list. -/
def analyzeFlagsUse (frags : List FragmentId) (fuel : ℕ) (h : Heap) : Option Heap :=
  repeatUntil (flagsPass frags) fuel (initFlagsUse frags h)

/-- One usage record is contained in another, field by field. -/
structure Le (a b : FlagUsageInfo) : Prop where
  entry : Sub a.entryLiveFlags b.entryLiveFlags
  exit : Sub a.exitLiveFlags b.exitLiveFlags
  read : Sub a.allReadFlags b.allReadFlags
  written : Sub a.allWrittenFlags b.allWrittenFlags

theorem Le.refl (a : FlagUsageInfo) : Le a a := ⟨.refl _, .refl _, .refl _, .refl _⟩

theorem Le.trans {a b c : FlagUsageInfo} (h : Le a b) (h' : Le b c) : Le a c :=
  ⟨h.1.trans h'.1, h.2.trans h'.2, h.3.trans h'.3, h.4.trans h'.4⟩

theorem empty_le (a : FlagUsageInfo) : Le {} a :=
  ⟨zero_sub _, zero_sub _, zero_sub _, zero_sub _⟩

def weight (a : FlagUsageInfo) : ℕ :=
  (ones a.entryLiveFlags).card + (ones a.exitLiveFlags).card +
    (ones a.allReadFlags).card + (ones a.allWrittenFlags).card

theorem weight_le (a : FlagUsageInfo) : weight a ≤ 128 := by
  have h₁ := card_ones_le a.entryLiveFlags
  have h₂ := card_ones_le a.exitLiveFlags
  have h₃ := card_ones_le a.allReadFlags
  have h₄ := card_ones_le a.allWrittenFlags
  simp only [weight]
  omega

theorem weight_mono {a b : FlagUsageInfo} (h : Le a b) : weight a ≤ weight b := by
  have h₁ := card_ones_mono h.entry
  have h₂ := card_ones_mono h.exit
  have h₃ := card_ones_mono h.read
  have h₄ := card_ones_mono h.written
  simp only [weight]
  omega

theorem weight_lt {a b : FlagUsageInfo} (h : Le a b) (hne : a ≠ b) : weight a < weight b := by
  have h₁ := card_ones_mono h.entry
  have h₂ := card_ones_mono h.exit
  have h₃ := card_ones_mono h.read
  have h₄ := card_ones_mono h.written
  by_contra hlt
  simp only [weight, not_lt] at hlt
  apply hne
  have eq_of {x y : BitVec 32} (hs : Sub x y) (hc : (ones y).card ≤ (ones x).card) : x = y := by
    by_contra hxy
    have := card_ones_lt hs hxy
    omega
  exact FlagUsageInfo.ext (eq_of h.entry (by omega)) (eq_of h.exit (by omega))
    (eq_of h.read (by omega)) (eq_of h.written (by omega))

def readBy (instrs : List Code.Instruction) : BitVec 32 :=
  (visitInstructions instrs {}).allReadFlags

def writtenBy (instrs : List Code.Instruction) : BitVec 32 :=
  (visitInstructions instrs {}).allWrittenFlags

theorem visitInstructions_eq (instrs : List Code.Instruction) (a : FlagUsageInfo) :
    visitInstructions instrs a =
      { entryLiveFlags := backwardTransfer instrs a.entryLiveFlags
        exitLiveFlags := a.exitLiveFlags
        allReadFlags := a.allReadFlags ||| readBy instrs
        allWrittenFlags := a.allWrittenFlags ||| writtenBy instrs } := by
  induction instrs with
  | nil => simp [visitInstructions, backwardTransfer, readBy, writtenBy]
  | cons instr instrs ih =>
    cases instr with
    | label => exact ih
    | annot => exact ih
    | native ninstr =>
      have hcons (b : FlagUsageInfo) : visitInstructions (.native ninstr :: instrs) b =
          visitInstructionFlags ninstr.instruction (visitInstructions instrs b) := rfl
      simp only [backwardTransfer, readBy, writtenBy, hcons, ih, visitInstructionFlags,
        BitVec.or_assoc]

theorem backwardTransfer_mono (instrs : List Code.Instruction) {a b : BitVec 32} (h : Sub a b) :
    Sub (backwardTransfer instrs a) (backwardTransfer instrs b) := by
  induction instrs with
  | nil => exact h
  | cons instr instrs ih =>
    cases instr with
    | label => exact ih
    | annot => exact ih
    | native ninstr =>
      refine Sub.or ?_ (.refl _)
      by_cases hc : ninstr.instruction.isConditionalFlagWrite = true
      · simp only [hc, if_true]
        exact ih.or (.refl _)
      · simp only [hc]
        exact ih.and _

@[simp] theorem newFlags_entry (f : Fragment) (flags : FlagUsageInfo) (live : BitVec 32) :
    (newFlags f flags live).entryLiveFlags = backwardTransfer f.instrs live := by
  rw [newFlags, visitInstructions_eq]

@[simp] theorem newFlags_exit (f : Fragment) (flags : FlagUsageInfo) (live : BitVec 32) :
    (newFlags f flags live).exitLiveFlags = live := by
  rw [newFlags, visitInstructions_eq]

theorem newFlags_mono (f : Fragment) (flags : FlagUsageInfo) {a b : BitVec 32} (h : Sub a b) :
    Le (newFlags f flags a) (newFlags f flags b) := by
  simp only [newFlags, visitInstructions_eq]
  exact ⟨backwardTransfer_mono _ h, h, .refl _, .refl _⟩

theorem newFlags_absorb (f : Fragment) (flags : FlagUsageInfo) {a b : BitVec 32} (h : Sub a b) :
    Le (newFlags f flags a) (newFlags f (newFlags f flags a) b) := by
  simp only [newFlags, visitInstructions_eq]
  exact ⟨backwardTransfer_mono _ h, h, sub_or_left _ _, sub_or_left _ _⟩

/-- The part of a fragment that the analysis does not change. -/
def shape (f : Fragment) : Fragment := { f with appFlags := {}, instFlags := {} }

def current (f : Fragment) : FlagUsageInfo := if f.kind = .app then f.appFlags else f.instFlags

def pending (h : Heap) (i : FragmentId) : FlagUsageInfo :=
  newFlags (h i) (current (h i)) (if (h i).kind = .app then (liveFlagsOnExit h i).appFlags
    else (liveFlagsOnExit h i).instFlags)

theorem tryUpdate_of_ne {h : Heap} {i j : FragmentId} (hj : j ≠ i) :
    (tryUpdateFlagsUse h i).1 j = h j := by
  by_cases hi : (h i).kind = .app <;> simp [tryUpdateFlagsUse, hi, update_of_ne hj]

theorem tryUpdate_inst {h : Heap} {i : FragmentId} (hi : (h i).kind ≠ .app) :
    (tryUpdateFlagsUse h i).1 i = { h i with
      instFlags := pending h i
      appFlags := { (h i).appFlags with
        exitLiveFlags := (h i).appFlags.exitLiveFlags ||| (liveFlagsOnExit h i).appFlags
        entryLiveFlags := (h i).appFlags.entryLiveFlags ||| (liveFlagsOnExit h i).appFlags } } := by
  simp [tryUpdateFlagsUse, pending, current, hi]

theorem tryUpdate_app {h : Heap} {i : FragmentId} (hi : (h i).kind = .app) :
    (tryUpdateFlagsUse h i).1 i = { h i with appFlags := pending h i } := by
  simp [tryUpdateFlagsUse, pending, current, hi]

theorem tryUpdate_changed (h : Heap) (i : FragmentId) :
    (tryUpdateFlagsUse h i).2 = (current (h i) != pending h i) := by
  by_cases hi : (h i).kind = .app <;> simp [tryUpdateFlagsUse, pending, current, hi]

theorem tryUpdate_shape (h : Heap) (i j : FragmentId) :
    shape ((tryUpdateFlagsUse h i).1 j) = shape (h j) := by
  by_cases hj : j = i
  · subst hj
    by_cases hi : (h j).kind = .app
    · rw [tryUpdate_app hi]; rfl
    · rw [tryUpdate_inst hi]; rfl
  · rw [tryUpdate_of_ne hj]

theorem current_tryUpdate (h : Heap) (i : FragmentId) :
    current ((tryUpdateFlagsUse h i).1 i) = pending h i := by
  by_cases hi : (h i).kind = .app
  · rw [tryUpdate_app hi]; simp [current, hi]
  · rw [tryUpdate_inst hi]; simp [current, hi]

def Grows (f g : Fragment) : Prop := Le f.appFlags g.appFlags ∧ Le f.instFlags g.instFlags

theorem grows_tryUpdate {h : Heap} {i : FragmentId} (hi : Le (current (h i)) (pending h i))
    (j : FragmentId) : Grows (h j) ((tryUpdateFlagsUse h i).1 j) := by
  by_cases hj : j = i
  · subst hj
    by_cases hk : (h j).kind = .app
    · rw [tryUpdate_app hk]
      simp only [current, hk, if_true] at hi
      exact ⟨hi, .refl _⟩
    · rw [tryUpdate_inst hk]
      simp only [current, hk, if_false] at hi
      exact ⟨⟨sub_or_left _ _, sub_or_left _ _, .refl _, .refl _⟩, hi⟩
  · rw [tryUpdate_of_ne hj]
    exact ⟨.refl _, .refl _⟩

/-- Two heaps that differ in flags only, where exit fragments aside the second
has all the flags of the first. -/
structure HeapLe (h h' : Heap) : Prop where
  shape : ∀ i, shape (h' i) = shape (h i)
  grows : ∀ i, (h i).isExit = false → Grows (h i) (h' i)

theorem HeapLe.kind {h h' : Heap} (hh : HeapLe h h') (i : FragmentId) :
    (h' i).kind = (h i).kind := (congrArg Fragment.kind (hh.shape i) :)

theorem HeapLe.isExit {h h' : Heap} (hh : HeapLe h h') (i : FragmentId) :
    (h' i).isExit = (h i).isExit := (congrArg Fragment.isExit (hh.shape i) :)

theorem liveFlagsOnEntry_mono {h h' : Heap} (hh : HeapLe h h') (o : Option FragmentId) :
    Sub (liveFlagsOnEntry h o).appFlags (liveFlagsOnEntry h' o).appFlags ∧
      Sub (liveFlagsOnEntry h o).instFlags (liveFlagsOnEntry h' o).instFlags := by
  cases o with
  | none => exact ⟨.refl _, .refl _⟩
  | some i =>
    simp only [liveFlagsOnEntry, hh.isExit]
    cases he : (h i).isExit with
    | true => exact ⟨.refl _, .refl _⟩
    | false => exact ⟨(hh.grows i he).1.entry, (hh.grows i he).2.entry⟩

theorem liveFlagsOnExit_mono {h h' : Heap} (hh : HeapLe h h') (i : FragmentId) :
    Sub (liveFlagsOnExit h i).appFlags (liveFlagsOnExit h' i).appFlags ∧
      Sub (liveFlagsOnExit h i).instFlags (liveFlagsOnExit h' i).instFlags := by
  have hb : onlyBranches (h' i) = onlyBranches (h i) := (congrArg onlyBranches (hh.shape i) :)
  have hf : (h' i).fallThrough = (h i).fallThrough := (congrArg Fragment.fallThrough (hh.shape i) :)
  have hr : (h' i).branch = (h i).branch := (congrArg Fragment.branch (hh.shape i) :)
  have hfall := liveFlagsOnEntry_mono hh (h i).fallThrough
  have hbranch := liveFlagsOnEntry_mono hh (h i).branch
  simp only [liveFlagsOnExit, hh.isExit, hb, hf, hr]
  split_ifs
  · exact ⟨.refl _, .refl _⟩
  · exact hbranch
  · exact ⟨hfall.1.or hbranch.1, hfall.2.or hbranch.2⟩

theorem pending_mono {h h' : Heap} (hh : HeapLe h h') {i : FragmentId} (hi : h' i = h i) :
    Le (pending h i) (pending h' i) := by
  have hl := liveFlagsOnExit_mono hh i
  simp only [pending, hi]
  split_ifs
  · exact newFlags_mono _ _ hl.1
  · exact newFlags_mono _ _ hl.2

/-- Every fragment, apart from the exit fragments not yet visited, has a subset
of the flags that its next update gives it. -/
def Rising (visited : List FragmentId) (h : Heap) : Prop :=
  ∀ i, ((h i).isExit = true → i ∈ visited) → Le (current (h i)) (pending h i)

theorem heapLe_tryUpdate {h : Heap} {visited : List FragmentId} (hr : Rising visited h)
    (i : FragmentId) : HeapLe h (tryUpdateFlagsUse h i).1 := by
  refine ⟨tryUpdate_shape h i, fun j hj ↦ ?_⟩
  by_cases hji : j = i
  · subst hji
    exact grows_tryUpdate (hr j fun he ↦ by simp [hj] at he) j
  · rw [tryUpdate_of_ne hji]
    exact ⟨.refl _, .refl _⟩

theorem rising_tryUpdate {h : Heap} {visited : List FragmentId} (hr : Rising visited h)
    (i : FragmentId) : Rising (i :: visited) (tryUpdateFlagsUse h i).1 := by
  have hle := heapLe_tryUpdate hr i
  intro j hj
  by_cases hji : j = i
  · subst hji
    have hl := liveFlagsOnExit_mono hle j
    have hnew : newFlags ((tryUpdateFlagsUse h j).1 j) = newFlags (h j) := by
      funext flags live
      exact (congrArg (fun f ↦ newFlags f flags live) (tryUpdate_shape h j j) :)
    have hp : pending (tryUpdateFlagsUse h j).1 j = newFlags (h j) (pending h j)
        (if (h j).kind = .app then (liveFlagsOnExit (tryUpdateFlagsUse h j).1 j).appFlags
          else (liveFlagsOnExit (tryUpdateFlagsUse h j).1 j).instFlags) := by
      rw [pending, current_tryUpdate, hnew, hle.kind]
    rw [current_tryUpdate, hp]
    simp only [pending]
    split_ifs
    · exact newFlags_absorb _ _ hl.1
    · exact newFlags_absorb _ _ hl.2
  · have he := tryUpdate_of_ne (h := h) hji
    rw [he]
    refine (hr j fun hx ↦ ?_).trans (pending_mono hle he)
    rw [he] at hj
    exact (List.mem_cons.mp (hj hx)).resolve_left hji

theorem rising_sweep (l : List FragmentId) {h : Heap} {visited : List FragmentId}
    (hr : Rising visited h) : Rising (l.reverse ++ visited) (sweep tryUpdateFlagsUse l h).1 := by
  induction l generalizing h visited with
  | nil => exact hr
  | cons i l ih =>
    have hs := ih (rising_tryUpdate hr i)
    simpa only [List.reverse_cons, List.append_assoc, List.singleton_append, sweep] using hs

def totalWeight (frags : List FragmentId) (h : Heap) : ℕ :=
  (frags.map fun i ↦ weight (h i).appFlags + weight (h i).instFlags).sum

theorem totalWeight_le (frags : List FragmentId) (h : Heap) :
    totalWeight frags h ≤ 256 * frags.length := by
  have hle := List.sum_le_card_nsmul
    (frags.map fun i ↦ weight (h i).appFlags + weight (h i).instFlags)
    256 (by
      intro x hx
      obtain ⟨i, -, rfl⟩ := List.mem_map.mp hx
      have h₁ := weight_le (h i).appFlags
      have h₂ := weight_le (h i).instFlags
      omega)
  simpa [totalWeight, mul_comm] using hle

theorem totalWeight_mono (frags : List FragmentId) {h h' : Heap} (hg : ∀ i, Grows (h i) (h' i)) :
    totalWeight frags h ≤ totalWeight frags h' :=
  List.sum_le_sum fun i _ ↦ Nat.add_le_add (weight_mono (hg i).1) (weight_mono (hg i).2)

theorem totalWeight_lt {frags : List FragmentId} {h : Heap} {i : FragmentId} (hi : i ∈ frags)
    (hle : Le (current (h i)) (pending h i)) (hc : (tryUpdateFlagsUse h i).2 = true) :
    totalWeight frags h < totalWeight frags (tryUpdateFlagsUse h i).1 := by
  rw [tryUpdate_changed, bne_iff_ne] at hc
  have hlt := weight_lt hle hc
  have hg := grows_tryUpdate hle
  refine List.sum_lt_sum _ _ (fun j _ ↦ Nat.add_le_add (weight_mono (hg j).1) (weight_mono (hg j).2))
    ⟨i, hi, ?_⟩
  have happ := weight_mono (hg i).1
  have hinst := weight_mono (hg i).2
  rw [← current_tryUpdate] at hlt
  by_cases hk : (h i).kind = .app
  · have hk' : ((tryUpdateFlagsUse h i).1 i).kind = .app := by
      rw [tryUpdate_app hk]; exact hk
    simp only [current, hk, hk', if_true] at hlt
    omega
  · have hk' : ((tryUpdateFlagsUse h i).1 i).kind ≠ .app := by
      rw [tryUpdate_inst hk]; exact hk
    simp only [current, hk, hk', if_false] at hlt
    omega

structure Invariant (frags : List FragmentId) (h₀ h : Heap) : Prop where
  rising : Rising frags h
  shape : ∀ i, shape (h i) = shape (h₀ i)
  through : ∀ i, (h i).kind ≠ .app →
    (h i).appFlags.entryLiveFlags = (h i).appFlags.exitLiveFlags

theorem through_tryUpdate {h : Heap} (ht : ∀ i, (h i).kind ≠ .app →
      (h i).appFlags.entryLiveFlags = (h i).appFlags.exitLiveFlags) (i j : FragmentId)
    (hj : ((tryUpdateFlagsUse h i).1 j).kind ≠ .app) :
    ((tryUpdateFlagsUse h i).1 j).appFlags.entryLiveFlags =
      ((tryUpdateFlagsUse h i).1 j).appFlags.exitLiveFlags := by
  by_cases hji : j = i
  · subst hji
    by_cases hk : (h j).kind = .app
    · rw [tryUpdate_app hk] at hj
      exact absurd hk hj
    · rw [tryUpdate_inst hk, ht j hk]
  · rw [tryUpdate_of_ne hji] at hj ⊢
    exact ht j hj

theorem invariant_tryUpdate {frags : List FragmentId} {h₀ h : Heap} (hv : Invariant frags h₀ h)
    (i : FragmentId) : Invariant frags h₀ (tryUpdateFlagsUse h i).1 := by
  refine ⟨fun j hj ↦ rising_tryUpdate hv.rising i j fun he ↦ List.mem_cons_of_mem i (hj he),
    fun j ↦ (tryUpdate_shape h i j).trans (hv.shape j), through_tryUpdate hv.through i⟩

/-- Fragments as their constructors leave them: nothing is known of their flags. -/
def Fresh (h : Heap) : Prop := ∀ i, (h i).appFlags = {} ∧ (h i).instFlags = {}

theorem initFlagsUse_cases (frags : List FragmentId) (h : Heap) (i : FragmentId) :
    initFlagsUse frags h i = h i ∨
      (h i).isExit = true ∧ initFlagsUse frags h i = { h i with appFlags := allFlagsInfo } := by
  unfold initFlagsUse
  induction frags.reverse generalizing h with
  | nil => exact Or.inl rfl
  | cons j l ih =>
    rw [List.foldl_cons]
    by_cases hj : (h j).isExit = true
    · rw [if_pos hj]
      by_cases hij : i = j
      · subst hij
        refine Or.inr ⟨hj, ?_⟩
        have hh := ih (update h i { h i with appFlags := allFlagsInfo })
        simp only [update_self] at hh
        exact hh.elim id And.right
      · have hh := ih (update h j { h j with appFlags := allFlagsInfo })
        rwa [update_of_ne hij] at hh
    · rw [if_neg hj]
      exact ih h

theorem initFlagsUse_shape (frags : List FragmentId) (h : Heap) (i : FragmentId) :
    shape (initFlagsUse frags h i) = shape (h i) := by
  rcases initFlagsUse_cases frags h i with he | ⟨-, he⟩
  · rw [he]
  · rw [he]; rfl

theorem initFlagsUse_rising (frags : List FragmentId) {h : Heap} (hf : Fresh h) :
    Rising [] (initFlagsUse frags h) := by
  intro i hi
  rcases initFlagsUse_cases frags h i with he | ⟨hx, he⟩
  · have hc : current (initFlagsUse frags h i) = {} := by
      rw [he, current, (hf i).1, (hf i).2, ite_self]
    rw [hc]
    exact empty_le _
  · rw [he] at hi
    exact absurd (hi hx) List.not_mem_nil

theorem initFlagsUse_through (frags : List FragmentId) {h : Heap} (hf : Fresh h) (i : FragmentId) :
    (initFlagsUse frags h i).appFlags.entryLiveFlags =
      (initFlagsUse frags h i).appFlags.exitLiveFlags := by
  rcases initFlagsUse_cases frags h i with he | ⟨-, he⟩
  · rw [he, (hf i).1]
  · rw [he]; rfl

theorem raises_tryUpdate {frags : List FragmentId} {h₀ h : Heap} (hv : Invariant frags h₀ h)
    {i : FragmentId} (hi : i ∈ frags) :
    Raises (Invariant frags h₀) (totalWeight frags) h (tryUpdateFlagsUse h i) := by
  have hle := hv.rising i fun _ ↦ hi
  exact ⟨invariant_tryUpdate hv i, totalWeight_mono frags (grows_tryUpdate hle),
    totalWeight_lt hi hle⟩

/-- The analysis stops for every graph and every order of its fragments, after a
pass that reports no change. -/
theorem analysis_stops (frags : List FragmentId) {h : Heap} (hf : Fresh h) :
    ∃ t, (∀ i, shape (t i) = shape (h i)) ∧
      (∀ i, (t i).kind ≠ .app → (t i).appFlags.entryLiveFlags = (t i).appFlags.exitLiveFlags) ∧
      (flagsPass frags t).2 = false ∧
      Stops (flagsPass frags) (initFlagsUse frags h) (flagsPass frags t).1 := by
  have hshape := initFlagsUse_shape frags h
  have hthrough := initFlagsUse_through frags hf
  cases hq : (flagsPass frags (initFlagsUse frags h)).2 with
  | false => exact ⟨_, hshape, fun i _ ↦ hthrough i, hq, stops_of_quiet hq⟩
  | true =>
    have hfirst : Invariant frags h (flagsPass frags (initFlagsUse frags h)).1 := by
      unfold flagsPass
      refine ⟨?_, ?_, ?_⟩
      · have hr := rising_sweep frags.reverse (initFlagsUse_rising frags hf)
        simpa only [List.reverse_reverse, List.append_nil] using hr
      · exact sweep_preserves (P := fun (g : Heap) ↦ ∀ i, shape (g i) = shape (h i))
          (fun i _ g hg j ↦ (tryUpdate_shape g i j).trans (hg j)) hshape
      · exact sweep_preserves (P := fun (g : Heap) ↦ ∀ i, (g i).kind ≠ .app →
          (g i).appFlags.entryLiveFlags = (g i).appFlags.exitLiveFlags)
          (fun i _ g hg ↦ through_tryUpdate hg i) fun i _ ↦ hthrough i
    obtain ⟨t, ht, hquiet, hstop⟩ := stops_of_measure
      (fun g hg ↦ raises_sweep (fun i hi g hg ↦ raises_tryUpdate hg (List.mem_reverse.mp hi)) hg)
      (fun g _ ↦ totalWeight_le frags g) hfirst
    exact ⟨t, ht.shape, ht.through, hquiet, stops_of_pass hstop hq⟩

def liveSuccessors (f : Fragment) : List FragmentId :=
  if f.isExit then []
  else if onlyBranches f then f.branch.toList
  else f.fallThrough.toList ++ f.branch.toList

theorem liveFlagsOnEntry_sub {h : Heap} {o : Option FragmentId} {x : BitVec 32}
    (ho : ∀ j ∈ o.toList, Sub (liveFlagsOnEntry h (some j)).appFlags x) :
    Sub (liveFlagsOnEntry h o).appFlags x := by
  cases o with
  | none => exact zero_sub x
  | some j => exact ho j (by simp)

theorem liveFlagsOnExit_sub {h : Heap} {i : FragmentId} {x : BitVec 32}
    (hx : (h i).isExit = true → Sub allArithmeticFlags x)
    (hs : ∀ j ∈ liveSuccessors (h i), Sub (liveFlagsOnEntry h (some j)).appFlags x) :
    Sub (liveFlagsOnExit h i).appFlags x := by
  unfold liveSuccessors at hs
  unfold liveFlagsOnExit
  split_ifs at hs ⊢ with he hb
  · exact hx he
  · exact liveFlagsOnEntry_sub hs
  · refine or_sub (liveFlagsOnEntry_sub fun j hj ↦ hs j ?_) (liveFlagsOnEntry_sub fun j hj ↦ hs j ?_)
    · exact List.mem_append_left _ hj
    · exact List.mem_append_right _ hj

theorem sub_liveFlagsOnExit {h : Heap} {i j : FragmentId} (hj : j ∈ liveSuccessors (h i)) :
    Sub (liveFlagsOnEntry h (some j)).appFlags (liveFlagsOnExit h i).appFlags := by
  unfold liveSuccessors at hj
  unfold liveFlagsOnExit
  split_ifs at hj ⊢ with he hb
  · exact absurd hj List.not_mem_nil
  · rw [Option.mem_toList.mp hj]
    exact .refl _
  · rcases List.mem_append.mp hj with hj | hj
    · rw [Option.mem_toList.mp hj]
      exact sub_or_left _ _
    · rw [Option.mem_toList.mp hj]
      exact sub_or_right _ _

/-- What a step that reports no change leaves alone: all but the application
flags of the instrumentation fragments. -/
structure Settled (h h' : Heap) : Prop where
  shape : ∀ i, shape (h' i) = shape (h i)
  inst : ∀ i, (h' i).instFlags = (h i).instFlags
  app : ∀ i, (h i).kind = .app → (h' i).appFlags = (h i).appFlags

theorem Settled.refl (h : Heap) : Settled h h := ⟨fun _ ↦ rfl, fun _ ↦ rfl, fun _ _ ↦ rfl⟩

theorem Settled.kind {h h' : Heap} (hs : Settled h h') (i : FragmentId) :
    (h' i).kind = (h i).kind := (congrArg Fragment.kind (hs.shape i) :)

theorem Settled.trans {a b c : Heap} (h : Settled a b) (h' : Settled b c) : Settled a c :=
  ⟨fun i ↦ (h'.shape i).trans (h.shape i), fun i ↦ (h'.inst i).trans (h.inst i),
    fun i hi ↦ (h'.app i ((h.kind i).trans hi)).trans (h.app i hi)⟩

theorem settled_tryUpdate {h : Heap} {i : FragmentId} (hq : (tryUpdateFlagsUse h i).2 = false) :
    Settled h (tryUpdateFlagsUse h i).1 := by
  rw [tryUpdate_changed, bne_eq_false_iff_eq] at hq
  refine ⟨tryUpdate_shape h i, fun j ↦ ?_, fun j hk ↦ ?_⟩
  · by_cases hj : j = i
    · subst hj
      by_cases hk : (h j).kind = .app
      · rw [tryUpdate_app hk]
      · rw [tryUpdate_inst hk, ← hq]
        simp only [current, hk, if_false]
    · rw [tryUpdate_of_ne hj]
  · by_cases hj : j = i
    · subst hj
      rw [tryUpdate_app hk, ← hq]
      simp only [current, hk, if_true]
    · rw [tryUpdate_of_ne hj]

theorem sweep_of_not_mem {l : List FragmentId} {j : FragmentId} (hj : j ∉ l) (h : Heap) :
    (sweep tryUpdateFlagsUse l h).1 j = h j := by
  induction l generalizing h with
  | nil => rfl
  | cons i l ih =>
    rw [List.mem_cons, not_or] at hj
    exact (ih hj.2 _).trans (tryUpdate_of_ne hj.1)

theorem settled_sweep {l : List FragmentId} {h : Heap}
    (hq : (sweep tryUpdateFlagsUse l h).2 = false) : Settled h (sweep tryUpdateFlagsUse l h).1 := by
  induction l generalizing h with
  | nil => exact .refl h
  | cons i l ih =>
    simp only [sweep, Bool.or_eq_false_iff] at hq ⊢
    exact (settled_tryUpdate hq.1).trans (ih hq.2)

theorem Settled.liveFlagsOnEntry_inst {h h' : Heap} (hs : Settled h h') (o : Option FragmentId) :
    (liveFlagsOnEntry h' o).instFlags = (liveFlagsOnEntry h o).instFlags := by
  cases o with
  | none => rfl
  | some i =>
    have he : (h' i).isExit = (h i).isExit := (congrArg Fragment.isExit (hs.shape i) :)
    simp only [liveFlagsOnEntry, he, hs.inst]
    split_ifs <;> rfl

theorem Settled.liveFlagsOnExit_inst {h h' : Heap} (hs : Settled h h') (i : FragmentId) :
    (liveFlagsOnExit h' i).instFlags = (liveFlagsOnExit h i).instFlags := by
  have he : (h' i).isExit = (h i).isExit := (congrArg Fragment.isExit (hs.shape i) :)
  have hb : onlyBranches (h' i) = onlyBranches (h i) := (congrArg onlyBranches (hs.shape i) :)
  have hf : (h' i).fallThrough = (h i).fallThrough := (congrArg Fragment.fallThrough (hs.shape i) :)
  have hr : (h' i).branch = (h i).branch := (congrArg Fragment.branch (hs.shape i) :)
  simp only [liveFlagsOnExit, he, hb, hf, hr]
  split_ifs
  · rfl
  · exact hs.liveFlagsOnEntry_inst _
  · simp only [hs.liveFlagsOnEntry_inst]

/-- The solution of the flow equations of one fragment. Its own kind of flags is
solved exactly; the application flags that pass through an instrumentation
fragment include those of the successors that the pass has met already. -/
structure Solved (frags : List FragmentId) (h : Heap) (i : FragmentId) : Prop where
  appEntry : (h i).kind = .app →
    (h i).appFlags.entryLiveFlags = backwardTransfer (h i).instrs (h i).appFlags.exitLiveFlags
  instExit : (h i).kind ≠ .app → (h i).instFlags.exitLiveFlags = (liveFlagsOnExit h i).instFlags
  instEntry : (h i).kind ≠ .app →
    (h i).instFlags.entryLiveFlags = backwardTransfer (h i).instrs (h i).instFlags.exitLiveFlags
  through : (h i).kind ≠ .app → (h i).appFlags.entryLiveFlags = (h i).appFlags.exitLiveFlags
  appExit : (∀ j ∈ liveSuccessors (h i), (h j).kind ≠ .app → j ∈ frags →
      frags.idxOf i ≤ frags.idxOf j) →
    Sub (liveFlagsOnExit h i).appFlags (h i).appFlags.exitLiveFlags

/-- In a list without repetitions, what comes no earlier than an element comes
no later than it in the reversed list. -/
theorem not_mem_of_idxOf_le {frags l m : List FragmentId} {i j : FragmentId} (hn : frags.Nodup)
    (hlm : frags.reverse = l ++ i :: m) (hj : j ∈ frags → frags.idxOf i ≤ frags.idxOf j) :
    j ∉ m := by
  have he : frags = m.reverse ++ i :: l.reverse := by
    rw [← List.reverse_reverse frags, hlm]
    simp
  intro hm
  have hm' : j ∈ m.reverse := List.mem_reverse.mpr hm
  have hi : i ∉ m.reverse := by
    rw [he] at hn
    exact fun hi ↦ (List.nodup_append.mp hn).2.2 i hi i List.mem_cons_self rfl
  have hle := hj (by rw [he]; exact List.mem_append_left _ hm')
  rw [he, List.idxOf_append_of_mem hm', List.idxOf_append_of_notMem hi, List.idxOf_cons_self] at hle
  have hlt := List.idxOf_lt_length_of_mem hm'
  omega

/-- A pass without a change, seen from one fragment: the state `u` in which its
turn comes, and the fragments `m` whose turn comes after it. -/
theorem quiet_turn {frags : List FragmentId} (hn : frags.Nodup) {t : Heap}
    (hq : (flagsPass frags t).2 = false) {i : FragmentId} (hi : i ∈ frags) :
    ∃ (u : Heap) (m : List FragmentId),
      Settled u (flagsPass frags t).1 ∧ current (u i) = pending u i ∧
      (∀ j ∉ m, (flagsPass frags t).1 j = (tryUpdateFlagsUse u i).1 j) ∧
      ∀ j, (j ∈ frags → frags.idxOf i ≤ frags.idxOf j) → j ∉ m := by
  obtain ⟨l, m, hlm⟩ := List.append_of_mem (List.mem_reverse.mpr hi)
  have hsplit := sweep_append tryUpdateFlagsUse l (i :: m) t
  rw [flagsPass, hlm] at hq ⊢
  have hstep := sweep_quiet hq
  rw [tryUpdate_changed, bne_eq_false_iff_eq] at hstep
  rw [hsplit] at hq ⊢
  exact ⟨(sweep tryUpdateFlagsUse l t).1, m, settled_sweep (Bool.or_eq_false_iff.mp hq).2, hstep,
    fun j hj ↦ sweep_of_not_mem hj _, fun j hj ↦ not_mem_of_idxOf_le hn hlm hj⟩

theorem Settled.liveFlagsOnEntry_app {u v : Heap} (hs : Settled u v) {j : FragmentId}
    (hj : (v j).isExit = true ∨ (v j).kind = .app ∨ v j = u j) :
    liveFlagsOnEntry v (some j) = liveFlagsOnEntry u (some j) := by
  have he : (v j).isExit = (u j).isExit := (congrArg Fragment.isExit (hs.shape j) :)
  rcases hj with hj | hj | hj
  · simp only [liveFlagsOnEntry, ← he, hj, if_true]
  · simp only [liveFlagsOnEntry, he, hs.inst, hs.app j (hs.kind j ▸ hj)]
  · simp only [liveFlagsOnEntry, hj]

theorem solved_of_quiet {frags : List FragmentId} (hn : frags.Nodup) {t : Heap}
    (hq : (flagsPass frags t).2 = false)
    (ht : ∀ i, ((flagsPass frags t).1 i).kind ≠ .app →
      ((flagsPass frags t).1 i).appFlags.entryLiveFlags =
        ((flagsPass frags t).1 i).appFlags.exitLiveFlags)
    {i : FragmentId} (hi : i ∈ frags) : Solved frags (flagsPass frags t).1 i := by
  obtain ⟨u, m, hs, hcur, hlast, hm⟩ := quiet_turn hn hq hi
  generalize (flagsPass frags t).1 = v at *
  have hinstrs : (v i).instrs = (u i).instrs := (congrArg Fragment.instrs (hs.shape i) :)
  have happ (hk : (v i).kind = .app) : (v i).appFlags = pending u i := by
    rw [hs.kind] at hk
    rw [hs.app i hk, ← hcur, current, if_pos hk]
  have hinst (hk : (v i).kind ≠ .app) : (v i).instFlags = pending u i := by
    rw [hs.kind] at hk
    rw [hs.inst i, ← hcur, current, if_neg hk]
  have hexit : Sub (liveFlagsOnExit u i).appFlags (v i).appFlags.exitLiveFlags := by
    by_cases hk : (v i).kind = .app
    · rw [happ hk, pending, newFlags_exit, if_pos (hs.kind i ▸ hk)]
      exact .refl _
    · rw [hlast i (hm i fun _ ↦ le_rfl), tryUpdate_inst (hs.kind i ▸ hk)]
      exact sub_or_right _ _
  refine ⟨fun hk ↦ ?_, fun hk ↦ ?_, fun hk ↦ ?_, ht i, fun hord ↦ ?_⟩
  · rw [happ hk, hinstrs, pending, newFlags_entry, newFlags_exit]
  · rw [hinst hk, pending, newFlags_exit, if_neg (hs.kind i ▸ hk), hs.liveFlagsOnExit_inst]
  · rw [hinst hk, hinstrs, pending, newFlags_entry, newFlags_exit]
  · refine liveFlagsOnExit_sub (fun hx ↦ ?_) fun j hj ↦ ?_
    · have hx' : (u i).isExit = true := (congrArg Fragment.isExit (hs.shape i) :).symm.trans hx
      simpa only [liveFlagsOnExit, hx', if_true] using hexit
    · have hj' : j ∈ liveSuccessors (u i) := by
        have he : liveSuccessors (v i) = liveSuccessors (u i) :=
          (congrArg liveSuccessors (hs.shape i) :)
        rwa [← he]
      have hsub := (sub_liveFlagsOnExit hj').trans hexit
      by_cases hsame : (v j).isExit = true ∨ (v j).kind = .app ∨ v j = u j
      · rwa [hs.liveFlagsOnEntry_app hsame]
      · simp only [not_or] at hsame
        obtain ⟨hx, hk, hne⟩ := hsame
        have hji : j = i := by
          by_contra hji
          exact hne ((hlast j (hm j (hord j hj hk))).trans (tryUpdate_of_ne hji))
        subst hji
        simp only [liveFlagsOnEntry, hx]
        rw [if_neg Bool.false_ne_true, ht j hk]
        exact .refl _

/-- `AnalyzeFlagsUse` terminates for every fragment graph and every order of the
fragment list, changes nothing but flags, and solves the flow equations. -/
theorem analyzeFlagsUse_solved {frags : List FragmentId} (hn : frags.Nodup) {h : Heap}
    (hf : Fresh h) :
    ∃ h', (∃ N, ∀ n, N ≤ n → analyzeFlagsUse frags n h = some h') ∧
      (∀ i, shape (h' i) = shape (h i)) ∧ ∀ i ∈ frags, Solved frags h' i := by
  obtain ⟨t, hshape, hthrough, hquiet, hstops⟩ := analysis_stops frags hf
  refine ⟨(flagsPass frags t).1, hstops, fun i ↦ ?_, fun i hi ↦ solved_of_quiet hn hquiet ?_ hi⟩
  · refine Eq.trans ?_ (hshape i)
    exact sweep_preserves (P := fun (g : Heap) ↦ shape (g i) = shape (t i))
      (fun j _ g hg ↦ (tryUpdate_shape g j i).trans hg) rfl
  · exact sweep_preserves (P := fun (g : Heap) ↦ ∀ i, (g i).kind ≠ .app →
      (g i).appFlags.entryLiveFlags = (g i).appFlags.exitLiveFlags)
      (fun j _ g hg ↦ through_tryUpdate hg j) hthrough

def FixedPoint (frags : List FragmentId) (h : Heap) : Prop :=
  ∀ i ∈ frags,
    Sub (liveFlagsOnExit h i).appFlags (h i).appFlags.exitLiveFlags ∧
    Sub (liveFlagsOnExit h i).instFlags (h i).instFlags.exitLiveFlags ∧
    (h i).instFlags.entryLiveFlags = backwardTransfer (h i).instrs (h i).instFlags.exitLiveFlags ∧
    (h i).appFlags.entryLiveFlags =
      if (h i).kind = .app then backwardTransfer (h i).instrs (h i).appFlags.exitLiveFlags
      else (h i).appFlags.exitLiveFlags

/-- Application code, instrumentation code that reads the zero flag, and an
exit. -/
def appThenInst : Heap
  | 0 => { kind := .app, fallThrough := some 1 }
  | 1 => { kind := .inst, instrs := [.native { instruction := { readFlags := zf } }],
           fallThrough := some 2 }
  | _ => { cls := .exit, kind := .app }

theorem appThenInst_fresh : Fresh appThenInst
  | 0 => ⟨rfl, rfl⟩
  | 1 => ⟨rfl, rfl⟩
  | _ + 2 => ⟨rfl, rfl⟩

theorem analyzeFlagsUse_solved_appThenInst :
    [0, 1, 2].Nodup ∧ Fresh appThenInst ∧
      ∃ h', (∃ N, ∀ n, N ≤ n → analyzeFlagsUse [0, 1, 2] n appThenInst = some h') ∧
        (∀ i, shape (h' i) = shape (appThenInst i)) ∧ ∀ i ∈ [0, 1, 2], Solved [0, 1, 2] h' i :=
  ⟨by decide, appThenInst_fresh, analyzeFlagsUse_solved (by decide) appThenInst_fresh⟩

/-- The instrumentation flags of application fragments are not tracked. -/
theorem appThenInst_not_fixedPoint :
    ¬ ∀ (frags : List FragmentId) (h h' : Heap) (n : ℕ), frags.Nodup → Fresh h →
      (∀ i ∈ frags, (h i).kind ≠ .invalid) → analyzeFlagsUse frags n h = some h' →
      FixedPoint frags h' := by
  intro hall
  have hsome : (analyzeFlagsUse [0, 1, 2] 3 appThenInst).isSome = true := by decide +kernel
  obtain ⟨h', he⟩ := Option.isSome_iff_exists.mp hsome
  have hget : h' = (analyzeFlagsUse [0, 1, 2] 3 appThenInst).getD appThenInst := by rw [he]; rfl
  have hsub := (hall [0, 1, 2] appThenInst h' 3 (by decide) appThenInst_fresh (by decide) he 0
    (by decide)).2.1 6
  rw [hget] at hsub
  revert hsub
  decide +kernel

end Granary.Assemble.AnalyzeFlagsUse
