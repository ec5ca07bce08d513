import Granary.Arch.Instruction
import Granary.Base.TinySet

namespace Granary.Code

open Granary.Base Granary.Arch

abbrev FragmentId := ℕ

abbrev VRId := ℕ

inductive FragmentClass
  | code | flagEntry | flagExit | partitionEntry | partitionExit | nonLocalEntry | exit
deriving DecidableEq, Repr

def FragmentClass.isCode : FragmentClass → Bool
  | .code | .flagEntry | .flagExit => true
  | .partitionEntry | .partitionExit | .nonLocalEntry | .exit => false

inductive FragmentKind
  | invalid | app | inst
deriving DecidableEq, Repr

inductive StackStatus
  | valid | invalid
deriving DecidableEq, Repr

inductive CodeCacheKind
  | hot | cold | frozen | subZero | edge
deriving DecidableEq, Repr

def CodeCacheKind.toNat : CodeCacheKind → ℕ
  | .hot => 0
  | .cold => 1
  | .frozen => 2
  | .subZero => 3
  | .edge => 4

instance : LT CodeCacheKind := ⟨fun a b ↦ a.toNat < b.toNat⟩

instance (a b : CodeCacheKind) : Decidable (a < b) := inferInstanceAs (Decidable (a.toNat < b.toNat))

@[ext]
structure FlagUsageInfo where
  entryLiveFlags : BitVec 32 := 0
  exitLiveFlags : BitVec 32 := 0
  allReadFlags : BitVec 32 := 0
  allWrittenFlags : BitVec 32 := 0
deriving DecidableEq, Repr

structure CodeAttributes where
  followsPartitionEntrypoint : Bool := false
  isCompensationFrag : Bool := false
deriving DecidableEq, Repr

/-- A `NativeInstruction`, with the virtual registers that it defines and uses
once they have been found. There is no virtual register `0`. -/
structure NativeInstruction where
  instruction : Arch.Instruction := {}
  definedVr : VRId := 0
  usedVrs : List VRId := []
deriving DecidableEq, Repr

inductive Instruction
  | native (i : NativeInstruction)
  | label
  | annot
deriving DecidableEq, Repr

/-- A fragment of instructions. The partition and the flag zone, which the
source keeps in disjoint sets, are given by the representatives of their sets. -/
structure Fragment where
  cls : FragmentClass := .code
  kind : FragmentKind := .invalid
  cache : CodeCacheKind := .hot
  instrs : List Instruction := []
  partition : ℕ := 0
  flagZone : ℕ := 0
  appFlags : FlagUsageInfo := {}
  instFlags : FlagUsageInfo := {}
  fallThrough : Option FragmentId := none
  branch : Option FragmentId := none
  branchInstr : Option NativeInstruction := none
  attr : CodeAttributes := {}
  entryRegs : TinySet VRId := []
  exitRegs : TinySet VRId := []
  defRegs : List VRId := []
deriving DecidableEq, Repr

inductive Slot
  | fallThrough | branch
deriving DecidableEq, Repr

namespace Fragment

def isCode (f : Fragment) : Bool := f.cls.isCode

def isExit (f : Fragment) : Bool := f.cls == .exit

def successor (f : Fragment) : Slot → Option FragmentId
  | .fallThrough => f.fallThrough
  | .branch => f.branch

def setSuccessor (f : Fragment) (k : Slot) (o : Option FragmentId) : Fragment :=
  match k with
  | .fallThrough => { f with fallThrough := o }
  | .branch => { f with branch := o }

theorem successor_setSuccessor (f : Fragment) (k k' : Slot) (o : Option FragmentId) :
    (f.setSuccessor k o).successor k' = if k' = k then o else f.successor k' := by
  cases k <;> cases k' <;> rfl

def successors (f : Fragment) : List FragmentId := f.fallThrough.toList ++ f.branch.toList

theorem mem_successors {f : Fragment} {j : FragmentId} :
    j ∈ f.successors ↔ ∃ k, f.successor k = some j := by
  constructor
  · intro hj
    rcases List.mem_append.mp hj with hj | hj
    · exact ⟨.fallThrough, Option.mem_toList.mp hj⟩
    · exact ⟨.branch, Option.mem_toList.mp hj⟩
  · rintro ⟨k, hk⟩
    cases k with
    | fallThrough => exact List.mem_append_left _ (Option.mem_toList.mpr hk)
    | branch => exact List.mem_append_right _ (Option.mem_toList.mpr hk)

end Fragment

abbrev Heap := FragmentId → Fragment

/-- A list of fragments, the heap that they live in, and the next address that
the allocator hands out. -/
structure FragmentList where
  frags : List FragmentId
  heap : Heap
  next : ℕ

namespace FragmentList

/-- The list holds no fragment twice, the successors of its fragments are
allocated, and those among them that hold code are in the list. -/
structure WellFormed (g : FragmentList) : Prop where
  nodup : g.frags.Nodup
  lt_next : ∀ i ∈ g.frags, i < g.next
  succ_lt : ∀ i ∈ g.frags, ∀ j ∈ (g.heap i).successors, j < g.next
  closed : ∀ i ∈ g.frags, ∀ j ∈ (g.heap i).successors, (g.heap j).isCode = true → j ∈ g.frags

def insertAfter (l : List FragmentId) (i j : FragmentId) : List FragmentId :=
  match l with
  | [] => []
  | a :: l => if a = i then a :: j :: l else a :: insertAfter l i j

theorem mem_insertAfter {l : List FragmentId} {i j a : FragmentId} (hi : i ∈ l) :
    a ∈ insertAfter l i j ↔ a ∈ l ∨ a = j := by
  induction l with
  | nil => exact absurd hi List.not_mem_nil
  | cons b l ih =>
    unfold insertAfter
    split_ifs with hb
    · simp only [List.mem_cons]
      tauto
    · have hi' : i ∈ l := (List.mem_cons.mp hi).resolve_left fun h ↦ hb h.symm
      simp only [List.mem_cons, ih hi']
      tauto

theorem insertAfter_of_not_mem {l : List FragmentId} {i j : FragmentId} (hi : i ∉ l) :
    insertAfter l i j = l := by
  induction l with
  | nil => rfl
  | cons b l ih =>
    rw [List.mem_cons, not_or] at hi
    rw [insertAfter, if_neg fun h ↦ hi.1 h.symm, ih hi.2]

theorem nodup_insertAfter {l : List FragmentId} {i j : FragmentId} (hl : l.Nodup) (hj : j ∉ l) :
    (insertAfter l i j).Nodup := by
  induction l with
  | nil => exact hl
  | cons b l ih =>
    obtain ⟨hb, hl⟩ := List.nodup_cons.mp hl
    rw [List.mem_cons, not_or] at hj
    unfold insertAfter
    split_ifs with hbi
    · refine List.nodup_cons.mpr ⟨fun hmem ↦ ?_, List.nodup_cons.mpr ⟨hj.2, hl⟩⟩
      exact (List.mem_cons.mp hmem).elim (fun h ↦ hj.1 h.symm) hb
    · refine List.nodup_cons.mpr ⟨fun hmem ↦ ?_, ih hl hj.2⟩
      by_cases hi : i ∈ l
      · exact ((mem_insertAfter hi).mp hmem).elim hb fun h ↦ hj.1 h.symm
      · exact hb (insertAfter_of_not_mem hi ▸ hmem)

end FragmentList

end Granary.Code
