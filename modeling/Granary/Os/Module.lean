import Granary.Base.Run
import Mathlib.Data.List.Pairwise
import Mathlib.Tactic

namespace Granary.Os.Module

open Granary.Base.Run

structure ModuleAddressRange where
  beginAddr : ℕ
  endAddr : ℕ
  beginOffset : BitVec 64
  perms : BitVec 32
  deriving DecidableEq, Repr

structure ModuleOffset where
  isModule : Bool
  offset : BitVec 64
  deriving DecidableEq, Repr

def findRange : List ModuleAddressRange → ℕ → Option ModuleAddressRange
  | [], _ => none
  | range :: ranges, addr =>
    if range.beginAddr ≤ addr ∧ addr < range.endAddr then some range
    else if addr < range.beginAddr then none
    else findRange ranges addr

def offsetOfPC (ranges : List ModuleAddressRange) (pc : ℕ) : ModuleOffset :=
  match findRange ranges pc with
  | none => ⟨false, 0⟩
  | some range => ⟨true, range.beginOffset + BitVec.ofNat 64 (pc - range.beginAddr)⟩

def contains (ranges : List ModuleAddressRange) (pc : ℕ) : Bool :=
  (findRange ranges pc).isSome

def removeRangeConflicts (beginAddr endAddr : ℕ) :
    List ModuleAddressRange → List ModuleAddressRange × Bool
  | [] => ([], false)
  | curr :: next =>
    if curr.beginAddr < endAddr ∧ beginAddr < curr.endAddr then
      if curr.beginAddr < beginAddr then
        if endAddr < curr.endAddr then
          -- `InsertAfter` writes `afterCurr` over `curr->next`, and nothing links the old `next`
          -- behind it. The walk goes on to `afterCurr`, which is not in conflict and is the last.
          let afterCurr : ModuleAddressRange :=
            ⟨endAddr, curr.endAddr,
              curr.beginOffset + BitVec.ofNat 64 (endAddr - curr.beginAddr), curr.perms⟩
          ([{ curr with endAddr := beginAddr }, afterCurr], true)
        else
          ({ curr with endAddr := beginAddr } :: (removeRangeConflicts beginAddr endAddr next).1,
            true)
      else if endAddr < curr.endAddr then
        ({ curr with
            beginOffset := curr.beginOffset + BitVec.ofNat 64 (endAddr - curr.beginAddr)
            beginAddr := endAddr } :: (removeRangeConflicts beginAddr endAddr next).1, true)
      else ((removeRangeConflicts beginAddr endAddr next).1, true)
    else if endAddr < curr.beginAddr then (curr :: next, false)
    else
      let rest := removeRangeConflicts beginAddr endAddr next
      (curr :: rest.1, rest.2)

def addRangeNoConflict (range : ModuleAddressRange) :
    List ModuleAddressRange → List ModuleAddressRange
  | [] => [range]
  | curr :: next =>
    if range.beginAddr < curr.beginAddr then range :: curr :: next
    else curr :: addRangeNoConflict range next

/-- With equal bounds, `AddRange` calls itself for ever. -/
def addRange (beginAddr endAddr : ℕ) (beginOffset : BitVec 64) (perms : BitVec 32)
    (ranges : List ModuleAddressRange) : Option (List ModuleAddressRange) :=
  if beginAddr < endAddr then
    some (addRangeNoConflict ⟨beginAddr, endAddr, beginOffset, perms⟩
      (removeRangeConflicts beginAddr endAddr ranges).1)
  else if endAddr < beginAddr then
    some (addRangeNoConflict ⟨endAddr, beginAddr, beginOffset, perms⟩
      (removeRangeConflicts endAddr beginAddr ranges).1)
  else none

def removeRange (beginAddr endAddr : ℕ) (ranges : List ModuleAddressRange) :
    List ModuleAddressRange × Bool :=
  removeRangeConflicts beginAddr endAddr ranges

inductive Op where
  | addRange (beginAddr endAddr : ℕ) (beginOffset : BitVec 64) (perms : BitVec 32)
  | removeRange (beginAddr endAddr : ℕ)
  deriving DecidableEq, Repr

namespace Op

def bounds : Op → ℕ × ℕ
  | addRange b e _ _ | removeRange b e => (b, e)

def Valid : Op → Prop
  | addRange b e _ _ => b < e
  | removeRange _ _ => True

def apply (ranges : List ModuleAddressRange) : Op → Option (List ModuleAddressRange)
  | addRange b e offset perms => Module.addRange b e offset perms ranges
  | removeRange b e => some (Module.removeRange b e ranges).1

end Op

/-- An address has an offset in the module and the permissions of its page, or is not of the
module. -/
abbrev AddressMap := ℕ → Option (BitVec 64 × BitVec 32)

/-- An operation says what the addresses it covers are, and nothing of the others. -/
def Op.update (m : AddressMap) : Op → AddressMap
  | addRange b e offset perms => fun pc ↦
    if b ≤ pc ∧ pc < e then some (offset + BitVec.ofNat 64 (pc - b), perms) else m pc
  | removeRange b e => fun pc ↦ if b ≤ pc ∧ pc < e then none else m pc

def specify (ops : List Op) (m : AddressMap) : AddressMap :=
  ops.foldl Op.update m

namespace ModuleAddressRange

variable (r : ModuleAddressRange)

def Covers (pc : ℕ) : Prop :=
  r.beginAddr ≤ pc ∧ pc < r.endAddr

def value (pc : ℕ) : BitVec 64 × BitVec 32 :=
  (r.beginOffset + BitVec.ofNat 64 (pc - r.beginAddr), r.perms)

end ModuleAddressRange

/-- The order that the comment on `ModuleAddressRange::next` asks for. -/
structure Ordered (ranges : List ModuleAddressRange) : Prop where
  nonempty : ∀ r ∈ ranges, r.beginAddr < r.endAddr
  disjoint : ranges.Pairwise fun r s ↦ r.endAddr ≤ s.beginAddr

def lookup (ranges : List ModuleAddressRange) : AddressMap :=
  fun pc ↦ (findRange ranges pc).map (·.value pc)

structure Implements (ranges : List ModuleAddressRange) (m : AddressMap) : Prop where
  ordered : Ordered ranges
  contains_eq (pc : ℕ) : contains ranges pc = (m pc).isSome
  offsetOfPC_eq (pc : ℕ) : offsetOfPC ranges pc = (m pc).elim ⟨false, 0⟩ fun v ↦ ⟨true, v.1⟩
  perms_eq (pc : ℕ) : (findRange ranges pc).map (·.perms) = (m pc).map Prod.snd

theorem implements_iff {ranges : List ModuleAddressRange} {m : AddressMap} :
    Implements ranges m ↔ Ordered ranges ∧ lookup ranges = m := by
  constructor
  · intro h
    refine ⟨h.ordered, funext fun pc ↦ ?_⟩
    have hc := h.contains_eq pc
    have ho := h.offsetOfPC_eq pc
    have hp := h.perms_eq pc
    simp only [contains, offsetOfPC, lookup, ModuleAddressRange.value] at hc ho hp ⊢
    cases hf : findRange ranges pc <;> cases hm : m pc <;> simp_all
  · rintro ⟨ho, rfl⟩
    refine ⟨ho, fun pc ↦ ?_, fun pc ↦ ?_, fun pc ↦ ?_⟩
    · simp [contains, lookup]
    · simp only [offsetOfPC, lookup]
      cases findRange ranges pc <;> rfl
    · simp only [lookup, Option.map_map]
      rfl

namespace Ordered

variable {r : ModuleAddressRange} {rs : List ModuleAddressRange}

theorem tail (h : Ordered (r :: rs)) : Ordered rs :=
  ⟨fun s hs ↦ h.nonempty s (List.mem_cons_of_mem r hs), (List.pairwise_cons.mp h.disjoint).2⟩

theorem lt_head (h : Ordered (r :: rs)) : r.beginAddr < r.endAddr :=
  h.nonempty r List.mem_cons_self

theorem head_le (h : Ordered (r :: rs)) {s : ModuleAddressRange} (hs : s ∈ rs) :
    r.endAddr ≤ s.beginAddr :=
  (List.pairwise_cons.mp h.disjoint).1 s hs

theorem findRange_eq_some_iff (h : Ordered rs) {pc : ℕ} :
    findRange rs pc = some r ↔ r ∈ rs ∧ r.Covers pc := by
  induction rs with
  | nil => simp [findRange]
  | cons s rs ih =>
    have hlt := h.lt_head
    rw [findRange, List.mem_cons]
    split_ifs with hc hb
    · constructor
      · rintro ⟨⟩
        exact ⟨Or.inl rfl, hc⟩
      · rintro ⟨rfl | hr, h1, h2⟩
        · rfl
        · have := h.head_le hr
          omega
    · refine ⟨by simp, ?_⟩
      rintro ⟨rfl | hr, h1, h2⟩
      · omega
      · have := h.head_le hr
        omega
    · rw [ih h.tail]
      refine ⟨fun ⟨hr, hp⟩ ↦ ⟨Or.inr hr, hp⟩, ?_⟩
      rintro ⟨rfl | hr, hp⟩
      · exact absurd hp hc
      · exact ⟨hr, hp⟩

theorem lookup_eq_some_iff (h : Ordered rs) {pc : ℕ} {v : BitVec 64 × BitVec 32} :
    lookup rs pc = some v ↔ ∃ r ∈ rs, r.Covers pc ∧ r.value pc = v := by
  simp only [lookup, Option.map_eq_some_iff, h.findRange_eq_some_iff, and_assoc]

end Ordered

def cut (b e : ℕ) (r : ModuleAddressRange) : List ModuleAddressRange :=
  if r.beginAddr < e ∧ b < r.endAddr then
    (if r.beginAddr < b then [{ r with endAddr := b }] else []) ++
    (if e < r.endAddr then
      [⟨e, r.endAddr, r.beginOffset + BitVec.ofNat 64 (e - r.beginAddr), r.perms⟩] else [])
  else [r]

def ModuleAddressRange.Straddles (r : ModuleAddressRange) (b e : ℕ) : Prop :=
  r.beginAddr < b ∧ r.beginAddr < e ∧ b < r.endAddr ∧ e < r.endAddr

/-- Only the last range is split, and only when the bounds are in order. -/
def Keeps (b e : ℕ) (ranges : List ModuleAddressRange) : Prop :=
  ∀ r ∈ ranges, r.Straddles b e → b ≤ e ∧ ∀ s ∈ ranges, s.endAddr ≤ r.endAddr

section Cut

variable {b e : ℕ} {r : ModuleAddressRange} {rs : List ModuleAddressRange}

theorem Keeps.tail (h : Keeps b e (r :: rs)) : Keeps b e rs := by
  intro s hs hst
  obtain ⟨hbe, hl⟩ := h s (List.mem_cons_of_mem r hs) hst
  exact ⟨hbe, fun t ht ↦ hl t (List.mem_cons_of_mem r ht)⟩

theorem cut_of_end_le (h : e ≤ r.beginAddr) : cut b e r = [r] :=
  if_neg (by omega)

theorem flatMap_cut_of_end_le (h : ∀ r ∈ rs, e ≤ r.beginAddr) : rs.flatMap (cut b e) = rs := by
  induction rs with
  | nil => rfl
  | cons r rs ih =>
    rw [List.flatMap_cons, cut_of_end_le (h r List.mem_cons_self),
      ih fun s hs ↦ h s (List.mem_cons_of_mem r hs), List.singleton_append]

/-- A range that is split is the last one, so that there is nothing to lose after it. -/
theorem Keeps.eq_nil (ho : Ordered (r :: rs)) (hk : Keeps b e (r :: rs)) (hst : r.Straddles b e) :
    rs = [] := by
  cases rs with
  | nil => rfl
  | cons s rs =>
    have hle := (hk r List.mem_cons_self hst).2 s (by simp)
    have hrs := ho.head_le (s := s) List.mem_cons_self
    have hlt := ho.tail.lt_head
    omega

theorem removeRangeConflicts_eq (ho : Ordered rs) (hk : Keeps b e rs) :
    (removeRangeConflicts b e rs).1 = rs.flatMap (cut b e) := by
  induction rs with
  | nil => rfl
  | cons r rs ih =>
    have ih := ih ho.tail hk.tail
    rw [List.flatMap_cons, removeRangeConflicts]
    split_ifs with hc hb he he' hn
    · have hnil := hk.eq_nil ho ⟨hb, hc.1, hc.2, he⟩
      subst hnil
      simp [cut, hc, hb, he]
    · simp [cut, hc, hb, he, ih]
    · simp [cut, hc, hb, he', ih]
    · simp [cut, hc, hb, he', ih]
    · have hlt := ho.lt_head
      have hrest : rs.flatMap (cut b e) = rs := by
        apply flatMap_cut_of_end_le
        intro s hs
        have := ho.head_le hs
        omega
      rw [cut_of_end_le hn.le, hrest, List.singleton_append]
    · simp [cut, hc, ih]

theorem mem_cut (hne : r.beginAddr < r.endAddr) {s : ModuleAddressRange}
    (hs : s ∈ cut b e r) :
    r.beginAddr ≤ s.beginAddr ∧ s.beginAddr < s.endAddr ∧ s.endAddr ≤ r.endAddr ∧
      (s.endAddr ≤ b ∨ e ≤ s.beginAddr) := by
  unfold cut at hs
  split_ifs at hs <;>
    simp only [List.append_nil, List.nil_append, List.cons_append, List.mem_cons,
      List.not_mem_nil, or_false] at hs
  · obtain rfl | rfl := hs <;> simp only <;> omega
  · subst hs
    simp only
    omega
  · subst hs
    simp only
    omega
  · subst hs
    omega

theorem pairwise_cut (hbe : b ≤ e) :
    (cut b e r).Pairwise fun s t ↦ s.endAddr ≤ t.beginAddr := by
  unfold cut
  split_ifs <;> simp [hbe]

theorem value_right (hlt : r.beginAddr ≤ e) {pc : ℕ} (hpc : e ≤ pc) :
    ModuleAddressRange.value
      ⟨e, r.endAddr, r.beginOffset + BitVec.ofNat 64 (e - r.beginAddr), r.perms⟩ pc =
      r.value pc := by
  have hsum : pc - r.beginAddr = (e - r.beginAddr) + (pc - e) := by omega
  simp only [ModuleAddressRange.value]
  rw [hsum, BitVec.ofNat_add, BitVec.add_assoc]

theorem covers_right (hlt : r.beginAddr ≤ e) (pc : ℕ) (v : BitVec 64 × BitVec 32) :
    (ModuleAddressRange.Covers
        ⟨e, r.endAddr, r.beginOffset + BitVec.ofNat 64 (e - r.beginAddr), r.perms⟩ pc ∧
      ModuleAddressRange.value
        ⟨e, r.endAddr, r.beginOffset + BitVec.ofNat 64 (e - r.beginAddr), r.perms⟩ pc = v) ↔
      (e ≤ pc ∧ pc < r.endAddr) ∧ r.value pc = v := by
  refine and_congr_right fun hc ↦ ?_
  rw [value_right hlt hc.1]

theorem covers_left (pc : ℕ) (v : BitVec 64 × BitVec 32) :
    (ModuleAddressRange.Covers { r with endAddr := b } pc ∧
      ModuleAddressRange.value { r with endAddr := b } pc = v) ↔
      (r.beginAddr ≤ pc ∧ pc < b) ∧ r.value pc = v :=
  Iff.rfl

theorem exists_mem_cut {pc : ℕ} {v : BitVec 64 × BitVec 32} :
    (∃ s ∈ cut b e r, s.Covers pc ∧ s.value pc = v) ↔
      (r.Covers pc ∧ ¬(b ≤ pc ∧ pc < e)) ∧ r.value pc = v := by
  by_cases hc : r.beginAddr < e ∧ b < r.endAddr
  · have hright := covers_right hc.1.le pc v
    have hleft := covers_left (b := b) (r := r) pc v
    rw [cut, if_pos hc]
    simp only [ModuleAddressRange.Covers] at *
    split_ifs <;> simp only [List.append_nil, List.nil_append, List.cons_append, List.mem_cons,
      List.not_mem_nil, or_false, exists_eq_or_imp, exists_eq_left, hright, hleft, false_and,
      exists_false, ← or_and_right]
    · refine and_congr_left fun _ ↦ ?_
      omega
    · refine and_congr_left fun _ ↦ ?_
      omega
    · refine and_congr_left fun _ ↦ ?_
      omega
    · refine iff_of_false not_false fun h ↦ ?_
      omega
  · rw [cut, if_neg hc]
    simp only [List.mem_singleton, exists_eq_left, ModuleAddressRange.Covers]
    refine and_congr_left fun _ ↦ ?_
    omega

theorem Ordered.flatMap_cut (ho : Ordered rs) (hbe : b ≤ e) : Ordered (rs.flatMap (cut b e)) := by
  constructor
  · intro s hs
    obtain ⟨r, hr, hs⟩ := List.mem_flatMap.mp hs
    exact (mem_cut (ho.nonempty r hr) hs).2.1
  · induction rs with
    | nil => exact List.Pairwise.nil
    | cons r rs ih =>
      rw [List.flatMap_cons]
      refine List.pairwise_append.mpr ⟨pairwise_cut hbe, ih ho.tail, fun s hs t ht ↦ ?_⟩
      obtain ⟨q, hq, ht⟩ := List.mem_flatMap.mp ht
      have hsr := mem_cut ho.lt_head hs
      have htq := mem_cut (ho.tail.nonempty q hq) ht
      have hrq := ho.head_le hq
      omega

theorem Keeps.flatMap_cut_of_lt (hk : Keeps b e rs) (hbe : e < b) : rs.flatMap (cut b e) = rs := by
  induction rs with
  | nil => rfl
  | cons r rs ih =>
    have hc : ¬(r.beginAddr < e ∧ b < r.endAddr) := by
      intro hc
      have hst : r.Straddles b e := ⟨by omega, hc.1, hc.2, by omega⟩
      have hle := (hk r List.mem_cons_self hst).1
      omega
    rw [List.flatMap_cons, ih hk.tail, cut, if_neg hc, List.singleton_append]

theorem Ordered.removeRangeConflicts (ho : Ordered rs) (hk : Keeps b e rs) :
    Ordered (removeRangeConflicts b e rs).1 := by
  rw [removeRangeConflicts_eq ho hk]
  obtain hbe | hbe := le_or_gt b e
  · exact ho.flatMap_cut hbe
  · rw [hk.flatMap_cut_of_lt hbe]
    exact ho

theorem lookup_removeRangeConflicts (ho : Ordered rs) (hk : Keeps b e rs) (pc : ℕ) :
    lookup (removeRangeConflicts b e rs).1 pc = if b ≤ pc ∧ pc < e then none else lookup rs pc := by
  have ho' := ho.removeRangeConflicts hk
  apply Option.ext
  intro v
  rw [ho'.lookup_eq_some_iff, removeRangeConflicts_eq ho hk]
  calc (∃ s ∈ rs.flatMap (cut b e), s.Covers pc ∧ s.value pc = v)
      ↔ ∃ r ∈ rs, ∃ s ∈ cut b e r, s.Covers pc ∧ s.value pc = v := by
        simp only [List.mem_flatMap]
        tauto
    _ ↔ ∃ r ∈ rs, (r.Covers pc ∧ ¬(b ≤ pc ∧ pc < e)) ∧ r.value pc = v := by
        simp only [exists_mem_cut]
    _ ↔ (if b ≤ pc ∧ pc < e then none else lookup rs pc) = some v := by
        split_ifs with hpc
        · simp [hpc]
        · rw [ho.lookup_eq_some_iff]
          simp [hpc]

end Cut

section Add

variable {r : ModuleAddressRange} {rs : List ModuleAddressRange}

theorem mem_addRangeNoConflict {s : ModuleAddressRange} :
    s ∈ addRangeNoConflict r rs ↔ s = r ∨ s ∈ rs := by
  induction rs with
  | nil => simp [addRangeNoConflict]
  | cons t rs ih =>
    rw [addRangeNoConflict]
    split_ifs
    · simp
    · rw [List.mem_cons, ih, List.mem_cons]
      tauto

theorem Ordered.addRangeNoConflict (ho : Ordered rs) (hr : r.beginAddr < r.endAddr)
    (hroom : ∀ s ∈ rs, s.endAddr ≤ r.beginAddr ∨ r.endAddr ≤ s.beginAddr) :
    Ordered (addRangeNoConflict r rs) := by
  constructor
  · intro s hs
    obtain rfl | hs := mem_addRangeNoConflict.mp hs
    · exact hr
    · exact ho.nonempty s hs
  · induction rs with
    | nil => exact List.pairwise_singleton _ r
    | cons t rs ih =>
      have ht := hroom t List.mem_cons_self
      have hlt := ho.lt_head
      rw [Module.addRangeNoConflict]
      split_ifs with hb
      · refine List.pairwise_cons.mpr ⟨fun s hs ↦ ?_, ho.disjoint⟩
        obtain rfl | hs := List.mem_cons.mp hs
        · omega
        · have := ho.head_le hs
          omega
      · refine List.pairwise_cons.mpr ⟨fun s hs ↦ ?_, ih ho.tail fun s hs ↦
          hroom s (List.mem_cons_of_mem t hs)⟩
        obtain rfl | hs := mem_addRangeNoConflict.mp hs
        · omega
        · exact ho.head_le hs

theorem lookup_addRangeNoConflict (ho : Ordered rs) (hr : r.beginAddr < r.endAddr)
    (hroom : ∀ s ∈ rs, s.endAddr ≤ r.beginAddr ∨ r.endAddr ≤ s.beginAddr) (pc : ℕ) :
    lookup (addRangeNoConflict r rs) pc =
      if r.beginAddr ≤ pc ∧ pc < r.endAddr then some (r.value pc) else lookup rs pc := by
  have ho' := ho.addRangeNoConflict hr hroom
  apply Option.ext
  intro v
  rw [ho'.lookup_eq_some_iff]
  simp only [mem_addRangeNoConflict, exists_eq_or_imp]
  split_ifs with hpc
  · -- no other range covers an address of `r`
    have hno : ¬∃ s ∈ rs, s.Covers pc ∧ s.value pc = v := by
      rintro ⟨s, hs, ⟨h1, h2⟩, -⟩
      have := hroom s hs
      omega
    rw [or_iff_left hno, Option.some_inj]
    exact and_iff_right hpc
  · rw [ho.lookup_eq_some_iff]
    exact or_iff_right fun h ↦ hpc h.1

end Add

namespace Op

/-- The operation splits no range but the last one. -/
def Keeps (op : Op) (ranges : List ModuleAddressRange) : Prop :=
  Module.Keeps op.bounds.1 op.bounds.2 ranges

variable {op : Op} {rs rs' : List ModuleAddressRange}

theorem room_removeRangeConflicts {b e : ℕ} (ho : Ordered rs) (hk : Module.Keeps b e rs) :
    ∀ s ∈ (removeRangeConflicts b e rs).1, s.endAddr ≤ b ∨ e ≤ s.beginAddr := by
  intro s hs
  rw [removeRangeConflicts_eq ho hk] at hs
  obtain ⟨r, hr, hs⟩ := List.mem_flatMap.mp hs
  exact (mem_cut (ho.nonempty r hr) hs).2.2.2

theorem apply_of_keeps (ho : Ordered rs) (hv : op.Valid) (hk : op.Keeps rs) :
    ∃ rs', op.apply rs = some rs' ∧ Ordered rs' ∧ lookup rs' = op.update (lookup rs) := by
  cases op with
  | addRange b e offset perms =>
    have hk : Module.Keeps b e rs := hk
    have hrem := ho.removeRangeConflicts hk
    have hroom := room_removeRangeConflicts ho hk
    let r : ModuleAddressRange := ⟨b, e, offset, perms⟩
    have hr : r.beginAddr < r.endAddr := hv
    refine ⟨_, if_pos hv, hrem.addRangeNoConflict hr hroom, funext fun pc ↦ ?_⟩
    refine (lookup_addRangeNoConflict hrem hr hroom pc).trans ?_
    rw [lookup_removeRangeConflicts ho hk]
    simp only [update, r]
    split_ifs <;> rfl
  | removeRange b e =>
    exact ⟨_, rfl, ho.removeRangeConflicts hk, funext (lookup_removeRangeConflicts ho hk)⟩

end Op

/-- The ranges before the one that is split are passed by, and those after it are gone. -/
theorem removeRangeConflicts_of_straddles {b e : ℕ} {r : ModuleAddressRange}
    {before after : List ModuleAddressRange} (ho : Ordered (before ++ r :: after))
    (hst : r.Straddles b e) :
    (removeRangeConflicts b e (before ++ r :: after)).1 = before ++
      [{ r with endAddr := b },
        ⟨e, r.endAddr, r.beginOffset + BitVec.ofNat 64 (e - r.beginAddr), r.perms⟩] := by
  obtain ⟨hb, he, hb', he'⟩ := hst
  induction before with
  | nil => simp [removeRangeConflicts, hb, he, hb', he']
  | cons s before ih =>
    have hsr := ho.head_le (s := r) (by simp)
    have hs := ho.lt_head
    rw [List.cons_append, removeRangeConflicts, if_neg (by omega), if_neg (by omega)]
    simp only [ih ho.tail, List.cons_append]

theorem not_ordered_of_overlap {r s : ModuleAddressRange} {before : List ModuleAddressRange}
    (h : s.beginAddr < r.endAddr) : ¬Ordered (before ++ [r, s]) := by
  intro ho
  have hp := (List.pairwise_append.mp ho.disjoint).2.1
  have hle := (List.pairwise_cons.mp hp).1 s List.mem_cons_self
  omega

theorem endAddr_le_of_straddles {b e : ℕ} {r s : ModuleAddressRange}
    {before after : List ModuleAddressRange} (ho : Ordered (before ++ r :: after))
    (hst : r.Straddles b e) (hs : s ∈ (removeRangeConflicts b e (before ++ r :: after)).1) :
    s.endAddr ≤ r.endAddr := by
  rw [removeRangeConflicts_of_straddles ho hst] at hs
  simp only [List.mem_append, List.mem_cons, List.not_mem_nil, or_false] at hs
  obtain hs | rfl | rfl := hs
  · have hle := (List.pairwise_append.mp ho.disjoint).2.2 s hs r List.mem_cons_self
    have hlt := ho.nonempty r (by simp)
    omega
  · exact hst.2.2.1.le
  · exact le_rfl

namespace Op

variable {op : Op} {rs rs' : List ModuleAddressRange}

theorem endAddr_le_of_apply {r s : ModuleAddressRange} {before after : List ModuleAddressRange}
    (ho : Ordered (before ++ r :: after)) (hv : op.Valid)
    (hst : r.Straddles op.bounds.1 op.bounds.2)
    (ha : op.apply (before ++ r :: after) = some rs') (hs : s ∈ rs') : s.endAddr ≤ r.endAddr := by
  cases op with
  | addRange b e offset perms =>
    have hbe : b < e := hv
    rw [apply, Module.addRange, if_pos hbe, Option.some_inj] at ha
    subst ha
    obtain rfl | hs := mem_addRangeNoConflict.mp hs
    · exact hst.2.2.2.le
    · exact endAddr_le_of_straddles ho hst hs
  | removeRange b e =>
    obtain rfl := Option.some_inj.mp ha
    exact endAddr_le_of_straddles ho hst hs

theorem update_of_end_le {m : AddressMap} {pc : ℕ} (h : op.bounds.2 ≤ pc) :
    op.update m pc = m pc := by
  cases op with
  | addRange b e offset perms => exact if_neg fun hpc ↦ (hpc.2.trans_le h).false
  | removeRange b e => exact if_neg fun hpc ↦ (hpc.2.trans_le h).false

theorem keeps_of_apply (ho : Ordered rs) (hv : op.Valid) (ha : op.apply rs = some rs')
    (ho' : Ordered rs') (hl : lookup rs' = op.update (lookup rs)) : op.Keeps rs := by
  intro r hr hst
  obtain ⟨before, after, rfl⟩ := List.append_of_mem hr
  constructor
  · by_contra! hbe
    cases op with
    | addRange b e offset perms =>
      simp only [bounds, Valid] at hbe hv
      omega
    | removeRange b e =>
      obtain rfl := Option.some_inj.mp ha
      have hst : r.Straddles b e := hst
      rw [Module.removeRange, removeRangeConflicts_of_straddles ho hst] at ho'
      exact not_ordered_of_overlap hbe ho'
  · intro s hs
    by_contra! hlt
    -- the first address of `s` is one that the operation does not cover, and that is gone
    have hdis : r.endAddr ≤ s.beginAddr := by
      obtain hs | hs := List.mem_append.mp hs
      · have hle := (List.pairwise_append.mp ho.disjoint).2.2 s hs r List.mem_cons_self
        have hr := ho.nonempty r (by simp)
        omega
      · obtain rfl | hs := List.mem_cons.mp hs
        · omega
        · exact (List.pairwise_cons.mp (List.pairwise_append.mp ho.disjoint).2.1).1 s hs
    have hbefore : lookup (before ++ r :: after) s.beginAddr = some (s.value s.beginAddr) :=
      ho.lookup_eq_some_iff.mpr ⟨s, hs, ⟨le_rfl, ho.nonempty s hs⟩, rfl⟩
    have hend : op.bounds.2 ≤ s.beginAddr := hst.2.2.2.le.trans hdis
    have hafter : lookup rs' s.beginAddr = some (s.value s.beginAddr) := by
      rw [hl, update_of_end_le hend, hbefore]
    obtain ⟨t, ht, hc, -⟩ := ho'.lookup_eq_some_iff.mp hafter
    have hle := endAddr_le_of_apply ho hv hst ha ht
    have hc := hc.2
    omega

end Op

theorem specify_concat (ops : List Op) (op : Op) (m : AddressMap) :
    specify (ops ++ [op]) m = op.update (specify ops m) := by
  simp [specify]

theorem ordered_nil : Ordered [] :=
  ⟨by simp, List.Pairwise.nil⟩

/-- Up to any point of a run the ranges are in order and have the contents that the operations
ask for, if and only if no operation splits a range that has another one after it. -/
theorem implements_iff_keeps (ops : List Op) (hv : ∀ op ∈ ops, op.Valid) :
    (∀ past, past <+: ops →
      ∃ ranges, run Op.apply [] past = some ranges ∧ Implements ranges (specify past fun _ ↦ none)) ↔
    ∀ past op, past ++ [op] <+: ops →
      ∃ ranges, run Op.apply [] past = some ranges ∧ op.Keeps ranges := by
  simp only [implements_iff]
  constructor
  · intro h past op hp
    obtain ⟨rs, hrun, ho, hl⟩ := h past ((List.prefix_append past [op]).trans hp)
    obtain ⟨rs', hrun', ho', hl'⟩ := h (past ++ [op]) hp
    refine ⟨rs, hrun, ?_⟩
    rw [run_concat, hrun, Option.bind_some] at hrun'
    rw [specify_concat, ← hl] at hl'
    exact Op.keeps_of_apply ho (hv op (hp.subset (by simp))) hrun' ho' hl'
  · intro h past
    induction past using List.reverseRecOn with
    | nil => exact fun _ ↦ ⟨[], rfl, ordered_nil, rfl⟩
    | append_singleton past op ih =>
      intro hp
      obtain ⟨rs, hrun, ho, hl⟩ := ih ((List.prefix_append past [op]).trans hp)
      obtain ⟨rs', hrun', hk⟩ := h past op hp
      obtain rfl : rs' = rs := Option.some_inj.mp (hrun'.symm.trans hrun)
      obtain ⟨rs', happ, ho', hl'⟩ := Op.apply_of_keeps ho (hv op (hp.subset (by simp))) hk
      refine ⟨rs', ?_, ho', ?_⟩
      · rw [run_concat, hrun, Option.bind_some, happ]
      · rw [specify_concat, hl', hl]

theorem implements_iff_keeps_removeRange :
    ∃ ranges, run Op.apply [] [.addRange 0 100 0 5, .removeRange 10 20] = some ranges ∧
      Implements ranges (specify [.addRange 0 100 0 5, .removeRange 10 20] fun _ ↦ none) := by
  refine (implements_iff_keeps [.addRange 0 100 0 5, .removeRange 10 20] ?_).mpr ?_ _
    List.prefix_rfl
  · simp [Op.Valid]
  · intro past op hp
    match past, hp with
    | [], hp =>
      obtain rfl : op = .addRange 0 100 0 5 := by simpa using hp
      exact ⟨[], rfl, by simp [Op.Keeps, Keeps]⟩
    | [_], hp =>
      obtain ⟨rfl, rfl⟩ : _ = Op.addRange 0 100 0 5 ∧ op = .removeRange 10 20 := by simpa using hp
      exact ⟨[⟨0, 100, 0, 5⟩], rfl, by simp [Op.Keeps, Keeps, Op.bounds]⟩
    | _ :: _ :: past, hp =>
      have := hp.length_le
      simp at this

/-- Making a hole in the first of two ranges loses the second one. -/
theorem removeRange_loses_next :
    run Op.apply [] [.addRange 0 100 0 5, .addRange 200 300 100 5, .removeRange 10 20] =
        some [⟨0, 10, 0, 5⟩, ⟨20, 100, 20, 5⟩] ∧
      ¬Implements [⟨0, 10, 0, 5⟩, ⟨20, 100, 20, 5⟩]
        (specify [.addRange 0 100 0 5, .addRange 200 300 100 5, .removeRange 10 20]
          fun _ ↦ none) := by
  refine ⟨by decide, fun h ↦ ?_⟩
  have hc := h.contains_eq 250
  exact absurd hc (by decide)

end Granary.Os.Module
