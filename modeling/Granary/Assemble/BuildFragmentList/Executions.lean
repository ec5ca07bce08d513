import Granary.Assemble.BuildFragmentList.Turns

namespace Granary.Assemble.BuildFragmentList

open Function Relation Granary.Base.Language
open Granary.Code (FragmentId Slot)

namespace Trace

variable (tr : Trace)

def Reaches : Option InstrId → Option InstrId → Prop := ReflTransGen fun p q ↦ q ∈ (tr.flow p).2

/-- Where control enters a trace: at a block, or at a label that is referenced. -/
def Entry (p : Option InstrId) : Prop :=
  (∃ t ∈ tr.blocks, p = tr.start t) ∨
    ∃ l ∈ tr.code (tr.owner l), tr.instr l = .label ∧ tr.data l ≠ 0 ∧ p = some l

end Trace

/-- The fragments execute what the trace does, and every instruction that it may execute is in one
fragment. -/
structure Preserves (tr : Trace) (b : Builder) : Prop where
  work : b.work = []
  block : ∀ t, tr.HasFragment t → ∃ f, b.blockFragment t = some f ∧
    ∀ es, Run (b.flow tr) f es ↔ Run tr.flow (tr.start t) es
  label : ∀ l f, b.labelFragment l = some f → ∀ es, Run (b.flow tr) f es ↔ Run tr.flow (some l) es
  unique : ∀ p i, tr.Entry p → tr.Reaches p (some i) → (tr.instr i).isKept = true →
    ∃! f, i ∈ (b.heap f).moved
  once : ∀ f, (b.heap f).moved.Nodup

section Final

variable {tr : Trace} {start : FragmentId → Option InstrId} {rank : FragmentId → ℕ} {b : Builder}
  {f : FragmentId} {i l : InstrId} {p q : Option InstrId} {P : Set InstrId}

def Covered (tr : Trace) (b : Builder) (p : Option InstrId) : Prop :=
  ∀ i, tr.Reaches p (some i) → (tr.instr i).isKept = true → ∃ f, i ∈ (b.heap f).moved

namespace Graph

variable (h : Graph tr tr.blocks start rank b []) (hw : b.work = [])
include h hw

theorem built_of_lt (hf : f < b.next) :
    (∀ g ∈ (b.flow tr f).2, g < b.next) ∧ Folds tr.flow (b.flow tr) start rank f :=
  h.built f hf (by simp [hw])

theorem run_iff (hf : f < b.next) (es : List InstrId) :
    Run (b.flow tr) f es ↔ Run tr.flow (start f) es :=
  run_iff_of_folds (P := (· < b.next)) (fun _ hf ↦ (h.built_of_lt hw hf).1)
    (fun _ hf ↦ (h.built_of_lt hw hf).2) hf

theorem covered_start (hf : f < b.next) : Covered tr b (start f) := by
  intro i hi hkept
  obtain ⟨es, hrun⟩ := exists_run hi
  have hsaid : (tr.flow (some i)).1 = [i] := by simp [Trace.flow, hkept]
  rw [hsaid] at hrun
  obtain ⟨g, -, hg⟩ := exists_said (P := (· < b.next)) (fun _ hf ↦ (h.built_of_lt hw hf).1) hf
    ((h.run_iff hw hf _).mpr hrun) (List.mem_append_right es List.mem_cons_self)
  exact ⟨g, (List.mem_filter.mp hg).1⟩

theorem covered_moved (hf : f < b.next) (hi : i ∈ (b.heap f).moved)
    (hnative : (tr.instr i).isNative = true) : Covered tr b (some i) := by
  have hsaid : i ∈ (b.flow tr f).1 := List.mem_filter.mpr ⟨hi, hnative⟩
  have hrun := (h.run_iff hw hf _).mp (.stop List.prefix_rfl)
  obtain ⟨q, hq, hiq⟩ := exists_said (P := tr.Reaches (start f)) (fun p hp q hq ↦ hp.tail hq) .refl
    hrun hsaid
  have hqi : q = some i := by
    cases q with
    | none => exact absurd hiq List.not_mem_nil
    | some j =>
      simp only [Trace.flow] at hiq
      split_ifs at hiq
      · rw [List.mem_singleton.mp hiq]
      · exact absurd hiq List.not_mem_nil
  intro j hj
  exact h.covered_start hw hf j ((hqi ▸ hq : tr.Reaches (start f) (some i)).trans hj)

end Graph

theorem covered_none : Covered tr b none := by
  intro i hi
  rcases ReflTransGen.cases_head hi with hi | ⟨q, hq, -⟩
  · exact absurd hi.symm (Option.some_ne_none i)
  · exact absurd hq List.not_mem_nil

theorem Covered.of_successors (hkept : (tr.instr i).isKept = false)
    (hs : ∀ q ∈ tr.successors i, Covered tr b q) : Covered tr b (some i) := by
  intro j hj hj'
  rcases ReflTransGen.cases_head hj with hij | ⟨q, hq, hqj⟩
  · rw [← Option.some.inj hij, hkept] at hj'
    exact absurd hj' Bool.false_ne_true
  · exact hs q hq j hqj hj'

theorem successors_of_not_native (hi : (tr.instr i).isNative = false) (hq : q ∈ tr.successors i) :
    q = tr.next i := by
  unfold Trace.successors at hq
  split at hq <;> simp_all [Instruction.isNative]

theorem not_kept_of_not_native (hi : (tr.instr i).isNative = false) :
    (tr.instr i).isKept = false := by
  unfold Instruction.isKept
  split
  · rfl
  · exact hi

theorem covered_suffix (h : Graph tr tr.blocks start rank b []) (hw : b.work = [])
    (ht : tr.WellFormed) {t : BlockId} {s : List InstrId} (hs : s <:+ tr.code t)
    (hmoved : ∀ i ∈ s, (tr.instr i).isNative = true → i ∉ b.lists t) :
    Covered tr b s.head? := by
  induction s with
  | nil => exact covered_none
  | cons i s ih =>
    have hmem : i ∈ tr.code t := hs.subset List.mem_cons_self
    have hown := ht.owner t i hmem
    by_cases hnative : (tr.instr i).isNative = true
    · obtain ⟨f, hf, hi⟩ := h.gone i (hown.symm ▸ hmem)
        (hown.symm ▸ hmoved i List.mem_cons_self hnative)
      exact h.covered_moved hw hf hi hnative
    · rw [Bool.not_eq_true] at hnative
      have hnext : tr.next i = s.head? := by
        unfold Trace.next
        rw [hown]
        exact head_after_of_suffix (ht.nodup t) hs
      refine Covered.of_successors (not_kept_of_not_native hnative) fun q hq ↦ ?_
      rw [successors_of_not_native hnative hq, hnext]
      exact ih ((List.suffix_cons i s).trans hs) fun j hj ↦ hmoved j (List.mem_cons_of_mem i hj)

/-- What a referenced label leads to is in fragments, whether it was reached or not. -/
theorem covered_label (h : Graph tr tr.blocks start rank b []) (hw : b.work = [])
    (ht : tr.WellFormed) (hlin : Linear tr b.core P []) (hnone : NoStragglers tr b)
    (hmem : l ∈ tr.code (tr.owner l)) (hl : tr.instr l = .label) (hd : tr.data l ≠ 0) :
    Covered tr b (some l) := by
  have hnative : (tr.instr l).isNative = false := by simp [hl, Instruction.isNative]
  refine Covered.of_successors (not_kept_of_not_native hnative) fun q hq ↦ ?_
  rw [successors_of_not_native hnative hq]
  cases hfrag : b.labelFragment l with
  | some f =>
    obtain ⟨hf, hstart⟩ := h.label l f hfrag
    exact hstart ▸ h.covered_start hw hf
  | none =>
    have hlist : l ∈ b.lists (tr.owner l) := hlin.labels l hmem hl
    have hdata : b.data l ≠ 0 := hlin.data l hd
    have hsub : (b.lists (tr.owner l)).Sublist (tr.code (tr.owner l)) := hlin.sub (tr.owner l)
    have huseful : hasUsefulInstruction tr (after (b.lists (tr.owner l)) l) = false := by
      have hblock := ht.listed _ (List.ne_nil_of_mem hmem)
      have hno := hnone _ hblock l hlist (List.ne_nil_of_mem hmem)
      simpa [isStraggler, hl, hdata, hfrag] using hno
    refine covered_suffix h hw ht (t := tr.owner l) (s := after (tr.code (tr.owner l)) l) ?_
      fun i hi hi' hil ↦ ?_
    · exact (List.tail_suffix _).trans (List.dropWhile_suffix _)
    · have hafter := mem_after_of_sublist hsub (ht.nodup _) hlist hi hil
      rw [hasUsefulInstruction, List.any_eq_false] at huseful
      exact huseful i hafter hi'

theorem covered_entry (h : Graph tr tr.blocks start rank b []) (hw : b.work = [])
    (ht : tr.WellFormed) (hlin : Linear tr b.core P []) (hnone : NoStragglers tr b)
    (hp : tr.Entry p) : Covered tr b p := by
  rcases hp with ⟨t, hmem, rfl⟩ | ⟨l, hmem, hl, hd, rfl⟩
  · by_cases hdecoded : ∃ md cold is, tr.block t = .decoded md cold is
    · obtain ⟨md, cold, is, hb⟩ := hdecoded
      obtain ⟨f, -, hf, hstart, -⟩ := h.exists_block (t := t) ⟨hmem, by rw [hb]; trivial⟩
      exact hstart ▸ h.covered_start hw hf
    · rw [Trace.start_eq_none fun md cold is hb ↦ hdecoded ⟨md, cold, is, hb⟩]
      exact covered_none
  · exact covered_label h hw ht hlin hnone hmem hl hd

theorem Between.preserves {n : ℕ} (hb : Between tr (Turns tr) n b) (ht : tr.WellFormed)
    (hw : b.work = []) : Preserves tr b := by
  obtain ⟨P, ⟨⟨start, rank, h⟩, -⟩, hlin⟩ := hb.inv
  refine ⟨hw, fun t hfrag ↦ ?_, fun l f hl es ↦ ?_, fun p i hp hi hkept ↦ ?_, h.once⟩
  · obtain ⟨f, hf, hlt, hstart, -⟩ := h.exists_block hfrag
    refine ⟨f, hf, fun es ↦ ?_⟩
    rw [h.run_iff hw hlt, hstart]
  · obtain ⟨hlt, hstart⟩ := h.label l f hl
    have hlab : b.core.labelled l := fun hn ↦ Option.some_ne_none f (hl.symm.trans hn)
    obtain ⟨-, hinstr, -⟩ := hlin.labelled l hlab
    have hsilent : tr.flow (some l) = ([], [tr.next l]) := by
      simp [Trace.flow, Trace.successors, hinstr, Instruction.isKept, Instruction.isNative]
    rw [h.run_iff hw hlt, hstart, run_iff_of_silent hsilent]
  · obtain ⟨f, hf⟩ := covered_entry h hw ht hlin (hb.none hw) hp i hi hkept
    exact ⟨f, hf, fun g hg ↦ h.unique g f i hg hf⟩

end Final

/-- The work list of a trace empties, and the fragments that are built then execute what the trace
does. -/
theorem buildFragmentList_preserves {tr : Trace} (ht : tr.WellFormed) :
    ∃ b, (∃ N, ∀ fuel, N ≤ fuel → buildFragmentList tr fuel = some b) ∧ Preserves tr b := by
  obtain ⟨b, m, hstops, hb, hw⟩ := (rule_turns ht).final ht
  exact ⟨b, hstops, hb.preserves ht hw⟩

section OneBlock

variable {instrs : List Instruction} {data : InstrId → ℕ}

def oneBlock (instrs : List Instruction) (data : InstrId → ℕ) : Trace where
  blocks := [0]
  block t := if t = 0 then .decoded 0 false (List.range instrs.length) else .ret none
  instr i := instrs.getD i .label
  owner _ := 0
  data := data

theorem code_oneBlock {t : BlockId} (hi : i ∈ (oneBlock instrs data).code t) :
    t = 0 ∧ i < instrs.length := by
  unfold Trace.code oneBlock at hi
  dsimp only at hi
  split_ifs at hi with ht
  · exact ⟨ht, List.mem_range.mp hi⟩
  · exact absurd hi List.not_mem_nil

theorem instr_oneBlock {t : BlockId} {x : Instruction} (hi : i ∈ (oneBlock instrs data).code t)
    (hx : (oneBlock instrs data).instr i = x) : x ∈ instrs := by
  obtain ⟨-, hlt⟩ := code_oneBlock hi
  rw [← hx]
  change instrs.getD i .label ∈ instrs
  rw [List.getD_eq_getElem?_getD, List.getElem?_eq_getElem hlt]
  exact List.getElem_mem hlt

/-- Branches go to labels of the block that count them, and other direct control flow goes back to
the block. -/
theorem wellFormed_oneBlock
    (target : ∀ k info l, .branch k info l ∈ instrs →
      instrs[l]? = some .label ∧ data l ≠ 0)
    (direct : ∀ k ind t, .cfi k ind t ∈ instrs →
      k = .conditionalJump ∨ ((k = .jump ∨ k = .functionCall) ∧ ind = false) → t = 0)
    (exceptional : ∀ info t, .exceptional info t ∈ instrs → t = 0) :
    (oneBlock instrs data).WellFormed where
  blocks := List.nodup_singleton 0
  listed t ht := by
    obtain ⟨i, hi⟩ := List.exists_mem_of_ne_nil _ ht
    exact (code_oneBlock hi).1 ▸ List.mem_singleton_self 0
  nodup t := by
    unfold Trace.code oneBlock
    dsimp only
    split_ifs
    · exact List.nodup_range
    · exact List.nodup_nil
  owner t i hi := (code_oneBlock hi).1.symm
  target t i hi k info l hx := by
    obtain ⟨hl, hd⟩ := target k info l (instr_oneBlock hi hx)
    refine ⟨?_, ?_, hd⟩
    · change instrs.getD l .label = .label
      rw [List.getD_eq_getElem?_getD, hl]
      rfl
    · exact List.mem_range.mpr (List.getElem?_eq_some_iff.mp hl).1
  direct t i hi k ind t' hx hk := by
    obtain rfl := direct k ind t' (instr_oneBlock hi hx) hk
    exact ⟨List.mem_singleton_self 0, trivial⟩
  exceptional t i hi info t' hx := by
    obtain rfl := exceptional info t' (instr_oneBlock hi hx)
    exact ⟨List.mem_singleton_self 0, trivial⟩

end OneBlock

/-- A loop, whose label is reached from above and from the branch at its end. -/
def loop : Trace :=
  oneBlock [.label, .native {}, .branch .conditionalJump {} 0, .cfi .functionReturn true 1]
    (update (fun _ ↦ 0) 0 1)

theorem wellFormed_loop : loop.WellFormed := by
  refine wellFormed_oneBlock (fun k info l hl ↦ ?_) (by simp) (by simp)
  obtain ⟨-, -, rfl⟩ : k = .conditionalJump ∧ info = {} ∧ l = 0 := by simpa using hl
  exact ⟨rfl, by decide⟩

theorem buildFragmentList_preserves_loop : loop.WellFormed ∧
    ∃ b, (∃ N, ∀ fuel, N ≤ fuel → buildFragmentList loop fuel = some b) ∧ Preserves loop b :=
  ⟨wellFormed_loop, buildFragmentList_preserves wellFormed_loop⟩

def jumpThenReturn : Trace where
  blocks := [0, 1, 2]
  block t :=
    if t = 0 then .decoded 0 false [0] else if t = 1 then .decoded 1 false [1] else .ret none
  instr i := if i = 0 then .cfi .jump false 1 else .cfi .functionReturn true 2
  owner i := i
  data _ := 0

theorem code_jumpThenReturn {t : BlockId} {i : InstrId} (hi : i ∈ jumpThenReturn.code t) :
    t = i ∧ (i = 0 ∨ i = 1) := by
  unfold Trace.code jumpThenReturn at hi
  dsimp only at hi
  split_ifs at hi with h₀ h₁
  · rw [h₀, List.mem_singleton.mp hi]
    exact ⟨rfl, .inl rfl⟩
  · rw [h₁, List.mem_singleton.mp hi]
    exact ⟨rfl, .inr rfl⟩
  · exact absurd hi List.not_mem_nil

theorem wellFormed_jumpThenReturn : jumpThenReturn.WellFormed where
  blocks := by decide
  listed t ht := by
    obtain ⟨i, hi⟩ := List.exists_mem_of_ne_nil _ ht
    obtain ⟨rfl, rfl | rfl⟩ := code_jumpThenReturn hi <;> decide
  nodup t := by
    unfold Trace.code jumpThenReturn
    dsimp only
    split_ifs <;> simp
  owner t i hi := (code_jumpThenReturn hi).1.symm
  target t i hi k info l hx := by
    obtain ⟨-, rfl | rfl⟩ := code_jumpThenReturn hi <;> exact Instruction.noConfusion hx
  direct t i hi k ind t' hx hk := by
    obtain ⟨-, rfl | rfl⟩ := code_jumpThenReturn hi
    · obtain ⟨-, -, rfl⟩ := Instruction.cfi.inj hx
      exact ⟨by decide, trivial⟩
    · obtain ⟨rfl, rfl, -⟩ := Instruction.cfi.inj hx
      exact absurd hk (by decide)
  exceptional t i hi info t' hx := by
    obtain ⟨-, rfl | rfl⟩ := code_jumpThenReturn hi <;> exact Instruction.noConfusion hx

/-- A jump between blocks is not put into a fragment. -/
theorem jump_not_moved : ¬ ∀ tr : Trace, tr.WellFormed →
    ∃ b, (∃ N, ∀ fuel, N ≤ fuel → buildFragmentList tr fuel = some b) ∧
      ∀ p i, tr.Entry p → tr.Reaches p (some i) → (tr.instr i).isNative = true →
        ∃! f, i ∈ (b.heap f).moved := by
  intro hall
  obtain ⟨b, ⟨N, hN⟩, hmoved⟩ := hall jumpThenReturn wellFormed_jumpThenReturn
  have hb := hN (N + 3) (Nat.le_add_right N 3)
  have hthree : ∃ b₀, buildFragmentList jumpThenReturn 3 = some b₀ ∧
      ∀ f, (b₀.heap f).moved = [] ∨ (b₀.heap f).moved = [1] := by
    refine ⟨_, rfl, fun f ↦ ?_⟩
    rcases f with _ | _ | _ | f
    · exact .inl rfl
    · exact .inl rfl
    · exact .inr rfl
    · exact .inl rfl
  obtain ⟨b₀, hb₀, hmoved₀⟩ := hthree
  have hsame := Granary.Base.Iterate.repeatUntil_mono hb₀ (Nat.le_add_left 3 N)
  obtain rfl : b₀ = b := Option.some.inj (hsame.symm.trans hb)
  obtain ⟨f, hf, -⟩ := hmoved (some 0) 0 (.inl ⟨0, List.mem_cons_self, rfl⟩) .refl rfl
  rcases hmoved₀ f with h | h <;> rw [h] at hf <;> exact absurd hf (by decide)

end Granary.Assemble.BuildFragmentList
