import Mathlib
import Granary.Assemble.AddConnectingJumps

namespace Granary.Compile

open Function Granary.Arch Granary.Base.Chain Granary.Assemble.AddConnectingJumps
open Granary.Code (FragmentId CodeCacheKind)

/-- `CodeCacheUse`: the size of what goes into each code cache, and where the next
fragment of each goes. -/
structure CodeCacheUse where
  cacheSize : CodeCacheKind → ℕ := fun _ ↦ 0
  cacheCode : CodeCacheKind → ℕ := fun _ ↦ 0

abbrev Encoder := NativeInstruction → ℕ

def stageInstruction (i : NativeInstruction) : NativeInstruction :=
  if i.opcode = .noOp then { i with dontEncode := true } else i

def encodedLength (length : Encoder) (i : NativeInstruction) : ℕ :=
  if i.dontEncode then 0 else length i

/-- `StageEncodeNativeInstructions`, which also finds the size of the fragment. -/
def stageEncodeNativeInstructions (length : Encoder) (f : Fragment) : Fragment :=
  let instrs := f.instrs.map stageInstruction
  { f with instrs := instrs, encodedSize := (instrs.map (encodedLength length)).sum }

def stageEncodeFragment (length : Encoder) (s : Heap × CodeCacheUse) (f : FragmentId) :
    Heap × CodeCacheUse :=
  if (s.1 f).encodedPc ≠ 0 then s
  else
    let frag := stageEncodeNativeInstructions length (s.1 f)
    let size := s.2.cacheSize frag.cache + frag.encodedSize
    (update s.1 f frag, { s.2 with cacheSize := update s.2.cacheSize frag.cache size })

def relativizeFragment (s : Heap × CodeCacheUse) (f : FragmentId) : Heap × CodeCacheUse :=
  if (s.1 f).encodedPc ≠ 0 then s
  else
    let frag := s.1 f
    let code := s.2.cacheCode frag.cache
    (update s.1 f { frag with encodedPc := code },
      { s.2 with cacheCode := update s.2.cacheCode frag.cache (code + frag.encodedSize) })

def forEncodeOrderedUse (fuel : ℕ) (first : FragmentId)
    (body : Heap × CodeCacheUse → FragmentId → Heap × CodeCacheUse) (s : Heap × CodeCacheUse) :
    Option (Heap × CodeCacheUse) :=
  walk (fun s f ↦ (s.1 f).next) body fuel (some first) s

def setBranchTarget (h : Heap) (succ : Option FragmentId) (i : NativeInstruction) :
    NativeInstruction :=
  if i.hasIndirectTarget then i
  else match succ with
    | some t => { i with branchTarget := (h t).encodedPc }
    | none => i

def relativizeBranch (h : Heap) (f : Fragment) (cfi : Option ℕ) (succ : Option FragmentId) :
    Fragment :=
  f.modifyInstr cfi (setBranchTarget h succ)

def relativizeControlFlow (h : Heap) (f : FragmentId) : Fragment :=
  let frag := h f
  let frag := relativizeBranch h frag frag.fallThroughInstr frag.fallThrough
  relativizeBranch h frag frag.branchInstr frag.branch

/-- The steps of `EncodeAndFree` up to `Encode`, after `AddConnectingJumps`. The
code of each cache is allocated by `allocateCode`. -/
def layout (length : Encoder) (allocateCode : (CodeCacheKind → ℕ) → CodeCacheKind → ℕ) (fuel : ℕ)
    (first : FragmentId) (frags : List FragmentId) (h : Heap) : Option Heap := do
  let h ← addConnectingJumps fuel first frags h
  let (h, use) ← forEncodeOrderedUse fuel first (stageEncodeFragment length) (h, {})
  let use := { use with cacheCode := allocateCode use.cacheSize }
  let (h, _) ← forEncodeOrderedUse fuel first relativizeFragment (h, use)
  forEncodeOrdered fuel first relativizeControlFlow h

def fallsTo (f : Fragment) : ℕ :=
  match f.fallThroughInstr.bind fun i ↦ f.instrs[i]? with
  | some i => if i.dontEncode then f.encodedPc + f.encodedSize else i.branchTarget
  | none => f.encodedPc + f.encodedSize

/-- The address that the code of a fragment goes to when its branch is run in the
state `s`. -/
def goesTo (f : Fragment) (s : AppState) : ℕ :=
  match f.branchInstruction with
  | some i => if !i.dontEncode && i.taken s then i.branchTarget else fallsTo f
  | none => fallsTo f

def range (f : Fragment) : Set ℕ := Set.Ico f.encodedPc (f.encodedPc + f.encodedSize)

/-- The code at the addresses in `h` is laid out in the given order, and goes from
fragment to fragment as before. -/
structure LaidOut (g : Input) (h : Heap) (order : List FragmentId) : Prop where
  path : Path (fun f ↦ (h f).next) (some g.first) order none
  nodup : order.Nodup
  mem_iff : ∀ f, f ∈ order ↔ g.Reachable f
  fallThrough : ∀ f ∈ order, ∀ t, (h f).fallThrough = some t →
    (∃ i, (h f).fallThroughInstr = some i ∧ (h f).instrs[i]? =
      some { opcode := .branch .jmp false, branchTarget := (h t).encodedPc }) ∨
    (h f).next = some t ∧ (h f).cache = (h t).cache ∧
      (h t).encodedPc = (h f).encodedPc + (h f).encodedSize
  ways : ∀ f ∈ order, (∀ s, (h f).branchTaken s = (g.heap f).branchTaken s) ∧
      (h f).fallThrough = (g.heap f).fallThrough ∧ (h f).branch = (g.heap f).branch ∨
    (∀ s, (h f).branchTaken s = !(g.heap f).branchTaken s) ∧
      (h f).fallThrough = (g.heap f).branch ∧ (h f).branch = (g.heap f).fallThrough
  goesTo : ∀ f ∈ order, ∀ s t, (g.heap f).follow s = some t →
    goesTo (h f) s = (h t).encodedPc
  disjoint : ∀ f ∈ order, ∀ f' ∈ order, f ≠ f' → Disjoint (range (h f)) (range (h f'))

def Preserves (length : Encoder) (allocateCode : (CodeCacheKind → ℕ) → CodeCacheKind → ℕ)
    (g : Input) : Prop :=
  ∃ h order N, LaidOut g h order ∧ ∀ fuel, N ≤ fuel →
    layout length allocateCode fuel g.first (g.first :: g.rest) g.heap = some h

def offset (h : Heap) (k : CodeCacheKind) : List FragmentId → ℕ
  | [] => 0
  | f :: l => (if (h f).encodedPc = 0 ∧ (h f).cache = k then (h f).encodedSize else 0) + offset h k l

theorem offset_append (h : Heap) (k : CodeCacheKind) (l r : List FragmentId) :
    offset h k (l ++ r) = offset h k l + offset h k r := by
  induction l with
  | nil => simp [offset]
  | cons f l ih => rw [List.cons_append, offset, offset, ih, Nat.add_assoc]

theorem offset_congr {h h' : Heap} {k : CodeCacheKind} {l : List FragmentId}
    (hl : ∀ f ∈ l, h' f = h f) : offset h' k l = offset h k l := by
  induction l with
  | nil => rfl
  | cons f l ih =>
    rw [offset, offset, hl f List.mem_cons_self, ih fun a ha ↦ hl a (List.mem_cons_of_mem f ha)]

theorem stageEncode_foldl (length : Encoder) {l : List FragmentId} (hl : l.Nodup)
    (s : Heap × CodeCacheUse) :
    (∀ f, (l.foldl (stageEncodeFragment length) s).1 f =
      if f ∈ l ∧ (s.1 f).encodedPc = 0 then stageEncodeNativeInstructions length (s.1 f)
      else s.1 f) ∧
    ∀ k, (l.foldl (stageEncodeFragment length) s).2.cacheSize k =
      s.2.cacheSize k + offset (l.foldl (stageEncodeFragment length) s).1 k l := by
  induction l generalizing s with
  | nil => simp [offset]
  | cons f l ih =>
    obtain ⟨hf, hl⟩ := List.nodup_cons.mp hl
    obtain ⟨hheap, hsize⟩ := ih hl (stageEncodeFragment length s f)
    have hstep (a : FragmentId) : (stageEncodeFragment length s f).1 a =
        if a = f ∧ (s.1 a).encodedPc = 0 then stageEncodeNativeInstructions length (s.1 a)
        else s.1 a := by
      unfold stageEncodeFragment
      split_ifs with hpc ha ha
      · exact absurd (ha.1 ▸ ha.2) hpc
      · rfl
      · obtain ⟨rfl, -⟩ := ha
        exact update_self ..
      · have haf : a ≠ f := fun he ↦ ha ⟨he, he ▸ not_not.mp hpc⟩
        exact update_of_ne haf _ _
    rw [List.foldl_cons]
    constructor
    · intro a
      rw [hheap, hstep]
      by_cases haf : a = f
      · subst haf
        simp [hf]
      · simp [haf]
    · intro k
      have hfirst : (l.foldl (stageEncodeFragment length) (stageEncodeFragment length s f)).1 f =
          (stageEncodeFragment length s f).1 f := by
        rw [hheap, if_neg (by simp [hf])]
      rw [hsize, offset, hfirst, ← Nat.add_assoc]
      congr 1
      unfold stageEncodeFragment
      split_ifs with hpc hk hk
      · exact absurd hk.1 hpc
      · rfl
      · simp only [update_self] at hk ⊢
        rw [← hk.2, update_self]
      · simp only [update_self] at hk ⊢
        have hkind : k ≠ (stageEncodeNativeInstructions length (s.1 f)).cache :=
          fun he ↦ hk ⟨not_not.mp hpc, he.symm⟩
        exact update_of_ne hkind _ _

theorem relativize_foldl {l : List FragmentId} (hl : l.Nodup) (s : Heap × CodeCacheUse) :
    (∀ f, f ∉ l → (l.foldl relativizeFragment s).1 f = s.1 f) ∧
    ∀ k, (l.foldl relativizeFragment s).2.cacheCode k = s.2.cacheCode k + offset s.1 k l := by
  induction l generalizing s with
  | nil => simp [offset]
  | cons f l ih =>
    obtain ⟨hf, hl⟩ := List.nodup_cons.mp hl
    obtain ⟨hheap, hcode⟩ := ih hl (relativizeFragment s f)
    have hother (a : FragmentId) (ha : a ≠ f) : (relativizeFragment s f).1 a = s.1 a := by
      unfold relativizeFragment
      split_ifs
      · rfl
      · exact update_of_ne ha _ _
    rw [List.foldl_cons]
    constructor
    · intro a ha
      rw [List.mem_cons, not_or] at ha
      rw [hheap a ha.2, hother a ha.1]
    · intro k
      have hoff : offset (relativizeFragment s f).1 k l = offset s.1 k l :=
        offset_congr fun a ha ↦ hother a fun he ↦ hf (he ▸ ha)
      rw [hcode, hoff, offset, ← Nat.add_assoc]
      congr 1
      unfold relativizeFragment
      split_ifs with hpc hk hk
      · exact absurd hk.1 hpc
      · rfl
      · rw [← hk.2]
        exact update_self ..
      · have hkind : k ≠ (s.1 f).cache := fun he ↦ hk ⟨not_not.mp hpc, he.symm⟩
        exact update_of_ne hkind _ _

theorem relativizeFragment_self (s : Heap × CodeCacheUse) (f : FragmentId) :
    (relativizeFragment s f).1 f = if (s.1 f).encodedPc ≠ 0 then s.1 f
      else { s.1 f with encodedPc := s.2.cacheCode (s.1 f).cache } := by
  unfold relativizeFragment
  split_ifs
  · rfl
  · exact update_self ..

/-- A fragment that is not encoded yet goes after those of its cache that come
before it. -/
theorem relativize_append {pre post : List FragmentId} {f : FragmentId}
    (hl : (pre ++ f :: post).Nodup) (s : Heap × CodeCacheUse) :
    ((pre ++ f :: post).foldl relativizeFragment s).1 f =
      if (s.1 f).encodedPc ≠ 0 then s.1 f
      else { s.1 f with
        encodedPc := s.2.cacheCode (s.1 f).cache + offset s.1 (s.1 f).cache pre } := by
  obtain ⟨hpre, hpost, hdis⟩ := List.nodup_append.mp hl
  have hfpre : f ∉ pre := fun hin ↦ hdis f hin f List.mem_cons_self rfl
  obtain ⟨hfpost, hpost⟩ := List.nodup_cons.mp hpost
  obtain ⟨hheap, hcode⟩ := relativize_foldl hpre s
  rw [List.foldl_append, List.foldl_cons, (relativize_foldl hpost _).1 f hfpost,
    relativizeFragment_self, hheap f hfpre, hcode]

theorem next_stageEncodeFragment (length : Encoder) (s : Heap × CodeCacheUse) (f a : FragmentId) :
    ((stageEncodeFragment length s f).1 a).next = (s.1 a).next := by
  unfold stageEncodeFragment
  split_ifs
  · rfl
  · rcases eq_or_ne a f with rfl | ha
    · simp only [update_self]
      rfl
    · simp only [update_of_ne ha]

theorem next_relativizeFragment (s : Heap × CodeCacheUse) (f a : FragmentId) :
    ((relativizeFragment s f).1 a).next = (s.1 a).next := by
  unfold relativizeFragment
  split_ifs
  · rfl
  · rcases eq_or_ne a f with rfl | ha
    · simp only [update_self]
    · simp only [update_of_ne ha]

theorem relativizeControlFlow_local (h h' : Heap) (f : FragmentId) (hf : h f = h' f)
    (hv : ∀ a, (h a).place = (h' a).place) :
    relativizeControlFlow h f = relativizeControlFlow h' f := by
  have hpc (a : FragmentId) : (h a).encodedPc = (h' a).encodedPc := congrArg Prod.snd (hv a)
  have hset : setBranchTarget h = setBranchTarget h' := by
    funext succ i
    simp only [setBranchTarget, hpc]
  simp only [relativizeControlFlow, relativizeBranch, hf, hset]

section Placed

variable (length : Encoder) (allocateCode : (CodeCacheKind → ℕ) → CodeCacheKind → ℕ)
variable (order : List FragmentId) (h : Heap)

def staged : Heap × CodeCacheUse := order.foldl (stageEncodeFragment length) (h, {})

def placed : Heap :=
  (order.foldl relativizeFragment ((staged length order h).1,
    { (staged length order h).2 with
      cacheCode := allocateCode (staged length order h).2.cacheSize })).1

variable {length allocateCode order h}

theorem placed_eq {pre post : List FragmentId} {f : FragmentId} (hn : order.Nodup)
    (horder : order = pre ++ f :: post) :
    placed length allocateCode order h f =
      if (h f).encodedPc ≠ 0 then h f
      else { stageEncodeNativeInstructions length (h f) with
        encodedPc := allocateCode (staged length order h).2.cacheSize (h f).cache +
          offset (staged length order h).1 (h f).cache pre } := by
  have hstaged : (staged length order h).1 f = if (h f).encodedPc = 0
      then stageEncodeNativeInstructions length (h f) else h f := by
    rw [staged, (stageEncode_foldl length hn (h, {})).1 f, horder]
    simp
  have hfold := relativize_append (horder ▸ hn) ((staged length order h).1,
    { (staged length order h).2 with
      cacheCode := allocateCode (staged length order h).2.cacheSize })
  rw [← horder] at hfold
  rw [placed, hfold]
  by_cases hpc : (h f).encodedPc = 0
  · rw [if_pos hpc] at hstaged
    have hsame : (stageEncodeNativeInstructions length (h f)).encodedPc = 0 := hpc
    simp only [hstaged, hsame, hpc, ne_eq, not_true_eq_false, if_false]
    rfl
  · rw [if_neg hpc] at hstaged
    simp only [hstaged, ne_eq, hpc, not_false_eq_true, if_true]

variable (length allocateCode) in
theorem placed_fields {f : FragmentId} (hn : order.Nodup) (hf : f ∈ order) :
    ((h f).encodedPc ≠ 0 ∧ placed length allocateCode order h f = h f) ∨
    ((h f).encodedPc = 0 ∧ ∃ pc, placed length allocateCode order h f =
      { stageEncodeNativeInstructions length (h f) with encodedPc := pc }) := by
  obtain ⟨pre, post, horder⟩ := List.append_of_mem hf
  rw [placed_eq hn horder]
  by_cases hpc : (h f).encodedPc = 0
  · exact .inr ⟨hpc, _, if_neg (not_not.mpr hpc)⟩
  · exact .inl ⟨hpc, if_pos hpc⟩

theorem offset_staged_singleton {f : FragmentId} (hn : order.Nodup) (hf : f ∈ order)
    (hpc : (h f).encodedPc = 0) :
    offset (staged length order h).1 (h f).cache [f] =
      (stageEncodeNativeInstructions length (h f)).encodedSize := by
  have hstaged : (staged length order h).1 f = stageEncodeNativeInstructions length (h f) := by
    rw [staged, (stageEncode_foldl length hn (h, {})).1 f, if_pos ⟨hf, hpc⟩]
  have hcond : ((staged length order h).1 f).encodedPc = 0 ∧
      ((staged length order h).1 f).cache = (h f).cache := by
    rw [hstaged]
    exact ⟨hpc, rfl⟩
  rw [offset, offset, if_pos hcond, hstaged, Nat.add_zero]

variable (length allocateCode) in
theorem placed_le {pre mid post : List FragmentId} {f t : FragmentId} (hn : order.Nodup)
    (horder : order = pre ++ f :: (mid ++ t :: post)) (hf : (h f).encodedPc = 0)
    (ht : (h t).encodedPc = 0) (hc : (h f).cache = (h t).cache) :
    (placed length allocateCode order h t).encodedPc =
      (placed length allocateCode order h f).encodedPc +
        (placed length allocateCode order h f).encodedSize +
        offset (staged length order h).1 (h f).cache mid := by
  have horder' : order = (pre ++ f :: mid) ++ t :: post := by
    rw [horder, List.append_assoc, List.cons_append]
  have hmem : f ∈ order := by
    rw [horder]
    simp
  have hsplit : pre ++ f :: mid = pre ++ ([f] ++ mid) := rfl
  rw [placed_eq hn horder, placed_eq hn horder', if_neg (not_not.mpr hf),
    if_neg (not_not.mpr ht)]
  simp only
  rw [← hc, hsplit, offset_append, offset_append, offset_staged_singleton hn hmem hf]
  omega

theorem range_placed_subset {f : FragmentId} (hn : order.Nodup) (hf : f ∈ order)
    (hpc : (h f).encodedPc = 0) :
    range (placed length allocateCode order h f) ⊆
      Set.Ico (allocateCode (staged length order h).2.cacheSize (h f).cache)
        (allocateCode (staged length order h).2.cacheSize (h f).cache +
          (staged length order h).2.cacheSize (h f).cache) := by
  obtain ⟨pre, post, horder⟩ := List.append_of_mem hf
  have hsize : (staged length order h).2.cacheSize (h f).cache =
      offset (staged length order h).1 (h f).cache pre +
        ((stageEncodeNativeInstructions length (h f)).encodedSize +
          offset (staged length order h).1 (h f).cache post) := by
    have htotal := (stageEncode_foldl length hn (h, {})).2 (h f).cache
    have hsplit : order = pre ++ ([f] ++ post) := horder
    rw [← staged, Nat.zero_add] at htotal
    rw [htotal]
    conv_lhs => rw [hsplit]
    rw [offset_append, offset_append, ← hsplit, offset_staged_singleton hn hf hpc]
  rw [range, placed_eq hn horder, if_neg (not_not.mpr hpc)]
  refine Set.Ico_subset_Ico ?_ ?_
  · exact Nat.le_add_right _ _
  · simp only [hsize]
    omega

end Placed

theorem stageInstruction_opcode (i : NativeInstruction) :
    (stageInstruction i).opcode = i.opcode := by
  unfold stageInstruction
  split_ifs <;> rfl

theorem stageInstruction_of_taken {i : NativeInstruction} {s : AppState} (h : i.taken s = true) :
    stageInstruction i = i := by
  unfold stageInstruction
  split_ifs with ho
  · rw [NativeInstruction.taken, ho] at h
    exact absurd h (by simp)
  · rfl

theorem setBranchTarget_direct {h : Heap} {succ : Option FragmentId} {i : NativeInstruction}
    (hd : i.hasIndirectTarget = false) : setBranchTarget h succ i =
      { i with branchTarget := succ.elim i.branchTarget fun t ↦ (h t).encodedPc } := by
  unfold setBranchTarget
  rw [if_neg (by simp [hd])]
  cases succ <;> rfl

theorem setBranchTarget_opcode (h : Heap) (succ : Option FragmentId) (i : NativeInstruction) :
    (setBranchTarget h succ i).opcode = i.opcode := by
  unfold setBranchTarget
  split_ifs
  · rfl
  · cases succ <;> rfl

theorem getElem?_relativizeControlFlow (h : Heap) (f : FragmentId) (k : ℕ) :
    (relativizeControlFlow h f).instrs[k]? =
      let x := if (h f).fallThroughInstr = some k
        then (h f).instrs[k]?.map (setBranchTarget h (h f).fallThrough) else (h f).instrs[k]?
      if (h f).branchInstr = some k then x.map (setBranchTarget h (h f).branch) else x := by
  have hft := Fragment.getElem?_modifyInstr (h f) (h f).fallThroughInstr
    (setBranchTarget h (h f).fallThrough) k
  have hbr := Fragment.getElem?_modifyInstr
    (relativizeBranch h (h f) (h f).fallThroughInstr (h f).fallThrough) (h f).branchInstr
    (setBranchTarget h (h f).branch) k
  rw [relativizeBranch, hft] at hbr
  exact hbr

section Final

variable {h p : Heap} {a b : Fragment} {f : FragmentId} {length : Encoder}

/-- A connected fragment has the branch that it had, which may be left out if it
goes to the next fragment. -/
theorem branch_connected (hc : Connected h a b) {i : ℕ} {n : NativeInstruction}
    (hi : a.branchInstr = some i) (hn : a.instrs[i]? = some n) (he : n.dontEncode = false) :
    ∃ e, b.instrs[i]? = some { n with dontEncode := e } ∧
      (e = true → b.fallThroughInstr = a.fallThroughInstr ∧ a.fallThrough = none ∧
        ∃ t, a.branch = some t ∧ a.next = some t ∧ (h t).encodedPc = 0 ∧
          a.cache = (h t).cache) := by
  cases hc with
  | same => exact ⟨false, by rw [hn, ← he], by simp⟩
  | jump t ht =>
    have hlt : i < a.instrs.length := (List.getElem?_eq_some_iff.mp hn).1
    refine ⟨false, ?_, by simp⟩
    rw [addFallThroughJump, List.getElem?_append_left hlt, hn, ← he]
  | elided t hf hb hnext hpc hcache =>
    refine ⟨true, ?_, fun _ ↦ ⟨rfl, hf, t, hb, hnext, hpc, hcache⟩⟩
    rw [Fragment.getElem?_modifyInstr, if_pos hi, hn]
    rfl

theorem branch_final (hc : Connected h a b) (hft : a.fallThroughInstr = none)
    (hp : ∃ pc, p f = { stageEncodeNativeInstructions length b with encodedPc := pc }) {i : ℕ}
    {n : NativeInstruction} (hi : a.branchInstr = some i) (hn : a.instrs[i]? = some n)
    (he : n.dontEncode = false) :
    ∃ e, (relativizeControlFlow p f).branchInstruction =
        some (setBranchTarget p a.branch (stageInstruction { n with dontEncode := e })) ∧
      (e = true → (relativizeControlFlow p f).fallThroughInstr = none ∧ a.fallThrough = none ∧
        ∃ t, a.branch = some t ∧ a.next = some t ∧ (h t).encodedPc = 0 ∧
          a.cache = (h t).cache) := by
  obtain ⟨pc, hp⟩ := hp
  obtain ⟨e, hb, hel⟩ := branch_connected hc hi hn he
  obtain ⟨-, -, -, -, -, hbranch, hinstr⟩ := hc.fields
  have hpi : (p f).branchInstr = some i := by
    rw [hp]
    exact hinstr.trans hi
  have hpn : (p f).instrs[i]? = some (stageInstruction { n with dontEncode := e }) := by
    rw [hp]
    simp only [stageEncodeNativeInstructions, List.getElem?_map, hb, Option.map_some]
  have hpf : (p f).fallThroughInstr = b.fallThroughInstr := by rw [hp]; rfl
  have hpb : (p f).branch = a.branch := by
    rw [hp]
    exact hbranch
  have hne : (p f).fallThroughInstr ≠ some i := by
    rw [hpf]
    cases hc with
    | same => simp [hft]
    | jump t ht =>
      have hlt : i < a.instrs.length := (List.getElem?_eq_some_iff.mp hn).1
      simp only [addFallThroughJump, ne_eq, Option.some.injEq]
      omega
    | elided => simp [Fragment.modifyInstr, hft]
  refine ⟨e, ?_, fun het ↦ ⟨?_, (hel het).2⟩⟩
  · have hget := getElem?_relativizeControlFlow p f i
    simp only [hne, if_false, hpi, if_true, hpn, Option.map_some, hpb] at hget
    rw [Fragment.branchInstruction,
      show (relativizeControlFlow p f).branchInstr = some i from hpi, Option.bind_some, hget]
  · rw [show (relativizeControlFlow p f).fallThroughInstr = (p f).fallThroughInstr from rfl, hpf,
      (hel het).1, hft]

theorem fallThrough_final (hc : Connected h a b) (hd : a.Direct) (hft : a.fallThroughInstr = none)
    (hp : ∃ pc, p f = { stageEncodeNativeInstructions length b with encodedPc := pc })
    {t : FragmentId} (ht : a.fallThrough = some t) :
    (∃ i, (relativizeControlFlow p f).fallThroughInstr = some i ∧
      (relativizeControlFlow p f).instrs[i]? =
        some { opcode := .branch .jmp false, branchTarget := (p t).encodedPc }) ∨
    (relativizeControlFlow p f).fallThroughInstr = none ∧ a.next = some t ∧
      (h t).encodedPc = 0 ∧ a.cache = (h t).cache := by
  obtain ⟨pc, hp⟩ := hp
  cases hc with
  | same hsame =>
    refine .inr ⟨?_, hsame t ht⟩
    rw [show (relativizeControlFlow p f).fallThroughInstr = (p f).fallThroughInstr from rfl, hp]
    exact hft
  | elided t' hnone => exact absurd (hnone.symm.trans ht) (by simp)
  | jump t' ht' =>
    obtain rfl := Option.some.inj (ht'.symm.trans ht)
    have hpf : (p f).fallThroughInstr = some a.instrs.length := by
      rw [hp]
      rfl
    have hpn : (p f).instrs[a.instrs.length]? = some
        { opcode := .branch .jmp false, branchTarget := (h t').encodedPc } := by
      rw [hp]
      simp [stageEncodeNativeInstructions, addFallThroughJump, stageInstruction]
    have hne : (p f).branchInstr ≠ some a.instrs.length := by
      rw [hp]
      intro hi
      obtain ⟨n, hn, -, -⟩ := hd _ hi
      have hlt := (List.getElem?_eq_some_iff.mp hn).1
      omega
    have hpt : (p f).fallThrough = some t' := by
      rw [hp]
      exact ht'
    refine .inl ⟨a.instrs.length, hpf, ?_⟩
    have hget := getElem?_relativizeControlFlow p f a.instrs.length
    simp only [hpf, if_true, hne, if_false, hpn, Option.map_some, hpt] at hget
    rw [hget, setBranchTarget_direct rfl]
    rfl

theorem taken_congr {m n : NativeInstruction} (h : m.opcode = n.opcode) (s : AppState) :
    m.taken s = n.taken s := by
  rw [NativeInstruction.taken, NativeInstruction.taken, h]

theorem goesTo_final (hc : Connected h a b) (hd : a.Direct) (hft : a.fallThroughInstr = none)
    (hp : ∃ pc, p f = { stageEncodeNativeInstructions length b with encodedPc := pc })
    (hadj : ∀ t, a.next = some t → (h t).encodedPc = 0 → a.cache = (h t).cache →
      (p t).encodedPc = (p f).encodedPc + (p f).encodedSize)
    {s : AppState} {t : FragmentId} (ht : a.follow s = some t) :
    goesTo (relativizeControlFlow p f) s = (p t).encodedPc := by
  have hnext (hnone : (relativizeControlFlow p f).fallThroughInstr = none)
      (hn : a.next = some t) (hpc : (h t).encodedPc = 0) (hcache : a.cache = (h t).cache) :
      fallsTo (relativizeControlFlow p f) = (p t).encodedPc := by
    rw [fallsTo, hnone, hadj t hn hpc hcache]
    rfl
  have hfall (hf : a.fallThrough = some t) :
      fallsTo (relativizeControlFlow p f) = (p t).encodedPc := by
    rcases fallThrough_final hc hd hft hp hf with ⟨i, hi, hjmp⟩ | ⟨hnone, hn, hpc, hcache⟩
    · simp only [fallsTo, hi, Option.bind_some, hjmp, Bool.false_eq_true, if_false]
    · exact hnext hnone hn hpc hcache
  cases hi : a.branchInstr with
  | none =>
    have hnone : (relativizeControlFlow p f).branchInstruction = none := by
      obtain ⟨pc, hp⟩ := hp
      have hinstr : (relativizeControlFlow p f).branchInstr = none := by
        rw [show (relativizeControlFlow p f).branchInstr = (p f).branchInstr from rfl, hp]
        exact hc.fields.2.2.2.2.2.2.trans hi
      rw [Fragment.branchInstruction, hinstr, Option.bind_none]
    rw [Fragment.follow, Fragment.branchTaken, Fragment.branchInstruction, hi] at ht
    rw [goesTo, hnone]
    exact hfall ht
  | some i =>
    obtain ⟨n, hn, hdir, he⟩ := hd i hi
    obtain ⟨e, hbr, hel⟩ := branch_final hc hft hp hi hn he
    have htaken : a.branchTaken s = n.taken s := by
      rw [Fragment.branchTaken, Fragment.branchInstruction, hi, Option.bind_some, hn,
        Option.any_some]
    rw [Fragment.follow, htaken] at ht
    cases hs : n.taken s with
    | true =>
      rw [hs, if_pos rfl] at ht
      have hst : stageInstruction { n with dontEncode := e } = { n with dontEncode := e } :=
        stageInstruction_of_taken (s := s) hs
      rw [hst, ht, setBranchTarget_direct (i := { n with dontEncode := e }) hdir] at hbr
      rw [goesTo, hbr]
      cases e with
      | false =>
        have hcond : (!false && NativeInstruction.taken { n with
            dontEncode := false, branchTarget := (p t).encodedPc } s) = true := hs
        exact if_pos hcond
      | true =>
        obtain ⟨hnone, -, t', hb, hn', hpc, hcache⟩ := hel rfl
        obtain rfl := Option.some.inj (hb.symm.trans ht)
        simp only [Bool.not_true, Bool.false_and, Bool.false_eq_true, if_false]
        exact hnext hnone hn' hpc hcache
    | false =>
      rw [hs, if_neg Bool.false_ne_true] at ht
      have hnot : (setBranchTarget p a.branch (stageInstruction { n with dontEncode := e })).taken s
          = false := by
        rw [← hs]
        refine taken_congr ?_ s
        rw [setBranchTarget_opcode, stageInstruction_opcode]
      rw [goesTo, hbr]
      simp only [hnot, Bool.and_false, Bool.false_eq_true, if_false]
      exact hfall ht

theorem branchTaken_connected (hc : Connected h a b) (hd : a.Direct) (s : AppState) :
    b.branchTaken s = a.branchTaken s := by
  have hinstr := hc.fields.2.2.2.2.2.2
  cases hi : a.branchInstr with
  | none =>
    rw [hi] at hinstr
    simp only [Fragment.branchTaken, Fragment.branchInstruction, hi, hinstr, Option.bind_none]
  | some i =>
    rw [hi] at hinstr
    obtain ⟨n, hn, -, he⟩ := hd i hi
    obtain ⟨e, hb, -⟩ := branch_connected hc hi hn he
    simp only [Fragment.branchTaken, Fragment.branchInstruction, hi, hinstr, Option.bind_some, hn,
      hb, Option.any_some]
    exact taken_congr rfl s

theorem branchTaken_stage (b : Fragment) (pc : ℕ) (s : AppState) :
    Fragment.branchTaken { stageEncodeNativeInstructions length b with encodedPc := pc } s =
      b.branchTaken s := by
  simp only [Fragment.branchTaken, Fragment.branchInstruction, stageEncodeNativeInstructions]
  cases b.branchInstr with
  | none => rfl
  | some i =>
    rw [Option.bind_some, Option.bind_some, List.getElem?_map]
    cases b.instrs[i]? with
    | none => rfl
    | some n => exact taken_congr (stageInstruction_opcode n) s

theorem branchTaken_relativize (p : Heap) (f : FragmentId) (s : AppState) :
    (relativizeControlFlow p f).branchTaken s = (p f).branchTaken s := by
  have hinstr : (relativizeControlFlow p f).branchInstr = (p f).branchInstr := rfl
  rw [Fragment.branchTaken, Fragment.branchTaken, Fragment.branchInstruction,
    Fragment.branchInstruction, hinstr]
  cases hi : (p f).branchInstr with
  | none => rfl
  | some i =>
    rw [Option.bind_some, Option.bind_some, getElem?_relativizeControlFlow, if_pos hi]
    cases (p f).instrs[i]? with
    | none => simp
    | some n =>
      split_ifs
      · refine taken_congr ?_ s
        rw [setBranchTarget_opcode, setBranchTarget_opcode]
      · exact taken_congr (setBranchTarget_opcode ..) s

end Final

def laidOut (length : Encoder) (allocateCode : (CodeCacheKind → ℕ) → CodeCacheKind → ℕ)
    (order : List FragmentId) (h : Heap) : Heap := fun f ↦
  if f ∈ order then relativizeControlFlow (placed length allocateCode order h) f
  else placed length allocateCode order h f

theorem layout_eq {length : Encoder} {allocateCode : (CodeCacheKind → ℕ) → CodeCacheKind → ℕ}
    {fuel : ℕ} {first : FragmentId} {frags order : List FragmentId} {h₀ h : Heap}
    (hconnect : addConnectingJumps fuel first frags h₀ = some h)
    (hpath : Path (fun f ↦ (h f).next) (some first) order none) (hn : order.Nodup)
    (hfuel : order.length ≤ fuel) :
    layout length allocateCode fuel first frags h₀ =
      some (laidOut length allocateCode order h) := by
  have hstage : forEncodeOrderedUse fuel first (stageEncodeFragment length) (h, {}) =
      some (staged length order h) :=
    walk_eq_foldl (next_stageEncodeFragment length) hpath hfuel
  have hnext₁ (f : FragmentId) : ((staged length order h).1 f).next = (h f).next := by
    rw [staged, (stageEncode_foldl length hn (h, {})).1 f]
    split_ifs <;> rfl
  have hpath₁ : Path (fun f ↦ ((staged length order h).1 f).next) (some first) order none :=
    path_congr (fun f _ ↦ hnext₁ f) hpath
  let use : CodeCacheUse := { (staged length order h).2 with
    cacheCode := allocateCode (staged length order h).2.cacheSize }
  have hplace : forEncodeOrderedUse fuel first relativizeFragment ((staged length order h).1, use) =
      some (order.foldl relativizeFragment ((staged length order h).1, use)) :=
    walk_eq_foldl next_relativizeFragment hpath₁ hfuel
  have hpath₂ : Path (fun f ↦ (placed length allocateCode order h f).next) (some first) order
      none := by
    refine path_congr (fun f hf ↦ ?_) hpath
    rcases placed_fields length allocateCode hn hf with
      ⟨-, he⟩ | ⟨-, pc, he⟩
    · rw [he]
    · rw [he]
      rfl
  have hnext₃ (h : Heap) (f : FragmentId) : (relativizeControlFlow h f).next = (h f).next := rfl
  have hview (h : Heap) (f : FragmentId) : (relativizeControlFlow h f).place = (h f).place := rfl
  obtain ⟨h', he, hh'⟩ :=
    forEncodeOrdered_eq hnext₃ hview relativizeControlFlow_local hpath₂ hn hfuel
  have hfinal : h' = laidOut length allocateCode order h := funext hh'
  rw [← hfinal, ← he]
  simp only [layout, hconnect, hstage, Option.bind_eq_bind, Option.bind_some]
  rw [hplace]
  rfl

def AllocatesApart (allocateCode : (CodeCacheKind → ℕ) → CodeCacheKind → ℕ) : Prop :=
  ∀ size k k', k ≠ k' →
    Disjoint (Set.Ico (allocateCode size k) (allocateCode size k + size k))
      (Set.Ico (allocateCode size k') (allocateCode size k' + size k'))

section LaidOut

variable {length : Encoder} {allocateCode : (CodeCacheKind → ℕ) → CodeCacheKind → ℕ}
variable {g : Input} {h₁ h₂ : Heap} {order : List FragmentId}

theorem laidOut_eq {f : FragmentId} (hf : f ∈ order) :
    laidOut length allocateCode order h₂ f =
      relativizeControlFlow (placed length allocateCode order h₂) f := if_pos hf

theorem encodedPc_laidOut (f : FragmentId) :
    (laidOut length allocateCode order h₂ f).encodedPc =
      (placed length allocateCode order h₂ f).encodedPc := by
  unfold laidOut
  split_ifs <;> rfl

structure InOrder (g : Input) (h₁ h₂ : Heap) (order : List FragmentId) : Prop
    extends EncodeOrder g h₁ order where
  connected : ∀ f ∈ order, Connected h₁ (h₁ f) (h₂ f)

namespace InOrder

variable (H : InOrder g h₁ h₂ order)
include H

theorem encodedPc {f : FragmentId} (hf : f ∈ order) :
    (h₂ f).encodedPc = (g.heap f).encodedPc ∧ (h₁ f).encodedPc = (g.heap f).encodedPc :=
  ⟨(H.connected f hf).fields.2.2.1.trans (H.kept f).encodedPc, (H.kept f).encodedPc⟩

theorem encodedPc_of_mem {f t : FragmentId} (ht : t ∈ (h₁ f).successors) :
    (g.heap f).encodedPc = 0 := by
  by_contra hpc
  have hmem := ((H.kept f).mem_successors t).mp ht
  rw [g.exit f hpc] at hmem
  exact List.not_mem_nil hmem

variable (length allocateCode) in
theorem placed_of_zero {f : FragmentId} (hf : f ∈ order) (hpc : (g.heap f).encodedPc = 0) :
    ∃ pc, placed length allocateCode order h₂ f =
      { stageEncodeNativeInstructions length (h₂ f) with encodedPc := pc } := by
  rcases placed_fields length allocateCode H.nodup hf with ⟨hne, -⟩ | ⟨-, hpc'⟩
  · exact absurd ((H.encodedPc hf).1.trans hpc) hne
  · exact hpc'

theorem adjacent {f t : FragmentId} (hf : f ∈ order) (hpc : (g.heap f).encodedPc = 0)
    (hn : (h₁ f).next = some t) (ht : (h₁ t).encodedPc = 0) (hc : (h₁ f).cache = (h₁ t).cache) :
    (placed length allocateCode order h₂ t).encodedPc =
      (placed length allocateCode order h₂ f).encodedPc +
        (placed length allocateCode order h₂ f).encodedSize := by
  obtain ⟨pre, post, horder⟩ := path_next_mem H.path hf hn
  have hmem : t ∈ order := by
    rw [horder]
    simp
  have hcache : (h₂ f).cache = (h₂ t).cache := by
    rw [(H.connected f hf).fields.1, (H.connected t hmem).fields.1, hc]
  have hf₂ : (h₂ f).encodedPc = 0 := (H.encodedPc hf).1.trans hpc
  have ht₂ : (h₂ t).encodedPc = 0 := (H.encodedPc hmem).1.trans ((H.encodedPc hmem).2.symm.trans ht)
  have horder' : order = pre ++ f :: ([] ++ t :: post) := horder
  have hle := placed_le length allocateCode H.nodup horder' hf₂ ht₂ hcache
  rwa [offset, Nat.add_zero] at hle

theorem disjoint_placed (halloc : AllocatesApart allocateCode) {f t : FragmentId}
    {pre mid post : List FragmentId} (horder : order = pre ++ f :: (mid ++ t :: post)) :
    Disjoint (range (placed length allocateCode order h₂ f))
      (range (placed length allocateCode order h₂ t)) := by
  have hempty (a : FragmentId) (ha : a ∈ order) (hpc : (h₂ a).encodedPc ≠ 0) :
      range (placed length allocateCode order h₂ a) = ∅ := by
    rcases placed_fields length allocateCode H.nodup ha with
      ⟨-, he⟩ | ⟨hz, -⟩
    · have hsize : (h₂ a).encodedSize = 0 :=
        (H.connected a ha).fields.2.2.2.1.trans ((H.kept a).encodedSize.trans (g.fresh a).2.1)
      rw [range, he, hsize, Nat.add_zero, Set.Ico_self]
    · exact absurd hz hpc
  have hf : f ∈ order := by
    rw [horder]
    simp
  have ht : t ∈ order := by
    rw [horder]
    simp
  by_cases hfpc : (h₂ f).encodedPc = 0
  · by_cases htpc : (h₂ t).encodedPc = 0
    · by_cases hc : (h₂ f).cache = (h₂ t).cache
      · have hle := placed_le length allocateCode H.nodup horder hfpc
          htpc hc
        rw [Set.disjoint_left]
        intro x hx hx'
        have hx₁ := hx.2
        have hx₂ := hx'.1
        omega
      · exact (halloc _ _ _ hc).mono (range_placed_subset H.nodup hf hfpc)
          (range_placed_subset H.nodup ht htpc)
    · rw [hempty t ht htpc]
      exact Set.disjoint_empty _
  · rw [hempty f hf hfpc]
    exact Set.empty_disjoint _

variable (length allocateCode) in
theorem laidOut_fields (f : FragmentId) (hf : f ∈ order) :
    let d := Compile.laidOut length allocateCode order h₂ f
    d.cache = (h₁ f).cache ∧ d.next = (h₁ f).next ∧ d.fallThrough = (h₁ f).fallThrough ∧
      d.branch = (h₁ f).branch ∧ ∀ s, d.branchTaken s = (h₁ f).branchTaken s := by
  have hc := H.connected f hf
  obtain ⟨hcache, hnext, -, -, hft, hbr, -⟩ := hc.fields
  have htaken := branchTaken_connected hc ((H.kept f).direct (g.direct f))
  dsimp only
  rw [laidOut_eq hf]
  have hplaced : ∃ e, placed length allocateCode order h₂ f = e ∧ e.cache = (h₁ f).cache ∧
      e.next = (h₁ f).next ∧ e.fallThrough = (h₁ f).fallThrough ∧ e.branch = (h₁ f).branch ∧
      ∀ s, e.branchTaken s = (h₁ f).branchTaken s := by
    rcases placed_fields length allocateCode H.nodup hf with ⟨-, he⟩ | ⟨-, pc, he⟩
    · exact ⟨_, he, hcache, hnext, hft, hbr, htaken⟩
    · exact ⟨_, he, hcache, hnext, hft, hbr,
        fun s ↦ (branchTaken_stage (h₂ f) pc s).trans (htaken s)⟩
  obtain ⟨e, he, hcache', hnext', hft', hbr', htaken'⟩ := hplaced
  refine ⟨?_, ?_, ?_, ?_, fun s ↦ ?_⟩
  · exact (congrArg Fragment.cache he).trans hcache'
  · exact (congrArg Fragment.next he).trans hnext'
  · exact (congrArg Fragment.fallThrough he).trans hft'
  · exact (congrArg Fragment.branch he).trans hbr'
  · rw [branchTaken_relativize, he, htaken']

theorem laidOut_fallThrough {f t : FragmentId} (hf : f ∈ order)
    (ht : (Compile.laidOut length allocateCode order h₂ f).fallThrough = some t) :
    (∃ i, (Compile.laidOut length allocateCode order h₂ f).fallThroughInstr = some i ∧
      (Compile.laidOut length allocateCode order h₂ f).instrs[i]? =
        some { opcode := .branch .jmp false
               branchTarget := (Compile.laidOut length allocateCode order h₂ t).encodedPc }) ∨
    (Compile.laidOut length allocateCode order h₂ f).next = some t ∧
      (Compile.laidOut length allocateCode order h₂ f).cache =
        (Compile.laidOut length allocateCode order h₂ t).cache ∧
      (Compile.laidOut length allocateCode order h₂ t).encodedPc =
        (Compile.laidOut length allocateCode order h₂ f).encodedPc +
          (Compile.laidOut length allocateCode order h₂ f).encodedSize := by
  obtain ⟨hcache, hnext, hft, -, -⟩ :=
    H.laidOut_fields length allocateCode f hf
  rw [hft] at ht
  have hpc : (g.heap f).encodedPc = 0 :=
    H.encodedPc_of_mem (List.mem_append_left _ (Option.mem_toList.mpr ht))
  rcases fallThrough_final (H.connected f hf) ((H.kept f).direct (g.direct f))
    ((H.kept f).fallThroughInstr.trans (g.fresh f).2.2)
    (H.placed_of_zero length allocateCode hf hpc) ht with
    ⟨i, hi, hjmp⟩ | ⟨-, hn, htpc, htc⟩
  · refine .inl ⟨i, ?_, ?_⟩
    · rw [laidOut_eq hf]
      exact hi
    · rw [encodedPc_laidOut, laidOut_eq hf]
      exact hjmp
  · obtain ⟨pre, post, horder⟩ := path_next_mem H.path hf hn
    have hmem : t ∈ order := by
      rw [horder]
      simp
    refine .inr ⟨hnext.trans hn, ?_, ?_⟩
    · rw [hcache, htc, (H.laidOut_fields length allocateCode t hmem).1]
    · rw [encodedPc_laidOut, laidOut_eq hf]
      exact H.adjacent hf hpc hn htpc htc

theorem laidOut_goesTo {f t : FragmentId} (hf : f ∈ order) {s : AppState}
    (ht : (g.heap f).follow s = some t) :
    goesTo (Compile.laidOut length allocateCode order h₂ f) s =
      (Compile.laidOut length allocateCode order h₂ t).encodedPc := by
  rw [← (H.kept f).follow s] at ht
  have hmem : t ∈ (h₁ f).successors := by
    rw [Fragment.follow] at ht
    split_ifs at ht
    · exact List.mem_append_right _ (Option.mem_toList.mpr ht)
    · exact List.mem_append_left _ (Option.mem_toList.mpr ht)
  have hpc : (g.heap f).encodedPc = 0 := H.encodedPc_of_mem hmem
  rw [encodedPc_laidOut, laidOut_eq hf]
  exact goesTo_final (H.connected f hf) ((H.kept f).direct (g.direct f))
    ((H.kept f).fallThroughInstr.trans (g.fresh f).2.2) (H.placed_of_zero length allocateCode hf hpc)
    (fun t hn htpc htc ↦ H.adjacent hf hpc hn htpc htc) ht

theorem laidOut_disjoint (halloc : AllocatesApart allocateCode) {f t : FragmentId}
    (hf : f ∈ order) (ht : t ∈ order) (hne : f ≠ t) :
    Disjoint (range (Compile.laidOut length allocateCode order h₂ f))
      (range (Compile.laidOut length allocateCode order h₂ t)) := by
  have hrange (a : FragmentId) (ha : a ∈ order) :
      range (Compile.laidOut length allocateCode order h₂ a) =
        range (placed length allocateCode order h₂ a) := by
    rw [laidOut_eq ha]
    rfl
  rw [hrange f hf, hrange t ht]
  obtain ⟨pre, post, horder⟩ := List.append_of_mem hf
  have hmem := ht
  rw [horder, List.mem_append, List.mem_cons] at hmem
  rcases hmem with hmem | hmem | hmem
  · obtain ⟨pre', mid, rfl⟩ := List.append_of_mem hmem
    rw [List.append_assoc, List.cons_append] at horder
    exact (H.disjoint_placed halloc horder).symm
  · exact absurd hmem.symm hne
  · obtain ⟨mid, post', rfl⟩ := List.append_of_mem hmem
    exact H.disjoint_placed halloc horder

theorem laidOut (halloc : AllocatesApart allocateCode) :
    LaidOut g (Compile.laidOut length allocateCode order h₂) order := by
  refine ⟨?_, H.nodup, H.mem_iff, fun f hf t ht ↦ H.laidOut_fallThrough hf ht, fun f hf ↦ ?_,
    fun f hf s t ht ↦ H.laidOut_goesTo hf ht, fun f hf t ht hne ↦ H.laidOut_disjoint halloc hf ht hne⟩
  · exact path_congr (fun f hf ↦ (H.laidOut_fields length allocateCode f hf).2.1) H.path
  · obtain ⟨-, -, hft, hbr, htaken⟩ :=
      H.laidOut_fields length allocateCode f hf
    rw [hft, hbr]
    refine (H.kept f).ways.imp (fun hw ↦ ⟨fun s ↦ ?_, hw.2⟩) (fun hw ↦ ⟨fun s ↦ ?_, hw.2⟩)
    · exact (htaken s).trans (hw.1 s)
    · exact (htaken s).trans (hw.1 s)

end InOrder

end LaidOut

/-- A first fragment that is the only one is linked to itself, and the loops over the
fragments do not finish. -/
theorem layout_alone (length : Encoder)
    (allocateCode : (CodeCacheKind → ℕ) → CodeCacheKind → ℕ) {g : Input}
    (halone : ∀ f, g.Reachable f → f = g.first) :
    ∃ N, ∀ fuel, N ≤ fuel →
      layout length allocateCode fuel g.first (g.first :: g.rest) g.heap = none := by
  obtain ⟨w, l, z, h, N, hN⟩ := ordered_start g
  have hmem (f : FragmentId) (hf : f ∈ l ++ [z]) : f = g.first :=
    halone f (h.listed.reachable f (List.mem_append_left _ hf))
  have hl : l = [] := by
    refine List.eq_nil_iff_forall_not_mem.mpr fun f hf ↦ ?_
    have hnodup := h.listed.nodup
    rw [List.append_nil] at hnodup
    refine (List.nodup_append.mp hnodup).2.2 f hf z List.mem_cons_self ?_
    exact (hmem f (List.mem_append_left _ hf)).trans (hmem z (by simp)).symm
  subst hl
  have hz : g.first = z := Option.some.inj h.chain
  have hself : (w.heap g.first).next = some g.first := by
    rw [hz]
    exact h.last
  refine ⟨N, fun fuel hfuel ↦ ?_⟩
  have hrun : addConnectingJumps fuel g.first (g.first :: g.rest) g.heap =
      (g.start.orderFragments fuel).bind fun w ↦
        forEncodeOrdered fuel g.first connect w.heap := rfl
  have hstart : g.start.orderFragments fuel = some w := hN fuel hfuel
  have hloop : forEncodeOrdered fuel g.first connect w.heap = none :=
    walk_self (next_update next_connect) hself fuel
  rw [layout, hrun, hstart, Option.bind_some, hloop]
  rfl

/-- The layout preserves the graph of the fragments if and only if the first one has
a successor other than itself, or another fragment is entered from elsewhere. -/
theorem layout_preserves_iff (length : Encoder)
    (allocateCode : (CodeCacheKind → ℕ) → CodeCacheKind → ℕ)
    (halloc : AllocatesApart allocateCode) (g : Input) :
    Preserves length allocateCode g ↔ ∃ f, f ≠ g.first ∧ (g.Succ g.first f ∨ g.Root f) := by
  constructor
  · rintro ⟨h, order, N, -, hrun⟩
    by_contra hnone
    have hclosed (f : FragmentId) (hf : g.Succ g.first f ∨ g.Root f) : f = g.first := by
      by_contra hne
      exact hnone ⟨f, hne, hf⟩
    have halone (f : FragmentId) (hf : g.Reachable f) : f = g.first := by
      obtain ⟨r, hr, hpath⟩ := hf
      induction hpath with
      | refl => exact hclosed r (.inr hr)
      | tail _ hsucc ih =>
        rw [ih] at hsucc
        exact hclosed _ (.inl hsucc)
    obtain ⟨M, hM⟩ := layout_alone length allocateCode halone
    have hsome := hrun (max M N) (le_max_right _ _)
    rw [hM (max M N) (le_max_left _ _)] at hsome
    exact absurd hsome (by simp)
  · rintro ⟨f, hne, hf⟩
    have hreach : g.Reachable f := by
      rcases hf with hf | hf
      · exact ⟨g.first, .inl rfl, .single hf⟩
      · exact ⟨f, hf, .refl⟩
    obtain ⟨h₁, h₂, order, N, horder, hconn, hlen, hrun⟩ := addConnectingJumps_eq g ⟨f, hne, hreach⟩
    have H : InOrder g h₁ h₂ order := { horder with connected := hconn }
    refine ⟨laidOut length allocateCode order h₂, order, N, H.laidOut halloc, fun fuel hfuel ↦ ?_⟩
    refine layout_eq (hrun fuel hfuel) ?_ H.nodup (hlen.trans hfuel)
    exact path_congr (fun f hf ↦ (hconn f hf).fields.2.1) H.path

def allocateInTurn (size : CodeCacheKind → ℕ) : CodeCacheKind → ℕ
  | .hot => 1
  | .cold => 1 + size .hot
  | .frozen => 1 + size .hot + size .cold
  | .subZero => 1 + size .hot + size .cold + size .frozen
  | .edge => 1 + size .hot + size .cold + size .frozen + size .subZero

theorem allocatesApart_allocateInTurn : AllocatesApart allocateInTurn := by
  intro size k k' hne
  rw [Set.disjoint_left]
  intro x hx hx'
  have h₁ := hx.1
  have h₂ := hx.2
  have h₃ := hx'.1
  have h₄ := hx'.2
  cases k <;> cases k' <;> first | exact hne rfl | (simp only [allocateInTurn] at *; omega)

/-- A fragment that ends in a conditional branch back to itself, and falls through to
a cold one. -/
def hotLoop : Input where
  first := 0
  rest := [1]
  heap f := if f = 0 then
      { instrs := [{ opcode := .branch .jz false }]
        fallThrough := some 1
        branch := some 0
        branchInstr := some 0 }
    else { cache := .cold }
  bound := 2
  nodup := by decide
  lt_bound := by decide
  succ_lt := by decide
  fresh f := by split_ifs <;> exact ⟨rfl, rfl, rfl⟩
  exit f := by split_ifs <;> simp
  direct f i := by
    split_ifs
    · rintro ⟨⟩
      exact ⟨_, rfl, rfl, rfl⟩
    · simp
  twoWay f t b := by split_ifs <;> simp

theorem layout_preserves_iff_hotLoop : Preserves (fun _ ↦ 2) allocateInTurn hotLoop :=
  (layout_preserves_iff (fun _ ↦ 2) allocateInTurn allocatesApart_allocateInTurn hotLoop).mpr
    ⟨1, by decide, .inl (by simp [Input.Succ, hotLoop, Fragment.successors])⟩

def selfLoop : Input where
  first := 0
  rest := []
  heap f := if f = 0 then { fallThrough := some 0 } else {}
  bound := 1
  nodup := by decide
  lt_bound := by decide
  succ_lt := by decide
  fresh f := by split_ifs <;> exact ⟨rfl, rfl, rfl⟩
  exit f := by split_ifs <;> simp
  direct f i := by split_ifs <;> simp
  twoWay f t b := by split_ifs <;> simp

theorem selfLoop_not_preserved :
    (∃ f, selfLoop.Succ selfLoop.first f) ∧ ¬ Preserves (fun _ ↦ 2) allocateInTurn selfLoop := by
  refine ⟨⟨0, by simp [Input.Succ, selfLoop, Fragment.successors]⟩, ?_⟩
  rintro ⟨h, order, N, -, hrun⟩
  have halone (f : FragmentId) (hf : selfLoop.Reachable f) : f = selfLoop.first := by
    have hlt : f < 1 := Input.lt_of_reachable hf
    exact Nat.lt_one_iff.mp hlt
  obtain ⟨M, hM⟩ := layout_alone (fun _ ↦ 2) allocateInTurn halone
  have hsome := hrun (max M N) (le_max_right _ _)
  rw [hM (max M N) (le_max_left _ _)] at hsome
  exact absurd hsome (by simp)

end Granary.Compile
