import Granary.Arch.EarlyMangle.Exec

namespace Granary.Arch.EarlyMangle

variable {ρ : Type} (P : Processor ρ)

theorem display_dest (T : BitVec 64) {numArgs j : ℕ} (h : j + 2 ≤ numArgs) :
    T - BitVec.ofNat 64 (8 * (numArgs - 1)) +
      BitVec.ofInt 64 ((numArgs - (j + 1) - 1) * 8 : ℕ) = T - BitVec.ofNat 64 (8 * (j + 1)) := by
  obtain ⟨c, rfl⟩ := Nat.exists_eq_add_of_le h
  rw [show j + 2 + c - (j + 1) - 1 = c by omega, show j + 2 + c - 1 = j + 1 + c by omega]
  simp only [BitVec.ofInt_natCast, ← BitVec.natCast_eq_ofNat]
  push_cast
  ring

theorem display_src (R : BitVec 64) (j : ℕ) :
    R + BitVec.ofInt 64 (-((j + 1) * 8 : ℕ)) = R - BitVec.ofNat 64 (8 * j) - 8 := by
  rw [BitVec.ofInt_neg, BitVec.ofInt_natCast, show (j + 1) * 8 = 8 * j + 8 by omega,
    BitVec.ofNat_add, ← sub_eq_add_neg, sub_sub]
  rfl

theorem display_next (x : BitVec 64) (j : ℕ) :
    x - BitVec.ofNat 64 (8 * j) - 8 = x - BitVec.ofNat 64 (8 * (j + 1)) := by
  rw [show 8 * (j + 1) = 8 * j + 8 by omega, BitVec.ofNat_add, sub_sub]
  rfl

theorem after_copyDisplay (i : Instruction) (numArgs k : ℕ) {a d v : ℕ}
    {copiedAddr destAddr copiedVal : VirtualRegister} (ha : IsScratch a copiedAddr)
    (hd : IsScratch d destAddr) (hv : IsScratch v copiedVal) (had : a ≠ d) (hdv : d ≠ v)
    (m : EarlyMangler) (s : State ρ) :
    let e := m.after P s
    let dest := e.app.rsp + BitVec.ofInt 64 ((numArgs - k - 1) * 8 : ℕ)
    let src := e.app.gpr regRBP.number + BitVec.ofInt 64 (-(k * 8 : ℕ))
    let vr := Function.update (Function.update e.vr a src) d dest
    (copyDisplay i numArgs copiedAddr destAddr copiedVal m k).after P s =
      ⟨{ e.app with mem := e.app.mem.store 8 dest (e.app.mem.load 8 src) },
        Function.update vr v (e.app.mem.load 8 src)⟩ := by
  intro e dest src vr
  unfold copyDisplay
  have hcopied : ∀ t : State ρ, t.address (baseDispMemOp 0 copiedAddr 64) = t.vr a := by
    intro t
    rw [address_baseDispMemOp t 0 64 ha.numBytes, ha.readReg]
    exact BitVec.add_zero _
  have hdest : ∀ t : State ρ, t.address (baseDispMemOp 0 destAddr 64) = t.vr d := by
    intro t
    rw [address_baseDispMemOp t 0 64 hd.numBytes, hd.readReg]
    exact BitVec.add_zero _
  have hsrc : e.effectiveAddress (baseDispMemOp (-(k * 8 : ℕ)) regRBP 64) = src := by
    rw [effectiveAddress_baseDispMemOp e _ 64 rfl, readReg_regRBP]
  have hfirst : (e.writeReg P copiedAddr src) = ⟨e.app, Function.update e.vr a src⟩ :=
    ha.writeReg P e src
  rw [after_appNative, exec_movMemGpr P _ _ _ _ (isMemory_baseDispMemOp _ _ _) hv.isGeneralPurpose,
    after_appNative, exec_movGprMem P _ _ _ _ _ (isMemory_baseDispMemOp _ _ _),
    after_app, exec_leaGprAgen, after_app, exec_leaGprAgen, hsrc, hfirst,
    effectiveAddress_baseDispMemOp _ _ 64 rfl, readReg_regRSP, hd.writeReg, hcopied, hv.writeReg,
    hdest, hv.readReg, hv.numBytes]
  have hva : Function.update (Function.update e.vr a src) d dest a = src := by
    rw [Function.update_of_ne had, Function.update_self]
  have hvd : Function.update (Function.update (Function.update e.vr a src) d dest) v
      (e.app.mem.load 8 src) d = dest := by
    rw [Function.update_of_ne hdv, Function.update_self]
  have hwidth : (baseDispMemOp 0 destAddr 64).width = 64 := rfl
  dsimp only
  rw [hva, hvd, Function.update_self, hwidth]

/-- The state `e` after `j` turns of the loop, when `ENTER` is in the state `a`. The
stack pointer of the loop is below the whole display. -/
structure Copying (numArgs j : ℕ) (T : BitVec 64) (e a : AppState ρ) : Prop where
  same : e = { a with rsp := T - BitVec.ofNat 64 (8 * (numArgs - 1)) }
  rsp : a.rsp = T - BitVec.ofNat 64 (8 * j)

section Loop

variable {i : Instruction} {numArgs : ℕ} {u a d v : ℕ}
  {copiedAddr destAddr copiedVal : VirtualRegister} (ha : IsScratch a copiedAddr)
  (hd : IsScratch d destAddr) (hv : IsScratch v copiedVal) (had : a ≠ d) (hdv : d ≠ v)
include ha hd hv had hdv

theorem copying_step {j : ℕ} (hj : j + 2 ≤ numArgs) {T R : BitVec 64} {x : AppState ρ}
    (hR : x.gpr regRBP.number = R) (m : EarlyMangler) (s : State ρ)
    (h : Copying numArgs j T (m.after P s).app x) :
    Copying numArgs (j + 1) T
      ((copyDisplay i numArgs copiedAddr destAddr copiedVal m (j + 1)).after P s).app
      (enterDisplay 8 1 (R - BitVec.ofNat 64 (8 * j)) x) := by
  have hsame := h.same
  have hrbp : (m.after P s).app.gpr regRBP.number = R := by rw [hsame, ← hR]
  have hrsp : (m.after P s).app.rsp = T - BitVec.ofNat 64 (8 * (numArgs - 1)) := by rw [hsame]
  have hmem : (m.after P s).app.mem = x.mem := by rw [hsame]
  rw [after_copyDisplay P i numArgs (j + 1) ha hd hv had hdv m s, hrsp, display_dest T hj, hrbp,
    display_src, hmem]
  have hpush : x.rsp - BitVec.ofNat 64 8 = T - BitVec.ofNat 64 (8 * (j + 1)) := by
    rw [h.rsp]
    exact display_next T j
  have hx : enterDisplay 8 1 (R - BitVec.ofNat 64 (8 * j)) x = { x with
      rsp := T - BitVec.ofNat 64 (8 * (j + 1))
      mem := x.mem.store 8 (T - BitVec.ofNat 64 (8 * (j + 1)))
        (x.mem.load 8 (R - BitVec.ofNat 64 (8 * j) - 8)) } := by
    rw [← hpush]
    rfl
  rw [hx]
  exact ⟨by rw [hsame], rfl⟩

theorem copying_run (k : ℕ) {j : ℕ} (hj : j + 1 + k ≤ numArgs) {T R : BitVec 64}
    {x : AppState ρ} (hR : x.gpr regRBP.number = R) (m : EarlyMangler) (s : State ρ)
    (h : Copying numArgs j T (m.after P s).app x) :
    Copying numArgs (j + k) T
      (((List.range' (j + 1) k).foldl
        (copyDisplay i numArgs copiedAddr destAddr copiedVal) m).after P s).app
      (enterDisplay 8 k (R - BitVec.ofNat 64 (8 * j)) x) := by
  induction k generalizing j x m with
  | zero => exact h
  | succ k ih =>
    have hstep := copying_step P ha hd hv had hdv (i := i) (by omega) hR m s h
    have hrun := ih (x := enterDisplay 8 1 (R - BitVec.ofNat 64 (8 * j)) x) (by omega) hR _ hstep
    rw [show j + (k + 1) = j + 1 + k by omega, enterDisplay]
    rw [← display_next] at hrun
    exact hrun

variable (numArgs) in
theorem copying_vr (hua : u ≠ a) (hud : u ≠ d) (huv : u ≠ v) (ks : List ℕ) (m : EarlyMangler)
    (s : State ρ) :
    ((ks.foldl (copyDisplay i numArgs copiedAddr destAddr copiedVal) m).after P s).vr u =
      (m.after P s).vr u := by
  induction ks generalizing m with
  | nil => rfl
  | cons k ks ih =>
    rw [List.foldl_cons, ih, after_copyDisplay P i numArgs k ha hd hv had hdv m s]
    dsimp only
    rw [Function.update_of_ne huv, Function.update_of_ne hud, Function.update_of_ne hua]

end Loop

theorem numArgs_eq (imm1 : BitVec 64) :
    (imm1 &&& 0x1F).toNat = (imm1.setWidth 8).toNat % 32 := by
  rw [BitVec.toNat_and, BitVec.toNat_setWidth]
  have hand := Nat.and_two_pow_sub_one_eq_mod imm1.toNat 5
  have hmask : BitVec.toNat (0x1F : BitVec 64) = 2 ^ 5 - 1 := rfl
  rw [hmask, hand]
  omega

theorem frameSize_eq (imm0 : BitVec 64) : (imm0 &&& 0xFFFF).toNat = (imm0.setWidth 16).toNat := by
  rw [BitVec.toNat_and, BitVec.toNat_setWidth]
  exact Nat.and_two_pow_sub_one_eq_mod imm0.toNat 16

theorem enterDisplay_frame (n k : ℕ) (rbp : BitVec 64) (s : AppState ρ) :
    enterDisplay n k rbp s = { s with
      rsp := (enterDisplay n k rbp s).rsp
      mem := (enterDisplay n k rbp s).mem } := by
  induction k generalizing rbp s with
  | zero => rfl
  | succ k ih =>
    rw [enterDisplay, ih]
    rfl

/-- `ENTER` without the frame: the old frame pointer and the display are pushed. -/
def pushDisplay (n nestingLevel : ℕ) (rbp : BitVec 64) (s : AppState ρ) : AppState ρ :=
  if nestingLevel = 0 then s else (enterDisplay n (nestingLevel - 1) rbp s).push n s.rsp

theorem pushDisplay_frame (n nestingLevel : ℕ) (rbp : BitVec 64) (s : AppState ρ) :
    pushDisplay n nestingLevel rbp s = { s with
      rsp := (pushDisplay n nestingLevel rbp s).rsp
      mem := (pushDisplay n nestingLevel rbp s).mem } := by
  unfold pushDisplay
  split_ifs
  · rfl
  · rw [enterDisplay_frame]
    rfl

theorem enter_eq (n : ℕ) (allocSize : BitVec 16) (nestingLevel : BitVec 8) (s : AppState ρ) :
    let rbp := s.gpr regRBP.number
    let t := pushDisplay n (nestingLevel.toNat % 32) rbp (s.push n rbp)
    enter n allocSize nestingLevel s = { s with
      gpr := Function.update s.gpr regRBP.number (merge n rbp (s.rsp - BitVec.ofNat 64 n))
      rsp := t.rsp - allocSize.setWidth 64
      mem := t.mem } := by
  intro rbp t
  have henter : enter n allocSize nestingLevel s = { t with
      gpr := Function.update t.gpr regRBP.number (merge n rbp (s.rsp - BitVec.ofNat 64 n))
      rsp := t.rsp - allocSize.setWidth 64 } := by
    simp only [enter, t, pushDisplay]
    split_ifs with h0 h1
    · rfl
    · rfl
    · rw [show nestingLevel.toNat % 32 - 1 = 0 by omega]
      rfl
  have ht : t = { s with rsp := t.rsp, mem := t.mem } := pushDisplay_frame _ _ _ _
  rw [henter, ht]

theorem isScratch_alias {n : ℕ} {r : VirtualRegister} (h : IsScratch n r) :
    IsScratch n (markAsStackPointerAlias r) := ⟨h.kind, h.number, h.numBytes, h.isLegacy⟩

theorem isScratch_allocated (n : ℕ) : IsScratch n { kind := .virtualGpr, number := n } :=
  ⟨rfl, rfl, rfl, rfl⟩

theorem copying_start (numArgs : ℕ) (x : AppState ρ) :
    Copying numArgs 0 x.rsp
      { x with rsp := x.rsp + BitVec.ofInt 64 (-((numArgs - 1 : ℕ) : ℤ) * 8) } x := by
  have hrsp : x.rsp + BitVec.ofInt 64 (-((numArgs - 1 : ℕ) : ℤ) * 8) =
      x.rsp - BitVec.ofNat 64 (8 * (numArgs - 1)) := by
    rw [neg_mul, BitVec.ofInt_neg, show ((numArgs - 1 : ℕ) : ℤ) * 8 = (8 * (numArgs - 1) : ℕ) by
      push_cast; ring, BitVec.ofInt_natCast, ← sub_eq_add_neg]
  exact ⟨by rw [hrsp], (sub_zero _).symm⟩

section Display

variable (m : EarlyMangler) (i : Instruction) {numArgs : ℕ} {tempRbp : VirtualRegister} {u : ℕ}
  (hlt : u < m.regNum) (s : State ρ)
include hlt

theorem mangleDisplay_vr (numArgs : ℕ) :
    ((mangleDisplay m i numArgs tempRbp).after P s).vr u = (m.after P s).vr u := by
  have hcopy := copying_vr P (i := i) (u := u) numArgs (isScratch_allocated m.regNum)
    (isScratch_alias (isScratch_allocated (m.regNum + 1))) (isScratch_allocated (m.regNum + 2))
    (by omega) (by omega) (by omega) (by omega) (by omega) (List.range' 1 (numArgs - 1))
    { m.appNative i (leaGprAgen regRSP
        (baseDispMemOp (-((numArgs - 1 : ℕ) : ℤ) * 8) regRSP 64)) with regNum := m.regNum + 3 } s
  have hlea : ((m.appNative i (leaGprAgen regRSP
      (baseDispMemOp (-((numArgs - 1 : ℕ) : ℤ) * 8) regRSP 64))).after P s).vr u =
      (m.after P s).vr u := by
    rw [after_appNative, exec_leaGprAgen, writeReg_regRSP]
  unfold mangleDisplay
  dsimp only
  rw [after_appNative, exec_pushGpr50]
  exact hcopy.trans hlea

theorem mangleDisplay_spec (hu : IsScratch u tempRbp) (hnum : numArgs ≠ 0) (hwidth : i.effectiveOperandWidth = 64)
    (htemp : (m.after P s).vr u = (m.after P s).app.rsp) :
    let e := (m.after P s).app
    ((mangleDisplay m i numArgs tempRbp).after P s).app =
      pushDisplay 8 numArgs (e.gpr regRBP.number) e := by
  intro e
  have hlea : (m.appNative i (leaGprAgen regRSP
      (baseDispMemOp (-((numArgs - 1 : ℕ) : ℤ) * 8) regRSP 64))).after P s =
      { m.after P s with app := { e with
        rsp := e.rsp + BitVec.ofInt 64 (-((numArgs - 1 : ℕ) : ℤ) * 8) } } := by
    rw [after_appNative, exec_leaGprAgen, effectiveAddress_baseDispMemOp _ _ _ rfl,
      readReg_regRSP, writeReg_regRSP]
  -- The three registers of the loop are allocated after the stack pointer is moved.
  set m₁ : EarlyMangler := { m.appNative i (leaGprAgen regRSP
    (baseDispMemOp (-((numArgs - 1 : ℕ) : ℤ) * 8) regRSP 64)) with regNum := m.regNum + 3 } with hm₁
  have hafter : m₁.after P s = { m.after P s with app := { e with
      rsp := e.rsp + BitVec.ofInt 64 (-((numArgs - 1 : ℕ) : ℤ) * 8) } } := hlea
  have hfirst : Copying numArgs 0 e.rsp (m₁.after P s).app e := by
    rw [hafter]
    exact copying_start numArgs e
  have ha := isScratch_allocated m.regNum
  have hd := isScratch_alias (isScratch_allocated (m.regNum + 1))
  have hv := isScratch_allocated (m.regNum + 2)
  have hcopy := copying_run P ha hd hv (by omega) (by omega) (i := i) (numArgs - 1)
    (by omega) rfl m₁ s hfirst
  set m₂ := (List.range' (0 + 1) (numArgs - 1)).foldl (copyDisplay i numArgs
    { kind := .virtualGpr, number := m.regNum }
    (markAsStackPointerAlias { kind := .virtualGpr, number := m.regNum + 1 })
    { kind := .virtualGpr, number := m.regNum + 2 }) m₁
  have hu₂ : (m₂.after P s).vr u = e.rsp := by
    rw [copying_vr P _ ha hd hv (by omega) (by omega) (by omega) (by omega) (by omega), hafter,
      ← htemp]
  have hlast : (mangleDisplay m i numArgs tempRbp).after P s =
      { m₂.after P s with app := (m₂.after P s).app.push 8 e.rsp } := by
    have hpush : (mangleDisplay m i numArgs tempRbp).after P s =
        exec P { pushGpr50 tempRbp with
          decodedPc := i.decodedPc, effectiveOperandWidth := i.effectiveOperandWidth }
          (m₂.after P s) := after_appNative P m₂ i (pushGpr50 tempRbp) s
    rw [hpush, exec_pushGpr50, hu.readReg, hu₂, hwidth]
  have hzero : e.gpr regRBP.number - BitVec.ofNat 64 (8 * 0) = e.gpr regRBP.number := sub_zero _
  have hrsp := hcopy.rsp
  rw [Nat.zero_add] at hrsp
  rw [hlast, hcopy.same, ← hrsp, hzero, pushDisplay, if_neg hnum]

end Display

theorem frameSize_sub (x : BitVec 64) (imm0 : BitVec 64) :
    x + BitVec.ofInt 64 (-((imm0.setWidth 16).toNat : ℤ)) =
      x - (imm0.setWidth 16).setWidth 64 := by
  rw [BitVec.ofInt_neg, BitVec.ofInt_natCast, ← sub_eq_add_neg, BitVec.ofNat_toNat]

/-- After the stack pointer is moved down, the frame pointer is the address of its old
value, whatever the width of the operands is. -/
theorem mangleEnter_exec (m : EarlyMangler) (i : Instruction) (imm0 imm1 : BitVec 64)
    (s : State ρ) :
    let e := (m.after P s).app
    let n := i.effectiveOperandWidth / 8
    ∃ t : AppState ρ, (exec P (mangleEnter m i imm0 imm1).1
        ((mangleEnter m i imm0 imm1).2.after P s)).app =
          { t with gpr := Function.update t.gpr regRBP.number (e.rsp - BitVec.ofNat 64 n) } ∧
      (i.effectiveOperandWidth = 64 → ∃ t' : AppState ρ,
        t' = pushDisplay 8 ((imm1.setWidth 8).toNat % 32) (e.gpr regRBP.number)
          (e.push 8 (e.gpr regRBP.number)) ∧
        t = { t' with rsp := t'.rsp - (imm0.setWidth 16).setWidth 64 }) := by
  intro e n
  set numArgs := (imm1.setWidth 8).toNat % 32 with hnumArgs
  have htemp := isScratch_alias (isScratch_allocated m.regNum)
  set tempRbp := markAsStackPointerAlias { kind := .virtualGpr, number := m.regNum } with htempRbp
  -- The old frame pointer is pushed, and the new one is kept in a register.
  set m₁ : EarlyMangler :=
    ({ m with regNum := m.regNum + 1 }.appNative i (pushGpr50 regRBP)).appNative i
      (leaGprAgen tempRbp (baseDispMemOp 0 regRSP 64)) with hm₁
  have h₁ : m₁.after P s = ⟨e.push n (e.gpr regRBP.number),
      Function.update (m.after P s).vr m.regNum (e.rsp - BitVec.ofNat 64 n)⟩ := by
    have hpush : ({ m with regNum := m.regNum + 1 }.appNative i (pushGpr50 regRBP)).after P s =
        { m.after P s with app := e.push n (e.gpr regRBP.number) } := by
      rw [after_appNative, exec_pushGpr50, readReg_regRBP]
      rfl
    have hzero : BitVec.ofInt 64 0 = 0 := rfl
    rw [after_appNative, exec_leaGprAgen, hpush, effectiveAddress_baseDispMemOp _ _ _ rfl,
      readReg_regRSP, htemp.writeReg, hzero, add_zero]
    rfl
  have hvr₁ : (m₁.after P s).vr m.regNum = e.rsp - BitVec.ofNat 64 n := by
    rw [h₁]
    exact Function.update_self _ _ _
  set m₂ := if numArgs ≠ 0 then mangleDisplay m₁ i numArgs tempRbp else m₁ with hm₂
  have hvr₂ : (m₂.after P s).vr m.regNum = e.rsp - BitVec.ofNat 64 n := by
    rw [hm₂, ← hvr₁]
    split_ifs
    · exact mangleDisplay_vr P m₁ i (Nat.lt_succ_self _) s numArgs
    · rfl
  have happ₂ : i.effectiveOperandWidth = 64 → (m₂.after P s).app =
      pushDisplay 8 numArgs (e.gpr regRBP.number) (e.push 8 (e.gpr regRBP.number)) := by
    intro hwidth
    have hn : n = 8 := by simp only [n, hwidth]
    rw [hn] at h₁ hvr₁
    by_cases hnum : numArgs = 0
    · rw [hm₂, if_neg (not_not.2 hnum), h₁, pushDisplay, if_pos hnum]
    · have hrsp : (m₁.after P s).vr m.regNum = (m₁.after P s).app.rsp := by
        rw [hvr₁, h₁]
        rfl
      rw [hm₂, if_pos hnum,
        mangleDisplay_spec P m₁ i (Nat.lt_succ_self _) s htemp hnum hwidth hrsp, h₁]
      rfl
  set m₃ := if (imm0.setWidth 16).toNat ≠ 0 then
      m₂.app (leaGprAgen regRSP (baseDispMemOp (-(imm0.setWidth 16).toNat) regRSP 64))
    else m₂ with hm₃
  have h₃ : m₃.after P s = { m₂.after P s with app := { (m₂.after P s).app with
      rsp := (m₂.after P s).app.rsp - (imm0.setWidth 16).setWidth 64 } } := by
    by_cases hsize : (imm0.setWidth 16).toNat = 0
    · have hzero : (imm0.setWidth 16).setWidth 64 = 0 := by
        rw [← BitVec.ofNat_toNat, hsize]
        rfl
      rw [hm₃, if_neg (by simpa using hsize), hzero, sub_zero]
    · rw [hm₃, if_pos hsize, after_app]
      have hlea := exec_leaGprAgen P (m₂.after P s) regRSP
        (baseDispMemOp (-(imm0.setWidth 16).toNat) regRSP 64) 0 0 0
      rw [show exec P (leaGprAgen regRSP (baseDispMemOp (-(imm0.setWidth 16).toNat) regRSP 64))
        (m₂.after P s) = _ from hlea, effectiveAddress_baseDispMemOp _ _ _ rfl, readReg_regRSP,
        writeReg_regRSP, frameSize_sub]
  have hmangle : mangleEnter m i imm0 imm1 = ((movGprGpr89 regRBP tempRbp).inPlaceOf i 64, m₃) := by
    rw [mangleEnter, numArgs_eq, frameSize_eq]
    rfl
  have hmov : exec P ((movGprGpr89 regRBP tempRbp).inPlaceOf i 64) (m₃.after P s) =
      (m₃.after P s).writeReg P regRBP ((m₃.after P s).readReg tempRbp) :=
    exec_movGprGpr89 P _ _ _ _ _ htemp.isGeneralPurpose
  refine ⟨(m₃.after P s).app, ?_, fun hwidth ↦ ⟨_, rfl, ?_⟩⟩
  · rw [hmangle, hmov, htemp.readReg, writeReg_regRBP, h₃]
    dsimp only
    rw [hvr₂]
  · rw [h₃, happ₂ hwidth]

theorem mangleEnter_spec (m : EarlyMangler) (i : Instruction) (imm0 imm1 : BitVec 64)
    (hwidth : i.effectiveOperandWidth = 64) (s : State ρ) :
    (exec P (mangleEnter m i imm0 imm1).1 ((mangleEnter m i imm0 imm1).2.after P s)).app =
      enter 8 (imm0.setWidth 16) (imm1.setWidth 8) (m.after P s).app := by
  obtain ⟨t, hexec, ht⟩ := mangleEnter_exec P m i imm0 imm1 s
  obtain ⟨t', ht', rfl⟩ := ht hwidth
  have hframe := pushDisplay_frame 8 ((imm1.setWidth 8).toNat % 32)
    ((m.after P s).app.gpr regRBP.number)
    ((m.after P s).app.push 8 ((m.after P s).app.gpr regRBP.number))
  rw [← ht'] at hframe
  rw [hexec, enter_eq, merge_eight, hwidth, ← ht', hframe]
  rfl

theorem enter_frame (n : ℕ) (allocSize : BitVec 16) (nestingLevel : BitVec 8) (s : AppState ρ) :
    enter n allocSize nestingLevel s = { s with
      gpr := Function.update s.gpr regRBP.number
        (merge n (s.gpr regRBP.number) (s.rsp - BitVec.ofNat 64 n))
      rsp := (enter n allocSize nestingLevel s).rsp
      mem := (enter n allocSize nestingLevel s).mem } := by
  rw [enter_eq]

/-- A decoded `ENTER`. An operand-size prefix makes its operands words. -/
def decodedEnter (hasOperandSizePrefix : Bool) (allocSize : BitVec 16) (nestingLevel : BitVec 8)
    (implicitOps : List Operand) (pc : Addr) : Instruction :=
  { iclass := .enter
    ops := [{ value := .imm (allocSize.setWidth 64), width := 16 },
      { value := .imm (nestingLevel.setWidth 64), width := 8 }]
    implicitOps
    effectiveOperandWidth := if hasOperandSizePrefix then 16 else 64
    decodedPc := pc
    decodedLength := if hasOperandSizePrefix then 5 else 4 }

section Decoded

variable (hasOperandSizePrefix : Bool) (allocSize : BitVec 16) (nestingLevel : BitVec 8)
  (implicitOps : List Operand) (pc : Addr)

theorem run_mangled_enter (s : State ρ) :
    let i := decodedEnter hasOperandSizePrefix allocSize nestingLevel implicitOps pc
    let p := mangleEnter {} i (allocSize.setWidth 64) (nestingLevel.setWidth 64)
    (run P (mangled i) s).app = (exec P p.1 (p.2.after P s)).app := by
  intro i p
  have hvalid : i.invalidatesStack = false := by
    simp [i, Instruction.invalidatesStack, Instruction.shiftsStackPointer, decodedEnter]
  have hmangle : mangleDecodedInstruction i = p := by
    rw [mangleDecodedInstruction, hvalid]
    rfl
  rw [run_mangled, hmangle]

/-- What is in the block for an `ENTER` does what the `ENTER` does, to registers and to
memory, from every state. -/
def EntersAlike : Prop :=
  let i := decodedEnter hasOperandSizePrefix allocSize nestingLevel implicitOps pc
  ∀ (ρ : Type) (P : Processor ρ) (s : State ρ),
    let t := (run P (mangled i) s).app
    t = enter (i.effectiveOperandWidth / 8) allocSize nestingLevel s.app ∧
      (∀ r ≠ regRBP.number, t.gpr r = s.app.gpr r) ∧ t.selector = s.app.selector ∧
      t.segBase = s.app.segBase ∧ t.rest = s.app.rest

def clearedFrame : State Unit :=
  { app :=
      { gpr := fun _ ↦ 0
        rsp := 0x7fffffffe000
        selector := fun _ ↦ 0
        segBase := fun _ ↦ 0
        mem := fun _ ↦ 0
        target := none
        rest := () }
    vr := fun _ ↦ 0 }

def idle : Processor Unit where
  effect _ _ _ s := s
  descriptor _ _ := 0

variable {allocSize nestingLevel implicitOps pc} in
theorem not_entersAlike_prefixed : ¬ EntersAlike true allocSize nestingLevel implicitOps pc := by
  intro h
  have happ := (h Unit idle clearedFrame).1
  rw [run_mangled_enter] at happ
  obtain ⟨t, hexec, -⟩ := mangleEnter_exec idle {}
    (decodedEnter true allocSize nestingLevel implicitOps pc) (allocSize.setWidth 64)
    (nestingLevel.setWidth 64) clearedFrame
  have hn : (decodedEnter true allocSize nestingLevel implicitOps pc).effectiveOperandWidth / 8 =
      2 := by simp [decodedEnter]
  have hrsp : (EarlyMangler.after idle {} clearedFrame).app.rsp = clearedFrame.app.rsp := rfl
  rw [hexec, enter_frame, hn, hrsp] at happ
  have hrbp := congrFun (congrArg AppState.gpr happ) regRBP.number
  dsimp only at hrbp
  rw [Function.update_self, Function.update_self] at hrbp
  have hne : clearedFrame.app.rsp - BitVec.ofNat 64 2 ≠
      merge 2 (clearedFrame.app.gpr regRBP.number) (clearedFrame.app.rsp - BitVec.ofNat 64 2) := by
    decide +kernel
  exact hne hrbp

/-- The expansion of an `ENTER` is equivalent to it if its operands have eight bytes. -/
theorem mangled_enter_iff :
    EntersAlike hasOperandSizePrefix allocSize nestingLevel implicitOps pc ↔
      (decodedEnter hasOperandSizePrefix allocSize nestingLevel implicitOps pc).effectiveOperandWidth
        = 64 := by
  constructor
  · intro h
    cases hasOperandSizePrefix with
    | false => rfl
    | true => exact absurd h not_entersAlike_prefixed
  · intro hwidth
    unfold EntersAlike
    dsimp only
    rw [hwidth]
    intro ρ P s
    have ht : (run P (mangled (decodedEnter hasOperandSizePrefix allocSize nestingLevel implicitOps
        pc)) s).app = enter 8 allocSize nestingLevel s.app := by
      have hspec := mangleEnter_spec P {}
        (decodedEnter hasOperandSizePrefix allocSize nestingLevel implicitOps pc)
        (allocSize.setWidth 64) (nestingLevel.setWidth 64) hwidth s
      have hsize : (allocSize.setWidth 64).setWidth 16 = allocSize := by bv_omega
      have hlevel : (nestingLevel.setWidth 64).setWidth 8 = nestingLevel := by bv_omega
      rw [hsize, hlevel] at hspec
      rw [run_mangled_enter]
      exact hspec
    refine ⟨ht, ?_⟩
    rw [ht, enter_frame]
    exact ⟨fun r hr ↦ Function.update_of_ne hr _ _, rfl, rfl, rfl⟩

end Decoded

/-- `ENTER 16, 0` with an operand-size prefix. -/
theorem mangled_enter_prefixed :
    (run idle (mangled (decodedEnter true 16 0 [] 0)) clearedFrame).app.gpr regRBP.number =
        0x7fffffffdffe ∧
      (enter 2 16 0 clearedFrame.app).gpr regRBP.number = 0xdffe ∧
      ¬ EntersAlike true 16 0 [] 0 :=
  ⟨by decide, by decide, not_entersAlike_prefixed⟩

end Granary.Arch.EarlyMangle
