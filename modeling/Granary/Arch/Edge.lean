import Granary.Base.Memory
import Granary.Base.Run

namespace Granary.Arch.Edge

open Granary.Base.Memory Granary.Base.Run

structure Registers where
  rsi : ℕ
  zf : Bool

/-- The instructions of an edge and of the blocks that it leads to. The target of the control flow
instruction is in a register that no other instruction writes. An instruction that `native` stands
for runs on to the next. -/
inductive Instr where
  | movRsi (imm : ℕ)
  | movRsiTarget
  | movRdiEdge
  | cmp
  | jnz (target : ℕ)
  | callExitFunction
  | jmpOutEdge
  | ud2
  | native (effect : Registers → Registers)

/-- What later passes put around the instructions of an edge: the annotations that save and restore
registers, the spills and fills, and the code that saves and restores the flags. Only moves stand
between the comparison and its branch. -/
structure Scheduled where
  save : List (Registers → Registers)
  restore : List (Registers → Registers)
  fill : List (Registers → Registers)
  keep : List (Registers → Registers)
  leave : List (Registers → Registers)
  keep_zf : ∀ effect ∈ keep, ∀ r, (effect r).zf = r.zf

def goToGranary (c : Scheduled) : List Instr :=
  c.save.map .native ++ [.movRdiEdge, .movRsiTarget, .callExitFunction] ++
    c.restore.map .native ++ [.jmpOutEdge]

/-- Without the move to `RSI`, which is not encoded. -/
def compareTarget (c : Scheduled) (miss : ℕ) : List Instr :=
  c.fill.map .native ++ .cmp :: c.keep.map .native ++ .jnz miss :: c.leave.map .native

def exitToBlock : List Instr :=
  [.ud2]

def generateIndirectEdgeCode (c : Scheduled) (miss : ℕ) : List Instr :=
  goToGranary c ++ compareTarget c miss ++ exitToBlock

structure CodeCache where
  size : ℕ
  code : ℕ → Option Instr

def CodeCache.encode (cache : CodeCache) (pc : ℕ) (code : List Instr) : Option CodeCache :=
  if pc ≠ 0 ∧ pc + code.length ≤ cache.size ∧ free cache.code pc code.length = true then
    some { cache with code := write cache.code pc code }
  else none

structure IndirectEdge where
  outEdgePC : ℕ
  outEdgeTemplate : ℕ
  outEdges : List (ℕ × ℕ)

structure State where
  cache : CodeCache
  edge : IndirectEdge

def encodeEdge (c : Scheduled) (cache : CodeCache) (pc : ℕ) : Option State :=
  (cache.encode pc (generateIndirectEdgeCode c pc)).map fun cache ↦
    { cache := cache
      edge :=
        { outEdgePC := pc
          outEdgeTemplate := pc + (goToGranary c).length
          outEdges := [] } }

/-- Decoding ends at an `UD2`. -/
def decode (code : ℕ → Option Instr) : ℕ → ℕ → List Instr
  | 0, _ => []
  | fuel + 1, pc =>
    match code pc with
    | none | some .ud2 => []
    | some i => i :: decode code fuel (pc + 1)

def instantiate (appPC miss : ℕ) : Instr → List Instr
  | .cmp => [.movRsi appPC, .cmp]
  | .jnz _ => [.jnz miss]
  | i => [i]

def instantiateIndirectEdge (s : State) (appPC : ℕ) : List Instr :=
  (decode s.cache.code (s.cache.size - s.edge.outEdgeTemplate) s.edge.outEdgeTemplate).flatMap
    (instantiate appPC s.edge.outEdgePC)

structure Block where
  first : Instr
  rest : List Instr

def Block.code (b : Block) : List Instr :=
  b.first :: b.rest

/-- The target was translated to `block`, and room was found at `pc`. The map takes no null key. -/
def granaryEnterIndirectEdge (s : State) (targetAppPC pc : ℕ) (block : Block) : Option State :=
  if targetAppPC = 0 then none
  else if (s.edge.outEdges.lookup targetAppPC).getD 0 ≠ 0 then some s
  else
    (s.cache.encode pc (instantiateIndirectEdge s targetAppPC ++ block.code)).map fun cache ↦
      { cache := cache
        edge := { s.edge with
          outEdgePC := pc
          outEdges := s.edge.outEdges ++ [(targetAppPC, pc)] } }

inductive Action where
  | enter (targetAppPC pc : ℕ) (block : Block)
  | encode (pc : ℕ) (code : List Instr)

def State.step (s : State) : Action → Option State
  | .enter targetAppPC pc block => granaryEnterIndirectEdge s targetAppPC pc block
  | .encode pc code => (s.cache.encode pc code).map fun cache ↦ { s with cache := cache }

/-- `compared` lists the addresses that the target was compared with. -/
structure Cpu where
  pc : ℕ
  regs : Registers
  target : ℕ
  compared : List ℕ

def Cpu.step (code : ℕ → Option Instr) (c : Cpu) : Option Cpu :=
  match code c.pc with
  | some (.movRsi imm) => some { c with pc := c.pc + 1, regs := { c.regs with rsi := imm } }
  | some .cmp => some { c with
      pc := c.pc + 1
      regs := { c.regs with zf := c.regs.rsi = c.target }
      compared := c.compared ++ [c.regs.rsi] }
  | some (.jnz target) => some { c with pc := if c.regs.zf then c.pc + 1 else target }
  | some (.native effect) => some { c with pc := c.pc + 1, regs := effect c.regs }
  | _ => none

def chainLength (c : Scheduled) : ℕ :=
  c.fill.length + c.keep.length + c.leave.length + 3

/-- The addresses where the code of the edge is left: the code for a miss, and the blocks. -/
def exits (c : Scheduled) (miss : ℕ) (s : State) : List ℕ :=
  miss :: s.edge.outEdges.map fun e ↦ e.2 + chainLength c

def dispatch (c : Scheduled) (miss : ℕ) (s : State) (fuel : ℕ) (cpu : Cpu) : Option Cpu :=
  runUntil (fun cpu ↦ cpu.pc ∈ exits c miss s) (Cpu.step s.cache.code) fuel
    { cpu with pc := s.edge.outEdgePC }

def chainCode (c : Scheduled) (appPC next : ℕ) : List Instr :=
  c.fill.map .native ++ .movRsi appPC :: .cmp :: c.keep.map .native ++
    .jnz next :: c.leave.map .native

theorem length_chainCode (c : Scheduled) (appPC next : ℕ) :
    (chainCode c appPC next).length = chainLength c := by
  simp [chainCode, chainLength]
  omega

theorem flatMap_native (effects : List (Registers → Registers)) (appPC miss : ℕ) :
    (effects.map .native).flatMap (instantiate appPC miss) = effects.map .native := by
  induction effects with
  | nil => rfl
  | cons effect effects ih => simp [instantiate, ih]

theorem flatMap_compareTarget (c : Scheduled) (miss appPC next : ℕ) :
    (compareTarget c miss).flatMap (instantiate appPC next) = chainCode c appPC next := by
  simp only [compareTarget, chainCode, List.flatMap_append, List.flatMap_cons, flatMap_native,
    instantiate, List.cons_append, List.nil_append]

theorem decode_eq {code : ℕ → Option Instr} {is : List Instr} {pc fuel : ℕ}
    (h : CodeAt code pc (is ++ [.ud2])) (his : .ud2 ∉ is) (hfuel : is.length < fuel) :
    decode code fuel pc = is := by
  induction is generalizing pc fuel with
  | nil =>
    obtain ⟨n, rfl⟩ := Nat.exists_eq_succ_of_ne_zero (by omega : fuel ≠ 0)
    simp [decode, h.1]
  | cons i is ih =>
    obtain ⟨n, rfl⟩ := Nat.exists_eq_succ_of_ne_zero (by omega : fuel ≠ 0)
    rw [List.mem_cons, not_or] at his
    rw [List.length_cons] at hfuel
    have hrest := ih h.2 his.2 (by omega : is.length < n)
    rw [decode, h.1, hrest]
    cases i with
    | ud2 => exact absurd rfl his.1
    | _ => rfl

theorem ud2_notMem_compareTarget (c : Scheduled) (miss : ℕ) : .ud2 ∉ compareTarget c miss := by
  simp [compareTarget]

section Straight

variable (stop : Cpu → Bool) {code : ℕ → Option Instr} (cpu : Cpu)

theorem goes_native (effects : List (Registers → Registers))
    (h : CodeAt code cpu.pc (effects.map .native))
    (hstop : ∀ c : Cpu, cpu.pc ≤ c.pc → c.pc < cpu.pc + effects.length → stop c = false) :
    Goes stop (Cpu.step code) cpu { cpu with
      pc := cpu.pc + effects.length
      regs := effects.foldl (fun r effect ↦ effect r) cpu.regs } := by
  induction effects generalizing cpu with
  | nil => exact .refl cpu
  | cons effect effects ih =>
    rw [List.length_cons] at hstop ⊢
    have hstep : cpu.step code = some { cpu with pc := cpu.pc + 1, regs := effect cpu.regs } := by
      simp only [Cpu.step, h.1]
    have hrest := ih { cpu with pc := cpu.pc + 1, regs := effect cpu.regs } h.2
      (fun c hle hlt ↦ hstop c (by dsimp at hle; omega) (by dsimp at hlt; omega))
    refine (Goes.one (hstop cpu le_rfl (by omega)) hstep).trans ?_
    rw [show cpu.pc + (effects.length + 1) = cpu.pc + 1 + effects.length by omega]
    exact hrest

theorem foldl_zf {effects : List (Registers → Registers)}
    (h : ∀ effect ∈ effects, ∀ r, (effect r).zf = r.zf) (r : Registers) :
    (effects.foldl (fun r effect ↦ effect r) r).zf = r.zf := by
  induction effects generalizing r with
  | nil => rfl
  | cons effect effects ih =>
    rw [List.foldl_cons, ih (fun e he ↦ h e (List.mem_cons_of_mem effect he)),
      h effect List.mem_cons_self]

/-- The code goes on to the block after it when the target is its address, and else to the next
comparison. -/
theorem goes_chainCode (c : Scheduled) {appPC next : ℕ}
    (h : CodeAt code cpu.pc (chainCode c appPC next))
    (hstop : ∀ c' : Cpu, cpu.pc ≤ c'.pc → c'.pc < cpu.pc + chainLength c → stop c' = false) :
    ∃ regs, Goes stop (Cpu.step code) cpu { cpu with
      pc := if cpu.target = appPC then cpu.pc + chainLength c else next
      regs := regs
      compared := cpu.compared ++ [appPC] } := by
  rw [chainCode, codeAt_append, codeAt_append, List.length_append, List.length_cons,
    List.length_cons, List.length_map, List.length_map] at h
  obtain ⟨⟨hfill, hmov, hcmp, hkeep⟩, hjnz, hleave⟩ := h
  have hlen : chainLength c = c.fill.length + 1 + 1 + c.keep.length + 1 + c.leave.length := by
    unfold chainLength
    omega
  let cpu₁ : Cpu := { cpu with
    pc := cpu.pc + c.fill.length
    regs := c.fill.foldl (fun r effect ↦ effect r) cpu.regs }
  have h₁ : Goes stop (Cpu.step code) cpu cpu₁ :=
    goes_native stop cpu c.fill hfill fun c' hle hlt ↦ hstop c' hle (by omega)
  let cpu₂ : Cpu := { cpu₁ with
    pc := cpu₁.pc + 1 + 1
    regs := ⟨appPC, appPC = cpu.target⟩
    compared := cpu.compared ++ [appPC] }
  have h₂ : Goes stop (Cpu.step code) cpu₁ cpu₂ := by
    let cpu₁' : Cpu := { cpu₁ with pc := cpu₁.pc + 1, regs := { cpu₁.regs with rsi := appPC } }
    have hstep : cpu₁.step code = some cpu₁' := by
      simp only [Cpu.step, show code cpu₁.pc = _ from hmov, cpu₁']
    have hstep' : cpu₁'.step code = some cpu₂ := by
      simp only [Cpu.step, show code cpu₁'.pc = _ from hcmp, cpu₂, cpu₁', cpu₁]
    refine (Goes.one (hstop cpu₁ ?_ ?_) hstep).trans (Goes.one (hstop cpu₁' ?_ ?_) hstep')
    all_goals
      dsimp only [cpu₁, cpu₁']
      omega
  let cpu₃ : Cpu := { cpu₂ with
    pc := cpu₂.pc + c.keep.length
    regs := c.keep.foldl (fun r effect ↦ effect r) cpu₂.regs }
  have h₃ : Goes stop (Cpu.step code) cpu₂ cpu₃ := by
    apply goes_native stop cpu₂ c.keep hkeep
    intro c' hle hlt
    dsimp only [cpu₂, cpu₁] at hle hlt
    exact hstop c' (by omega) (by omega)
  have hzf : cpu₃.regs.zf = decide (appPC = cpu.target) := foldl_zf c.keep_zf cpu₂.regs
  have hjnz : code cpu₃.pc = some (.jnz next) := by
    rw [← hjnz]
    dsimp only [cpu₃, cpu₂, cpu₁]
    congr 1
    omega
  let cpu₄ : Cpu := { cpu₃ with pc := if cpu₃.regs.zf then cpu₃.pc + 1 else next }
  have h₄ : Goes stop (Cpu.step code) cpu₃ cpu₄ := by
    have hstep : cpu₃.step code = some cpu₄ := by
      simp only [Cpu.step, hjnz, cpu₄]
    refine Goes.one (hstop cpu₃ ?_ ?_) hstep
    all_goals
      dsimp only [cpu₃, cpu₂, cpu₁]
      omega
  have h₁₄ := ((h₁.trans h₂).trans h₃).trans h₄
  by_cases htarget : cpu.target = appPC
  · have hpc₄ : cpu₄.pc = cpu.pc + (c.fill.length + 1 + 1 + c.keep.length) + 1 := by
      dsimp only [cpu₄]
      rw [hzf, if_pos (by simp [htarget])]
      dsimp only [cpu₃, cpu₂, cpu₁]
      omega
    have hleave' : CodeAt code cpu₄.pc (c.leave.map .native) := by
      rw [hpc₄, show c.fill.length + 1 + 1 + c.keep.length =
        c.fill.length + (c.keep.length + 1 + 1) by omega]
      exact hleave
    have h₅ := goes_native stop cpu₄ c.leave hleave'
      fun c' hle hlt ↦ hstop c' (by omega) (by omega)
    rw [hpc₄] at h₅
    rw [if_pos htarget, show cpu.pc + chainLength c =
      cpu.pc + (c.fill.length + 1 + 1 + c.keep.length) + 1 + c.leave.length by omega]
    exact ⟨_, h₁₄.trans h₅⟩
  · rw [if_neg htarget]
    have hpc₄ : cpu₄.pc = next := by
      dsimp only [cpu₄]
      rw [hzf, if_neg (by simpa using Ne.symm htarget)]
    refine ⟨cpu₄.regs, ?_⟩
    rw [← hpc₄]
    exact h₁₄

end Straight

section Chain

variable (c : Scheduled) (miss : ℕ)

/-- From `head` on, the code compares with the address of each element in turn, and then goes to the
code for a miss. -/
def Chain (code : ℕ → Option Instr) : ℕ → List (ℕ × ℕ) → Prop
  | head, [] => head = miss
  | head, e :: es => head = e.2 ∧ ∃ next, CodeAt code e.2 (chainCode c e.1 next) ∧ Chain code next es

def arrives : List (ℕ × ℕ) → ℕ → ℕ
  | [], _ => miss
  | e :: es, target => if target = e.1 then e.2 + chainLength c else arrives es target

def compares : List (ℕ × ℕ) → ℕ → List ℕ
  | [], _ => []
  | e :: es, target => e.1 :: if target = e.1 then [] else compares es target

variable {c miss} {code code' : ℕ → Option Instr} {head : ℕ} {es : List (ℕ × ℕ)}

theorem Chain.mono (h : Chain c miss code head es)
    (hcode : ∀ q, code q ≠ none → code' q = code q) : Chain c miss code' head es := by
  induction es generalizing head with
  | nil => exact h
  | cons e es ih =>
    obtain ⟨hhead, next, hcodeAt, hrest⟩ := h
    exact ⟨hhead, next, hcodeAt.mono hcode, ih hrest⟩

theorem Chain.occupied (h : Chain c miss code head es) {e : ℕ × ℕ} (he : e ∈ es) {p : ℕ}
    (hle : e.2 ≤ p) (hlt : p < e.2 + chainLength c) : code p ≠ none := by
  induction es generalizing head with
  | nil => exact absurd he List.not_mem_nil
  | cons e' es ih =>
    obtain ⟨-, next, hcodeAt, hrest⟩ := h
    rcases List.mem_cons.1 he with rfl | he
    · exact hcodeAt.occupied hle (by rwa [length_chainCode])
    · exact ih hrest he

theorem Chain.goes (h : Chain c miss code head es) (stop : Cpu → Bool) (cpu : Cpu)
    (hstop : ∀ e ∈ es, ∀ c' : Cpu, e.2 ≤ c'.pc → c'.pc < e.2 + chainLength c → stop c' = false)
    (hpc : cpu.pc = head) :
    ∃ regs, Goes stop (Cpu.step code) cpu { cpu with
      pc := arrives c miss es cpu.target
      regs := regs
      compared := cpu.compared ++ compares es cpu.target } := by
  induction es generalizing head cpu with
  | nil =>
    refine ⟨cpu.regs, ?_⟩
    rw [arrives, compares, List.append_nil, ← h, ← hpc]
    exact .refl cpu
  | cons e es ih =>
    obtain ⟨hhead, next, hcodeAt, hrest⟩ := h
    rw [← hhead, ← hpc] at hcodeAt
    obtain ⟨regs, hone⟩ := goes_chainCode stop cpu c hcodeAt fun c' hle hlt ↦
      hstop e List.mem_cons_self c' (by omega) (by omega)
    rw [arrives, compares]
    by_cases htarget : cpu.target = e.1
    · rw [if_pos htarget] at hone
      rw [if_pos htarget, if_pos htarget, ← hhead, ← hpc]
      exact ⟨regs, hone⟩
    · rw [if_neg htarget] at hone
      rw [if_neg htarget, if_neg htarget, List.append_cons]
      obtain ⟨regs', hmore⟩ := ih hrest
        { cpu with pc := next, regs := regs, compared := cpu.compared ++ [e.1] }
        (fun e he ↦ hstop e (List.mem_cons_of_mem _ he)) rfl
      exact ⟨regs', hone.trans hmore⟩

theorem arrives_of_notMem {target : ℕ} (h : target ∉ es.map Prod.fst) :
    arrives c miss es target = miss := by
  induction es with
  | nil => rfl
  | cons e es ih =>
    rw [List.map_cons, List.mem_cons, not_or] at h
    rw [arrives, if_neg h.1, ih h.2]

theorem compares_of_notMem {target : ℕ} (h : target ∉ es.map Prod.fst) :
    compares es target = es.map Prod.fst := by
  induction es with
  | nil => rfl
  | cons e es ih =>
    rw [List.map_cons, List.mem_cons, not_or] at h
    rw [compares, if_neg h.1, ih h.2, List.map_cons]

theorem arrives_of_mem (hes : (es.map Prod.fst).Nodup) {e : ℕ × ℕ} (he : e ∈ es) :
    arrives c miss es e.1 = e.2 + chainLength c := by
  induction es with
  | nil => exact absurd he List.not_mem_nil
  | cons e' es ih =>
    rw [List.map_cons, List.nodup_cons] at hes
    rw [arrives]
    rcases List.mem_cons.1 he with rfl | he
    · rw [if_pos rfl]
    · have hne : e.1 ≠ e'.1 := fun heq ↦ hes.1 (heq ▸ List.mem_map_of_mem he)
      rw [if_neg hne, ih hes.2 he]

theorem compares_of_mem {target : ℕ} (h : target ∈ es.map Prod.fst) :
    compares es target = (es.map Prod.fst).takeWhile (· ≠ target) ++ [target] := by
  induction es with
  | nil => exact absurd h List.not_mem_nil
  | cons e es ih =>
    rw [compares, List.map_cons]
    by_cases htarget : target = e.1
    · rw [if_pos htarget, List.takeWhile_cons_of_neg (by simp [htarget]), List.nil_append,
        htarget]
    · have hmem : target ∈ es.map Prod.fst := by
        rw [List.map_cons] at h
        exact (List.mem_cons.1 h).resolve_left htarget
      rw [if_neg htarget, ih hmem, List.takeWhile_cons_of_pos (by simpa using Ne.symm htarget),
        List.cons_append]

theorem arrives_mem (c : Scheduled) (miss : ℕ) (es : List (ℕ × ℕ)) (target : ℕ) :
    arrives c miss es target = miss ∨ ∃ e ∈ es, arrives c miss es target = e.2 + chainLength c := by
  induction es with
  | nil => exact Or.inl rfl
  | cons e es ih =>
    rw [arrives]
    split_ifs with htarget
    · exact Or.inr ⟨e, List.mem_cons_self, rfl⟩
    · rcases ih with h | ⟨e', he', h⟩
      · exact Or.inl h
      · exact Or.inr ⟨e', List.mem_cons_of_mem e he', h⟩

end Chain

section Invariant

variable (c : Scheduled) (miss : ℕ)

structure Inv (s : State) : Prop where
  goToGranary : CodeAt s.cache.code miss (goToGranary c)
  template : CodeAt s.cache.code s.edge.outEdgeTemplate (compareTarget c miss ++ exitToBlock)
  template_lt : s.edge.outEdgeTemplate + (compareTarget c miss).length < s.cache.size
  chain : Chain c miss s.cache.code s.edge.outEdgePC s.edge.outEdges.reverse
  ne_zero : ∀ e ∈ s.edge.outEdges, e.1 ≠ 0 ∧ e.2 ≠ 0
  nodup : (s.edge.outEdges.map Prod.fst).Nodup
  occupied : ∀ p ∈ exits c miss s, s.cache.code p ≠ none
  apart : ∀ e ∈ s.edge.outEdges, ∀ p ∈ exits c miss s, ¬(e.2 ≤ p ∧ p < e.2 + chainLength c)

variable {c miss} {s s' : State}

theorem Inv.dispatch_eq (h : Inv c miss s) (cpu : Cpu) :
    ∃ regs N, ∀ fuel, N ≤ fuel → dispatch c miss s fuel cpu = some { cpu with
      pc := arrives c miss s.edge.outEdges.reverse cpu.target
      regs := regs
      compared := cpu.compared ++ compares s.edge.outEdges.reverse cpu.target } := by
  obtain ⟨regs, hgoes⟩ := h.chain.goes (fun cpu ↦ cpu.pc ∈ exits c miss s)
    { cpu with pc := s.edge.outEdgePC }
    (fun e he c' hle hlt ↦ by
      rw [decide_eq_false_iff_not]
      exact fun hmem ↦ h.apart e (List.mem_reverse.1 he) _ hmem ⟨hle, hlt⟩) rfl
  obtain ⟨N, hN⟩ := hgoes.ends (by
    rw [decide_eq_true_iff]
    rcases arrives_mem c miss s.edge.outEdges.reverse cpu.target with hmiss | ⟨e, he, hhit⟩
    · simp [exits, hmiss]
    · simp only [exits, hhit, List.mem_cons, List.mem_map]
      exact Or.inr ⟨e, List.mem_reverse.1 he, rfl⟩)
  exact ⟨regs, N, hN⟩

theorem encode_eq_some {cache cache' : CodeCache} {pc : ℕ} {code : List Instr}
    (h : cache.encode pc code = some cache') :
    pc ≠ 0 ∧ pc + code.length ≤ cache.size ∧ free cache.code pc code.length = true ∧
      cache' = { cache with code := write cache.code pc code } := by
  unfold CodeCache.encode at h
  split_ifs at h with hroom
  exact ⟨hroom.1, hroom.2.1, hroom.2.2, (Option.some_inj.1 h).symm⟩

theorem encode_keeps {cache cache' : CodeCache} {pc : ℕ} {code : List Instr}
    (h : cache.encode pc code = some cache') (p : ℕ) (hp : cache.code p ≠ none) :
    cache'.code p = cache.code p := by
  obtain ⟨-, -, hfree, rfl⟩ := encode_eq_some h
  exact write_of_occupied hfree hp

theorem codeAt_encode {cache cache' : CodeCache} {pc : ℕ} {code : List Instr}
    (h : cache.encode pc code = some cache') : CodeAt cache'.code pc code := by
  obtain ⟨-, -, -, rfl⟩ := encode_eq_some h
  exact codeAt_write cache.code pc code

theorem Inv.initially {cache : CodeCache} (h : encodeEdge c cache miss = some s) :
    Inv c miss s ∧ s.edge.outEdges = [] := by
  obtain ⟨cache', hencode, rfl⟩ := Option.map_eq_some_iff.1 h
  have hcode := codeAt_encode hencode
  rw [generateIndirectEdgeCode, List.append_assoc, codeAt_append] at hcode
  obtain ⟨-, hsize, -, rfl⟩ := encode_eq_some hencode
  refine ⟨⟨hcode.1, hcode.2, ?_, rfl, List.forall_mem_nil _, List.nodup_nil, ?_,
    List.forall_mem_nil _⟩, rfl⟩
  · simp only [generateIndirectEdgeCode, List.length_append, exitToBlock,
      List.length_singleton] at hsize
    dsimp only
    omega
  · intro p hp
    obtain rfl : p = miss := List.mem_singleton.1 hp
    exact hcode.1.occupied le_rfl (by simp [Edge.goToGranary])

theorem Inv.encode (h : Inv c miss s) {cache : CodeCache} {pc : ℕ} {code : List Instr}
    (hencode : s.cache.encode pc code = some cache) : Inv c miss { s with cache := cache } := by
  have hkeeps := encode_keeps hencode
  obtain ⟨-, -, -, rfl⟩ := encode_eq_some hencode
  exact {
    goToGranary := h.goToGranary.mono hkeeps
    template := h.template.mono hkeeps
    template_lt := h.template_lt
    chain := h.chain.mono hkeeps
    ne_zero := h.ne_zero
    nodup := h.nodup
    occupied := fun p hp ↦ hkeeps p (h.occupied p hp) ▸ h.occupied p hp
    apart := h.apart }

theorem Inv.instantiate_eq (h : Inv c miss s) (appPC : ℕ) :
    instantiateIndirectEdge s appPC = chainCode c appPC s.edge.outEdgePC := by
  have hlt := h.template_lt
  rw [instantiateIndirectEdge, decode_eq h.template (ud2_notMem_compareTarget c miss) (by omega),
    flatMap_compareTarget]

theorem lookup_getD_eq_zero {es : List (ℕ × ℕ)} (hes : ∀ e ∈ es, e.1 ≠ 0 ∧ e.2 ≠ 0) {t : ℕ} :
    (es.lookup t).getD 0 = 0 ↔ t ∉ es.map Prod.fst := by
  induction es with
  | nil => simp
  | cons e es ih =>
    rw [List.forall_mem_cons] at hes
    rw [List.lookup_cons, List.map_cons, List.mem_cons, not_or]
    by_cases ht : t = e.1
    · simp [ht, hes.1.2]
    · have hbeq : (t == e.1) = false := by simpa using ht
      rw [hbeq, ih hes.2]
      simp [ht]

def State.extend (s : State) (cache : CodeCache) (t pc : ℕ) : State where
  cache := cache
  edge := { s.edge with outEdgePC := pc, outEdges := s.edge.outEdges ++ [(t, pc)] }

theorem mem_exits_extend {cache : CodeCache} {t pc p : ℕ} :
    p ∈ exits c miss (s.extend cache t pc) ↔ p ∈ exits c miss s ∨ p = pc + chainLength c := by
  simp [exits, State.extend, or_assoc]

/-- A target that is new gets a comparison and its block, and one that is not changes nothing. -/
theorem Inv.enter_cases (h : Inv c miss s) {t pc : ℕ} {block : Block}
    (henter : granaryEnterIndirectEdge s t pc block = some s') :
    (t ∈ s.edge.outEdges.map Prod.fst ∧ s' = s) ∨
    (t ∉ s.edge.outEdges.map Prod.fst ∧ t ≠ 0 ∧ ∃ cache,
      s.cache.encode pc (chainCode c t s.edge.outEdgePC ++ block.code) = some cache ∧
      s' = s.extend cache t pc) := by
  unfold granaryEnterIndirectEdge at henter
  split_ifs at henter with hzero hlookup
  · left
    rw [Ne, lookup_getD_eq_zero h.ne_zero, not_not] at hlookup
    exact ⟨hlookup, (Option.some_inj.1 henter).symm⟩
  · right
    rw [not_not, lookup_getD_eq_zero h.ne_zero] at hlookup
    rw [h.instantiate_eq] at henter
    obtain ⟨cache, hencode, rfl⟩ := Option.map_eq_some_iff.1 henter
    exact ⟨hlookup, hzero, cache, hencode, rfl⟩

theorem Inv.enter (h : Inv c miss s) {t pc : ℕ} {block : Block}
    (henter : granaryEnterIndirectEdge s t pc block = some s') : Inv c miss s' := by
  rcases h.enter_cases henter with ⟨-, rfl⟩ | ⟨hnew, hzero, cache, hencode, rfl⟩
  · exact h
  have hkeeps := encode_keeps hencode
  have hcode := codeAt_encode hencode
  obtain ⟨hpc, -, hfree, rfl⟩ := encode_eq_some hencode
  rw [codeAt_append, length_chainCode] at hcode
  -- the cells that are written were free, so that nothing already there is among them
  have hfresh : ∀ p, s.cache.code p ≠ none → ¬(pc ≤ p ∧ p ≤ pc + chainLength c) := by
    intro p hp hin
    have hnone := free_eq_true.1 hfree (p - pc) (by
      rw [List.length_append, length_chainCode, Block.code, List.length_cons]
      omega)
    rw [Nat.add_sub_cancel' hin.1] at hnone
    exact hp hnone
  refine {
    goToGranary := h.goToGranary.mono hkeeps
    template := h.template.mono hkeeps
    template_lt := h.template_lt
    chain := ?_
    ne_zero := ?_
    nodup := ?_
    occupied := ?_
    apart := ?_ }
  · rw [State.extend, List.reverse_append, List.reverse_singleton, List.singleton_append]
    exact ⟨rfl, s.edge.outEdgePC, hcode.1, h.chain.mono hkeeps⟩
  · intro e he
    rcases List.mem_append.1 he with he | he
    · exact h.ne_zero e he
    · obtain rfl := List.mem_singleton.1 he
      exact ⟨hzero, hpc⟩
  · rw [State.extend, List.map_append, List.map_singleton, ← List.concat_eq_append]
    exact h.nodup.concat hnew
  · intro p hp
    rcases mem_exits_extend.1 hp with hp | rfl
    · exact hkeeps p (h.occupied p hp) ▸ h.occupied p hp
    · exact hcode.2.occupied le_rfl (by simp [Block.code])
  · intro e he p hp hin
    rcases List.mem_append.1 he with he | he
    · rcases mem_exits_extend.1 hp with hp | rfl
      · exact h.apart e he p hp hin
      · have hocc := h.chain.occupied (List.mem_reverse.2 he) hin.1 hin.2
        exact hfresh _ hocc ⟨by omega, le_rfl⟩
    · obtain rfl := List.mem_singleton.1 he
      rcases mem_exits_extend.1 hp with hp | rfl
      · exact hfresh p (h.occupied p hp) ⟨hin.1, hin.2.le⟩
      · exact absurd hin.2 (lt_irrefl _)

theorem Inv.step (h : Inv c miss s) {a : Action} (ha : s.step a = some s') : Inv c miss s' := by
  cases a with
  | enter t pc block => exact h.enter ha
  | encode pc code =>
    obtain ⟨cache, hencode, rfl⟩ := Option.map_eq_some_iff.1 ha
    exact h.encode hencode

end Invariant

section Runs

variable {c : Scheduled} {miss : ℕ} {s₀ s : State} {actions : List Action}

/-- The targets and where their code was put, in the order of the actions. -/
def resolved (actions : List Action) : List (ℕ × ℕ) :=
  actions.filterMap fun
    | .enter targetAppPC pc _ => some (targetAppPC, pc)
    | .encode _ _ => none

def targets (actions : List Action) : List ℕ :=
  (resolved actions).map Prod.fst

/-- What holds after the actions of a run whose targets are distinct. -/
structure Resolved (c : Scheduled) (miss : ℕ) (actions : List Action) (s : State) : Prop
    extends Inv c miss s where
  outEdges_eq : s.edge.outEdges = resolved actions
  block {t pc : ℕ} {b : Block} : Action.enter t pc b ∈ actions →
    CodeAt s.cache.code (pc + chainLength c) b.code

theorem Resolved.concat (h : Resolved c miss actions s) {a : Action} {s' : State}
    (ha : s.step a = some s') (hdistinct : (targets (actions ++ [a])).Nodup) :
    Resolved c miss (actions ++ [a]) s' := by
  refine { toInv := h.toInv.step ha, outEdges_eq := ?_, block := ?_ }
  all_goals
    rw [targets, resolved, List.filterMap_append, List.map_append] at hdistinct
  · cases a with
    | encode pc code =>
      obtain ⟨cache, -, rfl⟩ := Option.map_eq_some_iff.1 ha
      simpa [resolved] using h.outEdges_eq
    | enter t pc b =>
      rcases h.enter_cases ha with ⟨hold, -⟩ | ⟨-, -, cache, -, rfl⟩
      · rw [h.outEdges_eq] at hold
        exact absurd rfl ((List.nodup_append.1 hdistinct).2.2 t hold t (by simp))
      · simp [State.extend, h.outEdges_eq, resolved]
  · intro t pc b hmem
    cases a with
    | encode pc' code =>
      obtain ⟨cache, hencode, rfl⟩ := Option.map_eq_some_iff.1 ha
      exact (h.block (by simpa using hmem)).mono (encode_keeps hencode)
    | enter t' pc' b' =>
      rcases h.enter_cases ha with ⟨hold, -⟩ | ⟨-, -, cache, hencode, rfl⟩
      · rw [h.outEdges_eq] at hold
        exact absurd rfl ((List.nodup_append.1 hdistinct).2.2 t' hold t' (by simp))
      · rcases List.mem_append.1 hmem with hmem | hmem
        · exact (h.block hmem).mono (encode_keeps hencode)
        · obtain ⟨rfl, rfl, rfl⟩ := by simpa using hmem
          have hcode := codeAt_encode hencode
          rw [codeAt_append, length_chainCode] at hcode
          exact hcode.2

theorem resolved_run {cache : CodeCache} (hs₀ : encodeEdge c cache miss = some s₀)
    (hrun : run State.step s₀ actions = some s) (hdistinct : (targets actions).Nodup) :
    Resolved c miss actions s := by
  induction actions using List.reverseRecOn generalizing s with
  | nil =>
    obtain rfl := Option.some_inj.1 hrun
    obtain ⟨hinv, hnil⟩ := Inv.initially hs₀
    exact { toInv := hinv, outEdges_eq := hnil, block := fun h ↦ absurd h List.not_mem_nil }
  | append_singleton actions a ih =>
    obtain ⟨s', hrun', ha⟩ := run_concat_eq_some hrun
    have hsub : (targets actions).Nodup := by
      rw [targets, resolved, List.filterMap_append, List.map_append] at hdistinct
      exact (List.nodup_append.1 hdistinct).1
    exact (ih hrun' hsub).concat ha hdistinct

section Outcomes

variable (h : Resolved c miss actions s)
include h

theorem Resolved.map_reverse :
    s.edge.outEdges.reverse.map Prod.fst = (targets actions).reverse := by
  rw [List.map_reverse, h.outEdges_eq, targets]

theorem Resolved.hit {cpu : Cpu} {pc : ℕ} {block : Block}
    (hmem : .enter cpu.target pc block ∈ actions) :
    ∃ cpu' N, (∀ fuel, N ≤ fuel → dispatch c miss s fuel cpu = some cpu') ∧
      CodeAt s.cache.code cpu'.pc block.code ∧ cpu'.target = cpu.target ∧
      cpu'.compared = cpu.compared ++
        ((targets actions).reverse.takeWhile (· ≠ cpu.target) ++ [cpu.target]) := by
  obtain ⟨regs, N, hN⟩ := h.dispatch_eq cpu
  have hres : (cpu.target, pc) ∈ s.edge.outEdges.reverse := by
    rw [List.mem_reverse, h.outEdges_eq]
    exact List.mem_filterMap.2 ⟨_, hmem, rfl⟩
  have hnodup : (s.edge.outEdges.reverse.map Prod.fst).Nodup := by
    rw [List.map_reverse]
    exact List.nodup_reverse.2 h.nodup
  refine ⟨_, N, hN, ?_, rfl, ?_⟩
  · rw [arrives_of_mem hnodup hres]
    exact h.block hmem
  · rw [compares_of_mem (List.mem_map_of_mem hres), h.map_reverse]

theorem Resolved.missed {cpu : Cpu} (hmem : cpu.target ∉ targets actions) :
    ∃ cpu' N, (∀ fuel, N ≤ fuel → dispatch c miss s fuel cpu = some cpu') ∧
      cpu'.pc = miss ∧ CodeAt s.cache.code miss (goToGranary c) ∧ cpu'.target = cpu.target ∧
      cpu'.compared = cpu.compared ++ (targets actions).reverse := by
  obtain ⟨regs, N, hN⟩ := h.dispatch_eq cpu
  have hnot : cpu.target ∉ s.edge.outEdges.reverse.map Prod.fst := by
    rwa [h.map_reverse, List.mem_reverse]
  refine ⟨_, N, hN, arrives_of_notMem hnot, h.goToGranary, rfl, ?_⟩
  rw [compares_of_notMem hnot, h.map_reverse]

theorem Resolved.unchanged {u pc : ℕ} {block : Block} {s' : State} (hu : u ∉ targets actions)
    (hstep : s.step (.enter u pc block) = some s') {cpu : Cpu} (hcpu : cpu.target ≠ u) :
    ∃ p N, ∀ fuel, N ≤ fuel → (dispatch c miss s fuel cpu).map Cpu.pc = some p ∧
      (dispatch c miss s' fuel cpu).map Cpu.pc = some p := by
  obtain ⟨regs, N, hN⟩ := h.dispatch_eq cpu
  obtain ⟨regs', N', hN'⟩ := (h.toInv.step hstep).dispatch_eq cpu
  refine ⟨arrives c miss s.edge.outEdges.reverse cpu.target, max N N', fun fuel hfuel ↦ ?_⟩
  rw [max_le_iff] at hfuel
  rcases h.enter_cases hstep with ⟨hold, -⟩ | ⟨-, -, cache, -, rfl⟩
  · rw [h.outEdges_eq] at hold
    exact absurd hold hu
  · rw [hN fuel hfuel.1, hN' fuel hfuel.2]
    refine ⟨rfl, ?_⟩
    simp only [Option.map_some, State.extend, List.reverse_append, List.reverse_singleton,
      List.singleton_append, arrives, if_neg hcpu]

theorem Resolved.changed {u pc : ℕ} {block : Block} {s' : State} (hu : u ∉ targets actions)
    (hstep : s.step (.enter u pc block) = some s') {cpu : Cpu} (hcpu : cpu.target = u) :
    ∃ p N, CodeAt s'.cache.code p block.code ∧ ∀ fuel, N ≤ fuel →
      (dispatch c miss s fuel cpu).map Cpu.pc = some miss ∧
      (dispatch c miss s' fuel cpu).map Cpu.pc = some p := by
  subst hcpu
  obtain ⟨before, N, hN, hmiss, -⟩ := h.missed hu
  have hdistinct : (targets (actions ++ [.enter cpu.target pc block])).Nodup := by
    have hnodup : (targets actions).Nodup := by
      rw [targets, ← h.outEdges_eq]
      exact h.nodup
    rw [targets, resolved, List.filterMap_append, List.map_append]
    exact List.concat_eq_append ▸ hnodup.concat hu
  obtain ⟨after, N', hN', hcode, -⟩ := (h.concat hstep hdistinct).hit
    (List.mem_append_right actions (List.mem_singleton_self _))
  refine ⟨after.pc, max N N', hcode, fun fuel hfuel ↦ ?_⟩
  rw [max_le_iff] at hfuel
  rw [hN fuel hfuel.1, hN' fuel hfuel.2, ← hmiss]
  exact ⟨rfl, rfl⟩

end Outcomes

/-- The code of an edge, after any run in which distinct targets are resolved: a target that was
resolved gets to its block, having been compared with the later ones and with its own address; any
other gets to the code for a miss, having been compared with each address once; and resolving a new
target changes where that target gets to, and no other. -/
theorem dispatch_resolves (c : Scheduled) (cache : CodeCache) (miss : ℕ) (s₀ s : State)
    (actions : List Action) (hs₀ : encodeEdge c cache miss = some s₀)
    (hrun : run State.step s₀ actions = some s) (hdistinct : (targets actions).Nodup) :
    (∀ cpu pc block, .enter cpu.target pc block ∈ actions →
      ∃ cpu' N, (∀ fuel, N ≤ fuel → dispatch c miss s fuel cpu = some cpu') ∧
        CodeAt s.cache.code cpu'.pc block.code ∧ cpu'.target = cpu.target ∧
        cpu'.compared = cpu.compared ++
          ((targets actions).reverse.takeWhile (· ≠ cpu.target) ++ [cpu.target])) ∧
    (∀ cpu, cpu.target ∉ targets actions →
      ∃ cpu' N, (∀ fuel, N ≤ fuel → dispatch c miss s fuel cpu = some cpu') ∧
        cpu'.pc = miss ∧ CodeAt s.cache.code miss (goToGranary c) ∧ cpu'.target = cpu.target ∧
        cpu'.compared = cpu.compared ++ (targets actions).reverse) ∧
    ∀ u pc block s', u ∉ targets actions → s.step (.enter u pc block) = some s' →
      (∀ cpu, cpu.target ≠ u → ∃ p N, ∀ fuel, N ≤ fuel →
        (dispatch c miss s fuel cpu).map Cpu.pc = some p ∧
        (dispatch c miss s' fuel cpu).map Cpu.pc = some p) ∧
      ∀ cpu, cpu.target = u → ∃ p N, CodeAt s'.cache.code p block.code ∧ ∀ fuel, N ≤ fuel →
        (dispatch c miss s fuel cpu).map Cpu.pc = some miss ∧
        (dispatch c miss s' fuel cpu).map Cpu.pc = some p := by
  have h := resolved_run hs₀ hrun hdistinct
  refine ⟨fun cpu pc block hmem ↦ h.hit hmem, fun cpu hmem ↦ h.missed hmem, ?_⟩
  intro u pc block s' hu hstep
  exact ⟨fun cpu hcpu ↦ h.unchanged hu hstep hcpu, fun cpu hcpu ↦ h.changed hu hstep hcpu⟩

/-- An edge with moves that do nothing, in a code cache of a hundred cells. -/
def plainScheduled : Scheduled where
  save := [id]
  restore := [id]
  fill := []
  keep := [id]
  leave := [id]
  keep_zf effect heffect r := by simp_all

def emptyCache : CodeCache :=
  ⟨100, fun _ ↦ none⟩

def twoTargets : List Action :=
  [.enter 7 20 ⟨.ud2, []⟩, .encode 30 [.ud2], .enter 9 40 ⟨.ud2, [.ud2]⟩]

theorem dispatch_resolves_twoTargets :
    ∃ s₀ s, encodeEdge plainScheduled emptyCache 1 = some s₀ ∧
      run State.step s₀ twoTargets = some s ∧ (targets twoTargets).Nodup ∧
      ∀ cpu, cpu.target ∉ targets twoTargets →
        ∃ cpu' N, (∀ fuel, N ≤ fuel → dispatch plainScheduled 1 s fuel cpu = some cpu') ∧
          cpu'.pc = 1 ∧ CodeAt s.cache.code 1 (goToGranary plainScheduled) ∧
          cpu'.target = cpu.target ∧
          cpu'.compared = cpu.compared ++ (targets twoTargets).reverse :=
  ⟨_, _, rfl, rfl, by decide, (dispatch_resolves plainScheduled emptyCache 1 _ _ twoTargets rfl rfl
    (by decide)).2.1⟩

end Runs

end Granary.Arch.Edge
