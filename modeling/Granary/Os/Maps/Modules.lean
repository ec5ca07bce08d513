import Granary.Os.Maps.Lines

namespace Granary.Os.Maps

open Granary.Base.Format

def ModuleManager.paths (manager : ModuleManager) : List (List Char) :=
  manager.modules.map Module.path

def Line.calls (line : Line) (paths : List (List Char)) : List Call :=
  (.findByPath line.modulePath ::
    if line.modulePath ∈ paths then [] else [.register line.modulePath]) ++
      [.addRange line.modulePath (hexValue line.base) (hexValue line.limit) (hexValue line.offset)
        line.modulePerms]

/-- The calls for some lines: a path is registered for the first line that is about it. -/
def callsOf : (paths : List (List Char)) → List Line → List Call
  | _, [] => []
  | paths, line :: lines => line.calls paths ++ callsOf (paths.insert line.modulePath) lines

section Line

variable {manager : ModuleManager} {path : List Char} {module : Module} {i : ℕ} {line : Line}

theorem Line.length_modulePath_lt (line : Line) :
    line.modulePath.length < kMaxModulePathLength := by
  rw [Line.modulePath]
  cases hpath : line.path with
  | nil => decide
  | cons path rest =>
    apply line.short
    rw [line.lineWords_eq, hpath]
    simp

theorem findOrRegister_spec (manager : ModuleManager) (hpath : path.length < kMaxModulePathLength) :
    ∃ i manager' module, manager.findOrRegister path = (i, manager') ∧
      manager'.modules[i]? = some module ∧ module.path = path ∧
      manager'.paths = manager.paths.insert path ∧
      manager'.calls = manager.calls ++
        .findByPath path :: if path ∈ manager.paths then [] else [.register path] := by
  rw [ModuleManager.findOrRegister, ModuleManager.findByPath]
  cases hfind : manager.modules.findIdx? fun module ↦ module.path = path with
  | none =>
    have hnot : path ∉ manager.paths := by
      intro hmem
      obtain ⟨module, hmodule, heq⟩ := List.mem_map.1 hmem
      have hne := List.findIdx?_eq_none_iff.1 hfind module hmodule
      exact of_decide_eq_false hne heq
    have hinit : (Module.init path).path = path := List.take_of_length_le (Nat.le_pred_of_lt hpath)
    refine ⟨0, _, Module.init path, rfl, rfl, hinit, ?_, ?_⟩
    · rw [List.insert_of_not_mem hnot]
      exact congrArg (· :: manager.paths) hinit
    · rw [if_neg hnot, ModuleManager.register, hinit, List.append_assoc]
      rfl
  | some i =>
    obtain ⟨hi, heq, -⟩ := List.findIdx?_eq_some_iff_getElem.1 hfind
    have hpath := of_decide_eq_true heq
    have hmem : path ∈ manager.paths := by
      rw [← hpath]
      exact List.mem_map_of_mem (List.getElem_mem hi)
    refine ⟨i, _, manager.modules[i], rfl, List.getElem?_eq_getElem hi, hpath, ?_, ?_⟩
    · rw [List.insert_of_mem hmem]
      rfl
    · rw [if_pos hmem]

theorem exists_addRange {base limit : BitVec 64} (hne : base ≠ limit) (offset : BitVec 64)
    (perms : BitVec 32) (ranges : List Module.ModuleAddressRange) :
    ∃ ranges', Os.Module.addRange base.toNat limit.toNat offset perms ranges = some ranges' := by
  have hne' : base.toNat ≠ limit.toNat := fun h ↦ hne (BitVec.eq_of_toNat_eq h)
  rw [Os.Module.addRange]
  split_ifs
  · exact ⟨_, rfl⟩
  · exact ⟨_, rfl⟩
  · omega

theorem addRange_spec (hmodule : manager.modules[i]? = some module) {base limit : BitVec 64}
    (hne : base ≠ limit) (offset : BitVec 64) (perms : BitVec 32) :
    ∃ manager', manager.addRange i base limit offset perms = some manager' ∧
      manager'.paths = manager.paths ∧
      manager'.calls = manager.calls ++ [.addRange module.path base limit offset perms] := by
  obtain ⟨ranges, hranges⟩ := exists_addRange hne offset perms module.ranges
  rw [ModuleManager.addRange, hmodule]
  dsimp only
  rw [hranges]
  refine ⟨_, rfl, ?_, rfl⟩
  obtain ⟨hi, heq⟩ := List.getElem?_eq_some_iff.1 hmodule
  have hi' : i < (manager.modules.map Module.path).length := by rwa [List.length_map]
  have hget : (manager.modules.map Module.path)[i] = module.path := by
    rw [List.getElem_map, heq]
  rw [ModuleManager.paths, List.map_set, ← hget]
  exact List.set_getElem_self _

/-- A line is about one module, which is registered if it is the first line about it. -/
theorem Line.perform_spec (manager : ModuleManager)
    (hne : hexValue line.base ≠ hexValue line.limit) :
    ∃ manager', line.perform manager = some manager' ∧
      manager'.paths = manager.paths.insert line.modulePath ∧
      manager'.calls = manager.calls ++ line.calls manager.paths := by
  obtain ⟨i, registered, module, hfind, hmodule, hpath, hpaths, hcalls⟩ :=
    findOrRegister_spec manager line.length_modulePath_lt
  obtain ⟨manager', hadd, hpaths', hcalls'⟩ := addRange_spec hmodule hne (hexValue line.offset)
    line.modulePerms
  rw [Line.perform, hfind]
  refine ⟨manager', hadd, hpaths'.trans hpaths, ?_⟩
  rw [hcalls', hcalls, hpath, Line.calls, List.append_assoc]

end Line

theorem foldlM_perform {lines : List Line}
    (hne : ∀ line ∈ lines, hexValue line.base ≠ hexValue line.limit) (manager : ModuleManager) :
    ∃ manager', lines.foldlM (fun manager line ↦ line.perform manager) manager = some manager' ∧
      manager'.paths = lines.foldl (fun paths line ↦ paths.insert line.modulePath) manager.paths ∧
      manager'.calls = manager.calls ++ callsOf manager.paths lines := by
  induction lines generalizing manager with
  | nil => exact ⟨manager, rfl, rfl, (List.append_nil _).symm⟩
  | cons line lines ih =>
    obtain ⟨hline, hlines⟩ := List.forall_mem_cons.1 hne
    obtain ⟨middle, hmiddle, hpaths, hcalls⟩ := line.perform_spec manager hline
    obtain ⟨manager', hmanager, hpaths', hcalls'⟩ := ih hlines middle
    refine ⟨manager', ?_, ?_, ?_⟩
    · rw [List.foldlM_cons, hmiddle]
      exact hmanager
    · rw [hpaths', hpaths, List.foldl_cons]
    · rw [hcalls', hcalls, hpaths, callsOf, List.append_assoc]

theorem nodup_foldl_insert {lines : List Line} {paths : List (List Char)} (h : paths.Nodup) :
    (lines.foldl (fun paths line ↦ paths.insert line.modulePath) paths).Nodup := by
  induction lines generalizing paths with
  | nil => exact h
  | cons line lines ih => exact ih h.insert

theorem nul_notMem_mapsText (lines : List Line) : '\x00' ∉ mapsText lines := by
  intro hmem
  obtain ⟨line, -, hline⟩ := List.mem_flatMap.1 hmem
  obtain hline | hline := List.mem_append.1 hline
  · exact line.nul_notMem hline
  · exact absurd (List.mem_singleton.1 hline) (by decide)

/-- However the text is read, the parser does what is done for one line after the other. If
no line is about an empty range, these are the calls for the lines, with one module for each path. -/
theorem parseMapsFile_lines (lines : List Line) (chunks : List (List Char))
    (htext : chunks.flatten = mapsText lines)
    (hchunks : ∀ chunk ∈ chunks, chunk ≠ [] ∧ chunk.length ≤ buffSize)
    (fileBuffer tokenBuffer : ℕ → Char) (manager : ModuleManager) :
    (∀ turns, turnsOf lines ≤ turns →
      parseMapsFile turns (.init fileBuffer tokenBuffer chunks) manager =
        lines.foldlM (fun manager line ↦ line.perform manager) manager) ∧
    ((∀ line ∈ lines, hexValue line.base ≠ hexValue line.limit) → ∃ manager',
      lines.foldlM (fun manager line ↦ line.perform manager) manager = some manager' ∧
        manager'.calls = manager.calls ++ callsOf manager.paths lines ∧
        manager'.paths = lines.foldl (fun paths line ↦ paths.insert line.modulePath) manager.paths ∧
        (manager.paths.Nodup → manager'.paths.Nodup)) := by
  have hahead := Lexer.ahead_init fileBuffer tokenBuffer hchunks
    (by rw [htext]; exact nul_notMem_mapsText lines)
  rw [htext] at hahead
  refine ⟨fun turns hturns ↦ parseMapsFile_spec hahead hturns manager, fun hne ↦ ?_⟩
  obtain ⟨manager', hmanager, hpaths, hcalls⟩ := foldlM_perform hne manager
  refine ⟨manager', hmanager, hcalls, hpaths, fun hnodup ↦ ?_⟩
  rw [hpaths]
  exact nodup_foldl_insert hnodup

/-- `400000-401000 r-xp 0 8:1 42 /bin/cat (deleted)` -/
def catLine : Line where
  text := "400000-401000 r-xp 0 8:1 42   /bin/cat (deleted)".toList
  base := "400000".toList
  limit := "401000".toList
  perms := "r-xp".toList
  offset := "0".toList
  dev := "8:1".toList
  inode := "42".toList
  path := ["/bin/cat".toList, "(deleted)".toList]
  lineWords_eq := by decide +kernel
  line_notMem := by decide +kernel
  nul_notMem := by decide +kernel
  isHex_base := by constructor <;> decide +kernel
  isHex_limit := by constructor <;> decide +kernel
  length_perms := by decide +kernel
  isHex_offset := by constructor <;> decide +kernel
  short := by decide +kernel

/-- `ff000-fff000 rw-p 0 0:0 0` and a space -/
def anonLine : Line where
  text := "ff000-fff000 rw-p 0 0:0 0 ".toList
  base := "ff000".toList
  limit := "fff000".toList
  perms := "rw-p".toList
  offset := "0".toList
  dev := "0:0".toList
  inode := "0".toList
  path := []
  lineWords_eq := by decide +kernel
  line_notMem := by decide +kernel
  nul_notMem := by decide +kernel
  isHex_base := by constructor <;> decide +kernel
  isHex_limit := by constructor <;> decide +kernel
  length_perms := by decide +kernel
  isHex_offset := by constructor <;> decide +kernel
  short := by decide +kernel

/-- A number in two chunks, and the last end of a line in a chunk of its own. -/
theorem parseMapsFile_lines_cat : ∃ manager,
    parseMapsFile 5 (.init (fun _ ↦ ' ') (fun _ ↦ ' ')
      ["4000".toList, "00-401000 r-xp 0 8:1 42   /bin/cat (deleted)\nff000-fff000 rw-p".toList,
        " 0 0:0 0 ".toList, ['\n']]) ⟨[], []⟩ = some manager ∧
      manager.calls = callsOf [] [catLine, anonLine] ∧
      manager.paths = ["[anon]".toList, "/bin/cat".toList] := by
  obtain ⟨hparse, hcalls⟩ := parseMapsFile_lines [catLine, anonLine]
    ["4000".toList, "00-401000 r-xp 0 8:1 42   /bin/cat (deleted)\nff000-fff000 rw-p".toList,
      " 0 0:0 0 ".toList, ['\n']]
    (by decide +kernel) (by decide +kernel) (fun _ ↦ ' ') (fun _ ↦ ' ') ⟨[], []⟩
  obtain ⟨manager, hmanager, hcalls, hpaths, -⟩ := hcalls (by decide +kernel)
  refine ⟨manager, (hparse 5 (by decide)).trans hmanager, hcalls, ?_⟩
  rw [hpaths]
  decide +kernel

end Granary.Os.Maps
