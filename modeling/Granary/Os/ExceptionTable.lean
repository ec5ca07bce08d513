import Granary.Base.BinarySearch
import Granary.Base.Run
import Granary.Os.Exception
import Granary.Os.Module

namespace Granary.Os.ExceptionTable

open Granary.Base Granary.Base.BinarySearch Granary.Os.Exception Granary.Os.Module

/-- The first and the last entry of an exception table. A null pointer is 0. -/
structure ExceptionTableBounds where
  start : ℤ
  stop : ℤ
deriving DecidableEq, Repr

inductive ModuleState
  | live | coming | going | unformed
deriving DecidableEq, Repr

/-- The fields of `struct module` that `AllocModule` reads. -/
structure StructModule where
  name : String
  isThisModule : Bool
  state : ModuleState
  moduleCore : ℕ
  coreTextSize : ℕ
  moduleInit : ℕ
  initTextSize : ℕ
  extable : ℤ
  numExentries : ℕ
deriving DecidableEq, Repr

inductive ModuleKind
  | granary | kernelModule | kernel
deriving DecidableEq, Repr

structure Module where
  name : String
  kind : ModuleKind
  /-- What `where_data` points to. -/
  whereData : Option ExceptionTableBounds
  ranges : List ModuleAddressRange
deriving DecidableEq, Repr

structure LinuxKernelModule where
  name : String
  kind : ModuleKind
  module : Option Module
  coreTextBegin : ℕ
  coreTextEnd : ℕ
  initTextBegin : ℕ
  initTextEnd : ℕ
  exceptionTables : ExceptionTableBounds
deriving DecidableEq, Repr

def entrySize : ℕ := 8

instance : NeZero entrySize := ⟨by decide⟩

def allocModule (mod : StructModule) : LinuxKernelModule where
  name := mod.name
  kind := if mod.isThisModule then .granary else .kernelModule
  module := none
  coreTextBegin := mod.moduleCore
  coreTextEnd := mod.moduleCore + mod.coreTextSize
  -- `init_text_begin` is assigned twice, and `init_text_end` stays 0.
  initTextBegin :=
    if mod.state ≠ .live ∧ mod.state ≠ .going then mod.moduleInit + mod.initTextSize else 0
  initTextEnd := 0
  exceptionTables :=
    if mod.numExentries ≠ 0 then
      ⟨mod.extable, entry entrySize mod.extable mod.numExentries - entrySize⟩
    else ⟨0, 0⟩

/-- `kernel_module`, after `InitKernelModule`. -/
def initKernelModule (startExTable stopExTable : ℤ) : LinuxKernelModule where
  name := "kernel"
  kind := .kernel
  module := none
  coreTextBegin := 0xffffffff80000000
  coreTextEnd := 0xffffffffa0000000
  initTextBegin := 0
  initTextEnd := 0
  exceptionTables := ⟨startExTable, stopExTable - entrySize⟩

def moduleKind (mod : LinuxKernelModule) : ModuleKind :=
  match mod.kind with
  | .granary => .granary
  | .kernelModule => if mod.name = "granary" then .granary else .kernelModule
  | .kernel => .kernel

def whereData (tables : ExceptionTableBounds) : Option ExceptionTableBounds :=
  if tables.start ≠ 0 ∧ tables.stop ≠ 0 ∧ tables.start ≤ tables.stop then some tables else none

/-- `MODULE_EXECUTABLE | MODULE_READABLE`. -/
def textPerms : BitVec 32 := 4 ||| 1

def addTextRange (beginAddr endAddr : ℕ) (ranges : List ModuleAddressRange) :
    Option (List ModuleAddressRange) :=
  if beginAddr ≠ 0 ∧ endAddr ≠ 0 then addRange beginAddr endAddr 0 textPerms ranges
  else some ranges

def updateModule (mod : LinuxKernelModule) : Option LinuxKernelModule := do
  let module : Module :=
    match mod.module with
    | none => ⟨mod.name, moduleKind mod, whereData mod.exceptionTables, []⟩
    | some module => { module with ranges := [] }
  let ranges ← addTextRange mod.coreTextBegin mod.coreTextEnd module.ranges
  let ranges ← addTextRange mod.initTextBegin mod.initTextEnd ranges
  some { mod with module := some { module with ranges := ranges } }

inductive Event
  | registerAllBuiltIn
  | moduleStateChange (mod : StructModule)
deriving DecidableEq, Repr

/-- `FindModule`, and the notification about the module that was found or made. -/
def eventModuleStateChange (mod : StructModule) :
    List LinuxKernelModule → Option (List LinuxKernelModule)
  | [] => do
    let kmod ← updateModule (allocModule mod)
    some [kmod]
  | curr :: next =>
    if curr.name = mod.name then do
      let kmod ← updateModule curr
      some (kmod :: next)
    else do
      let next ← eventModuleStateChange mod next
      some (curr :: next)

def step (mods : List LinuxKernelModule) : Event → Option (List LinuxKernelModule)
  | .registerAllBuiltIn => mods.mapM updateModule
  | .moduleStateChange mod => eventModuleStateChange mod mods

def initModules (startExTable stopExTable : ℤ) (linuxModules : List StructModule) :
    List LinuxKernelModule :=
  initKernelModule startExTable stopExTable :: linuxModules.map allocModule

section Search

-- The 32-bit word that stands at an address.
variable (word : ℤ → BitVec 32)

def faultPC (entry : ℤ) : BitVec 64 := BitVec.ofInt 64 entry + (word entry).signExtend 64

def findRecoveryEntry (first last : ℤ) (pc : BitVec 64) : List ℤ × Option ℤ :=
  search entrySize (fun mid ↦ (faultPC word mid).toNat) pc.toNat first last

def recoveryEntryIsError (entry : ℤ) : Bool :=
  0x7ffffff0 - 4 ≤ (word (entry + 4) - word entry).toInt

def recoveryPC (entry : ℤ) : BitVec 64 :=
  BitVec.ofInt 64 (entry + 4) + (word (entry + 4)).signExtend 64

def findRecoveryAddress (entry : ℤ) (recoversFromError : Bool) : BitVec 64 :=
  if recoversFromError then recoveryPC word entry - 0x7ffffff0 else recoveryPC word entry

/-- What `GetExceptionInfo` returns, what it writes through its arguments, and the table entries
that it searches. -/
structure ExceptionInfo where
  canFault : Bool
  recoveryPC : Option (BitVec 64)
  emulation : Option Emulation
  reads : List ℤ

/-- `GetExceptionInfo`, for an instruction decoded at `faultPC` in `module`. -/
def getExceptionInfo (form : Option ExceptionalForm) (faultPC : BitVec 64)
    (module : Option Module) : ExceptionInfo :=
  match module.bind Module.whereData with
  | none => ⟨false, none, none, []⟩
  | some tables =>
    let found := findRecoveryEntry word tables.start tables.stop faultPC
    match found.2 with
    | none => ⟨false, none, none, found.1⟩
    | some entry =>
      let recoversFromError := recoveryEntryIsError word entry
      ⟨form.isSome, some (findRecoveryAddress word entry recoversFromError), form.map emulation,
        found.1⟩

end Search

structure Table where
  start : ℤ
  length : ℕ

namespace Table

def entries (t : Table) : Set ℤ := entry entrySize t.start '' Set.Ico 0 t.length

/-- The table is sorted by the faulting PCs of its entries. -/
structure Sorted (word : ℤ → BitVec 32) (t : Table) : Prop where
  pos : 0 < t.length → 0 < t.start
  sorted : MonotoneOn (fun i ↦ (faultPC word (entry entrySize t.start i)).toNat)
    (Set.Ico 0 t.length)

def Bounds (t : Table) (tables : ExceptionTableBounds) : Prop :=
  tables = ⟨t.start, entry entrySize t.start t.length - entrySize⟩ ∨
    t.length = 0 ∧ tables = ⟨0, 0⟩

variable {word : ℤ → BitVec 32} {t : Table} {tables : ExceptionTableBounds}

theorem Bounds.whereData_eq_none (h : t.Bounds tables) (ht : t.length = 0) :
    whereData tables = none := by
  rcases h with rfl | ⟨-, rfl⟩
  · refine if_neg fun h ↦ absurd h.2.2 ?_
    simp only [ht, entry, Nat.cast_zero]
    simp [entrySize]
  · simp [whereData]

theorem Bounds.whereData_eq_some (h : t.Bounds tables) (ht : 0 < t.length) (hpos : 0 < t.start) :
    whereData tables = some ⟨entry entrySize t.start 0, entry entrySize t.start (t.length - 1)⟩ := by
  rcases h with rfl | ⟨h0, -⟩
  · have hlen : (1 : ℤ) ≤ t.length := by exact_mod_cast ht
    have hle : t.start ≤ entry entrySize t.start (t.length - 1) := by
      rw [entry, entrySize]
      push_cast
      omega
    rw [whereData, entry_sub_size, if_pos ⟨hpos.ne', (hpos.trans_le hle).ne', hle⟩]
    simp [entry]
  · omega

/-- What is to be shown of the module to which the table belongs. -/
structure Exact (word : ℤ → BitVec 32) (t : Table) (module : Module) : Prop where
  empty : t.length = 0 → ∀ form pc,
    getExceptionInfo word form pc (some module) = ⟨false, none, none, []⟩
  search : 0 < t.length → ∃ tables, module.whereData = some tables ∧ ∀ pc,
    (∀ p ∈ (findRecoveryEntry word tables.start tables.stop pc).1, p ∈ t.entries) ∧
    (∀ p, (findRecoveryEntry word tables.start tables.stop pc).2 = some p →
      p ∈ t.entries ∧ faultPC word p = pc) ∧
    ((∃ p ∈ t.entries, faultPC word p = pc) →
      ∃ p, (findRecoveryEntry word tables.start tables.stop pc).2 = some p)

theorem mem_entries_of_read {pc : BitVec 64} {p : ℤ}
    (hp : p ∈ (findRecoveryEntry word (entry entrySize t.start 0)
      (entry entrySize t.start (t.length - 1)) pc).1) : p ∈ t.entries := by
  obtain ⟨n, hn, hlt, rfl⟩ := mem_search_reads hp
  exact ⟨n, ⟨hn, by omega⟩, rfl⟩

theorem Sorted.exact (h : t.Sorted word) (hb : t.Bounds tables) {module : Module}
    (hm : module.whereData = whereData tables) : t.Exact word module := by
  constructor
  · intro ht form pc
    rw [hb.whereData_eq_none ht] at hm
    simp [getExceptionInfo, hm]
  · intro ht
    rw [hb.whereData_eq_some ht (h.pos ht)] at hm
    refine ⟨_, hm, fun pc ↦ ⟨fun p hp ↦ mem_entries_of_read hp, fun p hp ↦ ?_, ?_⟩⟩
    · obtain ⟨hread, hkey⟩ := of_search_eq_some hp
      exact ⟨mem_entries_of_read hread, BitVec.eq_of_toNat_eq hkey⟩
    · intro ⟨p, ⟨n, hn, hnp⟩, hpc⟩
      subst hnp
      refine exists_search_eq_some (h.sorted.mono fun m hm ↦ ⟨hm.1, ?_⟩) ⟨hn.1, ?_⟩
        (congrArg BitVec.toNat hpc)
      · have hle := hm.2
        omega
      · have hlt := hn.2
        omega

end Table

def StructModule.table (mod : StructModule) : Table := ⟨mod.extable, mod.numExentries⟩

/-- A module that changes its state is recorded if there is none of its name. -/
def recordLoad (loads : List (String × Table)) (event : Event) : List (String × Table) :=
  match event with
  | .registerAllBuiltIn => loads
  | .moduleStateChange mod =>
    if mod.name ∈ loads.map (·.1) then loads else loads ++ [(mod.name, mod.table)]

/-- The names and the exception tables of the modules as they were loaded when they were recorded.
A module that is loaded again keeps the record of its first load. -/
def loads (core : Table) (linuxModules : List StructModule) (events : List Event) :
    List (String × Table) :=
  events.foldl recordLoad (("kernel", core) :: linuxModules.map fun mod ↦ (mod.name, mod.table))

/-- A module has the bounds of the table that it was loaded with, and its registration has them
too. -/
structure Recorded (load : String × Table) (mod : LinuxKernelModule) : Prop where
  name : mod.name = load.1
  bounds : load.2.Bounds mod.exceptionTables
  whereData : ∀ module, mod.module = some module → module.whereData = whereData mod.exceptionTables

section Run

variable {load : String × Table} {tables : List (String × Table)} {mod mod' : LinuxKernelModule}
  {mods mods' : List LinuxKernelModule} {source : StructModule} {event : Event}

theorem recorded_allocModule (source : StructModule) :
    Recorded (source.name, source.table) (allocModule source) := by
  refine ⟨rfl, ?_, fun module hm ↦ by simp [allocModule] at hm⟩
  by_cases hn : source.numExentries = 0
  · exact Or.inr ⟨hn, by simp [allocModule, hn]⟩
  · exact Or.inl (by simp [allocModule, hn, StructModule.table])

theorem Recorded.updateModule (h : Recorded load mod) (hu : updateModule mod = some mod') :
    Recorded load mod' := by
  obtain ⟨r, -, hu⟩ := Option.bind_eq_some_iff.mp hu
  obtain ⟨r', -, hu⟩ := Option.bind_eq_some_iff.mp hu
  obtain rfl := Option.some.inj hu
  refine ⟨h.name, h.bounds, fun module hm ↦ ?_⟩
  obtain rfl := Option.some.inj hm
  cases hmod : mod.module with
  | none => rfl
  | some module => exact h.whereData module hmod

theorem isSome_updateModule (hu : updateModule mod = some mod') : mod'.module.isSome := by
  obtain ⟨r, -, hu⟩ := Option.bind_eq_some_iff.mp hu
  obtain ⟨r', -, hu⟩ := Option.bind_eq_some_iff.mp hu
  exact Option.some.inj hu ▸ rfl

theorem recorded_mapM (h : List.Forall₂ Recorded tables mods)
    (hu : mods.mapM updateModule = some mods') :
    List.Forall₂ Recorded tables mods' ∧ ∀ mod ∈ mods', mod.module.isSome := by
  induction h generalizing mods' with
  | nil =>
    obtain rfl := Option.some.inj hu
    exact ⟨.nil, by simp⟩
  | cons hcurr _ ih =>
    rw [List.mapM_cons] at hu
    obtain ⟨kmod, hk, hu⟩ := Option.bind_eq_some_iff.mp hu
    obtain ⟨rest, hrest, hu⟩ := Option.bind_eq_some_iff.mp hu
    obtain rfl := Option.some.inj hu
    obtain ⟨hrecorded, hregistered⟩ := ih hrest
    exact ⟨.cons (hcurr.updateModule hk) hrecorded,
      List.forall_mem_cons.mpr ⟨isSome_updateModule hk, hregistered⟩⟩

theorem recordLoad_cons_of_ne (h : load.1 ≠ source.name) :
    recordLoad (load :: tables) (.moduleStateChange source) =
      load :: recordLoad tables (.moduleStateChange source) := by
  simp only [recordLoad, List.map_cons, List.mem_cons, Ne.symm h, false_or]
  split_ifs <;> rfl

theorem recorded_eventModuleStateChange (h : List.Forall₂ Recorded tables mods)
    (hu : eventModuleStateChange source mods = some mods') :
    List.Forall₂ Recorded (recordLoad tables (.moduleStateChange source)) mods' := by
  induction h generalizing mods' with
  | nil =>
    obtain ⟨kmod, hk, hu⟩ := Option.bind_eq_some_iff.mp hu
    obtain rfl := Option.some.inj hu
    exact .cons ((recorded_allocModule source).updateModule hk) .nil
  | @cons load curr tables next hcurr hnext ih =>
    rw [eventModuleStateChange] at hu
    split_ifs at hu with hname
    · obtain ⟨kmod, hk, hu⟩ := Option.bind_eq_some_iff.mp hu
      obtain rfl := Option.some.inj hu
      have hmem : source.name ∈ (load :: tables).map (·.1) := by
        rw [← hname, hcurr.name]
        exact List.mem_cons_self
      rw [recordLoad, if_pos hmem]
      exact .cons (hcurr.updateModule hk) hnext
    · obtain ⟨rest, hrest, hu⟩ := Option.bind_eq_some_iff.mp hu
      obtain rfl := Option.some.inj hu
      rw [recordLoad_cons_of_ne (hcurr.name ▸ hname)]
      exact .cons hcurr (ih hrest)

theorem isSome_eventModuleStateChange (h : ∀ mod ∈ mods, mod.module.isSome)
    (hu : eventModuleStateChange source mods = some mods') :
    ∀ mod ∈ mods', mod.module.isSome := by
  induction mods generalizing mods' with
  | nil =>
    obtain ⟨kmod, hk, hu⟩ := Option.bind_eq_some_iff.mp hu
    obtain rfl := Option.some.inj hu
    exact List.forall_mem_singleton.mpr (isSome_updateModule hk)
  | cons curr next ih =>
    rw [List.forall_mem_cons] at h
    rw [eventModuleStateChange] at hu
    split_ifs at hu
    · obtain ⟨kmod, hk, hu⟩ := Option.bind_eq_some_iff.mp hu
      obtain rfl := Option.some.inj hu
      exact List.forall_mem_cons.mpr ⟨isSome_updateModule hk, h.2⟩
    · obtain ⟨rest, hrest, hu⟩ := Option.bind_eq_some_iff.mp hu
      obtain rfl := Option.some.inj hu
      exact List.forall_mem_cons.mpr ⟨h.1, ih h.2 hrest⟩

theorem recorded_run {core : Table} {linuxModules : List StructModule} {events : List Event}
    (hrun : Run.run step (initModules core.start (entry entrySize core.start core.length)
      linuxModules) events = some mods) :
    List.Forall₂ Recorded (loads core linuxModules events) mods ∧
      (.registerAllBuiltIn ∈ events → ∀ mod ∈ mods, mod.module.isSome) := by
  refine Run.run_history (I := fun past mods ↦
    List.Forall₂ Recorded (loads core linuxModules past) mods ∧
      (.registerAllBuiltIn ∈ past → ∀ mod ∈ mods, mod.module.isSome)) ?_ ⟨?_, by simp⟩ hrun
  · intro past event mods mods' _ _ ⟨hrecorded, hregistered⟩ hstep
    rw [loads, List.foldl_concat, ← loads]
    cases event with
    | registerAllBuiltIn =>
      obtain ⟨hrecorded, hregistered⟩ := recorded_mapM hrecorded hstep
      exact ⟨hrecorded, fun _ ↦ hregistered⟩
    | moduleStateChange source =>
      refine ⟨recorded_eventModuleStateChange hrecorded hstep, fun hmem ↦ ?_⟩
      have hpast : Event.registerAllBuiltIn ∈ past := by simpa using hmem
      exact isSome_eventModuleStateChange (hregistered hpast) hstep
  · refine .cons ⟨rfl, Or.inl rfl, fun module hm ↦ by simp [initKernelModule] at hm⟩ ?_
    rw [List.forall₂_map_left_iff, List.forall₂_map_right_iff]
    exact List.forall₂_same.mpr fun source _ ↦ recorded_allocModule source

def HasText (mod : LinuxKernelModule) : Prop :=
  mod.coreTextBegin < mod.coreTextEnd ∧ mod.initTextEnd = 0

theorem hasText_allocModule (h : 0 < source.coreTextSize) : HasText (allocModule source) :=
  ⟨Nat.lt_add_of_pos_right h, rfl⟩

theorem HasText.updateModule (h : HasText mod) :
    ∃ mod', updateModule mod = some mod' ∧ HasText mod' := by
  have hcore (ranges : List ModuleAddressRange) :
      ∃ r, addTextRange mod.coreTextBegin mod.coreTextEnd ranges = some r := by
    rw [addTextRange, addRange, if_pos h.1]
    split_ifs <;> exact ⟨_, rfl⟩
  have hinit (ranges : List ModuleAddressRange) :
      addTextRange mod.initTextBegin mod.initTextEnd ranges = some ranges := by
    rw [addTextRange, if_neg fun hne ↦ hne.2 h.2]
  rw [ExceptionTable.updateModule]
  obtain ⟨r, hr⟩ := hcore
    (match mod.module with
      | none => ⟨mod.name, moduleKind mod, ExceptionTable.whereData mod.exceptionTables, []⟩
      | some module => { module with ranges := [] } : Module).ranges
  rw [hr, Option.bind_eq_bind, Option.bind_some, hinit]
  exact ⟨_, rfl, h⟩

theorem exists_eventModuleStateChange (hsource : 0 < source.coreTextSize)
    (h : ∀ mod ∈ mods, HasText mod) :
    ∃ mods', eventModuleStateChange source mods = some mods' ∧ ∀ mod ∈ mods', HasText mod := by
  induction mods with
  | nil =>
    obtain ⟨kmod, hk, htext⟩ := (hasText_allocModule hsource).updateModule
    rw [eventModuleStateChange, hk]
    exact ⟨_, rfl, List.forall_mem_singleton.mpr htext⟩
  | cons curr next ih =>
    rw [List.forall_mem_cons] at h
    rw [eventModuleStateChange]
    split_ifs
    · obtain ⟨kmod, hk, htext⟩ := h.1.updateModule
      rw [hk]
      exact ⟨_, rfl, List.forall_mem_cons.mpr ⟨htext, h.2⟩⟩
    · obtain ⟨rest, hrest, htext⟩ := ih h.2
      rw [hrest]
      exact ⟨_, rfl, List.forall_mem_cons.mpr ⟨h.1, htext⟩⟩

theorem exists_mapM_updateModule (h : ∀ mod ∈ mods, HasText mod) :
    ∃ mods', mods.mapM updateModule = some mods' ∧ ∀ mod ∈ mods', HasText mod := by
  induction mods with
  | nil => exact ⟨[], rfl, by simp⟩
  | cons curr next ih =>
    rw [List.forall_mem_cons] at h
    obtain ⟨kmod, hk, htext⟩ := h.1.updateModule
    obtain ⟨rest, hrest, htexts⟩ := ih h.2
    rw [List.mapM_cons, hk, Option.bind_eq_bind, Option.bind_some, hrest]
    exact ⟨_, rfl, List.forall_mem_cons.mpr ⟨htext, htexts⟩⟩

theorem exists_run {start stop : ℤ} {linuxModules : List StructModule} {events : List Event}
    (hmodules : ∀ mod ∈ linuxModules, 0 < mod.coreTextSize)
    (hevents : ∀ mod, .moduleStateChange mod ∈ events → 0 < mod.coreTextSize) :
    ∃ mods, Run.run step (initModules start stop linuxModules) events = some mods := by
  have hexists : ∃ mods, Run.run step (initModules start stop linuxModules) events = some mods ∧
      ∀ mod ∈ mods, HasText mod := by
    refine Run.exists_run (I := fun _ mods ↦ ∀ mod ∈ mods, HasText mod)
      (fun past event mods hpast _ htext ↦ ?_) ?_
    · cases event with
      | registerAllBuiltIn => exact exists_mapM_updateModule htext
      | moduleStateChange source =>
        exact exists_eventModuleStateChange (hevents source (hpast.subset (by simp))) htext
    · have hkernel : (0xffffffff80000000 : ℕ) < 0xffffffffa0000000 := by decide
      refine List.forall_mem_cons.mpr ⟨⟨hkernel, rfl⟩, fun mod hmod ↦ ?_⟩
      obtain ⟨source, hsource, rfl⟩ := List.mem_map.mp hmod
      exact hasText_allocModule (hmodules source hsource)
  obtain ⟨mods, hrun, -⟩ := hexists
  exact ⟨mods, hrun⟩

/-- In every run of the kernel module, each record belongs to one load of a module, and the search
of the exception table of this load is exact and stays in the table. After `RegisterAllBuiltIn`, all
modules are registered. -/
theorem exceptionTables_exact {word : ℤ → BitVec 32} {core : Table}
    {linuxModules : List StructModule} {events : List Event}
    (hsorted : ∀ load ∈ loads core linuxModules events, load.2.Sorted word)
    (hrun : Run.run step (initModules core.start (entry entrySize core.start core.length)
      linuxModules) events = some mods) :
    List.Forall₂ (fun load mod ↦ mod.name = load.1 ∧
      ∀ module, mod.module = some module → load.2.Exact word module)
      (loads core linuxModules events) mods ∧
    (.registerAllBuiltIn ∈ events → ∀ mod ∈ mods, mod.module.isSome) := by
  obtain ⟨hrecorded, hregistered⟩ := recorded_run hrun
  refine ⟨?_, hregistered⟩
  rw [List.forall₂_iff_get] at hrecorded ⊢
  refine ⟨hrecorded.1, fun i hi hi' ↦ ?_⟩
  have hrec := hrecorded.2 i hi hi'
  exact ⟨hrec.name, fun module hm ↦
    (hsorted _ (List.get_mem _ _)).exact hrec.bounds (hrec.whereData module hm)⟩

/-- A module with two entries whose instructions stand in the table itself. -/
def ext4 : StructModule := ⟨"ext4", false, .live, 0xa0000000, 0x1000, 0, 0, 0xa0002000, 2⟩

def xfs : StructModule := ⟨"xfs", false, .coming, 0xa0010000, 0x1000, 0xa0020000, 0x800, 0, 0⟩

theorem exceptionTables_exact_reload :
    ∃ mods, Run.run step (initModules 0x81000000 (entry entrySize 0x81000000 1) [ext4])
        [.registerAllBuiltIn, .moduleStateChange xfs, .moduleStateChange xfs] = some mods ∧
      List.Forall₂ (fun load mod ↦ mod.name = load.1 ∧
        ∀ module, mod.module = some module → load.2.Exact (fun _ ↦ 0) module)
        [("kernel", ⟨0x81000000, 1⟩), ("ext4", ext4.table), ("xfs", xfs.table)] mods ∧
      ∀ mod ∈ mods, mod.module.isSome := by
  have hmono (b : ℤ) (hb : b = 0x81000000 ∨ b = 0xa0002000) {i j : ℤ} (hi : i ∈ Set.Ico 0 2)
      (hj : j ∈ Set.Ico 0 2) (hij : i ≤ j) :
      (faultPC (fun _ ↦ 0) (entry entrySize b i)).toNat ≤
        (faultPC (fun _ ↦ 0) (entry entrySize b j)).toNat := by
    obtain ⟨hi0, hi2⟩ := hi
    obtain ⟨hj0, hj2⟩ := hj
    rcases hb with rfl | rfl <;> interval_cases i <;> interval_cases j <;> revert hij <;> decide
  have hsorted : ∀ load ∈ loads ⟨0x81000000, 1⟩ [ext4]
      [.registerAllBuiltIn, .moduleStateChange xfs, .moduleStateChange xfs],
      load.2.Sorted fun _ ↦ 0 := by
    intro load hload
    rcases List.mem_cons.mp hload with rfl | hload
    · refine ⟨fun _ ↦ by decide, fun i hi j hj ↦ hmono _ (Or.inl rfl) ⟨hi.1, ?_⟩ ⟨hj.1, ?_⟩⟩
      · exact hi.2.trans (by decide)
      · exact hj.2.trans (by decide)
    rcases List.mem_cons.mp hload with rfl | hload
    · exact ⟨fun _ ↦ by decide, fun i hi j hj ↦ hmono _ (Or.inr rfl) hi hj⟩
    · obtain rfl := List.mem_singleton.mp hload
      exact ⟨fun h ↦ absurd h (by decide), fun i hi ↦ absurd (hi.1.trans_lt hi.2) (by decide)⟩
  obtain ⟨hexact, hregistered⟩ := exceptionTables_exact hsorted rfl
  exact ⟨_, rfl, hexact, hregistered List.mem_cons_self⟩

end Run

end Granary.Os.ExceptionTable
