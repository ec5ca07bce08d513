import Granary.Index.Links

namespace Granary.Translate

open Function Granary.Index Granary.Index.Links

inductive BlockKind where
  | native
  | cached
  | decoded
  | compensation
  | direct
  | indirect
  | ret
  deriving DecidableEq, Repr

structure Block (M : Type*) where
  kind : BlockKind
  metaData : Option M

/-- Whether `DynamicCast<DecodedBlock *>` succeeds. -/
def Block.isDecoded {M : Type*} (b : Block M) : Bool :=
  b.kind = .decoded || b.kind = .compensation

def Block.decodedMetaData {M : Type*} (b : Block M) : Option M :=
  if b.isDecoded then b.metaData else none

/-- A block that is decoded steals the meta-data of the block it comes from, so that no two decoded
blocks have the same. -/
structure Trace (M : Type*) where
  blocks : List (Block M)
  entryBlock : Block M
  entryMeta : M
  entry_mem : entryBlock ∈ blocks
  entry_metaData : entryBlock.decodedMetaData = some entryMeta
  nodup : (blocks.filterMap Block.decodedMetaData).Nodup

def Trace.decodedMetaData {M : Type*} (cfg : Trace M) : List M :=
  cfg.blocks.filterMap Block.decodedMetaData

section Code

variable {M V : Type*} [DecidableEq M] (g : Manager V)

/-- One turn of the loop over the blocks. -/
def logBlock (metaData : Option M) (s : State M V) (block : Block M) : State M V :=
  if block.isDecoded then
    match block.metaData with
    | some m => if some m ≠ metaData then addMetaDataToLog g s m else s
    | none => s
  else s

def index (s : State M V) (cfg : Trace M) (fuel : ℕ) : Option (State M V) :=
  (findMetaDataInIndex g s fuel (some (s.metaData cfg.entryMeta))).map fun response ↦
    if response.status ≠ .accept then
      cfg.blocks.foldl (logBlock g (some cfg.entryMeta)) (addMetaDataToIndex g s cfg.entryMeta)
    else cfg.blocks.foldl (logBlock g none) s

end Code

section Spec

variable {M V α : Type*} (g : Manager V)

abbrev entrySlot (s : State M V) (cfg : Trace M) : MetaDataIndex :=
  indexOf (g.appPCOf (s.metaData cfg.entryMeta))

def Returns (f : ℕ → Option α) (a : α) : Prop :=
  ∃ N, ∀ fuel, N ≤ fuel → f fuel = some a

def Finds (s : State M V) (search : BlockMetaData V) (response : Links.IndexFindResponse M) : Prop :=
  Returns (fun fuel ↦ findMetaDataInIndex g s fuel (some search)) response

def AcceptedMatch (s : State M V) (c : Contents M) (search : BlockMetaData V) : Prop :=
  ∃ m, c.Indexed m ∧ Offers g search .accept (s.metaData m)

/-- What the index and the log have become. The entry of the trace is in the index if there was no
match for it before, all else is in the log, and a lookup finds the entry and what it found before
under other addresses. -/
structure Indexes (s : State M V) (c : Contents M) (cfg : Trace M) (s' : State M V)
    (c' : Contents M) : Prop where
  holds : Holds g s' c'
  indexed (m : M) : c'.Indexed m ↔
    c.Indexed m ∨ m = cfg.entryMeta ∧ ¬AcceptedMatch g s c (s.metaData cfg.entryMeta)
  logged (m : M) : c'.Logged m ↔
    c.Logged m ∨ m ∈ cfg.decodedMetaData ∧
      ¬(m = cfg.entryMeta ∧ ¬AcceptedMatch g s c (s.metaData cfg.entryMeta))
  found : ∃ m, Finds g s' (s.metaData cfg.entryMeta) ⟨.accept, some m⟩
  others (search : BlockMetaData V) :
    g.appPCOf search ≠ g.appPCOf (s.metaData cfg.entryMeta) →
      ∀ response, Finds g s' search response ↔ Finds g s search response

/-- The list has an equal meta-data, and its head is accepted for the search. -/
def Served (s : State M V) (l : List M) (search : BlockMetaData V) : Prop :=
  (∃ m ∈ l, fits g s search m) ∧ ∀ h ∈ l.head?, g.canUnifyWith search (s.metaData h) = .accept

/-- The head of the list speaks for the meta-data that equals the entry, and, where the entry
becomes the head, the entry does so for itself and for all that were in the list before. -/
structure Unifies (s : State M V) (l : List M) (entry : M) : Prop where
  served : Served g s l (s.metaData entry) ↔
    ∃ m ∈ l, Offers g (s.metaData entry) .accept (s.metaData m)
  self : ¬Served g s l (s.metaData entry) →
    g.canUnifyWith (s.metaData entry) (s.metaData entry) = .accept ∧
      ∃ m ∈ entry :: l, fits g s (s.metaData entry) m
  others : ¬Served g s l (s.metaData entry) → ∀ search,
    g.appPCOf search ≠ g.appPCOf (s.metaData entry) → (∃ m ∈ l, fits g s search m) →
      ∀ h ∈ l.head?, g.canUnifyWith search (s.metaData entry) =
        g.canUnifyWith search (s.metaData h)

end Spec

section Returns

variable {M V α : Type*} {g : Manager V} {s : State M V} {c : Contents M} {search : BlockMetaData V}

theorem Returns.unique {f : ℕ → Option α} {a b : α} (ha : Returns f a) (hb : Returns f b) :
    a = b := by
  obtain ⟨N, hN⟩ := ha
  obtain ⟨K, hK⟩ := hb
  have h := (hN (max N K) (le_max_left N K)).symm.trans (hK (max N K) (le_max_right N K))
  exact Option.some.inj h

theorem finds_answer (h : Holds g s c) (search : BlockMetaData V) :
    Finds g s search (answer g s (c.indexed (indexOf (g.appPCOf search))) search) :=
  ⟨_, fun _ hf ↦ findMetaDataInIndex_eq h search hf⟩

theorem finds_iff (h : Holds g s c) {response : Links.IndexFindResponse M} :
    Finds g s search response ↔
      response = answer g s (c.indexed (indexOf (g.appPCOf search))) search := by
  constructor
  · intro hr
    exact Returns.unique hr (finds_answer h search)
  · rintro rfl
    exact finds_answer h search

end Returns

section Answer

variable {M V : Type*} {g : Manager V} {s s' : State M V} {c : Contents M} {l : List M}
  {search : BlockMetaData V} {m h : M}

theorem respond_injective {a b : UnificationStatus} (h : Links.respond a m = Links.respond b m) :
    a = b := by
  cases a <;> cases b <;> simp_all [Links.respond]

theorem answer_congr (h : s'.metaData = s.metaData) (l : List M) (search : BlockMetaData V) :
    answer g s' l search = answer g s l search := by
  have hfits : fits g s' search = fits g s search := by
    funext m
    rw [fits, fits, h]
  rw [answer, answer, hfits, h]

theorem answer_eq_accept_iff :
    (∃ m, answer g s l search = ⟨.accept, some m⟩) ↔ Served g s l search := by
  cases hf : l.find? (fits g s search) with
  | none =>
    have hno : ¬∃ m ∈ l, fits g s search m := by simpa using hf
    simp [answer, hf, Served, hno]
  | some m =>
    have hfits : ∃ m ∈ l, fits g s search m :=
      ⟨m, List.mem_of_find?_eq_some hf, List.find?_some hf⟩
    cases l with
    | nil => simp at hf
    | cons h l =>
      simp only [answer, hf, Option.elim, List.head?_cons, Served, hfits, true_and,
        Option.mem_some_iff, forall_eq']
      cases g.canUnifyWith search (s.metaData h) <;> simp [Links.respond]

theorem answer_status_eq_accept_iff :
    (answer g s l search).status = .accept ↔ Served g s l search := by
  rw [← answer_eq_accept_iff]
  constructor
  · intro h
    cases hf : l.find? (fits g s search) with
    | none => simp [answer, hf] at h
    | some m =>
      refine ⟨m, ?_⟩
      cases hl : l.head? with
      | none => simp [answer, hf, hl] at h
      | some h' =>
        simp only [answer, hf, hl, Option.elim] at h ⊢
        cases hs : g.canUnifyWith search (s.metaData h') <;> simp_all [Links.respond]
  · rintro ⟨m, h⟩
    rw [h]

theorem samePC_of_fits (h : fits g s search m) : g.appPCOf (s.metaData m) = g.appPCOf search :=
  of_decide_eq_true (samePC_of_equals g h)

/-- A search that does not fit the new head gets the answer from before, if the two heads agree. -/
theorem answer_cons_iff (hm : ¬fits g s search m) :
    answer g s (m :: l) search = answer g s l search ↔
      ((∃ n ∈ l, fits g s search n) → ∀ h ∈ l.head?,
        g.canUnifyWith search (s.metaData m) = g.canUnifyWith search (s.metaData h)) := by
  cases hf : l.find? (fits g s search) with
  | none =>
    have hno : ¬∃ n ∈ l, fits g s search n := by simpa using hf
    simp [answer, List.find?_cons_of_neg (p := fits g s search) hm, hf, hno]
  | some n =>
    have hfits : ∃ n ∈ l, fits g s search n :=
      ⟨n, List.mem_of_find?_eq_some hf, List.find?_some hf⟩
    cases l with
    | nil => simp at hf
    | cons h l =>
      simp only [answer, List.find?_cons_of_neg (p := fits g s search) hm, hf, Option.elim,
        List.head?_cons, hfits, true_imp_iff, Option.mem_some_iff, forall_eq']
      constructor
      · exact respond_injective
      · intro he
        rw [he]

theorem acceptedMatch_iff (h : Holds g s c) :
    AcceptedMatch g s c search ↔
      ∃ m ∈ c.indexed (indexOf (g.appPCOf search)), Offers g search .accept (s.metaData m) := by
  constructor
  · rintro ⟨m, ⟨i, hi⟩, hoff⟩
    refine ⟨m, ?_, hoff⟩
    rw [← samePC_of_fits hoff.1, h.indexOf_eq hi]
    exact hi
  · rintro ⟨m, hm, hoff⟩
    exact ⟨m, ⟨_, hm⟩, hoff⟩

theorem unifies_of_served {l : List M} {entry : M} (hs : Served g s l (s.metaData entry)) :
    Unifies g s l entry ↔ ∃ m ∈ l, Offers g (s.metaData entry) .accept (s.metaData m) := by
  constructor
  · intro h
    exact h.served.mp hs
  · intro h
    exact ⟨iff_of_true hs h, fun hno ↦ absurd hs hno, fun hno ↦ absurd hs hno⟩

end Answer

section Log

variable {M V : Type*} {g : Manager V} {s : State M V} {c : Contents M} {cfg : Trace M} {l : List M}
  {m : M}

theorem Trace.entry_mem_decodedMetaData (cfg : Trace M) : cfg.entryMeta ∈ cfg.decodedMetaData :=
  List.mem_filterMap.mpr ⟨cfg.entryBlock, cfg.entry_mem, cfg.entry_metaData⟩

/-- The meta-data of `l` have been logged, and nothing else. -/
structure Logs (g : Manager V) (s : State M V) (c : Contents M) (l : List M) (s' : State M V)
    (c' : Contents M) : Prop where
  holds : Holds g s' c'
  metaData : s'.metaData = s.metaData
  indexed : c'.indexed = c.indexed
  logged (m : M) : c'.Logged m ↔ c.Logged m ∨ m ∈ l

variable [DecidableEq M]

theorem Logs.foldl (h : Holds g s c) (hl : l.Nodup) (hfresh : ∀ m ∈ l, c.Fresh m) :
    ∃ c', Logs g s c l (l.foldl (addMetaDataToLog g) s) c' := by
  induction l generalizing s c with
  | nil =>
    refine ⟨c, h, rfl, rfl, fun m ↦ ?_⟩
    rw [List.mem_nil_iff, or_false]
  | cons m l ih =>
    obtain ⟨hm, hl⟩ := List.nodup_cons.mp hl
    have hfresh' : ∀ n ∈ l,
        (c.pushLogged (indexOf (g.appPCOf (s.metaData m))).first m).Fresh n := by
      intro n hn
      obtain ⟨hindexed, hlogged⟩ := hfresh n (List.mem_cons_of_mem m hn)
      refine ⟨hindexed, fun hpush ↦ ?_⟩
      rcases Contents.logged_pushLogged.mp hpush with rfl | hpush
      · exact hm hn
      · exact hlogged hpush
    obtain ⟨c', hc'⟩ := ih (h.addMetaDataToLog (hfresh m List.mem_cons_self)) hl hfresh'
    refine ⟨c', hc'.holds, hc'.metaData, hc'.indexed, fun n ↦ ?_⟩
    rw [hc'.logged, Contents.logged_pushLogged, List.mem_cons]
    tauto

def toLog (cfg : Trace M) (metaData : Option M) : List M :=
  cfg.decodedMetaData.filter fun m ↦ some m ≠ metaData

theorem foldl_logBlock (metaData : Option M) (blocks : List (Block M)) (s : State M V) :
    blocks.foldl (logBlock g metaData) s =
      ((blocks.filterMap Block.decodedMetaData).filter fun m ↦ some m ≠ metaData).foldl
        (addMetaDataToLog g) s := by
  induction blocks generalizing s with
  | nil => rfl
  | cons b blocks ih =>
    rw [List.foldl_cons, ih]
    by_cases hd : b.isDecoded
    · cases hm : b.metaData with
      | none =>
        have hb : b.decodedMetaData = none := by rw [Block.decodedMetaData, if_pos hd, hm]
        rw [List.filterMap_cons_none hb, logBlock, if_pos hd, hm]
      | some m =>
        have hb : b.decodedMetaData = some m := by rw [Block.decodedMetaData, if_pos hd, hm]
        rw [List.filterMap_cons_some hb, logBlock, if_pos hd, hm]
        by_cases hne : some m ≠ metaData
        · simp [hne]
        · simp [not_not.mp hne]
    · have hb : b.decodedMetaData = none := by rw [Block.decodedMetaData, if_neg hd]
      rw [List.filterMap_cons_none hb, logBlock, if_neg hd]

variable (cfg) in
theorem index_returns (h : Holds g s c) :
    Returns (index g s cfg)
      (if (answer g s (c.indexed (entrySlot g s cfg))
          (s.metaData cfg.entryMeta)).status ≠ .accept then
        (toLog cfg (some cfg.entryMeta)).foldl (addMetaDataToLog g)
          (addMetaDataToIndex g s cfg.entryMeta)
      else (toLog cfg none).foldl (addMetaDataToLog g) s) := by
  obtain ⟨N, hN⟩ := finds_answer h (s.metaData cfg.entryMeta)
  refine ⟨N, fun fuel hf ↦ ?_⟩
  have hfind : findMetaDataInIndex g s fuel (some (s.metaData cfg.entryMeta)) = _ := hN fuel hf
  simp only [index, hfind, Option.map_some, foldl_logBlock]
  rfl

theorem toLog_none : toLog cfg none = cfg.decodedMetaData := by
  simp [toLog]

theorem mem_toLog_entry : m ∈ toLog cfg (some cfg.entryMeta) ↔
    m ∈ cfg.decodedMetaData ∧ m ≠ cfg.entryMeta := by
  simp [toLog]

end Log

section Indexes

variable {M V : Type*} {g : Manager V} {s s' : State M V} {c c' : Contents M} {cfg : Trace M}

/-- Where the entry is served by what was there, all is right if what serves it is a match. -/
theorem indexes_iff_of_served (h : Holds g s c) (hfresh : ∀ m ∈ cfg.decodedMetaData, c.Fresh m)
    (hs : Served g s (c.indexed (entrySlot g s cfg))
      (s.metaData cfg.entryMeta))
    (hlogs : Logs g s c cfg.decodedMetaData s' c') :
    Indexes g s c cfg s' c' ↔
      Unifies g s (c.indexed (entrySlot g s cfg)) cfg.entryMeta := by
  have hentry := hfresh cfg.entryMeta cfg.entry_mem_decodedMetaData
  have hindexed (m : M) : c'.Indexed m ↔ c.Indexed m := by
    rw [Contents.Indexed, hlogs.indexed]
    rfl
  have hanswer (search : BlockMetaData V) :
      answer g s' (c'.indexed (indexOf (g.appPCOf search))) search =
        answer g s (c.indexed (indexOf (g.appPCOf search))) search := by
    rw [hlogs.indexed, answer_congr hlogs.metaData]
  rw [unifies_of_served hs, ← acceptedMatch_iff h]
  constructor
  · intro hi
    by_contra hno
    have hmem := (hi.indexed cfg.entryMeta).mpr (Or.inr ⟨rfl, hno⟩)
    exact hentry.1 ((hindexed cfg.entryMeta).mp hmem)
  · intro hacc
    refine ⟨hlogs.holds, fun m ↦ ?_, fun m ↦ ?_, ?_, fun search _ response ↦ ?_⟩
    · rw [hindexed]
      simp [hacc]
    · rw [hlogs.logged]
      simp [hacc]
    · obtain ⟨m, hm⟩ := answer_eq_accept_iff.mpr hs
      refine ⟨m, (finds_iff hlogs.holds).mpr ?_⟩
      rw [hanswer, hm]
    · rw [finds_iff hlogs.holds, finds_iff h, hanswer]

variable [DecidableEq M]

/-- What the index and the log hold afterwards, if the entry is served by what was there. -/
theorem exists_index_of_served (h : Holds g s c) (hfresh : ∀ m ∈ cfg.decodedMetaData, c.Fresh m)
    (hs : Served g s (c.indexed (entrySlot g s cfg))
      (s.metaData cfg.entryMeta)) :
    ∃ s' c', Returns (index g s cfg) s' ∧ Logs g s c cfg.decodedMetaData s' c' := by
  obtain ⟨c', hc'⟩ := Logs.foldl h cfg.nodup hfresh
  have hr := index_returns cfg h
  rw [if_neg (not_not.mpr (answer_status_eq_accept_iff.mpr hs)), toLog_none] at hr
  exact ⟨_, c', hr, hc'⟩

theorem exists_index_of_not_served (h : Holds g s c)
    (hfresh : ∀ m ∈ cfg.decodedMetaData, c.Fresh m)
    (hs : ¬Served g s (c.indexed (entrySlot g s cfg))
      (s.metaData cfg.entryMeta)) :
    ∃ s' c', Returns (index g s cfg) s' ∧
      Logs g (addMetaDataToIndex g s cfg.entryMeta)
        (c.pushIndexed (entrySlot g s cfg) cfg.entryMeta)
        (toLog cfg (some cfg.entryMeta)) s' c' := by
  have hentry := hfresh cfg.entryMeta cfg.entry_mem_decodedMetaData
  have hrest : ∀ m ∈ toLog cfg (some cfg.entryMeta),
      (c.pushIndexed (entrySlot g s cfg) cfg.entryMeta).Fresh m := by
    intro m hm
    obtain ⟨hm, hne⟩ := mem_toLog_entry.mp hm
    refine ⟨fun hi ↦ ?_, (hfresh m hm).2⟩
    rcases Contents.indexed_pushIndexed.mp hi with rfl | hi
    · exact hne rfl
    · exact (hfresh m hm).1 hi
  obtain ⟨c', hc'⟩ := Logs.foldl (h.addMetaDataToIndex hentry)
    (List.Nodup.filter (fun m ↦ some m ≠ some cfg.entryMeta) cfg.nodup) hrest
  have hr := index_returns cfg h
  rw [if_pos (mt answer_status_eq_accept_iff.mp hs)] at hr
  exact ⟨_, c', hr, hc'⟩

/-- Where the entry is put into its slot, all is right if no match was there, the entry is served
now, and its verdicts are those of the head before. -/
theorem indexes_iff_of_not_served (h : Holds g s c)
    (hfresh : ∀ m ∈ cfg.decodedMetaData, c.Fresh m)
    (hs : ¬Served g s (c.indexed (entrySlot g s cfg))
      (s.metaData cfg.entryMeta))
    (hlogs : Logs g (addMetaDataToIndex g s cfg.entryMeta)
        (c.pushIndexed (entrySlot g s cfg) cfg.entryMeta)
        (toLog cfg (some cfg.entryMeta)) s' c') :
    Indexes g s c cfg s' c' ↔
      Unifies g s (c.indexed (entrySlot g s cfg)) cfg.entryMeta := by
  have hentry := hfresh cfg.entryMeta cfg.entry_mem_decodedMetaData
  have hindexed (m : M) : c'.Indexed m ↔ m = cfg.entryMeta ∨ c.Indexed m := by
    rw [← Contents.indexed_pushIndexed, Contents.Indexed, hlogs.indexed]
    rfl
  have hanswer (search : BlockMetaData V) :
      answer g s' (c'.indexed (indexOf (g.appPCOf search))) search =
        answer g s (update c.indexed (entrySlot g s cfg)
          (cfg.entryMeta :: c.indexed (entrySlot g s cfg))
          (indexOf (g.appPCOf search))) search := by
    rw [hlogs.indexed, answer_congr (s := s) hlogs.metaData]
    rfl
  constructor
  · intro hi
    have hno : ¬AcceptedMatch g s c (s.metaData cfg.entryMeta) := by
      intro hacc
      rcases (hi.indexed cfg.entryMeta).mp ((hindexed cfg.entryMeta).mpr (Or.inl rfl)) with hm | hm
      · exact hentry.1 hm
      · exact hm.2 hacc
    refine ⟨iff_of_false hs (mt (acceptedMatch_iff h).mpr hno), fun _ ↦ ?_, fun _ search hpc ↦ ?_⟩
    · obtain ⟨m, hm⟩ := hi.found
      rw [finds_iff hlogs.holds, hanswer, update_self] at hm
      obtain ⟨hfits, hhead⟩ := answer_eq_accept_iff.mp ⟨m, hm.symm⟩
      exact ⟨hhead cfg.entryMeta rfl, hfits⟩
    · rintro ⟨m, hm, hfits⟩
      have hslot : indexOf (g.appPCOf search) =
          entrySlot g s cfg := by
        rw [← samePC_of_fits hfits]
        exact h.indexOf_eq hm
      have hne : ¬fits g s search cfg.entryMeta := fun hf ↦ hpc (samePC_of_fits hf).symm
      have hsame := (hi.others search hpc _).mpr (finds_answer h search)
      rw [finds_iff hlogs.holds, hanswer, hslot, update_self] at hsame
      exact (answer_cons_iff hne).mp hsame.symm ⟨m, hm, hfits⟩
  · intro hu
    have hno : ¬AcceptedMatch g s c (s.metaData cfg.entryMeta) := by
      rw [acceptedMatch_iff h, ← hu.served]
      exact hs
    refine ⟨hlogs.holds, fun m ↦ ?_, fun m ↦ ?_, ?_, fun search hpc response ↦ ?_⟩
    · rw [hindexed]
      simp [hno, or_comm]
    · rw [hlogs.logged, mem_toLog_entry]
      simp [hno]
      rfl
    · obtain ⟨hself, hfits⟩ := hu.self hs
      obtain ⟨m, hm⟩ := answer_eq_accept_iff.mpr (show Served g s
        (cfg.entryMeta :: c.indexed (entrySlot g s cfg))
        (s.metaData cfg.entryMeta) from ⟨hfits, by simpa using hself⟩)
      refine ⟨m, (finds_iff hlogs.holds).mpr ?_⟩
      rw [hanswer, update_self, hm]
    · rw [finds_iff hlogs.holds, finds_iff h, hanswer]
      by_cases hslot : indexOf (g.appPCOf search) =
          entrySlot g s cfg
      · have hne : ¬fits g s search cfg.entryMeta := fun hf ↦ hpc (samePC_of_fits hf).symm
        rw [hslot, update_self, (answer_cons_iff hne).mpr (hu.others hs search hpc)]
      · rw [update_of_ne hslot]

theorem exists_indexes_iff (hr : Returns (index g s cfg) s') (h' : Holds g s' c') :
    (∃ s' c', Returns (index g s cfg) s' ∧ Indexes g s c cfg s' c') ↔ Indexes g s c cfg s' c' := by
  constructor
  · rintro ⟨s₁, c₁, hr₁, hi⟩
    obtain rfl := hr₁.unique hr
    obtain rfl := hi.holds.unique h'
    exact hi
  · intro hi
    exact ⟨s', c', hr, hi⟩

theorem unifies_iff_of_not_served (h : Holds g s c) (hfresh : ∀ m ∈ cfg.decodedMetaData, c.Fresh m)
    (hs : ¬Served g s (c.indexed (entrySlot g s cfg)) (s.metaData cfg.entryMeta)) :
    (∃ s' c', Returns (index g s cfg) s' ∧ Indexes g s c cfg s' c') ↔
      Unifies g s (c.indexed (entrySlot g s cfg)) cfg.entryMeta := by
  obtain ⟨s', c', hr, hlogs⟩ := exists_index_of_not_served h hfresh hs
  rw [exists_indexes_iff hr hlogs.holds]
  exact indexes_iff_of_not_served h hfresh hs hlogs

/-- For every trace and every contents of the index and the log, indexing the trace records its
meta-data as it should, if and only if the heads speak for the others. -/
theorem indexes_iff (g : Manager V) (s : State M V) (c : Contents M) (cfg : Trace M)
    (h : Holds g s c) (hfresh : ∀ m ∈ cfg.decodedMetaData, c.Fresh m) :
    (∃ s' c', Returns (index g s cfg) s' ∧ Indexes g s c cfg s' c') ↔
      Unifies g s (c.indexed (entrySlot g s cfg)) cfg.entryMeta := by
  by_cases hs : Served g s (c.indexed (entrySlot g s cfg)) (s.metaData cfg.entryMeta)
  · obtain ⟨s', c', hr, hlogs⟩ := exists_index_of_served h hfresh hs
    rw [exists_indexes_iff hr hlogs.holds]
    exact indexes_iff_of_served h hfresh hs hlogs
  · exact unifies_iff_of_not_served h hfresh hs

end Indexes

section TwoBlocks

/-- One tool, that unifies equal tags only. -/
def tagged : Manager ℕ :=
  ⟨id, 0, [⟨8, none, some fun a b ↦ if a = b then .accept else .reject⟩]⟩

def blockAt (m : ℕ) : BlockMetaData ℕ :=
  fun offset ↦ if offset = 0 then 4096 + m else m

def oneBlock (m : ℕ) : Trace ℕ where
  blocks := [⟨.decoded, some m⟩, ⟨.native, none⟩]
  entryBlock := ⟨.decoded, some m⟩
  entryMeta := m
  entry_mem := List.mem_cons_self
  entry_metaData := rfl
  nodup := by
    simp [Block.decodedMetaData, Block.isDecoded]

theorem fresh_of_not_mem {c : Contents ℕ} {m : ℕ} (h : c.Fresh m) :
    ∀ n ∈ (oneBlock m).decodedMetaData, c.Fresh n := by
  intro n hn
  obtain rfl : n = m := by
    simpa [Trace.decodedMetaData, oneBlock, Block.decodedMetaData, Block.isDecoded] using hn
  exact h

theorem fresh_pushIndexed {m : ℕ} (hm : m ≠ 0) :
    (Contents.pushIndexed ⟨fun _ ↦ [], fun _ ↦ []⟩ (indexOf 4096) 0).Fresh m := by
  refine ⟨fun h ↦ ?_, ?_⟩
  · rcases Contents.indexed_pushIndexed.mp h with rfl | h
    · exact hm rfl
    · simp [Contents.Indexed] at h
  · simp [Contents.Logged, Contents.pushIndexed]

/-- Two meta-data for each block: `2 * m` and `2 * m + 1` are of the block at address `4096 + m`. -/
def copyOfBlock (m : ℕ) : BlockMetaData ℕ := blockAt (m / 2)

def againThenNext : Trace ℕ where
  blocks := [⟨.decoded, some 1⟩, ⟨.decoded, some 2⟩, ⟨.native, none⟩]
  entryBlock := ⟨.decoded, some 1⟩
  entryMeta := 1
  entry_mem := List.mem_cons_self
  entry_metaData := rfl
  nodup := by decide

theorem indexes_iff_againThenNext :
    let s := addMetaDataToIndex tagged (initial copyOfBlock) 0
    let c := Contents.pushIndexed ⟨fun _ ↦ [], fun _ ↦ []⟩ (indexOf 4096) 0
    ∃ s' c', Returns (index tagged s againThenNext) s' ∧
      Indexes tagged s c againThenNext s' c' := by
  intro s c
  have hs : Holds tagged s c :=
    (holds_initial tagged copyOfBlock).addMetaDataToIndex
      (by simp [Contents.Fresh, Contents.Indexed, Contents.Logged])
  have hfresh : ∀ m ∈ againThenNext.decodedMetaData, c.Fresh m := by
    intro m hm
    refine fresh_pushIndexed ?_
    rintro rfl
    revert hm
    decide
  have hslot : c.indexed (entrySlot tagged s againThenNext) = [0] := by
    have hi : entrySlot tagged s againThenNext = indexOf 4096 := by decide
    rw [hi]
    exact update_self (indexOf 4096) [0] fun _ ↦ []
  have hserved : Served tagged s (c.indexed (entrySlot tagged s againThenNext))
      (s.metaData againThenNext.entryMeta) := by
    rw [hslot]
    refine ⟨⟨0, List.mem_singleton_self 0, by decide⟩, fun m hm ↦ ?_⟩
    obtain rfl := Option.some.inj hm
    decide
  refine (indexes_iff tagged s c againThenNext hs hfresh).mpr ⟨⟨fun _ ↦ ?_, fun _ ↦ hserved⟩,
    fun hn ↦ absurd hserved hn, fun hn ↦ absurd hserved hn⟩
  rw [hslot]
  exact ⟨0, List.mem_singleton_self 0, by decide, by decide⟩

/-- The block at 4097 goes to the head of the slot of the block at 4096, which a lookup then does
not find. -/
theorem index_hides_neighbour :
    let s := addMetaDataToIndex tagged (initial blockAt) 0
    let c := Contents.pushIndexed ⟨fun _ ↦ [], fun _ ↦ []⟩ (indexOf 4096) 0
    Holds tagged s c ∧ (∀ m ∈ (oneBlock 1).decodedMetaData, c.Fresh m) ∧
      ¬∃ s' c', Returns (index tagged s (oneBlock 1)) s' ∧
        Indexes tagged s c (oneBlock 1) s' c' := by
  intro s c
  have hfresh : ∀ m ∈ (oneBlock 1).decodedMetaData, c.Fresh m :=
    fresh_of_not_mem (fresh_pushIndexed one_ne_zero)
  have hs : Holds tagged s c :=
    (holds_initial tagged blockAt).addMetaDataToIndex
      (by simp [Contents.Fresh, Contents.Indexed, Contents.Logged])
  have hslot : c.indexed (entrySlot tagged s (oneBlock 1)) = [0] := by
    have hi : entrySlot tagged s (oneBlock 1) = indexOf 4096 := by decide
    rw [hi]
    exact update_self (indexOf 4096) [0] fun _ ↦ []
  have hserved : ¬Served tagged s (c.indexed (entrySlot tagged s (oneBlock 1)))
      (s.metaData (oneBlock 1).entryMeta) := by
    rw [hslot]
    rintro ⟨⟨m, hm, hf⟩, -⟩
    obtain rfl := List.mem_singleton.mp hm
    revert hf
    decide
  refine ⟨hs, hfresh, ?_⟩
  rw [unifies_iff_of_not_served hs hfresh hserved, hslot]
  intro hu
  have hsame := hu.others (by rwa [hslot] at hserved) (blockAt 0) (by decide)
    ⟨0, List.mem_singleton_self 0, by decide⟩ 0 rfl
  revert hsame
  decide

end TwoBlocks

end Granary.Translate
