import Granary.Clients.Watchpoints.TypeId

namespace Granary.Clients.Watchpoints.TypeId

open Function Granary.Base.Run

def Phase.writes : Phase → Option Call
  | .writing c | .creating c | .numbered c _ => some c
  | _ => none

/-- The call that has found nothing under the lock. -/
def Phase.creates : Phase → Option Call
  | .creating c | .numbered c _ => some c
  | _ => none

def Phase.number : Phase → Option ℕ
  | .numbered _ typeId => some typeId
  | _ => none

variable {T : Type*} {s s' : State T} {t : T} {c : Call} {p : Phase}

structure Inv (s : State T) : Prop where
  writer {t : T} {c : Call} : (s.phase t).writes = some c → s.writer c.bucket = some t
  entry {b id : ℕ} : id ∈ s.gTypeTable b →
    id < kMaxWatchpointTypeId ∧ id < s.gNextTypeId ∧ bucketOf (s.gTypes id).retAddress = b
  unique {b id id' : ℕ} : id ∈ s.gTypeTable b → id' ∈ s.gTypeTable b →
    s.gTypes id = s.gTypes id' → id = id'
  fresh {t : T} {c : Call} : (s.phase t).creates = some c →
    ∀ id ∈ s.gTypeTable c.bucket, s.gTypes id ≠ c.name
  numbered {t : T} {id : ℕ} : (s.phase t).number = some id →
    id < kMaxWatchpointTypeId ∧ id < s.gNextTypeId ∧ ∀ b, id ∉ s.gTypeTable b
  number_inj {t t' : T} {id : ℕ} : (s.phase t).number = some id →
    (s.phase t').number = some id → t = t'
  covered {id : ℕ} : id < s.gNextTypeId → id < kMaxWatchpointTypeId →
    (∃ b, id ∈ s.gTypeTable b) ∨ ∃ t, (s.phase t).number = some id
  named {r : Return} : r ∈ s.returned → r.id < kMaxWatchpointTypeId →
    r.id ∈ s.gTypeTable r.call.bucket ∧ s.gTypes r.id = r.call.name
  used {b id : ℕ} : id ∈ s.gTypeTable b → ∃ r ∈ s.returned, r.id = id

theorem inv_initial : Inv (initial : State T) where
  writer h := absurd h (Option.some_ne_none _).symm
  entry h := absurd h List.not_mem_nil
  unique h := absurd h List.not_mem_nil
  fresh h := absurd h (Option.some_ne_none _).symm
  numbered h := absurd h (Option.some_ne_none _).symm
  number_inj h := absurd h (Option.some_ne_none _).symm
  covered h := absurd h (Nat.not_lt_zero _)
  named h := absurd h List.not_mem_nil
  used h := absurd h List.not_mem_nil

theorem writes_of_creates (h : p.creates = some c) : p.writes = some c := by
  cases p <;> first | exact h | exact absurd h (Option.some_ne_none _).symm

theorem findType_eq_some {id : ℕ} (h : findType s c = some id) :
    id ∈ s.gTypeTable c.bucket ∧ s.gTypes id = c.name :=
  ⟨List.mem_of_find?_eq_some h, of_decide_eq_true (List.find?_some (p := fun id ↦
    decide (s.gTypes id = c.name)) h)⟩

theorem findType_eq_none (h : findType s c = none) :
    ∀ id ∈ s.gTypeTable c.bucket, s.gTypes id ≠ c.name :=
  fun id hid ↦ of_decide_eq_false (Bool.eq_false_iff.2 (List.find?_eq_none.1 h id hid))

section Steps

variable [DecidableEq T]

theorem other_of_update {α : Type*} {f : Phase → Option α} {x : α} {u : T} (hf : f p = none)
    (hu : f (update s.phase t p u) = some x) : u ≠ t ∧ f (s.phase u) = some x := by
  rcases eq_or_ne u t with rfl | hne
  · rw [update_self, hf] at hu
    exact absurd hu (Option.some_ne_none _).symm
  · rw [update_of_ne hne] at hu
    exact ⟨hne, hu⟩

theorem Inv.move (hi : Inv s) {writer : ℕ → Option T} {readers : ℕ → List T} {next : ℕ}
    {returned : List Return} (hp : p.number = none) (hold : (s.phase t).number = none)
    (hcreates : ∀ c, p.creates = some c → ∀ id ∈ s.gTypeTable c.bucket, s.gTypes id ≠ c.name)
    (hwriter : ∀ u c, (update s.phase t p u).writes = some c → writer c.bucket = some u)
    (hnext : s.gNextTypeId ≤ next)
    (hcover : ∀ id < next, id < kMaxWatchpointTypeId → id < s.gNextTypeId)
    (hreturned : ∀ r ∈ returned, r ∈ s.returned ∨ (r.id < kMaxWatchpointTypeId →
      r.id ∈ s.gTypeTable r.call.bucket ∧ s.gTypes r.id = r.call.name))
    (hkeeps : ∀ r ∈ s.returned, r ∈ returned) :
    Inv { s with gNextTypeId := next, writer, readers, phase := update s.phase t p, returned } := by
  have hnumber (u : T) : (update s.phase t p u).number = (s.phase u).number := by
    rcases eq_or_ne u t with rfl | hne
    · rw [update_self, hp, hold]
    · rw [update_of_ne hne]
  constructor
  · exact fun {u c} hu ↦ hwriter u c hu
  · intro b id hid
    obtain ⟨hlt, hid', hb⟩ := hi.entry hid
    exact ⟨hlt, hid'.trans_le hnext, hb⟩
  · exact hi.unique
  · intro u c hu
    rcases eq_or_ne u t with rfl | hne
    · exact hcreates c (by simpa only [update_self] using hu)
    · exact hi.fresh (t := u) (by simpa only [update_of_ne hne] using hu)
  · intro u id hu
    obtain ⟨hlt, hid, hb⟩ := hi.numbered ((hnumber u).symm.trans hu)
    exact ⟨hlt, hid.trans_le hnext, hb⟩
  · exact fun {u v id} hu hv ↦ hi.number_inj ((hnumber u).symm.trans hu) ((hnumber v).symm.trans hv)
  · intro id hid hlt
    rcases hi.covered (hcover id hid hlt) hlt with hb | ⟨u, hu⟩
    · exact Or.inl hb
    · exact Or.inr ⟨u, (hnumber u).trans hu⟩
  · intro r hr hlt
    rcases hreturned r hr with hr | hr
    · exact hi.named hr hlt
    · exact hr hlt
  · intro b id hid
    obtain ⟨r, hr, rfl⟩ := hi.used hid
    exact ⟨r, hkeeps r hr, rfl⟩

theorem Inv.keeps_writer (hi : Inv s) (hp : ∀ c, p.writes = some c → (s.phase t).writes = some c)
    (u : T) (c : Call) (hu : (update s.phase t p u).writes = some c) :
    s.writer c.bucket = some u := by
  rcases eq_or_ne u t with rfl | hne
  · rw [update_self] at hu
    exact hi.writer (hp c hu)
  · rw [update_of_ne hne] at hu
    exact hi.writer hu

theorem Inv.acquires (hi : Inv s) (hfree : s.writer c.bucket = none)
    (hp : ∀ c', p.writes = some c' → c' = c) (u : T) (c' : Call)
    (hu : (update s.phase t p u).writes = some c') :
    update s.writer c.bucket (some t) c'.bucket = some u := by
  rcases eq_or_ne u t with rfl | hne
  · rw [update_self] at hu
    rw [hp c' hu, update_self]
  · rw [update_of_ne hne] at hu
    have hwriter := hi.writer hu
    have hbucket : c'.bucket ≠ c.bucket := by
      intro heq
      rw [heq, hfree] at hwriter
      exact absurd hwriter (Option.some_ne_none _).symm
    rw [update_of_ne hbucket, hwriter]

theorem Inv.releases (hi : Inv s) (ht : (s.phase t).writes = some c) (hp : p.writes = none)
    (u : T) (c' : Call) (hu : (update s.phase t p u).writes = some c') :
    update s.writer c.bucket none c'.bucket = some u := by
  rcases eq_or_ne u t with rfl | hne
  · rw [update_self, hp] at hu
    exact absurd hu (Option.some_ne_none _).symm
  · rw [update_of_ne hne] at hu
    have hwriter := hi.writer hu
    have hbucket : c'.bucket ≠ c.bucket := by
      intro heq
      rw [heq, hi.writer ht] at hwriter
      exact hne (Option.some_inj.1 hwriter).symm
    rw [update_of_ne hbucket, hwriter]

theorem Inv.takes (hi : Inv s) (ht : s.phase t = .creating c)
    (hlt : s.gNextTypeId < kMaxWatchpointTypeId) :
    Inv { s with
      gNextTypeId := s.gNextTypeId + 1
      phase := update s.phase t (.numbered c s.gNextTypeId) } := by
  have hnumber {u : T} {id : ℕ}
      (hu : (update s.phase t (.numbered c s.gNextTypeId) u).number = some id) :
      u = t ∧ id = s.gNextTypeId ∨ u ≠ t ∧ (s.phase u).number = some id := by
    rcases eq_or_ne u t with rfl | hne
    · rw [update_self] at hu
      exact Or.inl ⟨rfl, (Option.some_inj.1 hu).symm⟩
    · rw [update_of_ne hne] at hu
      exact Or.inr ⟨hne, hu⟩
  constructor
  · exact fun {u c'} hu ↦ hi.keeps_writer (fun c'' h ↦ by rw [ht]; exact h) u c' hu
  · intro b id hid
    obtain ⟨hmax, hid', hb⟩ := hi.entry hid
    exact ⟨hmax, hid'.trans (Nat.lt_succ_self _), hb⟩
  · exact hi.unique
  · intro u c' hu
    rcases eq_or_ne u t with rfl | hne
    · have hu : (Phase.numbered c s.gNextTypeId).creates = some c' := by
        simpa only [update_self] using hu
      exact hi.fresh (t := u) (by rw [ht]; exact hu)
    · exact hi.fresh (t := u) (by simpa only [update_of_ne hne] using hu)
  · intro u id hu
    rcases hnumber hu with ⟨-, rfl⟩ | ⟨-, hu⟩
    · exact ⟨hlt, Nat.lt_succ_self _, fun b hb ↦ (hi.entry hb).2.1.ne rfl⟩
    · obtain ⟨hmax, hid, hb⟩ := hi.numbered hu
      exact ⟨hmax, hid.trans (Nat.lt_succ_self _), hb⟩
  · intro u v id hu hv
    rcases hnumber hu with ⟨hu, hid⟩ | ⟨-, hu⟩ <;> rcases hnumber hv with ⟨hv, hid'⟩ | ⟨-, hv⟩
    · exact hu.trans hv.symm
    · exact absurd hid (hi.numbered hv).2.1.ne
    · exact absurd hid' (hi.numbered hu).2.1.ne
    · exact hi.number_inj hu hv
  · intro id hid hmax
    rcases Nat.lt_succ_iff_lt_or_eq.1 hid with hid | rfl
    · rcases hi.covered hid hmax with hb | ⟨u, hu⟩
      · exact Or.inl hb
      · have hne : u ≠ t := by
          rintro rfl
          rw [ht] at hu
          exact absurd hu (Option.some_ne_none _).symm
        exact Or.inr ⟨u, by simpa only [update_of_ne hne] using hu⟩
    · exact Or.inr ⟨t, by simp only [update_self, Phase.number]⟩
  · exact hi.named
  · exact hi.used

omit [DecidableEq T] in
theorem mem_insert {b id typeId : ℕ} : id ∈ (s.insert c typeId).gTypeTable b ↔
    id = typeId ∧ b = c.bucket ∨ id ∈ s.gTypeTable b := by
  show id ∈ update s.gTypeTable c.bucket (typeId :: s.gTypeTable c.bucket) b ↔ _
  rcases eq_or_ne b c.bucket with rfl | hne
  · rw [update_self, List.mem_cons, and_iff_left rfl]
  · rw [update_of_ne hne]
    simp only [hne, and_false, false_or]

omit [DecidableEq T] in
theorem Inv.insert_keeps (hi : Inv s) {typeId b id : ℕ} (ht : s.phase t = .numbered c typeId)
    (hid : id ∈ s.gTypeTable b) : (s.insert c typeId).gTypes id = s.gTypes id := by
  have hnumber : (s.phase t).number = some typeId := by rw [ht]; rfl
  have hne : id ≠ typeId := by
    rintro rfl
    exact (hi.numbered hnumber).2.2 b hid
  exact update_of_ne hne ..

theorem Inv.inserts (hi : Inv s) {typeId : ℕ} (ht : s.phase t = .numbered c typeId) :
    Inv (((s.insert c typeId).releaseWrite c).finish t c typeId) := by
  have hnumber : (s.phase t).number = some typeId := by rw [ht]; rfl
  have hwrites : (s.phase t).writes = some c := by rw [ht]; rfl
  have hcreates : (s.phase t).creates = some c := by rw [ht]; rfl
  obtain ⟨hmax, hlt, hnew⟩ := hi.numbered hnumber
  have hself : (s.insert c typeId).gTypes typeId = c.name := update_self ..
  have hreturn : typeId % 2 ^ 16 = typeId := by
    apply Nat.mod_eq_of_lt
    unfold kMaxWatchpointTypeId at hmax
    omega
  constructor
  · exact fun {u c'} hu ↦ hi.releases hwrites rfl u c' hu
  · intro b id hid
    rcases mem_insert.1 hid with ⟨rfl, rfl⟩ | hid
    · exact ⟨hmax, hlt, congrArg (fun name ↦ bucketOf name.retAddress) hself⟩
    · obtain ⟨hid', hlt', hb⟩ := hi.entry hid
      exact ⟨hid', hlt', (congrArg (fun name ↦ bucketOf name.retAddress)
        (hi.insert_keeps ht hid)).trans hb⟩
  · intro b id id' hid hid' heq
    have heq : (s.insert c typeId).gTypes id = (s.insert c typeId).gTypes id' := heq
    rcases mem_insert.1 hid with ⟨rfl, rfl⟩ | hold <;>
      rcases mem_insert.1 hid' with ⟨rfl, hb⟩ | hold'
    · rfl
    · rw [hself, hi.insert_keeps ht hold'] at heq
      exact absurd heq.symm (hi.fresh hcreates id' hold')
    · rw [hself, hi.insert_keeps ht hold] at heq
      exact absurd heq (hi.fresh hcreates id (hb ▸ hold))
    · rw [hi.insert_keeps ht hold, hi.insert_keeps ht hold'] at heq
      exact hi.unique hold hold' heq
  · intro u c' hu id hid
    obtain ⟨hne, hu⟩ := other_of_update (f := Phase.creates) rfl hu
    rcases mem_insert.1 hid with ⟨rfl, hb⟩ | hid
    · -- two writers of one list
      have hwriter := hi.writer (writes_of_creates hu)
      rw [hb, hi.writer hwrites] at hwriter
      exact absurd (Option.some_inj.1 hwriter).symm hne
    · intro hname
      exact hi.fresh hu id hid ((hi.insert_keeps ht hid).symm.trans hname)
  · intro u id hu
    obtain ⟨hne, hu⟩ := other_of_update (f := Phase.number) rfl hu
    obtain ⟨hid, hlt', hb⟩ := hi.numbered hu
    refine ⟨hid, hlt', fun b hmem ↦ ?_⟩
    rcases mem_insert.1 hmem with ⟨rfl, -⟩ | hmem
    · exact hne (hi.number_inj hu hnumber)
    · exact hb b hmem
  · intro u v id hu hv
    exact hi.number_inj (other_of_update (f := Phase.number) rfl hu).2
      (other_of_update (f := Phase.number) rfl hv).2
  · intro id hid hlt'
    rcases hi.covered hid hlt' with ⟨b, hb⟩ | ⟨u, hu⟩
    · exact Or.inl ⟨b, mem_insert.2 (Or.inr hb)⟩
    · rcases eq_or_ne u t with rfl | hne
      · obtain rfl := Option.some_inj.1 (hu.symm.trans hnumber)
        exact Or.inl ⟨c.bucket, mem_insert.2 (Or.inl ⟨rfl, rfl⟩)⟩
      · exact Or.inr ⟨u, (congrArg Phase.number (update_of_ne hne ..)).trans hu⟩
  · intro r hr hlt'
    rcases List.mem_cons.1 hr with rfl | hr
    · refine ⟨mem_insert.2 (Or.inl ⟨hreturn, rfl⟩), ?_⟩
      show (s.insert c typeId).gTypes (typeId % 2 ^ 16) = c.name
      rw [hreturn, hself]
    · obtain ⟨hmem, hname⟩ := hi.named hr hlt'
      exact ⟨mem_insert.2 (Or.inr hmem), (hi.insert_keeps ht hmem).trans hname⟩
  · intro b id hid
    rcases mem_insert.1 hid with ⟨rfl, -⟩ | hid
    · exact ⟨⟨c, id % 2 ^ 16⟩, List.mem_cons_self, hreturn⟩
    · obtain ⟨r, hr, rfl⟩ := hi.used hid
      exact ⟨r, List.mem_cons_of_mem _ hr, rfl⟩

/-- A step that counts does not take the counter around. -/
def Counts (s : State T) (a : Action T) : Prop :=
  ∀ c, s.phase a.thread = .creating c → s.gNextTypeId + 1 < 2 ^ 64

theorem inv_step {a : Action T} (hi : Inv s) (hcounts : Counts s a) (h : step s a = some s') :
    Inv s' := by
  set t := a.thread with ht
  have hstay (c : Call) (id : ℕ) (hfound : findType s c = some id) :
      ∀ r ∈ (⟨c, id % 2 ^ 16⟩ : Return) :: s.returned, r ∈ s.returned ∨
        (r.id < kMaxWatchpointTypeId → r.id ∈ s.gTypeTable r.call.bucket ∧
          s.gTypes r.id = r.call.name) := by
    intro r hr
    rcases List.mem_cons.1 hr with rfl | hr
    · right
      intro _
      obtain ⟨hmem, hname⟩ := findType_eq_some hfound
      have hlt := (hi.entry hmem).1
      have hid : id % 2 ^ 16 = id := by
        apply Nat.mod_eq_of_lt
        unfold kMaxWatchpointTypeId at hlt
        omega
      simp only [hid]
      exact ⟨hmem, hname⟩
    · exact Or.inl hr
  have hreturned : ∀ r ∈ s.returned, r ∈ s.returned ∨ (r.id < kMaxWatchpointTypeId →
      r.id ∈ s.gTypeTable r.call.bucket ∧ s.gTypes r.id = r.call.name) := fun r hr ↦ Or.inl hr
  have hcover : ∀ id < s.gNextTypeId, id < kMaxWatchpointTypeId → id < s.gNextTypeId :=
    fun id hid _ ↦ hid
  have hnone {c : Call} {P : Prop} (hc : none = some c) : P :=
    absurd hc (Option.some_ne_none _).symm
  unfold step at h
  simp only [← ht] at h
  cases hphase : s.phase t with
  | idle =>
    simp only [hphase] at h
    obtain rfl := Option.some_inj.1 h
    exact hi.move rfl (by rw [hphase]; rfl) (fun c hc ↦ hnone hc)
      (hi.keeps_writer fun c hc ↦ hnone hc) le_rfl hcover hreturned fun r hr ↦ hr
  | called c =>
    simp only [hphase] at h
    split_ifs at h with hfree
    obtain rfl := Option.some_inj.1 h
    exact hi.move rfl (by rw [hphase]; rfl) (fun c hc ↦ hnone hc)
      (hi.keeps_writer fun c hc ↦ hnone hc) le_rfl hcover hreturned fun r hr ↦ hr
  | reading c =>
    simp only [hphase] at h
    split at h
    · obtain rfl := Option.some_inj.1 h
      exact hi.move rfl (by rw [hphase]; rfl) (fun c hc ↦ hnone hc)
        (hi.keeps_writer fun c hc ↦ hnone hc) le_rfl hcover (hstay c _ ‹_›)
        fun r hr ↦ List.mem_cons_of_mem _ hr
    · obtain rfl := Option.some_inj.1 h
      exact hi.move rfl (by rw [hphase]; rfl) (fun c hc ↦ hnone hc)
        (hi.keeps_writer fun c hc ↦ hnone hc) le_rfl hcover hreturned fun r hr ↦ hr
  | missed c =>
    simp only [hphase] at h
    split_ifs at h with hfree
    obtain rfl := Option.some_inj.1 h
    exact hi.move rfl (by rw [hphase]; rfl) (fun c hc ↦ hnone hc)
      (hi.acquires hfree.1 fun c' hc ↦ (Option.some_inj.1 hc).symm) le_rfl hcover hreturned
      fun r hr ↦ hr
  | writing c =>
    have hwrites : (s.phase t).writes = some c := by rw [hphase]; rfl
    simp only [hphase] at h
    split at h
    · obtain rfl := Option.some_inj.1 h
      exact hi.move rfl (by rw [hphase]; rfl) (fun c hc ↦ hnone hc)
        (hi.releases hwrites rfl) le_rfl hcover (hstay c _ ‹_›)
        fun r hr ↦ List.mem_cons_of_mem _ hr
    · obtain rfl := Option.some_inj.1 h
      have hfresh := findType_eq_none ‹_›
      exact hi.move rfl (by rw [hphase]; rfl) (fun c' hc ↦ Option.some_inj.1 hc ▸ hfresh)
        (hi.keeps_writer fun c' hc ↦ hwrites.trans hc) le_rfl hcover hreturned fun r hr ↦ hr
  | creating c =>
    have hwrites : (s.phase t).writes = some c := by rw [hphase]; rfl
    have hnext : (s.gNextTypeId + 1) % 2 ^ 64 = s.gNextTypeId + 1 :=
      Nat.mod_eq_of_lt (hcounts c hphase)
    simp only [hphase, hnext] at h
    split_ifs at h with hmax
    · obtain rfl := Option.some_inj.1 h
      refine hi.move rfl (by rw [hphase]; rfl) (fun c hc ↦ hnone hc) (hi.releases hwrites rfl)
        (Nat.le_succ _) (fun id _ hlt ↦ hlt.trans_le hmax) (fun r hr ↦ ?_)
        fun r hr ↦ List.mem_cons_of_mem _ hr
      rcases List.mem_cons.1 hr with rfl | hr
      · exact Or.inr fun hlt ↦ absurd hlt (Nat.lt_irrefl kMaxWatchpointTypeId)
      · exact Or.inl hr
    · obtain rfl := Option.some_inj.1 h
      exact hi.takes hphase (not_le.1 hmax)
  | numbered c typeId =>
    simp only [hphase] at h
    obtain rfl := Option.some_inj.1 h
    exact hi.inserts hphase

def Keeps (s s' : State T) : Prop :=
  ∀ b, ∀ id ∈ s.gTypeTable b, id ∈ s'.gTypeTable b ∧ s'.gTypes id = s.gTypes id

theorem step_lists {a : Action T} (h : step s a = some s') :
    s'.gTypes = s.gTypes ∧ s'.gTypeTable = s.gTypeTable ∨
      ∃ c typeId, s.phase a.thread = .numbered c typeId ∧ s'.gTypes = (s.insert c typeId).gTypes ∧
        s'.gTypeTable = (s.insert c typeId).gTypeTable := by
  unfold step at h
  cases hphase : s.phase a.thread with
  | numbered c typeId =>
    simp only [hphase] at h
    obtain rfl := Option.some_inj.1 h
    exact Or.inr ⟨c, typeId, rfl, rfl, rfl⟩
  | idle =>
    simp only [hphase] at h
    obtain rfl := Option.some_inj.1 h
    exact Or.inl ⟨rfl, rfl⟩
  | called c | missed c | creating c =>
    simp only [hphase] at h
    split_ifs at h <;> obtain rfl := Option.some_inj.1 h <;> exact Or.inl ⟨rfl, rfl⟩
  | reading c | writing c =>
    simp only [hphase] at h
    split at h <;> obtain rfl := Option.some_inj.1 h <;> exact Or.inl ⟨rfl, rfl⟩

theorem keeps_step {a : Action T} (hi : Inv s) (h : step s a = some s') : Keeps s s' := by
  intro b id hid
  obtain ⟨htypes, htable⟩ | ⟨c, typeId, hphase, htypes, htable⟩ := step_lists h
  · rw [htypes, htable]
    exact ⟨hid, rfl⟩
  · rw [htypes, htable]
    exact ⟨mem_insert.2 (Or.inr hid), hi.insert_keeps hphase hid⟩

end Steps

theorem sizeOrder_eq {numBytes : ℕ} (hpos : 0 < numBytes) (hlt : numBytes < 2 ^ 32) :
    sizeOrder numBytes = Nat.log 2 numBytes := by
  have htoNat : (BitVec.ofNat 64 numBytes).toNat = numBytes :=
    Nat.mod_eq_of_lt (hlt.trans (by decide))
  have hne : BitVec.ofNat 64 numBytes ≠ 0 := by
    intro hzero
    rw [hzero] at htoNat
    exact hpos.ne htoNat
  have hlow := BitVec.two_pow_sub_clz_le_toNat_of_ne_zero (by decide) hne
  have hhigh := BitVec.toNat_lt_two_pow_sub_clz (x := BitVec.ofNat 64 numBytes)
  have hclz : (BitVec.ofNat 64 numBytes).clz.toNat < 64 := BitVec.clz_lt_iff_ne_zero.2 hne
  rw [htoNat] at hlow hhigh
  rw [sizeOrder, if_neg hpos.ne']
  refine (Nat.log_eq_of_pow_le_of_lt_pow hlow ?_).symm
  rwa [show 63 - (BitVec.ofNat 64 numBytes).clz.toNat + 1 =
    64 - (BitVec.ofNat 64 numBytes).clz.toNat by omega]

theorem Call.name_eq (c : Call) : c.name = ⟨c.retAddress, Nat.log 2 c.numBytes⟩ := by
  rw [Call.name, sizeOrder_eq c.numBytes_pos c.numBytes_lt]

theorem Call.pair_eq_iff {c c' : Call} : c.pair = c'.pair ↔ c.name = c'.name := by
  rw [Call.name_eq, Call.name_eq, Call.pair, Call.pair, Prod.mk.injEq, TypeName.mk.injEq]

theorem Inv.naming (hi : Inv s) : Naming s := by
  constructor
  · intro r r' hr hr' hlt hlt'
    obtain ⟨hmem, hname⟩ := hi.named hr hlt
    obtain ⟨hmem', hname'⟩ := hi.named hr' hlt'
    rw [Call.pair_eq_iff]
    constructor
    · intro heq
      have hbucket : r'.call.bucket = r.call.bucket :=
        congrArg (fun name : TypeName ↦ bucketOf name.retAddress) heq.symm
      exact hi.unique hmem (hbucket ▸ hmem') (hname.trans (heq.trans hname'.symm))
    · intro heq
      rw [← hname, ← hname', heq]
  · intro r hr hlt
    have hname := (hi.named hr hlt).2
    have hpos := r.call.numBytes_pos
    rw [sizeOfType, hname, Call.name_eq]
    have hhigh := Nat.lt_pow_succ_log_self (by decide : 1 < 2) r.call.numBytes
    rw [pow_succ, mul_comm] at hhigh
    exact ⟨Nat.pow_log_le_self 2 hpos.ne', hhigh⟩

theorem forEachFrom_eq (s : State T) (maxId n id : ℕ) : forEachFrom s maxId n id =
    (List.range' id (min n (max (maxId - id) 1))).map fun i ↦ (i, s.gTypes i) := by
  induction n generalizing id with
  | zero => rw [Nat.zero_min]; rfl
  | succ n ih =>
    rw [forEachFrom]
    by_cases hlast : id + 1 ≥ maxId
    · have hcount : min (n + 1) (max (maxId - id) 1) = 1 := by omega
      rw [if_pos hlast, hcount]
      rfl
    · have hcount : min (n + 1) (max (maxId - id) 1) = min n (max (maxId - (id + 1)) 1) + 1 := by
        omega
      rw [if_neg hlast, ih, hcount, List.range'_succ]
      rfl

theorem forEachType_eq (s : State T) : forEachType s =
    (List.range (min (kMaxWatchpointTypeId + 1) (max s.gNextTypeId 1))).map
      fun i ↦ (i, s.gTypes i) := by
  rw [forEachType, forEachFrom_eq, Nat.sub_zero, List.range_eq_range']

theorem mem_forEachType {id : ℕ} {name : TypeName} : (id, name) ∈ forEachType s ↔
    id < min (kMaxWatchpointTypeId + 1) (max s.gNextTypeId 1) ∧ name = s.gTypes id := by
  rw [forEachType_eq, List.mem_map]
  constructor
  · rintro ⟨i, hi, heq⟩
    obtain ⟨rfl, rfl⟩ := Prod.mk.inj heq
    exact ⟨List.mem_range.1 hi, rfl⟩
  · rintro ⟨hid, rfl⟩
    exact ⟨id, List.mem_range.2 hid, rfl⟩

/-- With no call under way, the loop is right exactly when at least one identifier was taken
and none after the last. -/
theorem Inv.enumerates_iff (hi : Inv s) (hquiet : Quiet s) :
    Enumerates s ↔ 1 ≤ s.gNextTypeId ∧ s.gNextTypeId ≤ kMaxWatchpointTypeId := by
  have hreturned {id : ℕ} {name : TypeName} : (∃ r ∈ s.returned, r.id = id ∧
      id < kMaxWatchpointTypeId ∧ name = ⟨r.call.retAddress, Nat.log 2 r.call.numBytes⟩) ↔
        id < s.gNextTypeId ∧ id < kMaxWatchpointTypeId ∧ name = s.gTypes id := by
    constructor
    · rintro ⟨r, hr, rfl, hlt, rfl⟩
      obtain ⟨hmem, hname⟩ := hi.named hr hlt
      rw [hname, Call.name_eq]
      exact ⟨(hi.entry hmem).2.1, hlt, rfl⟩
    · rintro ⟨hid, hlt, rfl⟩
      obtain ⟨b, hb⟩ | ⟨t, ht⟩ := hi.covered hid hlt
      · obtain ⟨r, hr, rfl⟩ := hi.used hb
        refine ⟨r, hr, rfl, hlt, ?_⟩
        rw [(hi.named hr hlt).2, Call.name_eq]
      · rw [hquiet t] at ht
        exact absurd ht (Option.some_ne_none _).symm
  constructor
  · intro h
    constructor
    · by_contra hzero
      have hmem : (0, s.gTypes 0) ∈ forEachType s := mem_forEachType.2 ⟨by omega, rfl⟩
      have hlt := (hreturned.1 ((h.visits _ _).1 hmem)).1
      omega
    · by_contra hmax
      have hmem : (kMaxWatchpointTypeId, s.gTypes kMaxWatchpointTypeId) ∈ forEachType s :=
        mem_forEachType.2 ⟨by omega, rfl⟩
      exact absurd (hreturned.1 ((h.visits _ _).1 hmem)).2.1 (Nat.lt_irrefl _)
  · rintro ⟨hone, hmax⟩
    have hcount : min (kMaxWatchpointTypeId + 1) (max s.gNextTypeId 1) = s.gNextTypeId := by omega
    constructor
    · have hfst : (forEachType s).map Prod.fst = List.range s.gNextTypeId := by
        rw [forEachType_eq, hcount, List.map_map]
        exact List.map_id _
      rw [hfst]
      exact List.nodup_range
    · intro id name
      rw [mem_forEachType, hreturned, hcount]
      constructor
      · rintro ⟨hid, hname⟩
        exact ⟨hid, hid.trans_le hmax, hname⟩
      · rintro ⟨hid, -, hname⟩
        exact ⟨hid, hname⟩

section Runs

variable [DecidableEq T]

theorem keeps_run {rest : List (Action T)} (hi : Inv s)
    (hcounts : ∀ past a u, past ++ [a] <+: rest → run step s past = some u → Counts u a)
    (h : run step s rest = some s') : Keeps s s' := by
  have hall : Inv s' ∧ Keeps s s' := by
    refine run_keeps (I := fun u ↦ Inv u ∧ Keeps s u) (C := Counts) ?_ hcounts
      ⟨hi, fun b id hid ↦ ⟨hid, rfl⟩⟩ h
    rintro u a v ⟨hu, hkeep⟩ hcount hv
    refine ⟨inv_step hu hcount hv, fun b id hid ↦ ?_⟩
    obtain ⟨hmem, hname⟩ := hkeep b id hid
    obtain ⟨hmem', hname'⟩ := keeps_step hu hv b id hmem
    exact ⟨hmem', hname'.trans hname⟩
  exact hall.2

theorem counts_of_length_lt {actions : List (Action T)} (hlen : actions.length < 2 ^ 64)
    (past : List (Action T)) (a : Action T) (u : State T) (hpast : past ++ [a] <+: actions)
    (h : run step initial past = some u) : Counts u a := by
  have hnext : u.gNextTypeId ≤ past.length := by
    refine run_history (I := fun past (s : State T) ↦ s.gNextTypeId ≤ past.length)
      (fun past a s s' _ _ hle hs' ↦ ?_) le_rfl h
    rw [List.length_append, List.length_singleton]
    have hmod := Nat.mod_le (s.gNextTypeId + 1) (2 ^ 64)
    unfold step at hs'
    cases hphase : s.phase a.thread with
    | idle | numbered c typeId =>
      simp only [hphase] at hs'
      obtain rfl := Option.some_inj.1 hs'
      exact hle.trans (Nat.le_succ _)
    | called c | missed c =>
      simp only [hphase] at hs'
      split_ifs at hs'
      obtain rfl := Option.some_inj.1 hs'
      exact hle.trans (Nat.le_succ _)
    | reading c | writing c =>
      simp only [hphase] at hs'
      split at hs' <;> obtain rfl := Option.some_inj.1 hs' <;> exact hle.trans (Nat.le_succ _)
    | creating c =>
      simp only [hphase] at hs'
      split_ifs at hs' <;> obtain rfl := Option.some_inj.1 hs' <;>
        exact hmod.trans (Nat.succ_le_succ hle)
  have hlt := hpast.length_le
  rw [List.length_append, List.length_singleton] at hlt
  intro _ _
  omega

/-- As long as the counter does not wrap around, identifiers name pairs and keep their
names. Once no call is under way they are enumerated if and only if there is at least one and
none was asked for after the last. -/
theorem typeIds_name_iff {actions : List (Action T)} (h : run step initial actions = some s)
    (hcounts : ∀ past a u, past ++ [a] <+: actions → run step initial past = some u → Counts u a) :
    Naming s ∧
      (∀ past rest u, actions = past ++ rest → run step initial past = some u → Keeps u s) ∧
      (Quiet s → (Enumerates s ↔ 1 ≤ s.gNextTypeId ∧ s.gNextTypeId ≤ kMaxWatchpointTypeId)) := by
  have hinv {past : List (Action T)} {u : State T} (hpast : past <+: actions)
      (hu : run step initial past = some u) : Inv u :=
    run_keeps (C := Counts) (fun _ _ _ hi hcount hv ↦ inv_step hi hcount hv)
      (fun before a v hbefore ↦ hcounts before a v (hbefore.trans hpast)) inv_initial hu
  have hi := hinv List.prefix_rfl h
  refine ⟨hi.naming, fun past rest u heq hu ↦ ?_, hi.enumerates_iff⟩
  subst heq
  rw [run_append, hu, Option.bind_some] at h
  refine keeps_run (hinv (List.prefix_append _ _) hu) (fun before a v hbefore hv ↦ ?_) h
  apply hcounts (past ++ before) a v
  · rw [List.append_assoc]
    exact (List.prefix_append_right_inj past).2 hbefore
  · rw [run_append, hu, Option.bind_some, hv]

end Runs

def oneCall : Call := ⟨0x400000, 24, by decide, by decide⟩

/-- Two threads with the same call, of which both miss before one creates the type. -/
def twoThreads : List (Action Bool) :=
  [true, true, true, false, false, false, true, true, true, true, false, false].map
    fun t ↦ ⟨t, oneCall⟩

theorem typeIds_name_iff_twoThreads : ∃ s, run step initial twoThreads = some s ∧
    s.returned.map Return.id = [0, 0] ∧ Naming s ∧ Enumerates s := by
  have hrun : (run step initial twoThreads).map (fun s ↦ (s.returned.map Return.id,
      s.gNextTypeId, s.phase true, s.phase false)) = some ([0, 0], 1, .idle, .idle) := by
    decide +kernel
  obtain ⟨s, hs, hvalues⟩ := Option.map_eq_some_iff.1 hrun
  simp only [Prod.mk.injEq] at hvalues
  obtain ⟨hids, hnext, htrue, hfalse⟩ := hvalues
  have hquiet : Quiet s := by
    rintro (_ | _)
    · exact hfalse
    · exact htrue
  obtain ⟨hnaming, -, henumerates⟩ := typeIds_name_iff hs
    (counts_of_length_lt (by decide : twoThreads.length < 2 ^ 64))
  exact ⟨s, hs, hids, hnaming, (henumerates hquiet).2 (by rw [hnext]; decide)⟩

/-- Before the first call the loop visits an identifier that no call got. -/
theorem initial_not_enumerates : run step (initial : State Unit) [] = some initial ∧
    Quiet (initial : State Unit) ∧ ¬Enumerates (initial : State Unit) := by
  refine ⟨rfl, fun _ ↦ rfl, fun h ↦ ?_⟩
  have hmem : (0, ⟨0, 0⟩) ∈ forEachType (initial : State Unit) :=
    mem_forEachType.2 ⟨by decide, rfl⟩
  obtain ⟨r, hr, -⟩ := (h.visits _ _).1 hmem
  exact absurd hr List.not_mem_nil

end Granary.Clients.Watchpoints.TypeId
