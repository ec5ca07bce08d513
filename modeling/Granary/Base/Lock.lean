import Granary.Base.Run

namespace Granary.Base.Lock

open Function Granary.Base.Run

inductive Method where
  | readAcquire
  | tryReadAcquire
  | writeAcquire
  | tryWriteAcquire
  deriving DecidableEq, Repr

/-- The next atomic operation of a thread. `isTry` tells `TryReadAcquire` from `ReadAcquire`, which
calls it until it succeeds. -/
inductive Phase where
  | outside
  | readLoad (isTry : Bool)
  | readExchange (isTry : Bool) (oldValue : BitVec 32)
  /-- Inside the section of a reader, and then `ReadRelease`. -/
  | reading
  | writeLoad
  | writeExchange (oldValue : BitVec 32)
  | writeWait
  | tryWrite
  /-- Inside the section of a writer, and then `WriteRelease`. -/
  | writing
  deriving DecidableEq, Repr

/-- The new word, or none if the word was another one or for no reason at all. -/
def compareExchangeWeak (lock expected desired : BitVec 32) (spurious : Bool) :
    Option (BitVec 32) :=
  if lock = expected ∧ ¬spurious then some desired else none

def readersMask : BitVec 32 := 0x7fffffff

def writerBit : BitVec 32 := 0x80000000

variable {T : Type*}

structure State (T : Type*) where
  lock : BitVec 32
  phase : T → Phase

structure Action (T : Type*) where
  thread : T
  /-- What the thread calls, if it is outside. -/
  call : Method
  spurious : Bool

def initial : State T where
  lock := 0
  phase := fun _ ↦ .outside

def Method.start : Method → Phase
  | readAcquire => .readLoad false
  | tryReadAcquire => .readLoad true
  | writeAcquire => .writeLoad
  | tryWriteAcquire => .tryWrite

/-- Where `TryReadAcquire` goes on when the exchange fails and leaves `oldValue`. -/
def readFailed (isTry : Bool) (oldValue : BitVec 32) : Phase :=
  if oldValue < writerBit then .readLoad isTry
  else if isTry then .outside
  else .readLoad isTry

/-- One atomic operation of one thread, on the word and on the phase of the thread. -/
def operate (lock : BitVec 32) (call : Method) (spurious : Bool) : Phase → BitVec 32 × Phase
  | .outside => (lock, call.start)
  | .readLoad isTry => (lock, .readExchange isTry (lock &&& readersMask))
  | .readExchange isTry oldValue =>
    match compareExchangeWeak lock oldValue (oldValue + 1) spurious with
    | some lock' => (lock', .reading)
    | none => (lock, readFailed isTry lock)
  | .reading => (lock - 1, .outside)
  | .writeLoad => (lock, .writeExchange (lock &&& readersMask))
  | .writeExchange oldValue =>
    match compareExchangeWeak lock oldValue (oldValue ||| writerBit) spurious with
    | some lock' => (lock', .writeWait)
    | none => (lock, .writeLoad)
  | .writeWait => (lock, if lock &&& readersMask ≠ 0 then .writeWait else .writing)
  | .tryWrite =>
    match compareExchangeWeak lock 0 writerBit spurious with
    | some lock' => (lock', .writing)
    | none => (lock, .outside)
  | .writing => (0, .outside)

def step [DecidableEq T] (s : State T) (a : Action T) : Option (State T) :=
  let r := operate s.lock a.call a.spurious (s.phase a.thread)
  some ⟨r.1, update s.phase a.thread r.2⟩

section Count

variable [Fintype T]

def IsReader (p : Phase) : Prop := p = .reading

instance : DecidablePred IsReader := fun p ↦ inferInstanceAs (Decidable (p = .reading))

def IsOwner (p : Phase) : Prop := p = .writeWait ∨ p = .writing

instance : DecidablePred IsOwner :=
  fun p ↦ inferInstanceAs (Decidable (p = .writeWait ∨ p = .writing))

def readers (s : State T) : ℕ := census IsReader s.phase

def owners (s : State T) : ℕ := census IsOwner s.phase

/-- The value that an exchange expects never has the writer bit. -/
def Expects : Phase → Prop
  | .readExchange _ oldValue | .writeExchange oldValue => oldValue.toNat < 2 ^ 31
  | _ => True

structure Inv (s : State T) : Prop where
  lock_eq : s.lock.toNat = readers s + 2 ^ 31 * owners s
  readers_lt : readers s < 2 ^ 31
  owners_le : owners s ≤ 1
  alone {t : T} : s.phase t = .writing → readers s = 0
  expects (t : T) : Expects (s.phase t)

end Count

theorem toNat_and_readersMask (x : BitVec 32) : (x &&& readersMask).toNat = x.toNat % 2 ^ 31 := by
  rw [BitVec.toNat_and]
  exact Nat.and_two_pow_sub_one_eq_mod x.toNat 31

theorem toNat_or_writerBit {x : BitVec 32} (h : x.toNat < 2 ^ 31) :
    (x ||| writerBit).toNat = x.toNat + 2 ^ 31 := by
  rw [BitVec.toNat_or, Nat.or_comm, add_comm]
  exact (Nat.two_pow_add_eq_or_of_lt h 1).symm

theorem expects_and_readersMask (x : BitVec 32) : (x &&& readersMask).toNat < 2 ^ 31 := by
  rw [toNat_and_readersMask]
  exact Nat.mod_lt _ (by norm_num)

theorem compareExchangeWeak_eq_some {lock expected desired lock' : BitVec 32} {spurious : Bool}
    (h : compareExchangeWeak lock expected desired spurious = some lock') :
    lock = expected ∧ lock' = desired := by
  unfold compareExchangeWeak at h
  split_ifs at h with hc
  exact ⟨hc.1, (Option.some_inj.mp h).symm⟩

/-- What one operation of a thread in phase `p` can do, with `r` readers and `w` owners. -/
structure Moves (r w : ℕ) (lock : BitVec 32) (p : Phase) (lock' : BitVec 32) (p' : Phase) :
    Prop where
  expects : Expects p'
  lock_eq : lock'.toNat + (if IsReader p then 1 else 0) + 2 ^ 31 * (if IsOwner p then 1 else 0) =
    lock.toNat + (if IsReader p' then 1 else 0) + 2 ^ 31 * if IsOwner p' then 1 else 0
  reads : IsReader p' → w = 0
  owns : IsOwner p' → IsOwner p ∨ w = 0
  alone : p' = .writing → r = 0

section Move

variable {r w : ℕ} {lock : BitVec 32} {p p' : Phase}

/-- The word does not count the thread. -/
def Uncounted (p : Phase) : Prop :=
  ¬IsReader p ∧ ¬IsOwner p

theorem moves_same (h : Uncounted p) (h' : Uncounted p') (he : Expects p') :
    Moves r w lock p lock p' where
  expects := he
  lock_eq := by simp [h.1, h.2, h'.1, h'.2]
  reads := fun hr ↦ absurd hr h'.1
  owns := fun ho ↦ absurd ho h'.2
  alone := fun hw ↦ absurd (Or.inr hw) h'.2

theorem uncounted_outside : Uncounted .outside := by
  simp [Uncounted, IsReader, IsOwner]

theorem uncounted_readLoad (isTry : Bool) : Uncounted (.readLoad isTry) := by
  simp [Uncounted, IsReader, IsOwner]

theorem uncounted_readExchange (isTry : Bool) (oldValue : BitVec 32) :
    Uncounted (.readExchange isTry oldValue) := by
  simp [Uncounted, IsReader, IsOwner]

theorem uncounted_writeLoad : Uncounted .writeLoad := by
  simp [Uncounted, IsReader, IsOwner]

theorem uncounted_writeExchange (oldValue : BitVec 32) : Uncounted (.writeExchange oldValue) := by
  simp [Uncounted, IsReader, IsOwner]

theorem uncounted_tryWrite : Uncounted .tryWrite := by
  simp [Uncounted, IsReader, IsOwner]

theorem uncounted_start (call : Method) : Uncounted call.start ∧ Expects call.start := by
  cases call <;> simp [Method.start, Uncounted, IsReader, IsOwner, Expects]

theorem uncounted_readFailed (isTry : Bool) (oldValue : BitVec 32) :
    Uncounted (readFailed isTry oldValue) ∧ Expects (readFailed isTry oldValue) := by
  unfold readFailed
  split_ifs <;> simp [Uncounted, IsReader, IsOwner, Expects]

theorem moves_readExchange {isTry : Bool} (h : lock.toNat = r + 2 ^ 31 * w)
    (hp : lock.toNat < 2 ^ 31) :
    Moves r w lock (.readExchange isTry lock) (lock + 1) .reading := by
  refine ⟨trivial, ?_, fun _ ↦ by omega, by simp [IsOwner], by simp⟩
  have hadd : (lock + 1).toNat = lock.toNat + 1 := by
    rw [BitVec.toNat_add]
    exact Nat.mod_eq_of_lt (by simp; omega)
  rw [hadd]
  simp [IsReader, IsOwner]

theorem moves_reading (h : lock.toNat = r + 2 ^ 31 * w) (hr : 0 < r) :
    Moves r w lock .reading (lock - 1) .outside := by
  refine ⟨trivial, ?_, by simp [IsReader], by simp [IsOwner], by simp⟩
  have hsub : (lock - 1).toNat = lock.toNat - 1 := by
    have hle : 1 ≤ lock := by
      rw [BitVec.le_def]
      simp
      omega
    rw [BitVec.toNat_sub_of_le hle]
    rfl
  simp only [hsub, IsReader, IsOwner]
  simp
  omega

theorem moves_writeExchange (h : lock.toNat = r + 2 ^ 31 * w) (hp : lock.toNat < 2 ^ 31) :
    Moves r w lock (.writeExchange lock) (lock ||| writerBit) .writeWait := by
  refine ⟨trivial, ?_, by simp [IsReader], fun _ ↦ Or.inr (by omega), by simp⟩
  simp [IsReader, IsOwner, toNat_or_writerBit hp]

theorem moves_writeWait (h : lock.toNat = r + 2 ^ 31 * w) (hr : r < 2 ^ 31)
    (hz : lock &&& readersMask = 0) : Moves r w lock .writeWait lock .writing := by
  refine ⟨trivial, by simp [IsReader, IsOwner], by simp [IsReader], fun _ ↦ Or.inl (Or.inl rfl),
    fun _ ↦ ?_⟩
  have hzero : lock.toNat % 2 ^ 31 = 0 := by
    rw [← toNat_and_readersMask, hz]
    rfl
  omega

theorem moves_tryWrite (h : (0 : BitVec 32).toNat = r + 2 ^ 31 * w) :
    Moves r w 0 .tryWrite writerBit .writing := by
  have hzero : (0 : BitVec 32).toNat = 0 := rfl
  exact ⟨trivial, by decide, by simp [IsReader], fun _ ↦ Or.inr (by omega), fun _ ↦ by omega⟩

theorem moves_writing (h : lock.toNat = r + 2 ^ 31 * w) (hr : r = 0) (hw : w = 1) :
    Moves r w lock .writing 0 .outside := by
  refine ⟨trivial, ?_, by simp [IsReader], by simp [IsOwner], by simp⟩
  simp [IsReader, IsOwner]
  omega

theorem operate_moves (h : lock.toNat = r + 2 ^ 31 * w) (hr : r < 2 ^ 31) (hp : Expects p)
    (hreader : IsReader p → 0 < r) (howner : IsOwner p → w = 1) (halone : p = .writing → r = 0)
    (call : Method) (spurious : Bool) :
    Moves r w lock p (operate lock call spurious p).1 (operate lock call spurious p).2 := by
  cases p with
  | outside => exact moves_same uncounted_outside (uncounted_start call).1 (uncounted_start call).2
  | readLoad isTry =>
    exact moves_same (uncounted_readLoad isTry) (uncounted_readExchange isTry _)
      (expects_and_readersMask lock)
  | readExchange isTry oldValue =>
    rw [operate]
    split
    next lock' hx =>
      obtain ⟨rfl, rfl⟩ := compareExchangeWeak_eq_some hx
      exact moves_readExchange h hp
    next =>
      have hf := uncounted_readFailed isTry lock
      exact moves_same (uncounted_readExchange isTry oldValue) hf.1 hf.2
  | reading => exact moves_reading h (hreader rfl)
  | writeLoad =>
    exact moves_same uncounted_writeLoad (uncounted_writeExchange _) (expects_and_readersMask lock)
  | writeExchange oldValue =>
    rw [operate]
    split
    next lock' hx =>
      obtain ⟨rfl, rfl⟩ := compareExchangeWeak_eq_some hx
      exact moves_writeExchange h hp
    next => exact moves_same (uncounted_writeExchange oldValue) uncounted_writeLoad trivial
  | writeWait =>
    rw [operate]
    split_ifs with hz
    · exact ⟨trivial, rfl, by simp [IsReader], fun ho ↦ Or.inl ho, by simp⟩
    · exact moves_writeWait h hr (not_not.mp hz)
  | tryWrite =>
    rw [operate]
    split
    next lock' hx =>
      obtain ⟨rfl, rfl⟩ := compareExchangeWeak_eq_some hx
      exact moves_tryWrite h
    next => exact moves_same uncounted_tryWrite uncounted_outside trivial
  | writing => exact moves_writing h (halone rfl) (howner (Or.inr rfl))

end Move

section Threads

variable [Fintype T] {s s' : State T} {a : Action T}

theorem Inv.owners_eq_one (hi : Inv s) {t : T} (ht : IsOwner (s.phase t)) : owners s = 1 := by
  have hpos : 0 < owners s := census_pos ht
  have hle := hi.owners_le
  omega

theorem inv_initial : Inv (initial : State T) := by
  have hr : readers (initial : State T) = 0 :=
    census_eq_zero_iff.mpr fun _ ↦ uncounted_outside.1
  have ho : owners (initial : State T) = 0 :=
    census_eq_zero_iff.mpr fun _ ↦ uncounted_outside.2
  refine ⟨?_, by omega, by omega, by simp [initial], fun _ ↦ trivial⟩
  rw [hr, ho]
  rfl

theorem Inv.excludes (hi : Inv s) {t u : T} (ht : s.phase t = .writing) (hu : u ≠ t) :
    s.phase u ≠ .writing ∧ s.phase u ≠ .reading := by
  constructor
  · intro hw
    have hlt : 1 < owners s := one_lt_census (Or.inr ht) (Or.inr hw) hu.symm
    have hle := hi.owners_le
    omega
  · intro hr
    have hpos : 0 < readers s := census_pos hr
    have hzero := hi.alone ht
    omega

theorem Inv.lock_eq_zero (hi : Inv s) (h : ∀ t, s.phase t = .outside) : s.lock = 0 := by
  have hr : readers s = 0 := census_eq_zero_iff.mpr fun t ↦ h t ▸ uncounted_outside.1
  have ho : owners s = 0 := census_eq_zero_iff.mpr fun t ↦ h t ▸ uncounted_outside.2
  have hlock := hi.lock_eq
  rw [hr, ho] at hlock
  exact BitVec.eq_of_toNat_eq hlock

variable [DecidableEq T]

theorem inv_step (hi : Inv s) (hr' : readers s' < 2 ^ 31) (h : step s a = some s') : Inv s' := by
  have hone (ho : IsOwner (s.phase a.thread)) : owners s = 1 := hi.owners_eq_one ho
  have hm := operate_moves hi.lock_eq hi.readers_lt (hi.expects a.thread) (fun hr ↦ census_pos hr)
    hone hi.alone a.call a.spurious
  have hs : s' = ⟨(operate s.lock a.call a.spurious (s.phase a.thread)).1,
    update s.phase a.thread (operate s.lock a.call a.spurious (s.phase a.thread)).2⟩ :=
    (Option.some_inj.mp h).symm
  generalize operate s.lock a.call a.spurious (s.phase a.thread) = o at hm hs
  obtain ⟨lock', p'⟩ := o
  have hreaders : readers s' + (if IsReader (s.phase a.thread) then 1 else 0) =
      readers s + if IsReader p' then 1 else 0 := by
    rw [hs]
    exact census_update IsReader s.phase a.thread p'
  have howners : owners s' + (if IsOwner (s.phase a.thread) then 1 else 0) =
      owners s + if IsOwner p' then 1 else 0 := by
    rw [hs]
    exact census_update IsOwner s.phase a.thread p'
  have hlock := hi.lock_eq
  have hlock' := hm.lock_eq
  have hle := hi.owners_le
  simp only at hm hlock'
  refine ⟨?_, hr', ?_, fun {t} ht ↦ ?_, fun t ↦ ?_⟩
  · rw [hs]
    simp only
    rw [← hs]
    omega
  · by_cases hp' : IsOwner p'
    · obtain hp | hw := hm.owns hp'
      · rw [if_pos hp, if_pos hp'] at howners
        omega
      · rw [if_pos hp'] at howners
        omega
    · rw [if_neg hp'] at howners
      omega
  · rw [hs] at ht
    simp only at ht
    by_cases hta : t = a.thread
    · subst hta
      rw [update_self] at ht
      have hr := hm.alone ht
      have hp' : ¬IsReader p' := by simp [ht, IsReader]
      rw [if_neg hp'] at hreaders
      omega
    · -- the writer keeps the readers out
      rw [update_of_ne hta] at ht
      have hr := hi.alone ht
      have ho := hi.owners_eq_one (Or.inr ht)
      have hp' : ¬IsReader p' := by
        intro hp'
        have := hm.reads hp'
        omega
      rw [if_neg hp'] at hreaders
      omega
  · rw [hs]
    simp only
    by_cases hta : t = a.thread
    · subst hta
      rw [update_self]
      exact hm.expects
    · rw [update_of_ne hta]
      exact hi.expects t

/-- In no state of an interleaving is a writer inside together with another thread, and the word is
zero when all the threads are outside. -/
theorem readerWriterLock_excludes (actions : List (Action T))
    (h : run step initial actions = some s)
    (hr : ∀ past s', past <+: actions → run step initial past = some s' → readers s' < 2 ^ 31) :
    (∀ t u, s.phase t = .writing → u ≠ t → s.phase u ≠ .writing ∧ s.phase u ≠ .reading) ∧
      ((∀ t, s.phase t = .outside) → s.lock = 0) := by
  have hi : Inv s := by
    refine run_keeps (I := Inv) (C := fun s a ↦ ∀ s', step s a = some s' → readers s' < 2 ^ 31)
      (fun s a s' hi hC hs ↦ inv_step hi (hC s' hs) hs) ?_ inv_initial h
    intro past a t hp ht t' ht'
    refine hr (past ++ [a]) t' hp ?_
    rw [run_concat, ht, Option.bind_some, ht']
  exact ⟨fun t u ↦ hi.excludes, hi.lock_eq_zero⟩

/-- A writer that waits for a reader, who then comes back and has to wait for the writer. -/
def contended : List (Action Bool) :=
  [true, true, false, true, false, false, false, true, false, true, true, true].map fun isReader ↦
    ⟨!isReader, if isReader then .readAcquire else .writeAcquire, false⟩

theorem readerWriterLock_excludes_contended :
    ∃ s : State Bool, run step initial contended = some s ∧ s.phase true = .writing ∧
      s.phase false = .readLoad false ∧ s.phase false ≠ .writing ∧ s.phase false ≠ .reading := by
  have hfew (s : State Bool) : readers s < 2 ^ 31 := by
    have hle : readers s ≤ Fintype.card Bool := census_le_card
    rw [Fintype.card_bool] at hle
    omega
  refine ⟨_, rfl, by decide, by decide, ?_⟩
  exact (readerWriterLock_excludes contended rfl fun _ s _ _ ↦ hfew s).1 true false (by decide)
    (by decide)

end Threads

end Granary.Base.Lock
