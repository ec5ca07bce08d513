import Granary.Base.Format.Buffer
import Granary.Base.Run

namespace Granary.Os.Logging

open Granary.Base.Bytes Granary.Base.Format Granary.Base.Run

inductive LogLevel where
  | logOutput
  | logDebug
  deriving DecidableEq, Repr

def kLogBufferSize : ℕ := 32768 <<< 5

def kLogBufferSafeSize : ℕ := kLogBufferSize - 4096

theorem kLogBufferSafeSize_pos : 0 < kLogBufferSafeSize := by
  decide

theorem kLogBufferSize_eq : kLogBufferSize = kLogBufferSafeSize + 4096 :=
  rfl

structure Call where
  level : LogLevel
  format : List Char
  args : List VaArg

/-- The globals of the logger, and what each `write` was given. A `write` writes everything. -/
structure Logger where
  mem : ℕ → Char
  index : ℕ
  logBufferFd : ℤ
  written : List (ℤ × List Char)

section

variable (logBuffer : ℕ) (outputFd : LogLevel → ℤ)

def initial (mem : ℕ → Char) : Logger where
  mem := mem
  index := 0
  logBufferFd := -1
  written := []

def exitLog (s : Logger) : Logger :=
  if s.index ≠ 0 ∧ -1 ≠ s.logBufferFd then
    { s with
      written := s.written ++ [(s.logBufferFd, load s.mem logBuffer s.index)]
      index := 0
      logBufferFd := -1 }
  else s

/-- The flush at the start of `Log`. -/
def flush (fd : ℤ) (s : Logger) : Logger :=
  if s.index ≠ 0 ∧ (s.index ≥ kLogBufferSafeSize ∨ s.logBufferFd ≠ fd) then
    { s with
      written := s.written ++ [(fd, load s.mem logBuffer s.index)]
      index := 0
      mem := Function.update s.mem logBuffer '\x00' }
  else s

def log (s : Logger) (c : Call) : Option (ℕ × Logger) :=
  let fd := outputFd c.level
  let s := flush logBuffer fd s
  (vFormatInto s.mem (logBuffer + s.index) (kLogBufferSize - s.index - 1) c.format c.args).map
    fun (ret, mem) ↦ (ret, { s with mem := mem, index := s.index + ret, logBufferFd := fd })

def step (s : Logger) (c : Call) : Option Logger :=
  (log logBuffer outputFd s c).map (·.2)

end

def Call.message (c : Call) : List Char :=
  (printed c.format c.args).getD []

/-- The call passes the arguments that its format asks for, and its message is shorter than the
reserve of the buffer. -/
structure Call.Valid (c : Call) : Prop where
  supplies : Supplies c.format c.args
  short : c.message.length < 4096

/-- Each `open` of `InitLog` has given a descriptor, and a new one. -/
structure Opened (outputFd : LogLevel → ℤ) : Prop where
  injective : Function.Injective outputFd
  ne_neg_one (level : LogLevel) : outputFd level ≠ -1

def tagged (outputFd : LogLevel → ℤ) (c : Call) : List (ℤ × Char) :=
  c.message.map (outputFd c.level, ·)

def Logger.bytes (s : Logger) : List (ℤ × Char) :=
  s.written.flatMap fun (fd, text) ↦ text.map (fd, ·)

def Logger.stream (s : Logger) (fd : ℤ) : List Char :=
  (s.bytes.filter (·.1 = fd)).map (·.2)

/-- The stream of each level has the messages of the level, and each character of each message is
on the descriptor of its own level. -/
structure Faithful (outputFd : LogLevel → ℤ) (calls : List Call) (s : Logger) : Prop where
  stream (level : LogLevel) :
    s.stream (outputFd level) = (calls.filter (·.level = level)).flatMap Call.message
  unmixed : s.bytes = calls.flatMap (tagged outputFd)

def Settled (outputFd : LogLevel → ℤ) (s : Logger) (c : Call) : Prop :=
  s.index = 0 ∨ s.logBufferFd = outputFd c.level

section Bytes

variable {outputFd : LogLevel → ℤ} {calls : List Call} {s : Logger}

theorem bytes_mk_concat (mem : ℕ → Char) (index : ℕ) (logBufferFd fd : ℤ) (text : List Char) :
    Logger.bytes ⟨mem, index, logBufferFd, s.written ++ [(fd, text)]⟩ =
      s.bytes ++ text.map (fd, ·) := by
  simp [Logger.bytes]

theorem stream_of_unmixed (hopened : Opened outputFd) (h : s.bytes = calls.flatMap (tagged outputFd))
    (level : LogLevel) :
    s.stream (outputFd level) = (calls.filter (·.level = level)).flatMap Call.message := by
  rw [Logger.stream, h]
  clear h
  induction calls with
  | nil => rfl
  | cons c calls ih =>
    rw [List.flatMap_cons, List.filter_append, List.map_append, ih]
    by_cases hlevel : c.level = level
    · have hall : (tagged outputFd c).filter (·.1 = outputFd level) = tagged outputFd c := by
        rw [List.filter_eq_self]
        intro x hx
        obtain ⟨ch, -, rfl⟩ := List.mem_map.1 hx
        exact decide_eq_true (congrArg outputFd hlevel)
      rw [hall, List.filter_cons_of_pos (by simpa using hlevel), List.flatMap_cons, tagged,
        List.map_map]
      simp [Function.comp_def]
    · have hnone : (tagged outputFd c).filter (·.1 = outputFd level) = [] := by
        rw [List.filter_eq_nil_iff]
        intro x hx
        obtain ⟨ch, -, rfl⟩ := List.mem_map.1 hx
        simpa using fun heq ↦ hlevel (hopened.injective heq)
      rw [hnone, List.filter_cons_of_neg (by simpa using hlevel)]
      rfl

theorem faithful_iff (hopened : Opened outputFd) :
    Faithful outputFd calls s ↔ s.bytes = calls.flatMap (tagged outputFd) :=
  ⟨Faithful.unmixed, fun h ↦ ⟨stream_of_unmixed hopened h, h⟩⟩

end Bytes

section Invariant

variable {logBuffer : ℕ} {outputFd : LogLevel → ℤ} {calls : List Call}
  {sent : List (ℤ × Char)} {s : Logger} {c : Call}

/-- The calls so far are what was sent, with the descriptors that it should have gone to, and what
waits in the buffer. -/
structure Inv (logBuffer : ℕ) (outputFd : LogLevel → ℤ) (calls : List Call)
    (sent : List (ℤ × Char)) (s : Logger) : Prop where
  split : calls.flatMap (tagged outputFd) =
    sent ++ (load s.mem logBuffer s.index).map (s.logBufferFd, ·)
  texts : s.bytes.map (·.2) = sent.map (·.2)
  room : s.index + 1 < kLogBufferSize
  opened : s.index ≠ 0 → -1 ≠ s.logBufferFd

theorem inv_initial (mem : ℕ → Char) : Inv logBuffer outputFd [] [] (initial mem) where
  split := rfl
  texts := rfl
  room := by rw [kLogBufferSize_eq]; simp [initial]
  opened := fun h ↦ absurd rfl h

/-- A write that empties the buffer goes to the descriptor that it should, if it is that of the
buffer. -/
theorem Inv.bytes_concat_iff (h : Inv logBuffer outputFd calls sent s) (hindex : s.index ≠ 0)
    (fd : ℤ) :
    s.bytes ++ (load s.mem logBuffer s.index).map (fd, ·) =
        sent ++ (load s.mem logBuffer s.index).map (s.logBufferFd, ·) ↔
      s.bytes = sent ∧ s.logBufferFd = fd := by
  have hlength : s.bytes.length = sent.length := by
    simpa using congrArg List.length h.texts
  constructor
  · intro heq
    obtain ⟨hbytes, hpending⟩ := List.append_inj heq hlength
    refine ⟨hbytes, ?_⟩
    have hhead := List.map_inj_left.1 hpending (s.mem logBuffer) ?_
    · exact (congrArg Prod.fst hhead).symm
    · exact List.mem_map.2 ⟨0, List.mem_range.2 (Nat.pos_of_ne_zero hindex), rfl⟩
  · intro ⟨hbytes, hfd⟩
    rw [hbytes, hfd]

theorem inv_flush (h : Inv logBuffer outputFd calls sent s) (fd : ℤ) :
    ∃ sent', Inv logBuffer outputFd calls sent' (flush logBuffer fd s) ∧
      (flush logBuffer fd s).index < kLogBufferSafeSize ∧
      ((flush logBuffer fd s).index = 0 ∨ (flush logBuffer fd s).logBufferFd = fd) ∧
      ((flush logBuffer fd s).bytes = sent' ↔
        s.bytes = sent ∧ (s.index = 0 ∨ s.logBufferFd = fd)) := by
  rw [flush]
  split_ifs with hflush
  · obtain ⟨hindex, -⟩ := hflush
    refine ⟨sent ++ (load s.mem logBuffer s.index).map (s.logBufferFd, ·), ?_,
      kLogBufferSafeSize_pos, Or.inl rfl, ?_⟩
    · constructor
      · simpa [load] using h.split
      · rw [bytes_mk_concat, List.map_append, List.map_append, h.texts]
        simp [Function.comp_def]
      · rw [kLogBufferSize_eq]
        simp
      · exact fun hzero ↦ absurd rfl hzero
    · rw [bytes_mk_concat, h.bytes_concat_iff hindex fd]
      simp [hindex]
  · by_cases hindex : s.index = 0
    · refine ⟨sent, h, ?_, Or.inl hindex, by simp [hindex]⟩
      rw [hindex]
      exact kLogBufferSafeSize_pos
    · have hkept : s.index < kLogBufferSafeSize ∧ s.logBufferFd = fd := by
        simpa [hindex] using hflush
      exact ⟨sent, h, hkept.1, Or.inr hkept.2, by simp [hkept.2]⟩

theorem vFormatInto_valid (mem : ℕ → Char) (hbuffer : logBuffer ≠ 0) (hc : c.Valid) {index : ℕ}
    (hindex : index < kLogBufferSafeSize) :
    ∃ mem', vFormatInto mem (logBuffer + index) (kLogBufferSize - index - 1) c.format c.args =
        some (c.message.length, mem') ∧
      load mem' logBuffer (index + c.message.length) = load mem logBuffer index ++ c.message := by
  have hsize := kLogBufferSize_eq
  have hshort := hc.short
  obtain ⟨text, htext⟩ := printed_of_supplies hc.supplies
  have hmessage : c.message = text := by rw [Call.message, htext, Option.getD_some]
  have htake : text.take (kLogBufferSize - index - 1 - 1) = text := by
    apply List.take_of_length_le
    rw [← hmessage]
    omega
  have hwritten : Written mem
      (finished mem (logBuffer + index) (kLogBufferSize - index - 1) text) (logBuffer + index)
      (kLogBufferSize - index - 1) text := by
    apply written_finished
    rw [← hmessage]
    omega
  refine ⟨finished mem (logBuffer + index) (kLogBufferSize - index - 1) text, ?_, ?_⟩
  · rw [vFormatInto_eq (by omega) (by omega), htext, Option.map_some, htake, hmessage]
  · rw [hmessage, load_add, hwritten.chars]
    congr 1
    apply load_congr
    intro i hle hlt
    exact hwritten.frame i (Or.inl hlt)

theorem inv_log (hbuffer : logBuffer ≠ 0) (hopened : Opened outputFd) (hc : c.Valid)
    (h : Inv logBuffer outputFd calls sent s) :
    ∃ s' sent', log logBuffer outputFd s c = some (c.message.length, s') ∧
      Inv logBuffer outputFd (calls ++ [c]) sent' s' ∧
      (s'.bytes = sent' ↔ s.bytes = sent ∧ Settled outputFd s c) := by
  obtain ⟨sent', hinv, hindex, hown, hiff⟩ := inv_flush h (outputFd c.level)
  rw [log]
  generalize flush logBuffer (outputFd c.level) s = t at hinv hindex hown hiff
  obtain ⟨mem', hformat, hload⟩ := vFormatInto_valid t.mem hbuffer hc hindex
  have hpending : (load t.mem logBuffer t.index).map (t.logBufferFd, ·) =
      (load t.mem logBuffer t.index).map (outputFd c.level, ·) := by
    rcases hown with hzero | hfd
    · rw [hzero]
      rfl
    · rw [hfd]
  refine ⟨{ t with
    mem := mem'
    index := t.index + c.message.length
    logBufferFd := outputFd c.level }, sent', ?_, ?_, hiff⟩
  · dsimp only
    rw [hformat]
    rfl
  · constructor
    · rw [List.flatMap_append, hinv.split, hload, hpending, List.map_append, List.append_assoc]
      simp [tagged]
    · exact hinv.texts
    · have hsize := kLogBufferSize_eq
      have hshort := hc.short
      dsimp only
      omega
    · exact fun _ ↦ (hopened.ne_neg_one c.level).symm

theorem bytes_exitLog_iff (h : Inv logBuffer outputFd calls sent s) :
    (exitLog logBuffer s).bytes = calls.flatMap (tagged outputFd) ↔ s.bytes = sent := by
  rw [exitLog]
  by_cases hindex : s.index = 0
  · have hsplit := h.split
    rw [hindex] at hsplit
    rw [if_neg (by simp [hindex]), hsplit]
    simp [load]
  · rw [if_pos ⟨hindex, h.opened hindex⟩, bytes_mk_concat, h.split]
    exact List.append_left_inj _

end Invariant

/-- After a run and the exit each level has its own messages, if and only if no call found messages
of another level in the buffer. -/
theorem log_faithful_iff (logBuffer : ℕ) (outputFd : LogLevel → ℤ) (mem : ℕ → Char)
    (calls : List Call) (hbuffer : logBuffer ≠ 0) (hopened : Opened outputFd)
    (hvalid : ∀ c ∈ calls, c.Valid) :
    ∃ s, run (step logBuffer outputFd) (initial mem) calls = some s ∧
      (Faithful outputFd calls (exitLog logBuffer s) ↔
        Along (step logBuffer outputFd) (initial mem) (Settled outputFd) calls) := by
  have hinduct : ∃ s, run (step logBuffer outputFd) (initial mem) calls = some s ∧
      ∃ sent, Inv logBuffer outputFd calls sent s ∧
        (s.bytes = sent ↔ Along (step logBuffer outputFd) (initial mem) (Settled outputFd) calls) := by
    apply exists_run (I := fun past s ↦ ∃ sent, Inv logBuffer outputFd past sent s ∧
      (s.bytes = sent ↔ Along (step logBuffer outputFd) (initial mem) (Settled outputFd) past))
    · intro past c s hpast hs ⟨sent, hinv, hiff⟩
      have hc : c.Valid := hvalid c (hpast.subset (by simp))
      obtain ⟨s', sent', hlog, hinv', hiff'⟩ := inv_log hbuffer hopened hc hinv
      refine ⟨s', ?_, sent', hinv', ?_⟩
      · rw [step, hlog]
        rfl
      · rw [hiff', hiff, along_concat hs]
    · exact ⟨[], inv_initial mem, iff_of_true rfl along_nil⟩
  obtain ⟨s, hrun, sent, hinv, hiff⟩ := hinduct
  refine ⟨s, hrun, ?_⟩
  rw [faithful_iff hopened, bytes_exitLog_iff hinv, hiff]

def standardFd : LogLevel → ℤ
  | .logOutput => 1
  | .logDebug => 2

def twoLevels : List Call :=
  [⟨.logOutput, ['a'], []⟩, ⟨.logDebug, ['b'], []⟩]

theorem opened_standardFd : Opened standardFd where
  injective := by
    intro level level' h
    cases level <;> cases level' <;> simp_all [standardFd]
  ne_neg_one := by
    intro level
    cases level <;> decide

theorem valid_twoLevels : ∀ c ∈ twoLevels, c.Valid := by
  intro c hc
  simp only [twoLevels, List.mem_cons, List.not_mem_nil, or_false] at hc
  obtain rfl | rfl := hc
  · exact ⟨by decide, by decide⟩
  · exact ⟨by decide, by decide⟩

theorem run_twoLevels : ∃ s,
    run (step 16 standardFd) (initial fun _ ↦ '\x00') twoLevels = some s ∧
      (exitLog 16 s).stream 1 = [] ∧ (exitLog 16 s).stream 2 = ['a', 'b'] :=
  ⟨_, rfl, by decide, by decide⟩

theorem log_faithful_iff_twoLevels :
    16 ≠ 0 ∧ Opened standardFd ∧ (∀ c ∈ twoLevels, c.Valid) ∧
      ¬Along (step 16 standardFd) (initial fun _ ↦ '\x00') (Settled standardFd) twoLevels := by
  refine ⟨by decide, opened_standardFd, valid_twoLevels, fun halong ↦ ?_⟩
  obtain ⟨s, hrun, hiff⟩ := log_faithful_iff 16 standardFd (fun _ ↦ '\x00') twoLevels (by decide)
    opened_standardFd valid_twoLevels
  obtain ⟨t, ht, hone, -⟩ := run_twoLevels
  obtain rfl : s = t := Option.some_inj.1 (hrun.symm.trans ht)
  have hstream := (hiff.2 halong).stream .logOutput
  rw [standardFd, hone] at hstream
  exact absurd hstream (by decide)

/-- The message for the output is flushed to the descriptor of the message that comes after it. -/
theorem log_not_faithful : ∃ s,
    (∀ c ∈ twoLevels, c.Valid) ∧
      run (step 16 standardFd) (initial fun _ ↦ '\x00') twoLevels = some s ∧
      ¬Faithful standardFd twoLevels (exitLog 16 s) := by
  obtain ⟨s, hrun, hone, -⟩ := run_twoLevels
  refine ⟨s, valid_twoLevels, hrun, fun hfaithful ↦ ?_⟩
  have hstream := hfaithful.stream .logOutput
  rw [standardFd, hone] at hstream
  exact absurd hstream (by decide)

end Granary.Os.Logging
