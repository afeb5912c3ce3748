import Replog.Partition.DurableQueue

/-!
# The group-commit timer

The wait for the next command doubles as the timer of the flush: it ends when the oldest unflushed
record is due, and only a wait that ends without a command leads to a flush. A wait lasts a
millisecond at least, so commands that come closer than that keep the thread from flushing.
Instants are nanoseconds.
-/

namespace Replog.Partition
open Replog.Storage
open Replog.Proto (Acks ErrorCode)

def NANOS_PER_MS : ℕ := 1000000

namespace Thread

/-- How long the thread waits for a command. -/
def recvTimeout (policy : FsyncPolicy) (now : ℕ) (t : Thread) : ℕ :=
  match t.dirtySince, batchMaxMs policy with
  | some since, some ms => max (ms * NANOS_PER_MS - (now - since)) NANOS_PER_MS
  | _, _ => 500 * NANOS_PER_MS

/-- `timeout`, at the resolution of the clock. -/
def timeoutAt (policy : FsyncPolicy) (clock : Clock) (now : ℕ) (t : Thread) :
    List Reply × Thread :=
  match t.dirtySince, batchMaxMs policy with
  | some since, some ms => if ms ≤ (now - since) / NANOS_PER_MS then t.flush clock else ([], t)
  | _, _ => ([], t)

end Thread

structure Loop where
  thread : Thread
  now : ℕ

/-- A command as it arrives, what the clocks show while it is handled, and when that is done. -/
structure Delivery where
  cmd : Cmd
  arrival : ℕ
  clock : ℕ → Clock
  stamp : ℕ
  done : ℕ

/-- A command that is there already is taken at once. -/
def Delivery.dequeued (d : Delivery) (l : Loop) : ℕ := max d.arrival l.now

/-- The command comes before the wait is over: `recv_timeout` is on time, and one that comes later
finds the thread at work on the timeout. -/
structure Delivery.Comes (policy : FsyncPolicy) (d : Delivery) (l : Loop) : Prop where
  inTime : d.dequeued l < l.now + l.thread.recvTimeout policy l.now
  stamped : d.dequeued l ≤ d.stamp
  done_le : d.stamp ≤ d.done

namespace Loop

def deliver (crc : List UInt8 → UInt32) (policy : FsyncPolicy) (d : Delivery) (l : Loop) : Loop :=
  ⟨(l.thread.handle crc policy d.cmd d.clock d.stamp).2, d.done⟩

/-- The runs of a partition's thread from its start on, with no I/O error. -/
inductive Ran (crc : List UInt8 → UInt32) (config : LogConfig) : Loop → Prop
  | started {d : Dir} {clock : Clock} {epochFile : Option (List UInt8)} {t : Thread}
      (h : Storage.Lived crc (Partition.logConfig config) Storage.Loses (.down d))
      (hspawn : Thread.spawn crc config clock d epochFile = some t) (now : ℕ) :
      Ran crc config ⟨t, now⟩
  | delivered {l : Loop} (h : Ran crc config l) (d : Delivery) (hfits : d.cmd.Fits l.thread)
      (hcomes : d.Comes config.fsync l) : Ran crc config (l.deliver crc config.fsync d)
  | expired {l : Loop} (h : Ran crc config l) (clock : Clock) {now done : ℕ}
      (hroom : l.thread.log.nextOffset < 2 ^ 64)
      (hwaited : l.now + l.thread.recvTimeout config.fsync l.now ≤ now) (hdone : now ≤ done) :
      Ran crc config ⟨(l.thread.timeoutAt config.fsync clock now).2, done⟩

/-- At `instant` records have been waiting for a flush for more than `maxMs` and a millisecond. -/
def Overdue (maxMs instant : ℕ) (l : Loop) : Prop :=
  ∃ since, l.thread.dirtySince = some since ∧ since + max maxMs 1 * NANOS_PER_MS < instant

/-- They have, and the thread has not been waiting for a millisecond yet. -/
def Crowded (maxMs instant : ℕ) (l : Loop) : Prop :=
  l.Overdue maxMs instant ∧ instant < l.now + NANOS_PER_MS

end Loop

/-- Whether the command leaves the log clean by its own flush, and the thread takes notice. -/
def Cmd.cleans (cmd : Cmd) (clock : ℕ → Clock) (log : Log) : Bool :=
  match cmd with
  | .append produce _ => !isDirty (log.afterAll Log.takesAny
      (produce.records.map fun kv => ⟨0, 0, kv.1, kv.2⟩) clock)
  | .appendReplicated records => !isDirty (log.afterAll Log.takesNext records clock)
  | _ => false

variable {crc : List UInt8 → UInt32} {config : LogConfig}

/-! ## The counters -/

private theorem isDirty_congr {log log' : Log} (h : log.SameCounters log') : isDirty log' = isDirty log := by
  rw [isDirty, isDirty, show log'.nextOffset = log.nextOffset from h.next_eq, h.durable_eq]

private theorem appendAll_counts (hc : config.Valid) {records : List KeyValue} (clock : ℕ → Clock)
    (p : Thread.Progress) {s : Log × Fs} {rs : List Record} (h : Represents crc config s rs)
    (hroom : rs.length + records.length ≤ 2 ^ 64) :
    (s.1.afterAll Log.takesAny (records.map fun kv => ⟨0, 0, kv.1, kv.2⟩) clock).SameCounters
      (Thread.appendAll crc records clock p s).2.1 := by
  induction records generalizing clock p s rs with
  | nil => exact .refl _
  | cons kv records ih =>
    simp only [List.length_cons] at hroom
    have hconfig := h.config_eq
    rw [List.map_cons, Log.afterAll, Log.takesAny, hconfig]
    rcases append_cases hc h (by omega) (clock 0) kv with
      ⟨hlarge, e, hrun⟩ | ⟨hfits, info, s', r, hrun, hrep, -, hcounts⟩
    · rw [decide_eq_false (Nat.not_le.mpr hlarge)]
      simp only [Thread.appendAll, hrun]
      exact .refl _
    · rw [decide_eq_true (Nat.le_of_not_lt hfits)]
      simp only [Thread.appendAll, hrun]
      refine (hcounts.afterAll Log.SameCounters.takesAny_eq _ _).trans ?_
      exact ih (fun i => clock (i + 1)) _ hrep
        (by rw [List.length_append, List.length_singleton]; omega)

private theorem appendReplicatedAll_counts (hc : config.Valid) {records : List Record} (clock : ℕ → Clock)
    {s : Log × Fs} {rs : List Record} (h : Represents crc config s rs)
    (hroom : rs.length + records.length ≤ 2 ^ 64) :
    (s.1.afterAll Log.takesNext records clock).SameCounters
      (Thread.appendReplicatedAll crc records clock s).2.1 := by
  induction records generalizing clock s rs with
  | nil => exact .refl _
  | cons r records ih =>
    simp only [List.length_cons] at hroom
    rw [Log.afterAll, Thread.appendReplicatedAll]
    rcases appendReplicated_cases hc h (by omega) (clock 0) r with
      ⟨htakes, e, hrun⟩ | ⟨htakes, info, s', hrun, hrep, hcounts⟩
    · rw [htakes, hrun]
      exact .refl _
    · rw [htakes, hrun]
      refine (hcounts.afterAll Log.SameCounters.takesNext_eq _ _).trans ?_
      exact ih (fun i => clock (i + 1)) hrep
        (by rw [List.length_append, List.length_singleton]; omega)

/-! ## What is kept since when -/

private theorem answerAppend_dirtySince (policy : FsyncPolicy) (produce : Produce) (p : Thread.Progress)
    (t : Thread) : (t.answerAppend policy produce p).2.dirtySince = t.dirtySince := by
  simp only [Thread.answerAppend]
  split
  · rfl
  · rfl
  · split_ifs <;> rfl

theorem refreshDirty_dirtySince (t : Thread) (s : Log × Fs) (now : ℕ) {log : Log}
    (h : log.SameCounters s.1) : ((t.withState s).refreshDirty now).dirtySince =
      if !isDirty log then none else t.dirtySince.or (some now) := by
  rw [← isDirty_congr h]
  show (if isDirty s.1 then t.dirtySince.or (some now) else none) = _
  cases isDirty s.1 <;> rfl

/-- A command that leaves the log clean resets the time; any other one can only set it. -/
theorem handle_dirtySince (hc : config.Valid) {t : Thread} {rs : List Record}
    (h : Represents crc config t.state rs) (policy : FsyncPolicy) {cmd : Cmd} (hfits : cmd.Fits t)
    (clock : ℕ → Clock) (now : ℕ) :
    ∃ first, (first = none ∨ first = some now) ∧
      (t.handle crc policy cmd clock now).2.dirtySince =
        if cmd.cleans clock t.log then none else t.dirtySince.or first := by
  have hnext : t.log.nextOffset = rs.length := h.nextOffset_eq
  have hroom : rs.length + cmd.records ≤ 2 ^ 64 := hnext ▸ Nat.le_of_lt hfits
  have hsame : t.dirtySince = t.dirtySince.or none := (Option.or_none).symm
  cases cmd with
  | append produce answered =>
    refine ⟨some now, .inr rfl, ?_⟩
    have hcounts := appendAll_counts hc clock ⟨none, 0, none⟩ h hroom
    refine Eq.trans ?_ (refreshDirty_dirtySince t _ now hcounts)
    simp only [Thread.handle, Thread.append]
    cases answered with
    | false => rfl
    | true => exact answerAppend_dirtySince policy produce _ _
  | appendReplicated records =>
    refine ⟨some now, .inr rfl, ?_⟩
    have hcounts := appendReplicatedAll_counts hc clock h hroom
    exact Eq.trans rfl (refreshDirty_dirtySince t _ now hcounts)
  | read offset maxBytes =>
    refine ⟨none, .inl rfl, ?_⟩
    rw [Thread.handle, (read_state offset maxBytes t).1]
    exact hsame
  | truncateTo n =>
    refine ⟨none, .inl rfl, ?_⟩
    obtain ⟨s, hrun, -, -⟩ := truncateSuffix_durable hc h n
    rw [Thread.handle, Thread.truncateTo, hrun]
    exact (truncateEpochs_state n (t.withState s)).2.2.trans hsame
  | recordEpoch epoch =>
    exact ⟨none, .inl rfl, (recordEpoch_state epoch t).2.2.trans hsame⟩
  | epochStatus => exact ⟨none, .inl rfl, hsame⟩
  | epochEndFor epoch => exact ⟨none, .inl rfl, hsame⟩

theorem timeoutAt_cases (policy : FsyncPolicy) (clock : Clock) (now : ℕ) (t : Thread) :
    (t.timeoutAt policy clock now).2 = t ∨ (t.timeoutAt policy clock now).2 = (t.flush clock).2 := by
  rw [Thread.timeoutAt]
  split
  · split_ifs
    · exact .inr rfl
    · exact .inl rfl
  · exact .inl rfl

private theorem flush_dirtySince (t : Thread) (clock : Clock) :
    (t.flush clock).2.dirtySince = none ∨ (t.flush clock).2.dirtySince = t.dirtySince := by
  rw [Thread.flush]
  cases (Log.flush clock).run t.state with
  | ok a s => exact .inl rfl
  | error e s => exact .inr rfl

namespace Loop

theorem Ran.alive (hc : config.Valid) {l : Loop} (h : l.Ran crc config) :
    l.thread.Alive crc config Storage.Loses := by
  induction h with
  | started h hspawn =>
    rw [Thread.spawn] at hspawn
    split at hspawn
    · rename_i log fs hrun
      obtain ⟨epochs, -, rfl⟩ := Option.map_eq_some_iff.mp hspawn
      exact .opened h hrun
    · cases hspawn
  | delivered _ d hfits _ ih => exact handle_alive hc ih _ hfits _ _
  | @expired l _ clock now _ hroom _ _ ih =>
    dsimp only
    rcases timeoutAt_cases config.fsync clock now l.thread with hsame | hflush
    · rwa [hsame]
    · rw [hflush]
      exact flush_alive ih hroom clock

private theorem Ran.since_le (hc : config.Valid) {l : Loop} (h : l.Ran crc config) {since : ℕ}
    (hsince : l.thread.dirtySince = some since) : since ≤ l.now := by
  induction h generalizing since with
  | started h hspawn =>
    rw [Thread.spawn] at hspawn
    split at hspawn
    · obtain ⟨epochs, -, rfl⟩ := Option.map_eq_some_iff.mp hspawn
      cases hsince
    · cases hspawn
  | @delivered l h d hfits hcomes ih =>
    obtain ⟨rs, hrep⟩ := (h.alive hc).represents hc
    obtain ⟨first, hfirst, hafter⟩ := handle_dirtySince (logConfig_valid hc) hrep config.fsync hfits
      d.clock d.stamp
    have hstamped := hcomes.stamped
    have hdone := hcomes.done_le
    have hle : l.now ≤ d.dequeued l := Nat.le_max_right _ _
    rw [Loop.deliver] at hsince ⊢
    rw [hafter] at hsince
    split_ifs at hsince
    cases hold : l.thread.dirtySince with
    | some old =>
      rw [hold, Option.some_or] at hsince
      cases hsince
      exact (ih hold).trans (hle.trans (hstamped.trans hdone))
    | none =>
      rw [hold, Option.none_or] at hsince
      rcases hfirst with rfl | rfl
      · cases hsince
      · cases hsince
        exact hdone
  | @expired l h clock now done hroom hwaited hdone ih =>
    have hle : l.now ≤ done := by omega
    dsimp only at hsince ⊢
    have hkept : l.thread.dirtySince = some since := by
      rcases timeoutAt_cases config.fsync clock now l.thread with hsame | hflush
      · rwa [hsame] at hsince
      · rw [hflush] at hsince
        rcases flush_dirtySince l.thread clock with hnone | hsame
        · rw [hnone] at hsince
          cases hsince
        · rwa [hsame] at hsince
    exact (ih hkept).trans hle

private theorem crowded_of_overdue {maxBytes maxMs : ℕ} {l : Loop} {d : Delivery}
    (hcomes : d.Comes (.batch maxBytes maxMs) l)
    (hsince : ∀ since, l.thread.dirtySince = some since → since ≤ l.now)
    (h : l.Overdue maxMs (d.dequeued l)) : l.Crowded maxMs (d.dequeued l) := by
  refine ⟨h, ?_⟩
  obtain ⟨since, hdirty, hlate⟩ := h
  have hle := hsince since hdirty
  have htime := hcomes.inTime
  rw [Thread.recvTimeout, hdirty] at htime
  simp only [batchMaxMs] at htime
  have hms : maxMs * NANOS_PER_MS ≤ max maxMs 1 * NANOS_PER_MS :=
    Nat.mul_le_mul_right _ (Nat.le_max_left _ _)
  omega

/-- A command is handled with records overdue that stay so exactly when it comes late, less than a
millisecond after the thread has started to wait, and does not make the log flush. -/
theorem overdue_iff (hconfig : config.validate = .ok ()) {maxBytes maxMs : ℕ}
    (hpolicy : config.fsync = .batch maxBytes maxMs) {l : Loop} (h : l.Ran crc config)
    {d : Delivery} (hfits : d.cmd.Fits l.thread) (hcomes : d.Comes config.fsync l) :
    ¬ (l.deliver crc config.fsync d).Overdue maxMs (d.dequeued l) ↔
      (l.Crowded maxMs (d.dequeued l) → d.cmd.cleans d.clock l.thread.log = true) := by
  have hc := config.validate_eq_ok_iff.mp hconfig
  obtain ⟨rs, hrep⟩ := (h.alive hc).represents hc
  obtain ⟨first, hfirst, hafter⟩ := handle_dirtySince (logConfig_valid hc) hrep config.fsync hfits
    d.clock d.stamp
  have hstamped := hcomes.stamped
  rw [hpolicy] at hcomes
  constructor
  · rintro hprompt ⟨⟨since, hdirty, hlate⟩, -⟩
    by_contra hstays
    refine hprompt ⟨since, ?_, hlate⟩
    rw [Loop.deliver, hafter, if_neg hstays, hdirty, Option.some_or]
  · rintro hcleans ⟨since, hdirty, hlate⟩
    rw [Loop.deliver, hafter] at hdirty
    split_ifs at hdirty with hstays
    cases hold : l.thread.dirtySince with
    | some old =>
      rw [hold, Option.some_or] at hdirty
      cases hdirty
      exact hstays (hcleans (crowded_of_overdue hcomes (fun _ => h.since_le hc) ⟨since, hold, hlate⟩))
    | none =>
      rw [hold, Option.none_or] at hdirty
      rcases hfirst with rfl | rfl
      · cases hdirty
      · cases hdirty
        omega

end Loop

section Reads

/-- A command that is handled in no time. -/
def deliveryAt (instant : ℕ) (cmd : Cmd) : Delivery :=
  ⟨cmd, instant, fun _ => ⟨0, 0⟩, instant, instant⟩

def Loop.afterDeliveries (deliveries : List Delivery) : Loop :=
  deliveries.foldl (fun l d => l.deliver (fun _ => 0) batchConfig.fsync d) ⟨startedThread, 0⟩

def appendDelivery : Delivery := deliveryAt 0 (.append ⟨[(none, [7])], .durable⟩ true)

def readDelivery (instant : ℕ) : Delivery := deliveryAt instant (.read 0 100)

theorem appended_ran : (Loop.afterDeliveries [appendDelivery]).Ran (fun _ => 0) batchConfig :=
  .delivered (@Loop.Ran.started _ _ _ ⟨0, 0⟩ none _ .new rfl 0) appendDelivery (by decide)
    ⟨by decide +kernel, le_rfl, le_rfl⟩

/-- A read a tenth of a millisecond before the flush is due. -/
theorem overdue_iff_early :
    ¬ ((Loop.afterDeliveries [appendDelivery]).deliver (fun _ => 0) batchConfig.fsync
      (readDelivery 9900000)).Overdue 10 9900000 :=
  (Loop.overdue_iff (show batchConfig.validate = .ok () from rfl) rfl appended_ran
    (by decide) ⟨by decide +kernel, by decide, by decide⟩).mpr fun h => by
      obtain ⟨⟨since, hdirty, hlate⟩, -⟩ := h
      cases hdirty
      exact absurd hlate (by decide)

/-- The next read comes six tenths of a millisecond later, and there is still no flush. -/
theorem read_delays_flush : ∃ (l : Loop) (d : Delivery), l.Ran (fun _ => 0) batchConfig ∧
    d.cmd.Fits l.thread ∧ d.Comes batchConfig.fsync l ∧
    (l.deliver (fun _ => 0) batchConfig.fsync d).Overdue 10 (d.dequeued l) := by
  have hread : (Loop.afterDeliveries [appendDelivery, readDelivery 9900000]).Ran (fun _ => 0)
      batchConfig :=
    .delivered appended_ran (readDelivery 9900000) (by decide)
      ⟨by decide +kernel, by decide, by decide⟩
  exact ⟨_, readDelivery 10500000, hread, by decide, ⟨by decide +kernel, by decide, by decide⟩, 0,
    rfl, by decide⟩

end Reads

end Replog.Partition
