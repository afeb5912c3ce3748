import Replog.Partition.Commands
import Replog.Partition.DurableAcks
import Replog.Partition.EpochStarts
import Replog.Storage.Counters
import Replog.Storage.DurableOffset

/-!
# The queue of durable appends

An append that waits is answered by its offsets alone, once the durable offset has passed them.
That is right as long as the offsets stay those of its records and nobody but the thread itself
flushes: a truncation has to leave the waiting records alone, and a leader's records must not make
the log flush while appends wait.
-/

namespace Replog.Partition
open Replog.Library
open Replog.Storage
open Replog.Proto (Acks ErrorCode)

/-- What the thread does with an input, with the replies it gives. -/
def Thread.take (crc : List UInt8 → UInt32) (policy : FsyncPolicy) (t : Thread) :
    Input → List Reply × Thread
  | .command cmd clock now => t.handle crc policy cmd clock now
  | .timeout clock => t.timeout policy clock
  | .disconnect clock => t.flush clock

def Input.GoesOn : Input → Prop
  | .disconnect _ => False
  | _ => True

/-- The threads of a partition that has been opened, where each input satisfies the guard. -/
inductive Thread.Ran (crc : List UInt8 → UInt32) (config : LogConfig)
    (guard : Thread → Input → Prop) : Thread → Prop
  | spawned {d : Dir} {clock : Clock} {epochFile : Option (List UInt8)} {t : Thread}
      (h : Storage.Lived crc (Partition.logConfig config) Storage.Loses (.down d))
      (hspawn : Thread.spawn crc config clock d epochFile = some t) : t.Ran crc config guard
  | took {t : Thread} (h : t.Ran crc config guard) (i : Input) (hfits : i.Fits t)
      (hguard : guard t i) (hlive : i.GoesOn) : (t.take crc config.fsync i).2.Ran crc config guard

/-- Whether the append of a leader's records makes the log flush. -/
def flushesReplicated : List Record → (ℕ → Clock) → Log → Bool
  | [], _, _ => false
  | r :: rest, clock, log =>
    log.takesNext r && (log.rollDue r.encodedLen || (log.counted r.encodedLen).flushDue (clock 0) ||
      flushesReplicated rest (fun i => clock (i + 1)) (log.counted r.encodedLen))

/-- A truncation leaves the waiting records alone, and a leader's records do not make the log flush
while appends wait. -/
def Input.Spares (t : Thread) : Input → Prop
  | .command (.truncateTo n) _ _ => ∀ p ∈ t.pending, p.lastOffset < n
  | .command (.appendReplicated records) clock _ =>
    t.pending = [] ∨ flushesReplicated records clock t.log = false
  | _ => True

/-- If the reply promises that records are durable, they are there, and so the log says. -/
def Reply.Exact (rs : List Record) (durable : Option ℕ) : Reply → Prop
  | .append produce (.ok (base, count)) =>
    produce.acks = .durable ∨ produce.acks = .all →
      Holds rs base count produce.records ∧ (count = 0 ∨ durable.any (base + count - 1 ≤ ·))
  | _ => True

/-- What the replies promise is there, and who still waits has to. -/
def Exact (crc : List UInt8 → UInt32) (config : LogConfig) (r : List Reply × Thread) : Prop :=
  ∃ rs, rs.length ≤ 2 ^ 64 ∧ Serves crc config r.2 rs ∧
    (∀ reply ∈ r.1, reply.Exact rs r.2.log.durableOffset) ∧
    ∀ p ∈ r.2.pending, ¬ r.2.log.durableOffset.any (p.lastOffset ≤ ·)

variable {crc : List UInt8 → UInt32} {config : LogConfig}

/-! ## The queue -/

/-- The waiting appends are in the log, in the order of their offsets. -/
structure Queued (crc : List UInt8 → UInt32) (config : LogConfig) (t : Thread) (rs : List Record) :
    Prop where
  represents : Represents crc config t.state rs
  sorted : t.pending.Pairwise (·.lastOffset ≤ ·.lastOffset)
  waits : ∀ p ∈ t.pending, p.Waits 0 rs

structure Ledger (crc : List UInt8 → UInt32) (config : LogConfig) (t : Thread) (rs : List Record) :
    Prop where
  queued : Queued crc config t rs
  waiting : ∀ p ∈ t.pending, ¬ t.log.durableOffset.any (p.lastOffset ≤ ·)

private theorem any_le_mono {durable : Option ℕ} {m n : ℕ} (h : durable.any (n ≤ ·) = true) (hle : m ≤ n) :
    durable.any (m ≤ ·) = true := by
  obtain ⟨d, hd, hn⟩ := (Option.any_eq_true _ _).mp h
  exact (Option.any_eq_true _ _).mpr ⟨d, hd, by simp only [decide_eq_true_eq] at hn ⊢; omega⟩

private theorem drainPending_exact {rs : List Record} (durable : Option ℕ) {pending : List Pending}
    (hsorted : pending.Pairwise (·.lastOffset ≤ ·.lastOffset))
    (hwaits : ∀ p ∈ pending, p.Waits 0 rs) :
    (∀ reply ∈ (Thread.drainPending durable pending).1, reply.Exact rs durable) ∧
      (Thread.drainPending durable pending).2 <:+ pending ∧
      ∀ p ∈ (Thread.drainPending durable pending).2, ¬ durable.any (p.lastOffset ≤ ·) := by
  induction pending with
  | nil =>
    exact ⟨fun _ h => absurd h List.not_mem_nil, List.suffix_rfl,
      fun _ h => absurd h List.not_mem_nil⟩
  | cons p rest ih =>
    obtain ⟨hfirst, hrest⟩ := List.pairwise_cons.mp hsorted
    obtain ⟨hp, hwaits'⟩ := List.forall_mem_cons.mp hwaits
    obtain ⟨hout, hsuffix, hleft⟩ := ih hrest hwaits'
    rw [Thread.drainPending]
    split_ifs with hdurable
    · have hlast := hp.last_eq
      refine ⟨List.forall_mem_cons.mpr ⟨fun _ => ⟨hp.holds, .inr ?_⟩, hout⟩,
        hsuffix.trans (List.suffix_cons p rest), hleft⟩
      rwa [show p.baseOffset + p.count - 1 = p.lastOffset by omega]
    · refine ⟨fun _ h => absurd h List.not_mem_nil, List.suffix_rfl,
        List.forall_mem_cons.mpr ⟨hdurable, fun p' hp' hany => ?_⟩⟩
      exact hdurable (any_le_mono hany (hfirst p' hp'))

theorem Queued.drain {t : Thread} {rs : List Record} (h : Queued crc config t rs) :
    Ledger crc config t.drain.2 rs ∧ ∀ reply ∈ t.drain.1, reply.Exact rs t.log.durableOffset := by
  obtain ⟨hout, hsuffix, hleft⟩ := drainPending_exact t.log.durableOffset h.sorted h.waits
  exact ⟨⟨⟨h.represents, h.sorted.sublist hsuffix.sublist, fun p hp =>
    h.waits p (hsuffix.subset hp)⟩, hleft⟩, hout⟩

theorem Queued.congr {t t' : Thread} {rs : List Record} (h : Queued crc config t rs)
    (hstate : t'.state = t.state) (hpending : t'.pending = t.pending) :
    Queued crc config t' rs :=
  ⟨hstate ▸ h.represents, hpending ▸ h.sorted, hpending ▸ h.waits⟩

theorem Ledger.congr {t t' : Thread} {rs : List Record} (h : Ledger crc config t rs)
    (hstate : t'.state = t.state) (hpending : t'.pending = t.pending) :
    Ledger crc config t' rs := by
  have hlog : t'.log = t.log := congrArg Prod.fst hstate
  refine ⟨h.queued.congr hstate hpending, ?_⟩
  rw [hpending, hlog]
  exact h.waiting

theorem Queued.withState {t : Thread} {s : Log × Fs} {rs more : List Record}
    (h : Queued crc config t rs) (hrep : Represents crc config s (rs ++ more)) :
    Queued crc config (t.withState s) (rs ++ more) :=
  ⟨hrep, h.sorted, fun p hp => (h.waits p hp).append more⟩

/-! ## Appends -/

theorem Represents.logInv {s : Log × Fs} {rs : List Record} (h : Represents crc config s rs) :
    ∃ opened, LogInv crc config LogFile.length s rs 0 opened := by
  refine ⟨s.1.durableOffset.getD 0 + 1, h, (Storage.Represents.left h).kept_zero, Nat.zero_le _,
    fun d hd => .inr ?_⟩
  rw [hd]
  exact Nat.lt_succ_self d

private theorem answerAppend_queued {policy : FsyncPolicy} (hpolicy : policy ≠ .os) {produce : Produce}
    {p : Thread.Progress} {t : Thread} {rs more : List Record}
    (h : Queued crc config t (rs ++ more)) (hbefore : ∀ p ∈ t.pending, p.lastOffset < rs.length)
    (hcovers : p.error = none →
      Thread.Progress.Covers ⟨none, 0, none⟩ p rs.length produce.records more) :
    Queued crc config (t.answerAppend policy produce p).2 (rs ++ more) ∧
      (t.answerAppend policy produce p).2.log = t.log ∧
      ∀ reply ∈ (t.answerAppend policy produce p).1,
        reply.Exact (rs ++ more) t.log.durableOffset := by
  have hone : ∀ {reply : Reply}, reply.Exact (rs ++ more) t.log.durableOffset →
      ∀ reply' ∈ [reply], reply'.Exact (rs ++ more) t.log.durableOffset := fun h =>
    List.forall_mem_singleton.mpr h
  obtain ⟨base, count, error⟩ := p
  cases error with
  | some code => exact ⟨h, rfl, hone trivial⟩
  | none =>
    obtain ⟨hwritten, hcount, hbase⟩ := hcovers rfl
    simp only [Nat.zero_add, Option.none_or] at hcount hbase
    by_cases hnil : produce.records = []
    · rw [if_pos hnil] at hbase
      subst hbase
      refine ⟨h, rfl, hone fun _ => ?_⟩
      rw [hnil]
      exact ⟨holds_zero, .inl rfl⟩
    · rw [if_neg hnil] at hbase
      subst hbase
      have hpos := List.length_pos_of_ne_nil hnil
      have hmore : more.length = produce.records.length := by rw [← hwritten, List.length_map]
      have hnext : t.log.nextOffset = (rs ++ more).length := h.represents.nextOffset_eq
      have hend : (rs ++ more).length = rs.length + count := by
        rw [List.length_append, hmore, hcount]
      have hholds : Holds (rs ++ more) rs.length count produce.records := by
        refine ⟨?_, hcount⟩
        rw [List.drop_left, List.take_of_length_le (by omega), hwritten]
      simp only [Thread.answerAppend]
      split_ifs with hacked
      · refine ⟨h, rfl, hone fun hacks => ⟨hholds, .inr ?_⟩⟩
        have hany : t.log.durableOffset.any (t.log.nextOffset - 1 ≤ ·) = true := by
          rcases hacks with hacks | hacks <;> simpa [Thread.ackedNow, hacks, hpolicy] using hacked
        rwa [hnext, hend] at hany
      · refine ⟨⟨h.represents, ?_, fun p hp => ?_⟩, rfl,
          fun _ hreply => absurd hreply List.not_mem_nil⟩
        · refine List.pairwise_append.mpr
            ⟨h.sorted, List.pairwise_singleton _ _, fun p hp p' hp' => ?_⟩
          rw [List.mem_singleton.mp hp']
          have hlt := hbefore p hp
          dsimp only
          omega
        · rcases List.mem_append.mp hp with hold | hnew
          · exact h.waits p hold
          · rw [List.mem_singleton.mp hnew]
            exact ⟨Nat.zero_le _, by dsimp only; omega, by dsimp only; omega, hholds⟩

def Keeping (crc : List UInt8 → UInt32) (config : LogConfig) (r : List Reply × Thread) : Prop :=
  ∃ rs, Ledger crc config r.2 rs ∧ ∀ reply ∈ r.1, reply.Exact rs r.2.log.durableOffset

theorem Ledger.append (hc : config.Valid) {policy : FsyncPolicy} (hpolicy : policy ≠ .os)
    {t : Thread} {rs : List Record} (h : Ledger crc config t rs) {produce : Produce}
    (hroom : rs.length + produce.records.length ≤ 2 ^ 64) (answered : Bool) (clock : ℕ → Clock)
    (now : ℕ) : Keeping crc config (t.append crc policy produce answered clock now) := by
  obtain ⟨opened, hinv⟩ := Represents.logInv h.queued.represents
  obtain ⟨more, k', ops, -, -, hlog, -, hcovers⟩ :=
    appendAll_inv LogFile.enduring_length hc clock ⟨none, 0, none⟩ hinv hroom
  have hwritten : Queued crc config ((t.withState _).refreshDirty now) (rs ++ more) :=
    (h.queued.withState hlog.represents).congr rfl rfl
  have hbefore : ∀ p ∈ t.pending, p.lastOffset < rs.length :=
    fun p hp => (h.queued.waits p hp).last_lt
  simp only [Thread.append]
  generalize Thread.appendAll crc produce.records clock ⟨none, 0, none⟩ t.state = result at *
  obtain ⟨p, s⟩ := result
  cases answered with
  | false => exact ⟨rs ++ more, hwritten.drain⟩
  | true =>
    obtain ⟨hqueued, hsame, hanswered⟩ := answerAppend_queued hpolicy hwritten hbefore hcovers
    obtain ⟨hledger, hdrained⟩ := hqueued.drain
    refine ⟨rs ++ more, hledger, fun reply hreply => ?_⟩
    rcases List.mem_append.mp hreply with hreply | hreply
    · have hdurable := hanswered reply hreply
      rw [← hsame] at hdurable
      exact hdurable
    · exact hdrained reply hreply

/-! ## A leader's records -/

/-- A record that is next and fits is written, with what that does to the counters; any other one
leaves the log alone. -/
theorem appendReplicated_cases (hc : config.Valid) {s : Log × Fs} {rs : List Record}
    (h : Represents crc config s rs) (hroom : rs.length < 2 ^ 64) (clock : Clock) (r : Record) :
    (s.1.takesNext r = false ∧ ∃ e, (Log.appendReplicated crc clock r).run s = .error e s) ∨
      s.1.takesNext r = true ∧ ∃ info s', (Log.appendReplicated crc clock r).run s = .ok info s' ∧
        Represents crc config s' (rs ++ [r]) ∧
        (s.1.afterAppend clock r.encodedLen).SameCounters s'.1 := by
  have hnext : s.1.nextOffset = rs.length := h.nextOffset_eq
  have hconfig := h.config_eq
  rw [Log.takesNext, hnext, hconfig]
  by_cases hoffset : r.offset = rs.length
  · have hrun : (Log.appendReplicated crc clock r).run s = (Log.appendRecord crc clock r).run s := by
      simp only [Log.appendReplicated, EStateM.run_bind, MethodM.run_self]
      rw [if_neg (by rw [hnext]; exact not_not.mpr hoffset)]
    have hcounts := appendRecord_counts crc clock r s
    obtain ⟨cs, act, hok, rfl⟩ := h
    rw [hrun]
    rcases appendRecord_refines hc hok hoffset hroom clock with
      ⟨hlarge, hfails⟩ | ⟨hfits, info, log, ops, hdone, -, -, cs', act', hcs, hok'⟩
    · refine .inl ⟨?_, _, hfails⟩
      rw [decide_eq_false (Nat.not_le.mpr hlarge), Bool.and_false]
    · rw [hdone] at hcounts
      refine .inr ⟨?_, info, _, hdone, ⟨cs', act', hok', hcs⟩, hcounts⟩
      rw [decide_eq_true hoffset, decide_eq_true hfits, Bool.and_self]
  · refine .inl ⟨?_, .err (.replicatedGap r.offset rs.length), ?_⟩
    · rw [decide_eq_false hoffset, Bool.false_and]
    simp only [Log.appendReplicated, EStateM.run_bind, MethodM.run_self]
    rw [if_pos (by rwa [hnext]), hnext]
    rfl

private theorem flushesReplicated_congr (records : List Record) (clock : ℕ → Clock) {log log' : Log}
    (h : log.SameCounters log') :
    flushesReplicated records clock log' = flushesReplicated records clock log := by
  induction records generalizing clock log log' with
  | nil => rfl
  | cons r rest ih =>
    have hcounted := h.counted r.encodedLen
    rw [flushesReplicated, flushesReplicated, h.takesNext_eq, h.rollDue_eq, hcounted.flushDue_eq,
      ih _ hcounted]

private theorem appendReplicatedAll_quiet (hc : config.Valid) {records : List Record}
    (clock : ℕ → Clock) {s : Log × Fs} {rs : List Record} (h : Represents crc config s rs)
    (hroom : rs.length + records.length ≤ 2 ^ 64)
    (hquiet : flushesReplicated records clock s.1 = false) :
    (Thread.appendReplicatedAll crc records clock s).2.1.durableOffset = s.1.durableOffset := by
  induction records generalizing clock s rs with
  | nil => rfl
  | cons r records ih =>
    simp only [List.length_cons] at hroom
    rw [Thread.appendReplicatedAll]
    rcases appendReplicated_cases hc h (by omega) (clock 0) r with
      ⟨-, e, hrun⟩ | ⟨htakes, info, s', hrun, hrep, hcounts⟩
    · rw [hrun]
    · rw [flushesReplicated, htakes, Bool.true_and, Bool.or_eq_false_iff,
        Bool.or_eq_false_iff] at hquiet
      obtain ⟨⟨hroll, hflush⟩, hrest⟩ := hquiet
      rw [Log.afterAppend, hroll, Log.flushedIfDue] at hcounts
      simp only [Bool.false_eq_true, if_false, hflush] at hcounts
      rw [hrun]
      dsimp only
      rw [ih (fun i => clock (i + 1)) hrep
        (by rw [List.length_append, List.length_singleton]; omega)
        (by rw [flushesReplicated_congr records _ hcounts]; exact hrest)]
      exact hcounts.durable_eq

theorem Ledger.appendReplicated (hc : config.Valid) {t : Thread} {rs : List Record}
    (h : Ledger crc config t rs) {records : List Record}
    (hroom : rs.length + records.length ≤ 2 ^ 64) (clock : ℕ → Clock) (now : ℕ)
    (hspares : t.pending = [] ∨ flushesReplicated records clock t.log = false) :
    Keeping crc config (t.appendReplicated crc records clock now) := by
  obtain ⟨opened, hinv⟩ := Represents.logInv h.queued.represents
  obtain ⟨more, k', ops, -, -, hlog, -⟩ :=
    appendReplicatedAll_inv LogFile.enduring_length hc clock hinv hroom
  have hquiet := fun hquiet => appendReplicatedAll_quiet hc clock h.queued.represents hroom hquiet
  have hwritten : Queued crc config ((t.withState _).refreshDirty now) (rs ++ more) :=
    (h.queued.withState hlog.represents).congr rfl rfl
  refine ⟨rs ++ more, ⟨hwritten, fun p hp => ?_⟩, List.forall_mem_singleton.mpr trivial⟩
  rcases hspares with hnil | hnone
  · have hp' : p ∈ t.pending := hp
    rw [hnil] at hp'
    cases hp'
  · have hsame : (t.appendReplicated crc records clock now).2.log.durableOffset =
        t.log.durableOffset := hquiet hnone
    rw [hsame]
    exact h.waiting p hp

/-! ## The other inputs -/

/-- A truncation cuts the list, and nothing more gets durable. -/
theorem truncateSuffix_durable (hc : config.Valid) {s : Log × Fs} {rs : List Record}
    (h : Represents crc config s rs) (n : ℕ) :
    ∃ s', (Log.truncateSuffix crc n).run s = .ok () s' ∧ Represents crc config s' (rs.take n) ∧
      ∀ o, s'.1.durableOffset.any (o ≤ ·) → s.1.durableOffset.any (o ≤ ·) := by
  obtain ⟨cs, act, hok, rfl⟩ := h
  by_cases hin : n < (cs.flatten ++ act).length
  · obtain ⟨log, ops, cs', act', hrun, hok', hflat, -⟩ := truncateSuffix_spec hc hok hin
    have htruncated := truncateSuffix_synced crc (s := s) (n := n)
      (by rw [hok.nextOffset_eq]; exact hin)
    rw [hrun] at htruncated
    have hdurable : log.durableOffset = Log.durableBelow n s.1.durableOffset := htruncated.durable
    refine ⟨_, hrun, ⟨cs', act', hok', hflat⟩, fun o ho => ?_⟩
    dsimp only at ho
    rw [hdurable] at ho
    cases hold : s.1.durableOffset with
    | none =>
      rw [hold] at ho
      cases ho
    | some durable =>
      rw [hold] at ho
      cases n with
      | zero => cases ho
      | succ n =>
        have hle : o ≤ min durable n := of_decide_eq_true ho
        exact decide_eq_true (hle.trans (Nat.min_le_left _ _))
  · rw [List.take_of_length_le (by omega)]
    exact ⟨s, truncateSuffix_past hok (by omega), ⟨cs, act, hok, rfl⟩, fun _ h => h⟩

theorem Pending.Waits.take {rs : List Record} {p : Pending} (h : p.Waits 0 rs) {n : ℕ}
    (hlt : p.lastOffset < n) : p.Waits 0 (rs.take n) := by
  have hlast := h.last_eq
  have hlen := h.last_lt
  have hmin : p.lastOffset < (rs.take n).length := by
    rw [List.length_take]
    omega
  exact ⟨Nat.zero_le _, hlast, hmin,
    h.holds.of_isPrefix (k := p.lastOffset + 1) hlast.le (List.take_prefix n rs) hmin⟩

theorem truncateEpochs_state (offset : ℕ) (t : Thread) :
    (t.truncateEpochs offset).state = t.state ∧ (t.truncateEpochs offset).pending = t.pending ∧
      (t.truncateEpochs offset).dirtySince = t.dirtySince := by
  rw [Thread.truncateEpochs]
  split_ifs <;> exact ⟨rfl, rfl, rfl⟩

theorem Ledger.truncateTo (hc : config.Valid) {t : Thread} {rs : List Record}
    (h : Ledger crc config t rs) {n : ℕ} (hspares : ∀ p ∈ t.pending, p.lastOffset < n) :
    Keeping crc config (t.truncateTo crc n) := by
  obtain ⟨s, hrun, hrep, hdurable⟩ := truncateSuffix_durable hc h.queued.represents n
  rw [Thread.truncateTo, hrun]
  have hcut : Ledger crc config (t.withState s) (rs.take n) :=
    ⟨⟨hrep, h.queued.sorted, fun p hp => (h.queued.waits p hp).take (hspares p hp)⟩,
      fun p hp hany => h.waiting p hp (hdurable p.lastOffset hany)⟩
  obtain ⟨hstate, hpending, -⟩ := truncateEpochs_state n (t.withState s)
  exact ⟨rs.take n, hcut.congr hstate hpending, List.forall_mem_singleton.mpr trivial⟩

theorem Ledger.flush {t : Thread} {rs : List Record} (h : Ledger crc config t rs) (clock : Clock) :
    Keeping crc config (t.flush clock) := by
  obtain ⟨cs, act, hok, rfl⟩ := h.queued.represents
  obtain ⟨log, hrun, -, -, -, hok'⟩ := flush_spec hok clock
  rw [Thread.flush, hrun]
  have hflushed : Queued crc config
      (t.withState (log, t.state.2.advance [.fsyncLog t.state.1.active.baseOffset]))
      (cs.flatten ++ act) := ⟨⟨cs, act, hok', rfl⟩, h.queued.sorted, h.queued.waits⟩
  exact ⟨_, Queued.drain (t := { t.withState _ with dirtySince := none }) (hflushed.congr rfl rfl)⟩

theorem Ledger.keeping {t : Thread} {rs : List Record} (h : Ledger crc config t rs) :
    Keeping crc config ([], t) := ⟨rs, h, nofun⟩

theorem Ledger.timeout {t : Thread} {rs : List Record} (h : Ledger crc config t rs)
    (policy : FsyncPolicy) (clock : Clock) : Keeping crc config (t.timeout policy clock) := by
  rw [Thread.timeout]
  split
  · split_ifs
    · exact h.flush clock
    · exact h.keeping
  · exact h.keeping

theorem read_state (offset maxBytes : ℕ) (t : Thread) :
    (t.read crc offset maxBytes).2 = t ∧
      ∃ result, (t.read crc offset maxBytes).1 = [.read result] := by
  have hkeeps := @read_keeps crc (fun s => s = t.state) offset maxBytes t.state rfl
  rw [Thread.read]
  cases hrun : (Log.read crc offset maxBytes).run t.state with
  | ok records s =>
    rw [hrun] at hkeeps
    obtain rfl : s = t.state := hkeeps
    exact ⟨rfl, _, rfl⟩
  | error e s =>
    rw [hrun] at hkeeps
    obtain rfl : s = t.state := hkeeps
    exact ⟨rfl, _, rfl⟩

theorem recordEpoch_state (epoch : UInt64) (t : Thread) :
    (t.recordEpoch epoch).state = t.state ∧ (t.recordEpoch epoch).pending = t.pending ∧
      (t.recordEpoch epoch).dirtySince = t.dirtySince := by
  rw [Thread.recordEpoch]
  split_ifs
  · split <;> exact ⟨rfl, rfl, rfl⟩
  · exact ⟨rfl, rfl, rfl⟩

theorem Ledger.take (hc : config.Valid) {policy : FsyncPolicy} (hpolicy : policy ≠ .os) {t : Thread}
    {rs : List Record} (h : Ledger crc config t rs) {i : Input} (hfits : i.Fits t)
    (hspares : i.Spares t) : Keeping crc config (t.take crc policy i) := by
  have hnext : t.log.nextOffset = rs.length := h.queued.represents.nextOffset_eq
  cases i with
  | timeout clock => exact h.timeout policy clock
  | disconnect clock => exact h.flush clock
  | command cmd clock now =>
    have hroom : rs.length + (Input.command cmd clock now).records ≤ 2 ^ 64 :=
      hnext ▸ Nat.le_of_lt hfits
    cases cmd with
    | append produce answered => exact h.append hc hpolicy hroom answered clock now
    | read offset maxBytes =>
      obtain ⟨hsame, result, hreply⟩ := @read_state crc offset maxBytes t
      rw [Thread.take, Thread.handle, Keeping, hsame, hreply]
      exact ⟨rs, h, List.forall_mem_singleton.mpr trivial⟩
    | appendReplicated records => exact h.appendReplicated hc hroom clock now hspares
    | truncateTo n => exact h.truncateTo hc hspares
    | recordEpoch epoch =>
      obtain ⟨hstate, hpending, -⟩ := recordEpoch_state epoch t
      exact ⟨rs, h.congr hstate hpending, fun _ hreply => absurd hreply List.not_mem_nil⟩
    | epochStatus => exact ⟨rs, h, List.forall_mem_singleton.mpr trivial⟩
    | epochEndFor epoch => exact ⟨rs, h, List.forall_mem_singleton.mpr trivial⟩

/-! ## Runs -/

private theorem spawn_ledger (hc : config.Valid) {d : Dir} {clock : Clock}
    {epochFile : Option (List UInt8)} {t : Thread}
    (h : Storage.Lived crc (Partition.logConfig config) Storage.Loses (.down d))
    (hspawn : Thread.spawn crc config clock d epochFile = some t) :
    ∃ rs, Ledger crc (Partition.logConfig config) t rs := by
  rw [Thread.spawn] at hspawn
  split at hspawn
  · rename_i log fs hrun
    obtain ⟨epochs, -, rfl⟩ := Option.map_eq_some_iff.mp hspawn
    obtain ⟨rs, hrep⟩ := Lived.ok (logConfig_valid hc) (Storage.Lived.opened h hrun)
    exact ⟨rs, ⟨hrep, .nil, fun _ h => absurd h List.not_mem_nil⟩,
      fun _ h => absurd h List.not_mem_nil⟩
  · cases hspawn

theorem Thread.Ran.ledger (hc : config.Valid) (hpolicy : config.fsync ≠ .os) {t : Thread}
    (h : t.Ran crc config fun t i => i.Spares t) :
    ∃ rs, Ledger crc (Partition.logConfig config) t rs := by
  induction h with
  | spawned h hspawn => exact spawn_ledger hc h hspawn
  | took _ i hfits hspares _ ih =>
    obtain ⟨rs, hledger⟩ := ih
    obtain ⟨rs', hledger', -⟩ := hledger.take (logConfig_valid hc) hpolicy hfits hspares
    exact ⟨rs', hledger'⟩

theorem Ledger.serves (hc : config.Valid) {t : Thread} {rs : List Record}
    (h : Ledger crc (Partition.logConfig config) t rs) : Serves crc config t rs := by
  have hrep := h.queued.represents
  refine ⟨hrep.refines (logConfig_valid hc), fun i r hr => ?_⟩
  rw [hrep.numbered.offset_eq hr, Nat.zero_add]

/-- As long as truncations spare the waiting records, and leaders' records make no log flush while
appends wait, an append is answered when its records are there and durable, and no one who could
be answered waits. -/
theorem ledger_exact (hconfig : config.validate = .ok ()) (hpolicy : config.fsync ≠ .os)
    {t : Thread} (h : t.Ran crc config fun t i => i.Spares t) {i : Input} (hfits : i.Fits t)
    (hspares : i.Spares t) : Exact crc config (t.take crc config.fsync i) := by
  have hc := config.validate_eq_ok_iff.mp hconfig
  obtain ⟨rs, hledger⟩ := h.ledger hc hpolicy
  obtain ⟨rs', hledger', hout⟩ := hledger.take (logConfig_valid hc) hpolicy hfits hspares
  exact ⟨rs', hledger'.queued.represents.length_le, hledger'.serves hc, hout, hledger'.waiting⟩

section Batch

def batchConfig : LogConfig := ⟨1024, 64, 1024, .batch 50 10⟩

/-- A partition that has just been started. -/
def startedThread : Thread :=
  { log := ⟨Partition.logConfig batchConfig, [], ⟨0, ⟨[]⟩, 0, 0, 0⟩, none, 0, 0⟩
    fs := Fs.advance ⟨Dir.empty, [], []⟩ [.createLog 0, .createIndex 0]
    epochs := ⟨[]⟩
    epochFile := none
    pending := []
    dirtySince := none }

def appendInput (value : List UInt8) (acks : Acks) : Input :=
  inputAt (.append ⟨[(none, value)], acks⟩ true)

def Thread.afterAll (inputs : List Input) : Thread :=
  inputs.foldl (fun t i => (t.take (fun _ => 0) batchConfig.fsync i).2) startedThread

theorem startedThread_ran (guard : Thread → Input → Prop) :
    startedThread.Ran (fun _ => 0) batchConfig guard :=
  @Thread.Ran.spawned _ _ _ _ ⟨0, 0⟩ none _ .new rfl

/-- The flush comes in time, and the append that has waited for it is answered. -/
theorem ledger_exact_flushed :
    ((Thread.afterAll [appendInput [7] .durable]).take (fun _ => 0) batchConfig.fsync
      (.timeout ⟨0, 10⟩)).1 = [.append ⟨[(none, [7])], .durable⟩ (.ok (0, 1))] ∧
    Exact (fun _ => 0) batchConfig ((Thread.afterAll [appendInput [7] .durable]).take (fun _ => 0)
      batchConfig.fsync (.timeout ⟨0, 10⟩)) := by
  have hran : (Thread.afterAll [appendInput [7] .durable]).Ran (fun _ => 0) batchConfig
      fun t i => i.Spares t :=
    (startedThread_ran _).took (appendInput [7] .durable)
      (by decide) trivial trivial
  exact ⟨rfl, ledger_exact rfl (by decide) hran (by decide) trivial⟩

/-- The record of an append that waits is cut off and another one takes its offset; or a leader's
record makes the log flush and no one is answered. -/
theorem ledger_breaks :
    (∃ t : Thread, t.Ran (fun _ => 0) batchConfig (fun _ _ => True) ∧ ∃ i : Input, i.Fits t ∧
      .append ⟨[(none, [7])], .durable⟩ (.ok (0, 1)) ∈
        (t.take (fun _ => 0) batchConfig.fsync i).1 ∧
      ¬ Exact (fun _ => 0) batchConfig (t.take (fun _ => 0) batchConfig.fsync i)) ∧
    ∃ t : Thread, t.Ran (fun _ => 0) batchConfig (fun _ _ => True) ∧ ∃ i : Input, i.Fits t ∧
      (t.take (fun _ => 0) batchConfig.fsync i).2.pending ≠ [] ∧
      ¬ Exact (fun _ => 0) batchConfig (t.take (fun _ => 0) batchConfig.fsync i) := by
  have hwaiting : (Thread.afterAll [appendInput [7] .durable]).Ran (fun _ => 0) batchConfig
      fun _ _ => True :=
    (startedThread_ran _).took (appendInput [7] .durable)
      (by decide) trivial trivial
  have hcut : (Thread.afterAll [appendInput [7] .durable, inputAt (.truncateTo 0)]).Ran (fun _ => 0)
      batchConfig fun _ _ => True :=
    hwaiting.took (inputAt (.truncateTo 0))
      (by decide) trivial trivial
  have hanswers : ((Thread.afterAll [appendInput [7] .durable, inputAt (.truncateTo 0)]).take
      (fun _ => 0) batchConfig.fsync (appendInput [9] .none)).1 =
    [.append ⟨[(none, [9])], .none⟩ (.ok (0, 1)), .append ⟨[(none, [7])], .durable⟩ (.ok (0, 1))] :=
    rfl
  refine ⟨⟨_, hcut, appendInput [9] .none, by decide +kernel, ?_, ?_⟩, _, hwaiting,
    inputAt (.appendReplicated [⟨1, 0, none, [9]⟩]), by decide, ?_, ?_⟩
  · rw [hanswers]
    exact List.mem_cons_of_mem _ List.mem_cons_self
  · rintro ⟨rs, hlen, hserves, hout, -⟩
    rw [hanswers] at hout
    obtain rfl : rs = [⟨0, 0, none, [9]⟩] := hserves.refines.eq_singleton hlen rfl rfl
    have hholds := (hout _ (List.mem_cons_of_mem _ List.mem_cons_self) (.inl rfl)).1
    exact absurd hholds.1 (by decide)
  · exact List.cons_ne_nil _ _
  · rintro ⟨rs, -, -, -, hwait⟩
    exact hwait ⟨0, 0, 1, ⟨[(none, [7])], .durable⟩⟩ List.mem_cons_self rfl

end Batch

end Replog.Partition
