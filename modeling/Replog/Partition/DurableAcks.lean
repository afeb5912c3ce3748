import Replog.Partition.LogWrites

/-!
# A durable append stays

A standalone partition takes appends, reads and timeouts, and may crash at any file operation: the
power may fail, and what is not synced is lost. Whatever was answered as durable is there after
every restart, where it was.
-/

namespace Replog.Partition
open Replog.Library
open Replog.Storage
open Replog.Proto (Acks ErrorCode)

/-- What happens to the thread of a standalone partition. -/
inductive Event where
  | append (produce : Produce) (answered : Bool) (clock : ℕ → Clock) (now : ℕ)
  | read (offset maxBytes : ℕ)
  | timeout (clock : Clock)
  | disconnect (clock : Clock)

/-- The number of records that come in. -/
def Event.records : Event → ℕ
  | .append produce _ _ _ => produce.records.length
  | _ => 0

/-- Offsets are `u64`. -/
def Event.Fits (e : Event) (t : Thread) : Prop := t.log.nextOffset + e.records ≤ 2 ^ 64

instance (e : Event) (t : Thread) : Decidable (e.Fits t) := Nat.decLe _ _

namespace Thread

variable (crc : List UInt8 → UInt32)

def react (policy : FsyncPolicy) (t : Thread) : Event → List Reply × Thread
  | .append produce answered clock now => t.append crc policy produce answered clock now
  | .read offset maxBytes => t.read crc offset maxBytes
  | .timeout clock => t.timeout policy clock
  | .disconnect clock => t.flush clock

end Thread

/-- A running partition, or the directory of one that is not running. -/
inductive Phase where
  | up (t : Thread)
  | down (d : Dir)

/-- The thread ends once nobody can send to it. -/
def Event.next (t : Thread) : Event → Phase
  | .disconnect _ => .down t.fs.dir
  | _ => .up t

/-- The process dies, or the power fails. -/
def Loses (d d' : Dir) : Prop := d' = d ∨ PowerLoss d d'

/-- The runs of a standalone partition with all replies given so far. A crash comes at any point
of what the thread does or of a restart, before the replies of that step. -/
inductive Reachable (crc : List UInt8 → UInt32) (config : LogConfig) : Phase → List Reply → Prop
  | new : Reachable crc config (.down .empty) []
  | started {d : Dir} {out : List Reply} {clock : Clock} {t : Thread}
      (h : Reachable crc config (.down d) out)
      (hspawn : Thread.spawn crc config clock d none = some t) : Reachable crc config (.up t) out
  | reacted {t : Thread} {out : List Reply} (h : Reachable crc config (.up t) out) (e : Event)
      (hfits : e.Fits t) :
      Reachable crc config (e.next (t.react crc config.fsync e).2)
        (out ++ (t.react crc config.fsync e).1)
  | crashed {t : Thread} {out : List Reply} (h : Reachable crc config (.up t) out) {e : Event}
      (hfits : e.Fits t) {ops : List FsOp} {d d' : Dir}
      (htrace : (t.react crc config.fsync e).2.fs.trace = t.fs.trace ++ ops)
      (hcrash : CrashPoint t.fs.dir ops d) (hloss : Loses d d') :
      Reachable crc config (.down d') out
  | crashedStarting {d d' d'' : Dir} {out : List Reply} {clock : Clock} {t : Thread}
      (h : Reachable crc config (.down d) out)
      (hspawn : Thread.spawn crc config clock d none = some t)
      (hcrash : CrashPoint d t.fs.trace d') (hloss : Loses d' d'') :
      Reachable crc config (.down d'') out

/-- The records at `base` and after are those of an append. -/
def Holds (rs : List Record) (base count : ℕ) (records : List KeyValue) : Prop :=
  ((rs.drop base).take count).map keyValue = records ∧ count = records.length

/-- If the reply promises that records are durable, they are there. -/
def Reply.Present (rs : List Record) : Reply → Prop
  | .append produce (.ok (base, count)) =>
    produce.acks = .durable ∨ produce.acks = .all → Holds rs base count produce.records
  | _ => True

/-- If the reply promises that records are durable, they are among the first `k`. -/
def Reply.Stands (rs : List Record) (k : ℕ) : Reply → Prop
  | .append produce (.ok (base, count)) =>
    produce.acks = .durable ∨ produce.acks = .all →
      Holds rs base count produce.records ∧ (base + count ≤ k ∨ count = 0)
  | _ => True

theorem Holds.append {rs : List Record} {base count : ℕ} {records : List KeyValue}
    (h : Holds rs base count records) (hle : base + count ≤ rs.length) (more : List Record) :
    Holds (rs ++ more) base count records := by
  rw [Holds, List.drop_append_of_le_length (by omega),
    List.take_append_of_le_length (by rw [List.length_drop]; omega)]
  exact h

theorem Holds.of_isPrefix {rs rs' : List Record} {base count k : ℕ} {records : List KeyValue}
    (h : Holds rs base count records) (hle : base + count ≤ k) (hpre : rs' <+: rs)
    (hk : k ≤ rs'.length) : Holds rs' base count records := by
  obtain ⟨more, rfl⟩ := hpre
  rw [Holds, List.drop_append_of_le_length (by omega),
    List.take_append_of_le_length (by rw [List.length_drop]; omega)] at h
  exact h

theorem holds_zero {rs : List Record} {base : ℕ} : Holds rs base 0 [] := ⟨by simp, rfl⟩

theorem Holds.eq_nil {rs : List Record} {base : ℕ} {records : List KeyValue}
    (h : Holds rs base 0 records) : records = [] := List.length_eq_zero_iff.mp h.2.symm

theorem Reply.Stands.present {rs : List Record} {k : ℕ} {reply : Reply}
    (h : reply.Stands rs k) : reply.Present rs := by
  cases reply with
  | append produce result =>
    cases result with
    | ok value => exact fun hacks => (h hacks).1
    | error => trivial
  | _ => trivial

theorem Reply.Stands.append {rs : List Record} {k k' : ℕ} {reply : Reply} (h : reply.Stands rs k)
    (hk : k ≤ rs.length) (hle : k ≤ k') (more : List Record) : reply.Stands (rs ++ more) k' := by
  cases reply with
  | append produce result =>
    cases result with
    | ok value =>
      intro hacks
      obtain ⟨hholds, hkept | hzero⟩ := h hacks
      · exact ⟨hholds.append (by omega) more, .inl (by omega)⟩
      · rw [hzero] at hholds
        rw [hzero, hholds.eq_nil]
        exact ⟨holds_zero, .inr rfl⟩
    | error => trivial
  | _ => trivial

theorem Reply.Stands.of_isPrefix {rs rs' : List Record} {k : ℕ} {reply : Reply}
    (h : reply.Stands rs k) (hpre : rs' <+: rs) (hk : k ≤ rs'.length) : reply.Stands rs' k := by
  cases reply with
  | append produce result =>
    cases result with
    | ok value =>
      intro hacks
      obtain ⟨hholds, hkept | hzero⟩ := h hacks
      · exact ⟨hholds.of_isPrefix hkept hpre hk, .inl hkept⟩
      · rw [hzero] at hholds
        rw [hzero, hholds.eq_nil]
        exact ⟨holds_zero, .inr rfl⟩
    | error => trivial
  | _ => trivial

/-! ## The queue -/

variable {crc : List UInt8 → UInt32} {config : LogConfig}

/-- The records of an append that waits are in the log, past what was there at the start. -/
structure Pending.Waits (opened : ℕ) (rs : List Record) (p : Pending) : Prop where
  opened_le : opened ≤ p.lastOffset
  last_eq : p.baseOffset + p.count = p.lastOffset + 1
  last_lt : p.lastOffset < rs.length
  holds : Holds rs p.baseOffset p.count p.produce.records

theorem Pending.Waits.append {opened : ℕ} {rs : List Record} {p : Pending}
    (h : p.Waits opened rs) (more : List Record) : p.Waits opened (rs ++ more) := by
  have hlast := h.last_eq
  have hlt := h.last_lt
  refine ⟨h.opened_le, hlast, ?_, h.holds.append (by omega) more⟩
  rw [List.length_append]
  omega

/-- The thread of a partition while it runs. -/
structure Inv (crc : List UInt8 → UInt32) (config : LogConfig) (t : Thread) (out : List Reply)
    (rs : List Record) (k opened : ℕ) : Prop where
  log : LogInv crc config LogFile.stable t.state rs k opened
  opened_le : opened ≤ rs.length
  pending : ∀ p ∈ t.pending, p.Waits opened rs
  out : ∀ reply ∈ out, reply.Stands rs k

/-- An answer to an append whose last record is durable. -/
theorem LogInv.acked {s : Log × Fs} {rs : List Record} {k opened last : ℕ}
    (h : LogInv crc config LogFile.stable s rs k opened) (hopened : opened ≤ last)
    (hdurable : s.1.durableOffset.any (last ≤ ·) = true) : last < k := by
  obtain ⟨d, hd, hle⟩ := Option.any_eq_true _ _ |>.mp hdurable
  have hlast : last ≤ d := of_decide_eq_true hle
  have hstays := h.durable d hd
  omega

private theorem drainPending_inv {s : Log × Fs} {rs : List Record} {k opened : ℕ}
    (h : LogInv crc config LogFile.stable s rs k opened) {pending : List Pending}
    (hpending : ∀ p ∈ pending, p.Waits opened rs) :
    (∀ reply ∈ (Thread.drainPending s.1.durableOffset pending).1, reply.Stands rs k) ∧
      ∀ p ∈ (Thread.drainPending s.1.durableOffset pending).2, p ∈ pending := by
  induction pending with
  | nil => exact ⟨nofun, nofun⟩
  | cons p rest ih =>
    obtain ⟨hp, hrest⟩ := List.forall_mem_cons.mp hpending
    obtain ⟨hout, hleft⟩ := ih hrest
    rw [Thread.drainPending]
    split_ifs with hdurable
    · have hlt := h.acked hp.opened_le hdurable
      have hlast := hp.last_eq
      refine ⟨List.forall_mem_cons.mpr ⟨fun _ => ⟨hp.holds, .inl (by omega)⟩, hout⟩, ?_⟩
      exact fun p' hp' => List.mem_cons_of_mem _ (hleft p' hp')
    · exact ⟨nofun, fun _ => id⟩

theorem Inv.drain {t : Thread} {out : List Reply} {rs : List Record} {k opened : ℕ}
    (h : Inv crc config t out rs k opened) :
    Inv crc config t.drain.2 (out ++ t.drain.1) rs k opened := by
  obtain ⟨hout, hleft⟩ := drainPending_inv h.log h.pending
  refine ⟨h.log, h.opened_le, fun p hp => h.pending p (hleft p hp), fun reply hreply => ?_⟩
  rcases List.mem_append.mp hreply with hold | hnew
  · exact h.out reply hold
  · exact hout reply hnew

theorem Inv.reply {t : Thread} {out : List Reply} {rs : List Record} {k opened : ℕ}
    (h : Inv crc config t out rs k opened) (reply : Reply) (hreply : reply.Stands rs k) :
    Inv crc config t (out ++ [reply]) rs k opened := by
  refine ⟨h.log, h.opened_le, h.pending, fun r hr => ?_⟩
  rcases List.mem_append.mp hr with hold | hnew
  · exact h.out r hold
  · exact List.mem_singleton.mp hnew ▸ hreply

theorem Inv.congr {t t' : Thread} {out : List Reply} {rs : List Record} {k opened : ℕ}
    (h : Inv crc config t out rs k opened) (hstate : t'.state = t.state)
    (hpending : t'.pending = t.pending) : Inv crc config t' out rs k opened :=
  ⟨hstate ▸ h.log, h.opened_le, hpending ▸ h.pending, h.out⟩

theorem Inv.withState {t : Thread} {s : Log × Fs} {out : List Reply} {rs more : List Record}
    {k k' opened : ℕ} (h : Inv crc config t out rs k opened)
    (hlog : LogInv crc config LogFile.stable s (rs ++ more) k' opened) (hle : k ≤ k') :
    Inv crc config (t.withState s) out (rs ++ more) k' opened := by
  refine ⟨hlog, h.opened_le.trans (by simp), fun p hp => (h.pending p hp).append more,
    fun reply hreply => (h.out reply hreply).append h.log.kept_le hle more⟩

theorem answerAppend_inv {policy : FsyncPolicy} (hpolicy : policy ≠ .os) {produce : Produce}
    {p : Thread.Progress} {t : Thread} {out : List Reply} {rs more : List Record} {k opened : ℕ}
    (h : Inv crc config t out (rs ++ more) k opened) (hopened : opened ≤ rs.length)
    (hcovers : p.error = none →
      Thread.Progress.Covers ⟨none, 0, none⟩ p rs.length produce.records more) :
    Inv crc config (t.answerAppend policy produce p).2
      (out ++ (t.answerAppend policy produce p).1) (rs ++ more) k opened := by
  obtain ⟨base, count, error⟩ := p
  cases error with
  | some code => exact h.reply (.append produce (.error code)) trivial
  | none =>
    obtain ⟨hwritten, hcount, hbase⟩ := hcovers rfl
    simp only [Nat.zero_add, Option.none_or] at hcount hbase
    by_cases hnil : produce.records = []
    · rw [if_pos hnil] at hbase
      subst hbase
      refine h.reply (.append produce (.ok (_, 0))) fun _ => ?_
      rw [hnil]
      exact ⟨holds_zero, .inr rfl⟩
    · rw [if_neg hnil] at hbase
      subst hbase
      have hpos := List.length_pos_of_ne_nil hnil
      have hmore : more.length = produce.records.length := by rw [← hwritten, List.length_map]
      have hnext : t.log.nextOffset = (rs ++ more).length := h.log.represents.nextOffset_eq
      have hend : (rs ++ more).length = rs.length + count := by
        rw [List.length_append, hmore, hcount]
      have hholds : Holds (rs ++ more) rs.length count produce.records := by
        refine ⟨?_, hcount⟩
        rw [List.drop_left, List.take_of_length_le (by omega), hwritten]
      simp only [Thread.answerAppend]
      split_ifs with hacked
      · refine h.reply (.append produce (.ok (rs.length, count))) fun hacks => ?_
        have hany : t.log.durableOffset.any (t.log.nextOffset - 1 ≤ ·) = true := by
          rcases hacks with hacks | hacks <;> simpa [Thread.ackedNow, hacks, hpolicy] using hacked
        have hlt := h.log.acked (by omega) hany
        exact ⟨hholds, .inl (by omega)⟩
      · rw [List.append_nil]
        refine ⟨h.log, h.opened_le, fun p hp => ?_, h.out⟩
        rcases List.mem_append.mp hp with hold | hnew
        · exact h.pending p hold
        · rw [List.mem_singleton.mp hnew]
          exact ⟨by dsimp only; omega, by dsimp only; omega, by dsimp only; omega, hholds⟩

/-! ## The steps -/

/-- A step of the thread writes records behind those there were, passing through directories on
the way to them, and gives replies. -/
def Reacts (crc : List UInt8 → UInt32) (config : LogConfig) (t : Thread) (out : List Reply)
    (rs : List Record) (k opened : ℕ) (r : List Reply × Thread) : Prop :=
  ∃ more k' ops, r.2.fs = t.fs.advance ops ∧
    Inv crc config r.2 (out ++ r.1) (rs ++ more) k' opened ∧
    Passes (Writing crc config LogFile.stable rs k) t.fs ops

theorem Inv.reacts_self {t : Thread} {out : List Reply} {rs : List Record} {k opened : ℕ}
    (h : Inv crc config t out rs k opened) : Reacts crc config t out rs k opened ([], t) := by
  refine ⟨[], k, [], (Fs.advance_nil h.log.represents.healthy).symm, ?_, .nil h.log.writing⟩
  rw [List.append_nil, List.append_nil]
  exact h

theorem answerAppend_fs (policy : FsyncPolicy) (produce : Produce) (p : Thread.Progress)
    (t : Thread) : (t.answerAppend policy produce p).2.fs = t.fs := by
  simp only [Thread.answerAppend]
  split
  · rfl
  · rfl
  · split_ifs <;> rfl

private theorem append_reacts (hc : config.Valid) {policy : FsyncPolicy} (hpolicy : policy ≠ .os)
    {t : Thread} {out : List Reply} {rs : List Record} {k opened : ℕ}
    (h : Inv crc config t out rs k opened) {produce : Produce}
    (hroom : rs.length + produce.records.length ≤ 2 ^ 64) (answered : Bool) (clock : ℕ → Clock)
    (now : ℕ) :
    Reacts crc config t out rs k opened (t.append crc policy produce answered clock now) := by
  obtain ⟨more, k', ops, hfs, hle, hlog, hpasses, hcovers⟩ :=
    appendAll_inv LogFile.enduring_stable hc clock ⟨none, 0, none⟩ h.log hroom
  have hwritten : Inv crc config ((t.withState _).refreshDirty now) out (rs ++ more) k' opened :=
    (h.withState hlog hle).congr rfl rfl
  simp only [Thread.append]
  generalize Thread.appendAll crc produce.records clock ⟨none, 0, none⟩ t.state = result at *
  obtain ⟨p, s⟩ := result
  cases answered with
  | false =>
    exact ⟨more, k', ops, hfs, hwritten.drain, hpasses⟩
  | true =>
    have hanswered := (answerAppend_inv hpolicy hwritten h.opened_le hcovers).drain
    rw [List.append_assoc] at hanswered
    refine ⟨more, k', ops, ?_, hanswered, hpasses⟩
    exact (answerAppend_fs _ _ _ _).trans hfs

theorem flush_reacts {t : Thread} {out : List Reply} {rs : List Record} {k opened : ℕ}
    (h : Inv crc config t out rs k opened) (clock : Clock) :
    Reacts crc config t out rs k opened (t.flush clock) := by
  obtain ⟨log, k', hrun, hle, hlog, hpasses⟩ := flush_inv LogFile.enduring_stable h.log clock
  have hflushed : Inv crc config (t.withState _) out (rs ++ []) k' opened :=
    h.withState ((List.append_nil rs).symm ▸ hlog) hle
  refine ⟨[], k', [.fsyncLog t.log.active.baseOffset], ?_, ?_, hpasses⟩
  · simp only [Thread.flush, hrun]
    rfl
  · simp only [Thread.flush, hrun]
    exact Inv.drain (t := { t.withState _ with dirtySince := none }) (hflushed.congr rfl rfl)

private theorem read_reacts (hc : config.Valid) {t : Thread} {out : List Reply} {rs : List Record}
    {k opened : ℕ} (h : Inv crc config t out rs k opened) (offset maxBytes : ℕ) :
    Reacts crc config t out rs k opened (t.read crc offset maxBytes) := by
  have hself : t.state.2.advance [] = t.state.2 := Fs.advance_nil h.log.represents.healthy
  have hreply : ∀ result, Reacts crc config t out rs k opened ([.read result], t) := fun result =>
    ⟨[], k, [], hself.symm, (List.append_nil rs).symm ▸ h.reply (.read result) trivial,
      .nil h.log.writing⟩
  have hreads := h.log.represents.reads hc
  simp only [Thread.read]
  rcases Nat.lt_trichotomy offset rs.length with hlt | rfl | hgt
  · obtain ⟨run, hrun, -⟩ := hreads.inside offset hlt maxBytes
    rw [hrun]
    exact hreply _
  · rw [hreads.atEnd maxBytes]
    exact hreply _
  · rw [hreads.past offset hgt maxBytes]
    exact hreply _

theorem react_reacts (hc : config.Valid) {policy : FsyncPolicy} (hpolicy : policy ≠ .os)
    {t : Thread} {out : List Reply} {rs : List Record} {k opened : ℕ}
    (h : Inv crc config t out rs k opened) {e : Event} (hfits : e.Fits t) :
    Reacts crc config t out rs k opened (t.react crc policy e) := by
  cases e with
  | append produce answered clock now =>
    refine append_reacts hc hpolicy h ?_ answered clock now
    have hnext : t.log.nextOffset = rs.length := h.log.represents.nextOffset_eq
    exact hnext ▸ hfits
  | read offset maxBytes => exact read_reacts hc h offset maxBytes
  | timeout clock =>
    simp only [Thread.react, Thread.timeout]
    split
    · split_ifs
      · exact flush_reacts h clock
      · exact h.reacts_self
    · exact h.reacts_self
  | disconnect clock => exact flush_reacts h clock

/-! ## Runs -/

/-- A directory that opens with every record that has to stay. -/
inductive Down (crc : List UInt8 → UInt32) (config : LogConfig) (out : List Reply) : Dir → Prop
  | empty (hout : ∀ reply ∈ out, reply.Stands [] 0) : Down crc config out .empty
  | left {rs : List Record} {k : ℕ} {d : Dir} (hleft : Left crc config rs d)
      (hkept : Kept LogFile.stable rs k d) (hk : k ≤ rs.length)
      (hout : ∀ reply ∈ out, reply.Stands rs k) : Down crc config out d

theorem Down.loses (hc : config.Valid) {out : List Reply} {d d' : Dir}
    (h : Down crc config out d) (hloss : Loses d d') : Down crc config out d' := by
  rcases hloss with rfl | hpower
  · exact h
  cases h with
  | empty hout =>
    obtain ⟨newest, n, hdamage, -⟩ := hpower
    obtain ⟨f, synced, hf, -⟩ := hdamage.newest_log
    cases hf
  | left hleft hkept hk hout =>
    obtain ⟨rs', hpre, hk', hleft', hkept'⟩ := hleft.powerLoss hc hkept hk hpower
    exact .left hleft' hkept' hk' fun reply hreply => (hout reply hreply).of_isPrefix hpre hk'

theorem Writing.down (hc : config.Valid) {rs : List Record} {k : ℕ} {d : Dir} {out : List Reply}
    (h : Writing crc config LogFile.stable rs k d) (hk : k ≤ rs.length)
    (hout : ∀ reply ∈ out, reply.Stands rs k) : Down crc config out d := by
  obtain ⟨more, hreaches, hkept⟩ := h
  have hk' : k ≤ (rs ++ more).length := hk.trans (by simp)
  obtain ⟨rs', hpre, hle, hleft, hkept'⟩ :=
    hreaches.left LogFile.enduring_stable hc hkept hk'
  exact .left hleft hkept' hle fun reply hreply =>
    ((hout reply hreply).append hk le_rfl more).of_isPrefix hpre hle

private theorem empty_passes {out : List Reply} (hout : ∀ reply ∈ out, reply.Stands [] 0) :
    Passes (Down crc config out) ⟨Dir.empty, [], []⟩ [.createLog 0, .createIndex 0] := by
  have hmade : ∀ {d : Dir}, (∀ b, d.log b = if b = 0 then some ⟨[], 0⟩ else none) →
      Down crc config out d := fun h =>
    have ⟨hleft, hkept⟩ := left_nil h
    .left hleft hkept le_rfl hout
  have hcreated : Down crc config out ((FsOp.createLog 0).apply .empty) := hmade fun b => by simp
  exact .cons (.empty hout) (fun _ => .empty hout)
    (.cons hcreated (fun _ => hcreated) (.nil (hmade fun b => by simp)))

/-- The thread of a partition that was opened without an epoch checkpoint. -/
theorem spawn_eq {clock : Clock} {d : Dir} {log : Log} {fs : Fs}
    (hrun : (Log.openDir crc (Partition.logConfig config) clock).run ⟨d, [], []⟩ = .ok log fs) :
    Thread.spawn crc config clock d none =
      some { log, fs, epochs := ⟨[]⟩, epochFile := none, pending := [], dirtySince := none } := by
  rw [Thread.spawn, hrun]
  rfl

/-- A restart finds every record that has to stay, whatever time it is and wherever it stops. -/
theorem Down.spawn (hvalid : config.Valid) {out : List Reply} {d : Dir}
    (h : Down crc (Partition.logConfig config) out d) (clock : Clock) :
    ∃ t rs k, Thread.spawn crc config clock d none = some t ∧
      Inv crc (Partition.logConfig config) t out rs k rs.length ∧
      ∀ d', CrashPoint d t.fs.trace d' → Down crc (Partition.logConfig config) out d' := by
  have hc := logConfig_valid hvalid
  cases h with
  | empty hout =>
    obtain ⟨log, hrun, hok, hdurable⟩ := openDir_empty_run crc hc clock
    have hmade := @left_nil crc (Partition.logConfig config) LogFile.stable
      (Fs.advance ⟨Dir.empty, [], []⟩ [.createLog 0, .createIndex 0]).dir fun b => by simp
    refine ⟨_, [], 0, spawn_eq hrun, ⟨⟨⟨[], [], hok, rfl⟩, hmade.2, le_rfl, fun d hd => ?_⟩,
      le_rfl, fun _ hp => (List.not_mem_nil hp).elim, hout⟩, empty_passes hout⟩
    rw [Thread.state, hdurable] at hd
    cases hd
  | @left rs k _ hleft hkept hk hout =>
    obtain ⟨log, ops, hrun, hrep, hdurable, hpasses⟩ :=
      hleft.open LogFile.enduring_stable hc hkept clock
    refine ⟨_, rs, k, spawn_eq hrun, ⟨⟨hrep, hpasses.last.2, hk, fun d hd => ?_⟩, le_rfl,
      fun _ hp => (List.not_mem_nil hp).elim, hout⟩, fun d' hd' => ?_⟩
    · rw [Thread.state, hdurable] at hd
      exact .inr (checkedPred_eq_some hd)
    · obtain ⟨hleft', hkept'⟩ := hpasses d' hd'
      exact .left hleft' hkept' hk hout

/-- The invariant of a partition, running or not. -/
def Phase.Ok (crc : List UInt8 → UInt32) (config : LogConfig) (out : List Reply) : Phase → Prop
  | .up t => ∃ rs k opened, Inv crc config t out rs k opened
  | .down d => Down crc config out d

theorem Inv.next (hc : config.Valid) {t : Thread} {out : List Reply} {rs : List Record}
    {k opened : ℕ} (h : Inv crc config t out rs k opened) (e : Event) :
    (e.next t).Ok crc config out := by
  cases e with
  | disconnect => exact h.log.writing.down hc h.log.kept_le h.out
  | _ => exact ⟨rs, k, opened, h⟩

theorem Reachable.ok (hvalid : config.Valid) (hpolicy : config.fsync ≠ .os) {phase : Phase}
    {out : List Reply} (h : Reachable crc config phase out) :
    phase.Ok crc (Partition.logConfig config) out := by
  have hc := logConfig_valid hvalid
  induction h with
  | new => exact .empty nofun
  | @started d out clock t _ hspawn ih =>
    obtain ⟨t', rs, k, hspawn', hinv, -⟩ := Down.spawn hvalid ih clock
    rw [hspawn] at hspawn'
    cases hspawn'
    exact ⟨rs, k, _, hinv⟩
  | reacted _ e hfits ih =>
    obtain ⟨rs, k, opened, hinv⟩ := ih
    obtain ⟨more, k', ops, -, hinv', -⟩ := react_reacts hc hpolicy hinv hfits
    exact hinv'.next hc e
  | crashed _ hfits htrace hcrash hloss ih =>
    obtain ⟨rs, k, opened, hinv⟩ := ih
    obtain ⟨more, k', ops, hfs, -, hpasses⟩ := react_reacts hc hpolicy hinv hfits
    rw [hfs] at htrace
    obtain rfl := List.append_cancel_left htrace
    exact ((hpasses _ hcrash).down hc hinv.log.kept_le hinv.out).loses hc hloss
  | @crashedStarting d d' d'' out clock t _ hspawn hcrash hloss ih =>
    obtain ⟨t', rs, k, hspawn', -, hpasses⟩ := Down.spawn hvalid ih clock
    rw [hspawn] at hspawn'
    cases hspawn'
    exact (hpasses _ hcrash).loses hc hloss

/-- The partition serves exactly `rs`, each record at its offset. -/
structure Serves (crc : List UInt8 → UInt32) (config : LogConfig) (t : Thread)
    (rs : List Record) : Prop where
  refines : Refines crc (Partition.logConfig config) t.state rs
  offset_eq : ∀ (i : ℕ) (r : Record), rs[i]? = some r → r.offset = i

/-- The partition has what it promised. -/
def Keeps (crc : List UInt8 → UInt32) (config : LogConfig) (out : List Reply) (t : Thread) : Prop :=
  ∃ rs, Serves crc config t rs ∧ ∀ reply ∈ out, reply.Present rs

theorem Inv.keeps (hvalid : config.Valid) {t : Thread} {out : List Reply} {rs : List Record}
    {k opened : ℕ} (h : Inv crc (Partition.logConfig config) t out rs k opened) :
    Keeps crc config out t := by
  have hrep := h.log.represents
  refine ⟨rs, ⟨hrep.refines (logConfig_valid hvalid), fun i r hr => ?_⟩, fun reply hreply =>
    (h.out reply hreply).present⟩
  rw [hrep.numbered.offset_eq hr, Nat.zero_add]

/-- What a running partition has promised is there; one that is not running can be started at any
time, and then it is there. -/
def Phase.Keeps (crc : List UInt8 → UInt32) (config : LogConfig) (out : List Reply) : Phase → Prop
  | .up t => Partition.Keeps crc config out t
  | .down d => ∀ clock, ∃ t, Thread.spawn crc config clock d none = some t ∧
      Partition.Keeps crc config out t

/-- Records whose append was answered as durable stay at their offsets, whatever crashes and
restarts come. -/
theorem acked_durable (hconfig : config.validate = .ok ()) (hpolicy : config.fsync ≠ .os)
    {phase : Phase} {out : List Reply} (h : Reachable crc config phase out) :
    phase.Keeps crc config out := by
  have hvalid := config.validate_eq_ok_iff.mp hconfig
  have hok := h.ok hvalid hpolicy
  cases phase with
  | up t =>
    obtain ⟨rs, k, opened, hinv⟩ := hok
    exact hinv.keeps hvalid
  | down d =>
    intro clock
    obtain ⟨t, rs, k, hspawn, hinv, -⟩ := Down.spawn hvalid hok clock
    exact ⟨t, hspawn, hinv.keeps hvalid⟩

section Torn

def syncingConfig : LogConfig := ⟨1024, 64, 1024, .always⟩

def durableAppend (value : List UInt8) : Event :=
  .append ⟨[(none, value)], .durable⟩ true (fun _ => ⟨0, 0⟩) 0

/-- A partition that has just been started, and what it does with one append. -/
def freshThread : Thread :=
  { log := ⟨syncingConfig, [], ⟨0, ⟨[]⟩, 0, 0, 0⟩, none, 0, 0⟩
    fs := Fs.advance ⟨Dir.empty, [], []⟩ [.createLog 0, .createIndex 0]
    epochs := ⟨[]⟩
    epochFile := none
    pending := []
    dirtySince := none }

def afterOne : List Reply × Thread := freshThread.react (fun _ => 0) .always (durableAppend [7])

/-- The second append dies in the middle of its write; the first one has been answered. -/
theorem acked_durable_torn :
    afterOne.1 = [.append ⟨[(none, [7])], .durable⟩ (.ok (0, 1))] ∧
      Phase.Keeps (fun _ => 0) syncingConfig afterOne.1
        (.down ((FsOp.writeLog 0 (Record.encode (fun _ => 0) ⟨1, 0, none, [8]⟩)).applyFailed 5
          afterOne.2.fs.dir)) := by
  have hstarted : Reachable (fun _ => 0) syncingConfig (.up freshThread) [] :=
    @Reachable.started _ _ _ _ ⟨0, 0⟩ _ .new rfl
  have hone : Reachable (fun _ => 0) syncingConfig (.up afterOne.2) afterOne.1 :=
    .reacted hstarted (durableAppend [7]) (by decide)
  exact ⟨rfl, acked_durable rfl (by decide) (hone.crashed
    (show (durableAppend [8]).Fits afterOne.2 by decide)
    (show (afterOne.2.react (fun _ => 0) .always (durableAppend [8])).2.fs.trace =
      afterOne.2.fs.trace ++
        [.writeLog 0 (Record.encode (fun _ => 0) ⟨1, 0, none, [8]⟩), .fsyncLog 0] by decide)
    (.during _ _ _ 5) (.inl rfl))⟩

end Torn

end Replog.Partition
