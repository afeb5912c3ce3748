import Replog.Partition.DurableQueue
import Replog.Storage.FailedFsyncs

/-!
# Failed fsyncs

An fsync may fail, and the medium may then have lost bytes that it had not stored. The thread goes
on as if nothing had happened: the next fsync of the file counts the lost bytes among the synced
ones, and who has waited for it is answered. Apart from that a durable append is answered when its
records are on the medium.
-/

namespace Replog.Partition
open Replog.Library
open Replog.Storage
open Replog.Proto (Acks ErrorCode)

namespace Thread

variable (crc : List UInt8 → UInt32) (policy : FsyncPolicy)

def under (faults : List (Option ℕ)) (t : Thread) : Thread := { t with fs := t.fs.under faults }

/-- What it does to its files when nothing fails. -/
def opsOf (t : Thread) (i : Input) : List FsOp :=
  (t.take crc policy i).2.fs.trace.drop t.fs.trace.length

/-- What it does when file operations end as `faults` says. -/
def takeUnder (faults : List (Option ℕ)) (t : Thread) (i : Input) : List Reply × Thread :=
  let r := (t.under faults).take crc policy i
  (r.1, r.2.under [])

end Thread

/-- What goes wrong while the thread handles an input: how its file operations end, and which bytes
get lost. -/
structure Mishap where
  faults : List (Option ℕ)
  lost : Gone

/-- Only an fsync fails, and it loses bytes of its file that were not synced. -/
structure Mishap.OfFsync (crc : List UInt8 → UInt32) (policy : FsyncPolicy) (m : Mishap)
    (t : Thread) (i : Input) : Prop where
  fsync : ∀ op ∈ hit (t.opsOf crc policy i) m.faults, op.IsFsync
  lost : ∀ p ∈ m.lost, hit (t.opsOf crc policy i) m.faults = some (.fsyncLog p.1) ∧
    ((t.takeUnder crc policy m.faults i).2.fs.dir.log p.1).any
      fun f => f.synced ≤ p.2 && p.2 < f.bytes.length

/-- The replies, the thread, and the bytes that are lost by then. -/
def Thread.endure (crc : List UInt8 → UInt32) (policy : FsyncPolicy) (m : Mishap) (t : Thread)
    (gone : Gone) (i : Input) : List Reply × Thread × Gone :=
  let r := t.takeUnder crc policy m.faults i
  (r.1, r.2,
    (r.2.fs.trace.drop t.fs.trace.length).foldl (fun gone op => op.forget gone) gone ++ m.lost)

/-- The threads of a partition whose fsyncs may fail, with the bytes that are lost. The file of the
checkpoint has fsyncs of its own, and after a failed one it may hold anything. -/
inductive Thread.Endured (crc : List UInt8 → UInt32) (config : LogConfig)
    (guard : Thread → Input → Mishap → Prop) : Thread → Gone → Prop
  | spawned {d : Dir} {clock : Clock} {epochFile : Option (List UInt8)} {t : Thread}
      (h : Storage.Lived crc (Partition.logConfig config) Storage.Loses (.down d))
      (hspawn : Thread.spawn crc config clock d epochFile = some t) :
      t.Endured crc config guard []
  | took {t : Thread} {gone : Gone} (h : t.Endured crc config guard gone) (i : Input) (m : Mishap)
      (hfits : i.Fits t) (hm : m.OfFsync crc config.fsync t i) (hguard : guard t i m)
      (hlive : i.GoesOn) :
      (t.endure crc config.fsync m gone i).2.1.Endured crc config guard
        (t.endure crc config.fsync m gone i).2.2
  | checkpointed {t : Thread} {gone : Gone} (h : t.Endured crc config guard gone)
      (epochs : EpochCheckpoint) (epochFile : Option (List UInt8)) :
      Thread.Endured crc config guard { t with epochs, epochFile } gone

/-- No operation of a truncation fails, and it leaves the waiting records alone. -/
def Mishap.Spares (t : Thread) (i : Input) (m : Mishap) : Prop :=
  match i with
  | .command (.truncateTo n) _ _ => m.faults = [] ∧ ∀ p ∈ t.pending, p.lastOffset < n
  | _ => True

/-- If the reply promises that records are durable, each of them is there and has what `P` asks
for. -/
def Reply.Promises (rs : List Record) (P : ℕ → Prop) : Reply → Prop
  | .append produce (.ok (base, count)) =>
    produce.acks = .durable ∨ produce.acks = .all →
      Holds rs base count produce.records ∧ ∀ o, base ≤ o → o < base + count → P o
  | _ => True

/-- The replies promise what the files and the medium have. -/
def Answers (crc : List UInt8 → UInt32) (config : LogConfig)
    (P : Dir → Gone → List Record → ℕ → Prop) (r : List Reply × Thread × Gone) : Prop :=
  ∃ rs, rs.length ≤ 2 ^ 64 ∧ Serves crc config r.2.1 rs ∧
    ∀ reply ∈ r.1, reply.Promises rs (P r.2.1.fs.dir r.2.2 rs)

/-- An fsync has covered the record since it was written. So it is on the medium unless a failed one
has lost a byte of it before: the second part follows from the first. -/
def Flushed (crc : List UInt8 → UInt32) (d : Dir) (gone : Gone) (rs : List Record) (o : ℕ) : Prop :=
  InSynced crc d rs o ∧ (OnMedium crc d gone rs o ∨ ∃ p ∈ gone, IsByteOf rs o p)

variable {crc : List UInt8 → UInt32} {config : LogConfig}

/-! ## Appends -/

/-- The log goes on from the files `fs` with more records, whatever is to come. -/
def WritesOn (crc : List UInt8 → UInt32) (config : LogConfig) (fs : Fs) (s : Log × Fs)
    (rs : List Record) (k opened : ℕ) (more : List Record) : Prop :=
  ∃ ops k', k ≤ k' ∧ s.2.under [] = fs.advance ops ∧
    LogInv crc config LogFile.stable (s.1, fs.advance ops) (rs ++ more) k' opened ∧
    SyncedBehind (fs.advance ops).dir

/-- How an append goes, where nothing fails and where an fsync does. -/
inductive AppendedUnder (crc : List UInt8 → UInt32) (config : LogConfig) (s : Log × Fs)
    (rs : List Record) (k opened : ℕ) (r : Record) (faults : List (Option ℕ)) :
    EStateM.Result Failure (Log × Fs) AppendInfo → EStateM.Result Failure (Log × Fs) AppendInfo →
      Prop where
  | failed (e : Failure) : AppendedUnder crc config s rs k opened r faults (.error e s)
      (.error e (s.1, s.2.under faults))
  | ran (info : AppendInfo) (log : Log) (ops : List FsOp) (k' : ℕ)
      (res : EStateM.Result Failure (Log × Fs) AppendInfo) (hle : k ≤ k')
      (hinfo : info.offset = rs.length)
      (hlog : LogInv crc config LogFile.stable (log, s.2.advance ops) (rs ++ [r]) k' opened)
      (hb : SyncedBehind (s.2.advance ops).dir)
      (hclear : hit ops faults = none →
        res = .ok info (log, (s.2.advance ops).under (faults.drop ops.length)))
      (hhalt : ∀ op ∈ hit ops faults, op.IsFsync →
        ∃ s' more, res = .error (.err .io) s' ∧ WritesOn crc config s.2 s' rs k opened more) :
      AppendedUnder crc config s rs k opened r faults (.ok info (log, s.2.advance ops)) res

section Appends

variable {s : Log × Fs} {rs : List Record} {k opened : ℕ} {faults : List (Option ℕ)}

private theorem LogInv.writesOn {log : Log} {fs : Fs} {ops : List FsOp} {more : List Record} {k' : ℕ}
    (h : LogInv crc config LogFile.stable (log, fs.advance ops) (rs ++ more) k' opened)
    (hb : SyncedBehind (fs.advance ops).dir) (hle : k ≤ k') (rest : List (Option ℕ)) :
    WritesOn crc config fs (log, (fs.advance ops).under rest) rs k opened more :=
  ⟨ops, k', hle, (Fs.advance_healthy fs ops).under_nil, h, hb⟩

theorem LogInv.writesOn_self (h : LogInv crc config LogFile.stable s rs k opened)
    (hb : SyncedBehind s.2.dir) (faults : List (Option ℕ)) :
    WritesOn crc config s.2 (s.1, s.2.under faults) rs k opened [] := by
  have hsame : s.2.advance [] = s.2 := Fs.advance_nil h.represents.healthy
  refine ⟨[], k, le_rfl, hsame.symm ▸ h.represents.healthy.under_nil, ?_, hsame.symm ▸ hb⟩
  rw [hsame, List.append_nil]
  exact h

theorem WritesOn.cons {fs : Fs} {ops : List FsOp} {s : Log × Fs} {r : Record} {more : List Record}
    {k' : ℕ} (h : WritesOn crc config (fs.advance ops) s (rs ++ [r]) k' opened more)
    (hle : k ≤ k') : WritesOn crc config fs s rs k opened (r :: more) := by
  obtain ⟨ops', k'', hle', hfs, hlog, hb⟩ := h
  rw [Fs.advance_advance] at hfs hlog hb
  rw [List.append_assoc] at hlog
  exact ⟨ops ++ ops', k'', hle.trans hle', hfs, hlog, hb⟩

theorem appendRecord_large (crc : List UInt8 → UInt32) (clock : Clock) {r : Record} (s : Log × Fs)
    (h : s.1.config.maxRecordBytes < r.encodedLen) :
    (Log.appendRecord crc clock r).run s = .error (.err (.recordTooLarge r.encodedLen)) s := by
  simp only [Log.appendRecord, EStateM.run_bind, MethodM.run_self]
  rw [if_pos h]
  rfl

theorem appendRecord_under (hc : config.Valid)
    (h : LogInv crc config LogFile.stable s rs k opened) (hb : SyncedBehind s.2.dir) {r : Record}
    (hoffset : r.offset = rs.length) (hroom : rs.length < 2 ^ 64) (clock : Clock)
    (faults : List (Option ℕ)) :
    AppendedUnder crc config s rs k opened r faults ((Log.appendRecord crc clock r).run s)
      ((Log.appendRecord crc clock r).run (s.1, s.2.under faults)) := by
  have hconfig : s.1.config = config := h.represents.config_eq
  by_cases hlarge : config.maxRecordBytes < r.encodedLen
  · have hfails := fun s' : Log × Fs => appendRecord_large (r := r) crc clock s'
    rw [hfails s (hconfig ▸ hlarge), hfails (s.1, s.2.under faults) (hconfig ▸ hlarge)]
    exact .failed _
  have happ := appendRecord_appended LogFile.enduring_stable hc h.represents h.kept_le h.kept
    hoffset hroom clock
  have halong := h.represents.appendRecord_along hc hb hoffset hroom clock
  have hkept := h.kept
  have hkept_le := h.kept_le
  have hhealthy := h.represents.healthy
  obtain ⟨cs, act, hok, hflat⟩ := h.represents
  have hlen : rs.length = nextBase cs + act.length := by
    rw [← hflat]
    exact List.length_append
  have hnum : Numbered config (nextBase cs + act.length) [r] :=
    ⟨hoffset.trans hlen, lt_of_eq_of_lt hlen.symm hroom, by omega, trivial⟩
  obtain ⟨info, log, hrun⟩ := appendRecord_plan hc hok hnum clock
  rw [hrun, resultState] at halong
  obtain ⟨ops, hops, hpasses⟩ := halong
  obtain rfl := Fs.advance_inj hops
  generalize hres : (Log.appendRecord crc clock r).run s = res at happ
  cases happ with
  | failed e =>
    rw [hrun] at hres
    cases hres
  | done info' log' ops' hinfo hrep _ hby =>
    rw [hrun, EStateM.Result.ok.injEq, Prod.mk.injEq] at hres
    obtain ⟨rfl, rfl, hfs⟩ := hres
    obtain rfl := Fs.advance_inj hfs
    obtain ⟨k', hle, hlog⟩ := h.keptBy hrep hby
    refine .ran info log _ k' _ hle hinfo hlog hpasses.last (fun hhit => ?_) fun op hhit hop => ?_
    · obtain ⟨ops, hops, hsame⟩ := appendRecord_undisturbed crc clock r s hhealthy _ _ hrun
      obtain rfl := Fs.advance_inj hops
      exact hsame faults hhit
    · subst hflat
      obtain ⟨more, log', ops, rest, hfails, hrep', hby', hbehind⟩ := appendRecord_hit
        LogFile.enduring_stable hc hok hnum hkept_le hkept hb clock hhit hop
      obtain ⟨k', hle', hlog'⟩ := h.keptBy hrep' hby'
      exact ⟨_, more, hfails, hlog'.writesOn hbehind hle' rest⟩

private theorem appendAll_under (hc : config.Valid) {records : List KeyValue} (clock : ℕ → Clock)
    (p : Thread.Progress) (h : LogInv crc config LogFile.stable s rs k opened)
    (hb : SyncedBehind s.2.dir) (hroom : rs.length + records.length ≤ 2 ^ 64) {ops : List FsOp}
    (hops : (Thread.appendAll crc records clock p s).2.2 = s.2.advance ops)
    (hfsync : ∀ op ∈ hit ops faults, op.IsFsync) :
    ∃ more, WritesOn crc config s.2
        (Thread.appendAll crc records clock p (s.1, s.2.under faults)).2 rs k opened more ∧
      ((Thread.appendAll crc records clock p (s.1, s.2.under faults)).1.error = none →
        p.Covers (Thread.appendAll crc records clock p (s.1, s.2.under faults)).1 rs.length records
          more ∧ hit ops faults = none) := by
  induction records generalizing clock p s rs k faults ops with
  | nil =>
    obtain rfl : ops = [] :=
      Fs.advance_inj (hops.symm.trans (Fs.advance_nil h.represents.healthy).symm)
    exact ⟨[], h.writesOn_self hb faults,
      fun _ => ⟨⟨rfl, rfl, by simp [Thread.appendAll]⟩, hit_nil faults⟩⟩
  | cons kv records ih =>
    obtain ⟨key, value⟩ := kv
    simp only [List.length_cons] at hroom
    have hnext : s.1.active.nextOffset = rs.length := h.represents.nextOffset_eq
    obtain ⟨r, hr⟩ : ∃ r : Record, r = {
      offset := rs.length, timestampMs := (clock 0).wallMs, key, value } := ⟨_, rfl⟩
    have hrun : ∀ fs, (Log.append crc (clock 0) key value).run (s.1, fs) =
        (Log.appendRecord crc (clock 0) r).run (s.1, fs) := fun fs => by
      simp only [Log.append, EStateM.run_bind, MethodM.run_self, hnext, hr]
    have happ := appendRecord_under hc h hb (r := r) (by rw [hr]) (by omega) (clock 0) faults
    rw [Thread.appendAll] at hops ⊢
    rw [hrun] at hops ⊢
    generalize (Log.appendRecord crc (clock 0) r).run (s.1, s.2.under faults) = faulty at happ ⊢
    generalize (Log.appendRecord crc (clock 0) r).run s = result at happ hops
    cases happ with
    | failed e => exact ⟨[], h.writesOn_self hb faults, fun herror => by cases herror⟩
    | ran info log first k' res hle hinfo hlog hb' hclear hhalt =>
      have hroom' : (rs ++ [r]).length + records.length ≤ 2 ^ 64 := by
        rw [List.length_append, List.length_singleton]
        omega
      dsimp only at hops
      obtain ⟨_, -, second, hsecond, -⟩ := appendAll_inv LogFile.enduring_stable hc
        (fun i => clock (i + 1))
        { p with base := p.base.or (some info.offset), count := p.count + 1 } hlog hroom'
      rw [hsecond, Fs.advance_advance] at hops
      obtain rfl := Fs.advance_inj hops
      rw [hit_append] at hfsync
      cases hhit : hit first faults with
      | some op =>
        rw [hhit] at hfsync
        obtain ⟨s', more, rfl, hwrites⟩ := hhalt op hhit (hfsync op rfl)
        exact ⟨more, hwrites, fun herror => by cases herror⟩
      | none =>
        rw [hhit] at hfsync
        rw [hclear hhit]
        obtain ⟨more, hwrites, hcovers⟩ := ih (fun i => clock (i + 1))
          { p with base := p.base.or (some info.offset), count := p.count + 1 } hlog hb' hroom'
          hsecond hfsync
        refine ⟨r :: more, hwrites.cons hle, fun hdone => ⟨?_, ?_⟩⟩
        · exact (hcovers hdone).1.cons hinfo (by rw [hr, keyValue])
        · rw [hit_append, hhit]
          exact (hcovers hdone).2

private theorem appendReplicatedAll_under (hc : config.Valid) {records : List Record} (clock : ℕ → Clock)
    (h : LogInv crc config LogFile.stable s rs k opened) (hb : SyncedBehind s.2.dir)
    (hroom : rs.length + records.length ≤ 2 ^ 64) {ops : List FsOp}
    (hops : (Thread.appendReplicatedAll crc records clock s).2.2 = s.2.advance ops)
    (hfsync : ∀ op ∈ hit ops faults, op.IsFsync) :
    ∃ more, WritesOn crc config s.2
      (Thread.appendReplicatedAll crc records clock (s.1, s.2.under faults)).2 rs k opened
        more := by
  induction records generalizing clock s rs k faults ops with
  | nil => exact ⟨[], h.writesOn_self hb faults⟩
  | cons r records ih =>
    simp only [List.length_cons] at hroom
    have hnext : s.1.nextOffset = rs.length := h.represents.nextOffset_eq
    rw [Thread.appendReplicatedAll] at hops ⊢
    by_cases hoffset : r.offset = rs.length
    · have hrun : ∀ fs, (Log.appendReplicated crc (clock 0) r).run (s.1, fs) =
          (Log.appendRecord crc (clock 0) r).run (s.1, fs) := fun fs => by
        simp only [Log.appendReplicated, EStateM.run_bind, MethodM.run_self]
        rw [if_neg (by rw [hnext]; exact not_not.mpr hoffset)]
      have happ := appendRecord_under hc h hb hoffset (by omega) (clock 0) faults
      rw [hrun] at hops ⊢
      generalize (Log.appendRecord crc (clock 0) r).run (s.1, s.2.under faults) = faulty at happ ⊢
      generalize (Log.appendRecord crc (clock 0) r).run s = result at happ hops
      cases happ with
      | failed e => exact ⟨[], h.writesOn_self hb faults⟩
      | ran info log first k' res hle hinfo hlog hb' hclear hhalt =>
        have hroom' : (rs ++ [r]).length + records.length ≤ 2 ^ 64 := by
          rw [List.length_append, List.length_singleton]
          omega
        dsimp only at hops
        obtain ⟨_, -, second, hsecond, -⟩ := appendReplicatedAll_inv LogFile.enduring_stable hc
          (fun i => clock (i + 1)) hlog hroom'
        rw [hsecond, Fs.advance_advance] at hops
        obtain rfl := Fs.advance_inj hops
        rw [hit_append] at hfsync
        cases hhit : hit first faults with
        | some op =>
          rw [hhit] at hfsync
          obtain ⟨s', more, rfl, hwrites⟩ := hhalt op hhit (hfsync op rfl)
          exact ⟨more, hwrites⟩
        | none =>
          rw [hhit] at hfsync
          rw [hclear hhit]
          obtain ⟨more, hwrites⟩ := ih (fun i => clock (i + 1)) hlog hb' hroom' hsecond hfsync
          exact ⟨r :: more, hwrites.cons hle⟩
    · have hrun : ∀ fs, (Log.appendReplicated crc (clock 0) r).run (s.1, fs) =
          .error (.err (.replicatedGap r.offset rs.length)) (s.1, fs) := fun fs => by
        simp only [Log.appendReplicated, EStateM.run_bind, MethodM.run_self]
        rw [if_pos (by rwa [hnext]), hnext]
        rfl
      rw [hrun]
      exact ⟨[], h.writesOn_self hb faults⟩

end Appends

/-! ## Steps -/

/-- The thread with the records `rs`, while fsyncs may fail. -/
def Going (crc : List UInt8 → UInt32) (config : LogConfig) (t : Thread) (out : List Reply)
    (rs : List Record) : Prop :=
  ∃ k opened, Inv crc config t out rs k opened ∧ SyncedBehind t.fs.dir

/-- The append waits, or it has come now and no fsync has failed since. -/
def Thread.Asked (t : Thread) (rs : List Record) (clear : Prop) (base count : ℕ) : Prop :=
  (∃ p ∈ t.pending, p.baseOffset = base ∧ p.count = count) ∨ (rs.length ≤ base ∧ clear)

/-- What a step makes of the thread with the records `rs`: it performs some operations, the log has
more records or fewer, and no append is answered that has not been asked for. -/
structure GoesTo (crc : List UInt8 → UInt32) (config : LogConfig) (t : Thread) (rs : List Record)
    (clear : Prop) (r : List Reply × Thread) (rs' : List Record) : Prop where
  going : Going crc config r.2 r.1 rs'
  files : ∃ ops, r.2.fs = t.fs.advance ops
  longer_or_shorter : rs <+: rs' ∨ rs' <+: rs
  answers : ∀ produce base count, .append produce (.ok (base, count)) ∈ r.1 →
    t.Asked rs clear base count
  waiting : ∀ p ∈ r.2.pending, t.Asked rs clear p.baseOffset p.count

theorem Going.congr {t t' : Thread} {out : List Reply} {rs : List Record}
    (h : Going crc config t out rs) (hstate : t'.state = t.state)
    (hpending : t'.pending = t.pending) : Going crc config t' out rs := by
  obtain ⟨k, opened, hinv, hb⟩ := h
  have hfs : t'.fs = t.fs := congrArg Prod.snd hstate
  exact ⟨k, opened, hinv.congr hstate hpending, hfs ▸ hb⟩

/-- What has been answered is not looked at again. -/
theorem Going.answered {t : Thread} {out : List Reply} {rs : List Record}
    (h : Going crc config t out rs) : Going crc config t [] rs := by
  obtain ⟨k, opened, hinv, hb⟩ := h
  exact ⟨k, opened, ⟨hinv.log, hinv.opened_le, hinv.pending,
    fun _ hreply => absurd hreply List.not_mem_nil⟩, hb⟩

theorem Thread.asked_of_mem {t : Thread} {rs : List Record} {clear : Prop} {p : Pending}
    (hp : p ∈ t.pending) : t.Asked rs clear p.baseOffset p.count :=
  .inl ⟨p, hp, rfl, rfl⟩

/-- The queue answers appends that are in it, and the others stay. -/
theorem drainPending_asked {Q : ℕ → ℕ → Prop} (durable : Option ℕ) {pending : List Pending}
    (h : ∀ p ∈ pending, Q p.baseOffset p.count) :
    (∀ produce base count, .append produce (.ok (base, count)) ∈
        (Thread.drainPending durable pending).1 → Q base count) ∧
      ∀ p ∈ (Thread.drainPending durable pending).2, Q p.baseOffset p.count := by
  induction pending with
  | nil =>
    exact ⟨fun _ _ _ hreply => absurd hreply List.not_mem_nil,
      fun _ hp => absurd hp List.not_mem_nil⟩
  | cons p rest ih =>
    obtain ⟨hp, hrest⟩ := List.forall_mem_cons.mp h
    obtain ⟨hout, hleft⟩ := ih hrest
    rw [Thread.drainPending]
    split_ifs with hdurable
    · refine ⟨fun produce base count hreply => ?_, hleft⟩
      rcases List.mem_cons.mp hreply with hfirst | hlater
      · cases hfirst
        exact hp
      · exact hout produce base count hlater
    · exact ⟨fun _ _ _ hreply => absurd hreply List.not_mem_nil, h⟩

private theorem answerAppend_under (policy : FsyncPolicy) (produce : Produce) (p : Thread.Progress)
    (faults : List (Option ℕ)) (t : Thread) :
    (t.under faults).answerAppend policy produce p =
      ((t.answerAppend policy produce p).1, (t.answerAppend policy produce p).2.under faults) := by
  obtain ⟨base, count, error⟩ := p
  cases error with
  | some code => rfl
  | none =>
    cases base with
    | none => rfl
    | some base =>
      simp only [Thread.answerAppend]
      show (if Thread.ackedNow policy t.log.durableOffset (t.log.nextOffset - 1) produce.acks = true
        then _ else _) = _
      split_ifs <;> rfl

private theorem answerAppend_asked {Q : ℕ → ℕ → Prop} (policy : FsyncPolicy) (produce : Produce)
    (p : Thread.Progress) (t : Thread) (hold : ∀ p ∈ t.pending, Q p.baseOffset p.count)
    (hnew : p.error = none → (p.base = none → Q t.log.nextOffset 0) ∧
      ∀ base, p.base = some base → Q base p.count) :
    (∀ produce' base count, .append produce' (.ok (base, count)) ∈
        (t.answerAppend policy produce p).1 → Q base count) ∧
      ∀ p' ∈ (t.answerAppend policy produce p).2.pending, Q p'.baseOffset p'.count := by
  obtain ⟨base, count, error⟩ := p
  cases error with
  | some code =>
    refine ⟨fun produce' base count hreply => ?_, hold⟩
    cases List.mem_singleton.mp hreply
  | none =>
    obtain ⟨hempty, hbase⟩ := hnew rfl
    cases base with
    | none =>
      refine ⟨fun produce' base count hreply => ?_, hold⟩
      cases List.mem_singleton.mp hreply
      exact hempty rfl
    | some base =>
      have hasked : Q base count := hbase base rfl
      simp only [Thread.answerAppend]
      split_ifs with hacked
      · refine ⟨fun produce' base' count' hreply => ?_, hold⟩
        cases List.mem_singleton.mp hreply
        exact hasked
      · refine ⟨fun _ _ _ hreply => absurd hreply List.not_mem_nil, fun p' hp' => ?_⟩
        rcases List.mem_append.mp hp' with hin | hlast
        · exact hold p' hin
        · rw [List.mem_singleton.mp hlast]
          exact hasked

section Steps

variable {t : Thread} {rs : List Record} {m : Mishap} {clear : Prop}

private theorem append_under (hc : config.Valid) {policy : FsyncPolicy} (hpolicy : policy ≠ .os)
    (h : Going crc config t [] rs) {produce : Produce}
    (hroom : t.log.nextOffset + produce.records.length ≤ 2 ^ 64) (answered : Bool)
    (clock : ℕ → Clock) (now : ℕ) {faults : List (Option ℕ)} {ops : List FsOp}
    (hops : (t.append crc policy produce answered clock now).2.fs = t.fs.advance ops)
    (hfsync : ∀ op ∈ hit ops faults, op.IsFsync) :
    ∃ rs', GoesTo crc config t rs (hit ops faults = none)
      (((t.under faults).append crc policy produce answered clock now).1,
        ((t.under faults).append crc policy produce answered clock now).2.under []) rs' := by
  obtain ⟨k, opened, hinv, hb⟩ := h
  have hnext : t.log.nextOffset = rs.length := hinv.log.represents.nextOffset_eq
  have hstate : (t.append crc policy produce answered clock now).2.fs =
      (Thread.appendAll crc produce.records clock ⟨none, 0, none⟩ t.state).2.2 :=
    congrArg Prod.snd (append_state policy produce answered clock now t)
  obtain ⟨more, ⟨ops', k', hle, hfs, hlog, hb'⟩, hcovers⟩ := appendAll_under (s := t.state) hc clock
    ⟨none, 0, none⟩ hinv.log hb (hnext ▸ hroom) (hstate.symm.trans hops) hfsync
  have hresult : Thread.appendAll crc produce.records clock ⟨none, 0, none⟩ (t.under faults).state =
      Thread.appendAll crc produce.records clock ⟨none, 0, none⟩
        (t.state.1, t.state.2.under faults) := rfl
  simp only [Thread.append]
  rw [hresult]
  generalize Thread.appendAll crc produce.records clock ⟨none, 0, none⟩
    (t.state.1, t.state.2.under faults) = result at *
  obtain ⟨p, s⟩ := result
  rw [← hfs] at hlog hb'
  have hwritten : Inv crc config ((((t.under faults).withState s).refreshDirty now).under []) []
      (rs ++ more) k' opened := (hinv.withState hlog hle).congr rfl rfl
  have hwaits : ∀ p ∈ t.pending, t.Asked rs (hit ops faults = none) p.baseOffset p.count :=
    fun p hp => Thread.asked_of_mem hp
  refine ⟨rs ++ more, ?_⟩
  cases answered with
  | false =>
    obtain ⟨hout, hleft⟩ := drainPending_asked s.1.durableOffset hwaits
    exact ⟨⟨_, _, hwritten.drain, hb'⟩, ⟨ops', hfs⟩, .inl (List.prefix_append rs more), hout, hleft⟩
  | true =>
    have hanswered := answerAppend_inv hpolicy hwritten hinv.opened_le fun hdone => (hcovers hdone).1
    rw [answerAppend_under] at hanswered
    have hafter := answerAppend_fs policy produce p (((t.under faults).withState s).refreshDirty now)
    obtain ⟨hreplies, hqueue⟩ := answerAppend_asked policy produce p
      (((t.under faults).withState s).refreshDirty now) hwaits fun hdone => by
        obtain ⟨⟨-, -, hbase⟩, hclear⟩ := hcovers hdone
        refine ⟨fun _ => .inr ⟨?_, hclear⟩, fun base hsome => .inr ⟨?_, hclear⟩⟩
        · exact le_of_le_of_eq (by simp) hlog.represents.nextOffset_eq.symm
        · rw [hsome, Option.none_or] at hbase
          split_ifs at hbase
          exact (Option.some.inj hbase).ge
    obtain ⟨hout, hleft⟩ := drainPending_asked (Thread.answerAppend policy produce p
      (((t.under faults).withState s).refreshDirty now)).2.log.durableOffset hqueue
    refine ⟨⟨_, _, hanswered.drain, ?_⟩, ⟨ops', ?_⟩, .inl (List.prefix_append rs more),
      fun produce' base count hreply => ?_, hleft⟩
    · show SyncedBehind (Thread.answerAppend policy produce p
        (((t.under faults).withState s).refreshDirty now)).2.fs.dir
      rw [hafter]
      exact hb'
    · show ((Thread.answerAppend policy produce p
        (((t.under faults).withState s).refreshDirty now)).2.fs).under [] = _
      rw [hafter]
      exact hfs
    · rcases List.mem_append.mp hreply with hfirst | hlater
      · exact hreplies produce' base count hfirst
      · exact hout produce' base count hlater

private theorem appendReplicated_under (hc : config.Valid) (h : Going crc config t [] rs)
    {records : List Record} (hroom : t.log.nextOffset + records.length ≤ 2 ^ 64)
    (clock : ℕ → Clock) (now : ℕ) {faults : List (Option ℕ)} {ops : List FsOp}
    (hops : (t.appendReplicated crc records clock now).2.fs = t.fs.advance ops)
    (hfsync : ∀ op ∈ hit ops faults, op.IsFsync) :
    ∃ rs', GoesTo crc config t rs clear
      (((t.under faults).appendReplicated crc records clock now).1,
        ((t.under faults).appendReplicated crc records clock now).2.under []) rs' := by
  obtain ⟨k, opened, hinv, hb⟩ := h
  have hnext : t.log.nextOffset = rs.length := hinv.log.represents.nextOffset_eq
  obtain ⟨more, ops', k', hle, hfs, hlog, hb'⟩ := appendReplicatedAll_under (s := t.state) hc clock
    hinv.log hb (hnext ▸ hroom) hops hfsync
  rw [← hfs] at hlog hb'
  have hwritten : Inv crc config
      (((t.under faults).appendReplicated crc records clock now).2.under []) [] (rs ++ more) k'
      opened := (hinv.withState hlog hle).congr rfl rfl
  refine ⟨rs ++ more, ⟨_, _, hwritten.reply (.appendReplicated _) trivial, hb'⟩, ⟨ops', hfs⟩,
    .inl (List.prefix_append rs more), fun produce base count hreply => ?_,
    fun p hp => Thread.asked_of_mem hp⟩
  cases List.mem_singleton.mp hreply

theorem flush_under (h : Going crc config t [] rs) (clock : Clock) (faults : List (Option ℕ)) :
    GoesTo crc config t rs clear
      (((t.under faults).flush clock).1, ((t.under faults).flush clock).2.under []) rs := by
  obtain ⟨k, opened, hinv, hb⟩ := h
  obtain ⟨log, k', hrun, hle, hlog, -⟩ := flush_inv LogFile.enduring_stable hinv.log clock
  have hstate : (t.under faults).state = (t.log, t.fs.under faults) := rfl
  simp only [Thread.flush, hstate]
  cases hhit : hit [.fsyncLog t.log.active.baseOffset] faults with
  | none =>
    obtain ⟨ops, hops, hsame⟩ :=
      flush_undisturbed clock t.state hinv.log.represents.healthy _ _ hrun
    obtain rfl := Fs.advance_inj hops
    have hrun' : (Log.flush clock).run (t.log, t.fs.under faults) = .ok log.durableOffset
      (log, (t.fs.advance [.fsyncLog t.log.active.baseOffset]).under (faults.drop 1)) :=
      hsame faults hhit
    rw [hrun']
    have hflushed : Inv crc config
        (t.withState (log, t.fs.advance [.fsyncLog t.log.active.baseOffset])) [] (rs ++ []) k'
        opened := hinv.withState ((List.append_nil rs).symm ▸ hlog) hle
    have hfs := (Fs.advance_healthy t.fs [.fsyncLog t.log.active.baseOffset]).under_nil
    have hgoing : Inv crc config (Thread.under [] { (t.under faults).withState (log,
        (t.fs.advance [.fsyncLog t.log.active.baseOffset]).under (faults.drop 1)) with
          dirtySince := none }) [] rs k' opened :=
      (List.append_nil rs ▸ hflushed).congr (Prod.ext rfl hfs) rfl
    obtain ⟨hout, hleft⟩ := drainPending_asked (Q := t.Asked rs clear) log.durableOffset
      fun p hp => Thread.asked_of_mem hp
    exact ⟨⟨_, _, hgoing.drain, hb.fsync _⟩, ⟨_, hfs⟩, .inl List.prefix_rfl, hout, hleft⟩
  | some op =>
    obtain ⟨rest, hfails⟩ := flush_hit t.log t.fs clock hhit
    rw [hfails]
    have hfs := hinv.log.represents.healthy.under_nil
    exact ⟨⟨k, opened, hinv.congr (Prod.ext rfl hfs) rfl, hb⟩,
      ⟨[], hfs.trans (Fs.advance_nil hinv.log.represents.healthy).symm⟩, .inl List.prefix_rfl,
      fun _ _ _ hreply => absurd hreply List.not_mem_nil, fun p hp => Thread.asked_of_mem hp⟩

private theorem truncateTo_under (hc : config.Valid) (h : Going crc config t [] rs)
    (hroom : t.log.nextOffset < 2 ^ 64) {n : ℕ} (hspares : ∀ p ∈ t.pending, p.lastOffset < n) :
    ∃ rs', GoesTo crc config t rs clear (t.truncateTo crc n) rs' := by
  obtain ⟨k, opened, hinv, hb⟩ := h
  have hrep := hinv.log.represents
  have hnext : t.log.nextOffset = rs.length := hrep.nextOffset_eq
  obtain ⟨s, rs', ops, hrun, hcut, hfs, hprefix⟩ : ∃ s rs' ops,
      (Log.truncateSuffix crc n).run t.state = .ok () s ∧ Going crc config (t.withState s) [] rs' ∧
        s.2 = t.fs.advance ops ∧ rs' <+: rs := by
    by_cases hin : n < rs.length
    · obtain ⟨s, k', hrun, hsettled, ops, hfs⟩ := hrep.truncates hc hb (hnext ▸ hroom) hin
      refine ⟨s, rs.take n, ops, hrun, ⟨k', 0, ⟨⟨hsettled.represents, hsettled.kept,
        hsettled.kept_le, fun d hd => .inl (hsettled.durable d hd)⟩, Nat.zero_le _, fun p hp => ?_,
        fun _ hreply => absurd hreply List.not_mem_nil⟩, hsettled.behind⟩, hfs,
        List.take_prefix n rs⟩
      obtain ⟨-, hlast, hlt, hholds⟩ := hinv.pending p hp
      exact Pending.Waits.take ⟨Nat.zero_le _, hlast, hlt, hholds⟩ (hspares p hp)
    · have hself := (Fs.advance_nil hrep.healthy).symm
      obtain ⟨cs, act, hok, hflat⟩ := hrep
      have hpast := truncateSuffix_past hok (n := n) (by rw [hflat]; omega)
      exact ⟨t.state, rs, [], hpast, ⟨k, opened, hinv, hb⟩, hself, List.prefix_rfl⟩
  obtain ⟨hstate, hpending, -⟩ := truncateEpochs_state n (t.withState s)
  obtain ⟨k', opened', hinv', hb'⟩ := hcut.congr hstate hpending
  refine ⟨rs', ?_⟩
  rw [Thread.truncateTo, hrun]
  refine ⟨⟨_, _, hinv'.reply (.truncateTo _) trivial, hb'⟩, ⟨ops, ?_⟩, .inr hprefix,
    fun produce base count hreply => ?_, fun p hp => ?_⟩
  · exact (congrArg Prod.snd hstate).trans hfs
  · cases List.mem_singleton.mp hreply
  · exact Thread.asked_of_mem (hpending ▸ hp)

/-- Nothing but the checkpoint changes, and no append is answered. -/
theorem Going.silent {t' : Thread} (h : Going crc config t [] rs) (hstate : t'.state = t.state)
    (hpending : t'.pending = t.pending) {out : List Reply}
    (hout : ∀ reply ∈ out, (∀ rs k, reply.Stands rs k) ∧
      ∀ produce result, reply ≠ .append produce result) :
    ∃ rs', GoesTo crc config t rs clear (out, t') rs' := by
  obtain ⟨k, opened, hinv, hb⟩ := h.congr hstate hpending
  have hfs : t'.fs = t.fs.advance [] :=
    (congrArg Prod.snd hstate).trans (Fs.advance_nil (hstate ▸ hinv.log.represents.healthy)).symm
  refine ⟨rs, ⟨k, opened, ⟨hinv.log, hinv.opened_le, hinv.pending, fun reply hreply =>
    (hout reply hreply).1 rs k⟩, hb⟩, ⟨[], hfs⟩, .inl List.prefix_rfl,
    fun produce base count hreply => ?_, fun p hp => ?_⟩
  · exact absurd rfl ((hout _ hreply).2 _ _)
  · exact Thread.asked_of_mem (hpending ▸ hp)

theorem Going.healthy {out : List Reply} (h : Going crc config t out rs) : t.fs.Healthy := by
  obtain ⟨k, opened, hinv, -⟩ := h
  exact hinv.log.represents.healthy

private theorem under_under_state (hfs : t.fs.Healthy) (faults : List (Option ℕ)) :
    ((t.under faults).under []).state = t.state :=
  Prod.ext rfl hfs.under_nil

theorem opsOf_eq {policy : FsyncPolicy} {i : Input} {ops : List FsOp}
    (h : (t.take crc policy i).2.fs = t.fs.advance ops) : t.opsOf crc policy i = ops := by
  rw [Thread.opsOf, h]
  exact List.drop_left

/-- Every input keeps the thread going, whatever fsync fails. -/
theorem Going.takeUnder (hc : config.Valid) {policy : FsyncPolicy} (hpolicy : policy ≠ .os)
    (h : Going crc config t [] rs) {i : Input} (hfits : i.Fits t)
    (hfsync : ∀ op ∈ hit (t.opsOf crc policy i) m.faults, op.IsFsync) (hspares : m.Spares t i) :
    ∃ rs', GoesTo crc config t rs (hit (t.opsOf crc policy i) m.faults = none)
      (t.takeUnder crc policy m.faults i) rs' := by
  have hself := under_under_state h.healthy m.faults
  have hquiet : ∀ clear, ∃ rs',
      GoesTo crc config t rs clear ([], (t.under m.faults).under []) rs' := fun _ =>
    h.silent hself rfl fun _ hreply => absurd hreply List.not_mem_nil
  simp only [Thread.takeUnder]
  cases i with
  | timeout clock =>
    simp only [Thread.take, Thread.timeout]
    split
    · split_ifs
      · exact ⟨rs, flush_under h clock m.faults⟩
      · exact hquiet _
    · exact hquiet _
  | disconnect clock => exact ⟨rs, flush_under h clock m.faults⟩
  | command cmd clock now =>
    cases cmd with
    | append produce answered =>
      have hroom : t.log.nextOffset + produce.records.length < 2 ^ 64 := hfits
      obtain ⟨k, opened, hinv, -⟩ := id h
      have hnext : t.log.nextOffset = rs.length := hinv.log.represents.nextOffset_eq
      have hle : rs.length + produce.records.length ≤ 2 ^ 64 := hnext ▸ hroom.le
      obtain ⟨_, -, ops, hops, -⟩ := appendAll_inv LogFile.enduring_stable hc clock ⟨none, 0, none⟩
        hinv.log hle
      have hfs : (t.append crc policy produce answered clock now).2.fs = t.fs.advance ops :=
        (congrArg Prod.snd (append_state policy produce answered clock now t)).trans hops
      rw [opsOf_eq (i := .command (.append produce answered) clock now) hfs] at hfsync ⊢
      exact append_under hc hpolicy h hroom.le answered clock now hfs hfsync
    | appendReplicated records =>
      have hroom : t.log.nextOffset + records.length < 2 ^ 64 := hfits
      obtain ⟨k, opened, hinv, -⟩ := id h
      have hnext : t.log.nextOffset = rs.length := hinv.log.represents.nextOffset_eq
      have hle : rs.length + records.length ≤ 2 ^ 64 := hnext ▸ hroom.le
      obtain ⟨_, -, ops, hops, -⟩ := appendReplicatedAll_inv LogFile.enduring_stable hc clock
        hinv.log hle
      rw [opsOf_eq (i := .command (.appendReplicated records) clock now) hops] at hfsync
      exact appendReplicated_under hc h hroom.le clock now hops hfsync
    | truncateTo n =>
      obtain ⟨hnone, hspares⟩ := hspares
      have hsame : t.under [] = t := by rw [Thread.under, h.healthy.under_nil]
      obtain ⟨rs', hcut⟩ : ∃ rs', GoesTo crc config t rs (hit (t.opsOf crc policy
          (.command (.truncateTo n) clock now)) m.faults = none) (t.truncateTo crc n) rs' :=
        truncateTo_under hc h hfits hspares
      have hsame' : (t.truncateTo crc n).2.under [] = (t.truncateTo crc n).2 := by
        rw [Thread.under, hcut.going.healthy.under_nil]
      refine ⟨rs', ?_⟩
      rw [hnone, hsame] at *
      simp only [Thread.take, Thread.handle]
      rw [hsame']
      exact hcut
    | read offset maxBytes =>
      obtain ⟨hsame, result, hreply⟩ := @read_state crc offset maxBytes (t.under m.faults)
      simp only [Thread.take, Thread.handle]
      rw [hsame, hreply]
      exact h.silent hself rfl fun reply hmem => by
        rw [List.mem_singleton.mp hmem]
        exact ⟨fun _ _ => trivial, fun _ _ heq => by cases heq⟩
    | recordEpoch epoch =>
      obtain ⟨hstate, hpending, -⟩ := recordEpoch_state epoch (t.under m.faults)
      have hfs : ((t.under m.faults).recordEpoch epoch).fs = t.fs.under m.faults :=
        congrArg Prod.snd hstate
      have hsame : (((t.under m.faults).recordEpoch epoch).under []).state = t.state := by
        have hlog : ((t.under m.faults).recordEpoch epoch).log = t.log := congrArg Prod.fst hstate
        refine Prod.ext hlog ?_
        show (((t.under m.faults).recordEpoch epoch).fs).under [] = t.fs
        rw [hfs]
        exact h.healthy.under_nil
      exact h.silent hsame hpending fun _ hreply => absurd hreply List.not_mem_nil
    | epochStatus =>
      exact h.silent hself rfl fun reply hmem => by
        rw [List.mem_singleton.mp hmem]
        exact ⟨fun _ _ => trivial, fun _ _ heq => by cases heq⟩
    | epochEndFor epoch =>
      exact h.silent hself rfl fun reply hmem => by
        rw [List.mem_singleton.mp hmem]
        exact ⟨fun _ _ => trivial, fun _ _ heq => by cases heq⟩

end Steps

/-! ## Runs -/

/-- What is found when a log is opened is taken for durable, and nothing else. -/
theorem Remains.logInv (hc : config.Valid) {d : Dir} (h : Remains crc config d) {clock : Clock}
    {log : Log} {fs : Fs} (hrun : (Log.openDir crc config clock).run ⟨d, [], []⟩ = .ok log fs) :
    ∃ rs, LogInv crc config LogFile.stable (log, fs) rs 0 rs.length := by
  cases h with
  | none =>
    obtain ⟨log', hrun', hok, hdurable⟩ := openDir_empty_run crc hc clock
    rw [hrun] at hrun'
    cases hrun'
    have hrep : Represents crc config (log, _) [] := ⟨[], [], hok, rfl⟩
    refine ⟨[], hrep, (Storage.Represents.left hrep).kept_zero, le_rfl, fun d hd => ?_⟩
    rw [hdurable] at hd
    cases hd
  | opens hleft =>
    obtain ⟨log', ops, hrun', hrep, hdurable, -⟩ :=
      hleft.open LogFile.enduring_length hc hleft.kept_zero clock
    rw [hrun] at hrun'
    cases hrun'
    refine ⟨_, hrep, (Storage.Represents.left hrep).kept_zero, Nat.zero_le _, fun d hd => ?_⟩
    rw [hdurable] at hd
    exact .inr (checkedPred_eq_some hd)
  | gap hgap =>
    obtain ⟨e, fs', hfail⟩ := hgap.openDir hc clock
    rw [hrun] at hfail
    cases hfail

theorem spawn_going (hvalid : config.Valid) {d : Dir} {clock : Clock}
    {epochFile : Option (List UInt8)} {t : Thread}
    (h : Storage.Lived crc (Partition.logConfig config) Storage.Loses (.down d))
    (hspawn : Thread.spawn crc config clock d epochFile = some t) :
    ∃ rs, Going crc (Partition.logConfig config) t [] rs := by
  have hc := logConfig_valid hvalid
  rw [Thread.spawn] at hspawn
  split at hspawn
  · rename_i log fs hrun
    obtain ⟨epochs, -, rfl⟩ := Option.map_eq_some_iff.mp hspawn
    obtain ⟨rs, hlog⟩ := Remains.logInv hc (h.ok hc) hrun
    exact ⟨rs, 0, rs.length, ⟨hlog, le_rfl, fun _ hp => absurd hp List.not_mem_nil,
      fun _ hreply => absurd hreply List.not_mem_nil⟩,
      (Storage.Lived.opened h hrun).behind hc⟩
  · cases hspawn

theorem Thread.Endured.going (hvalid : config.Valid) (hpolicy : config.fsync ≠ .os) {t : Thread}
    {gone : Gone} (h : t.Endured crc config (fun t i m => m.Spares t i) gone) :
    ∃ rs, Going crc (Partition.logConfig config) t [] rs := by
  induction h with
  | spawned h hspawn => exact spawn_going hvalid h hspawn
  | took _ i m hfits hm hspares _ ih =>
    obtain ⟨rs, hgoing⟩ := ih
    obtain ⟨rs', hgoes⟩ :=
      hgoing.takeUnder (logConfig_valid hvalid) hpolicy hfits hm.fsync hspares
    exact ⟨rs', hgoes.going.answered⟩
  | checkpointed _ epochs epochFile ih =>
    obtain ⟨rs, hgoing⟩ := ih
    exact ⟨rs, hgoing.congr rfl rfl⟩

theorem InSynced.flushed {d : Dir} {rs : List Record} {o : ℕ} (h : InSynced crc d rs o)
    (gone : Gone) : Flushed crc d gone rs o := by
  refine ⟨h, ?_⟩
  by_cases hlost : ∃ p ∈ gone, IsByteOf rs o p
  · exact .inr hlost
  · exact .inl ⟨h, fun p hp hbyte => hlost ⟨p, hp, hbyte⟩⟩

theorem Reply.Stands.promises {rs : List Record} {k : ℕ} {reply : Reply} (h : reply.Stands rs k)
    {P : ℕ → Prop} (hP : ∀ produce base count, reply = .append produce (.ok (base, count)) →
      ∀ o, base ≤ o → o < base + count → base + count ≤ k → P o) : reply.Promises rs P := by
  cases reply with
  | append produce result =>
    cases result with
    | error code => trivial
    | ok value =>
      obtain ⟨base, count⟩ := value
      intro hacks
      obtain ⟨hholds, hkept⟩ := h hacks
      exact ⟨hholds, fun o hge hlt => hP produce base count rfl o hge hlt (by omega)⟩
  | _ => trivial

theorem Going.serves (hvalid : config.Valid) {t : Thread} {out : List Reply} {rs : List Record}
    (h : Going crc (Partition.logConfig config) t out rs) : Serves crc config t rs := by
  obtain ⟨k, opened, hinv, -⟩ := h
  have hrep := hinv.log.represents
  refine ⟨hrep.refines (logConfig_valid hvalid), fun i r hr => ?_⟩
  rw [hrep.numbered.offset_eq hr, Nat.zero_add]

/-- A thread that flushes answers a durable append when an fsync has covered its records, whatever
fsyncs have failed; the records are then on the medium but for bytes that a failed fsync has lost
before. -/
theorem durable_flushed (hconfig : config.validate = .ok ()) (hpolicy : config.fsync ≠ .os)
    {t : Thread} {gone : Gone} (h : t.Endured crc config (fun t i m => m.Spares t i) gone)
    {i : Input} {m : Mishap} (hfits : i.Fits t) (hm : m.OfFsync crc config.fsync t i)
    (hspares : m.Spares t i) :
    Answers crc config (Flushed crc) (t.endure crc config.fsync m gone i) := by
  have hvalid := config.validate_eq_ok_iff.mp hconfig
  have hc := logConfig_valid hvalid
  obtain ⟨_, hgoing⟩ := h.going hvalid hpolicy
  obtain ⟨rs, hgoes⟩ := hgoing.takeUnder hc hpolicy hfits hm.fsync hspares
  obtain ⟨k, opened, hinv, hb⟩ := id hgoes.going
  have hrep := hinv.log.represents
  exact ⟨rs, hrep.length_le, hgoes.going.serves hvalid, fun reply hreply =>
    (hinv.out reply hreply).promises fun _ _ _ _ o _ hlt hle => InSynced.flushed
      (hrep.inSynced hinv.log.kept hb hinv.log.kept_le (by omega)) _⟩

section Lost

def Mishap.none : Mishap := ⟨[], []⟩

theorem Mishap.none_ofFsync (crc : List UInt8 → UInt32) (policy : FsyncPolicy) (t : Thread)
    (i : Input) : Mishap.none.OfFsync crc policy t i := by
  refine ⟨fun op hop => ?_, fun _ hp => absurd hp List.not_mem_nil⟩
  rw [none, hit_healthy] at hop
  cases hop

/-- It takes the inputs one by one, with what goes wrong. -/
def Thread.endureAll (inputs : List (Input × Mishap)) : Thread × Gone :=
  inputs.foldl (fun s i => (s.1.endure (fun _ => 0) batchConfig.fsync i.2 s.2 i.1).2)
    (startedThread, [])

/-- The fsync of the flush fails, and the first byte of the file is lost. -/
def failedFlush : Mishap := ⟨[some 0], [(0, 0)]⟩

theorem startedThread_endured (guard : Thread → Input → Mishap → Prop) :
    startedThread.Endured (fun _ => 0) batchConfig guard [] :=
  @Thread.Endured.spawned _ _ _ _ ⟨0, 0⟩ none _ .new rfl

theorem Thread.Endured.undisturbed {config : LogConfig} {guard : Thread → Input → Mishap → Prop}
    {t : Thread} {gone : Gone} (h : t.Endured (fun _ => 0) config guard gone) (i : Input)
    (hfits : i.Fits t) (hguard : guard t i .none) (hlive : i.GoesOn) :
    (t.endure (fun _ => 0) config.fsync .none gone i).2.1.Endured (fun _ => 0) config guard
      (t.endure (fun _ => 0) config.fsync .none gone i).2.2 :=
  h.took i .none hfits (Mishap.none_ofFsync _ _ _ _) hguard hlive

/-- The inputs up to a flush that fails. -/
def untilFailed : List (Input × Mishap) :=
  [(appendInput [7] .durable, .none), (.timeout ⟨0, 10⟩, failedFlush)]

theorem untilFailed_endured : (Thread.endureAll untilFailed).1.Endured (fun _ => 0) batchConfig
    (fun t i m => m.Spares t i) [(0, 0)] := by
  have hwaiting := (startedThread_endured fun t i m => m.Spares t i).undisturbed
    (appendInput [7] .durable) (by decide) trivial trivial
  refine hwaiting.took (.timeout ⟨0, 10⟩) failedFlush (by decide) ⟨fun op hop => ?_, fun p hp => ?_⟩
    trivial trivial
  · cases hop
    trivial
  · obtain rfl := List.mem_singleton.mp hp
    exact ⟨rfl, by decide⟩

/-- The flush fails, the next one comes in time, and the append is answered. -/
theorem durable_flushed_retried :
    ((Thread.endureAll untilFailed).1.endure (fun _ => 0) batchConfig.fsync .none [(0, 0)]
      (.timeout ⟨0, 20⟩)).1 = [.append ⟨[(none, [7])], .durable⟩ (.ok (0, 1))] ∧
    Answers (fun _ => 0) batchConfig (Flushed fun _ => 0) ((Thread.endureAll untilFailed).1.endure
      (fun _ => 0) batchConfig.fsync .none [(0, 0)] (.timeout ⟨0, 20⟩)) :=
  ⟨rfl, durable_flushed rfl (by decide) untilFailed_endured (by decide)
    (Mishap.none_ofFsync _ _ _ _) trivial⟩

end Lost

end Replog.Partition
