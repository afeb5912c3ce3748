import Replog.Groups.Replay
import Replog.Partition.DurableAcks

/-!
# Committed offsets survive

A commit is a durable append to the offsets log, and it is acknowledged once the reply is there. The
broker may crash at any file operation, also by a power loss, and replays the log when it starts.
What it finds for a key is an acknowledged commit, or one that the log took after it.
-/

namespace Replog.Groups
open Replog.Library Replog.LittleEndian
open Replog.Partition
open Replog.Storage hiding Reply
open Replog.Proto (StrFits)

structure CommitRequest where
  group : String
  topic : String
  partition : UInt32
  offset : UInt64
  deriving DecidableEq

namespace CommitRequest

def key (c : CommitRequest) : CacheKey := (c.group, c.topic, c.partition)

def entry (c : CommitRequest) : OffsetsEntry := .commit c.group c.topic c.partition c.offset

def produce (c : CommitRequest) : Produce := ⟨[c.entry.keyValue], .durable⟩

end CommitRequest

/-- What comes to the thread of the offsets log. -/
inductive StoreEvent where
  | commit (c : CommitRequest) (clock : ℕ → Clock) (now : ℕ)
  | read (offset maxBytes : ℕ)
  | timeout (clock : Clock)
  | disconnect (clock : Clock)

namespace StoreEvent

def event : StoreEvent → Event
  | .commit c clock now => .append c.produce true clock now
  | .read offset maxBytes => .read offset maxBytes
  | .timeout clock => .timeout clock
  | .disconnect clock => .disconnect clock

def commits : StoreEvent → List CommitRequest
  | .commit c _ _ => [c]
  | _ => []

/-- Names fit in their length fields, and offsets are `u64`. -/
def Fits (e : StoreEvent) (t : Thread) : Prop :=
  (∀ c ∈ e.commits, c.entry.Fits) ∧ e.event.Fits t

end StoreEvent

/-- The store of a broker over all its lives. -/
structure DurableStore where
  phase : Phase
  /-- The commits in the order in which the log was to take them. -/
  sent : List CommitRequest
  /-- The replies whose tasks have not gone on yet. -/
  replies : List Reply
  /-- The commits that were answered without an error, and where the log has them. -/
  acked : List (CommitRequest × ℕ)
  cache : Assoc CacheKey ℕ

/-- The runs of the store. Tasks go on in any order, and a crash takes those that wait. -/
inductive StoreRun (crc : List UInt8 → UInt32) (config : LogConfig) : DurableStore → Prop
  | new : StoreRun crc config ⟨.down .empty, [], [], [], ∅⟩
  | opened {s : DurableStore} {d : Dir} {clock : Clock} {t : Thread} {fuel : ℕ}
      {cache : Assoc CacheKey ℕ} (h : StoreRun crc config s) (hdown : s.phase = .down d)
      (hspawn : Thread.spawn crc config clock d none = some t)
      (hopen : openCache crc fuel t = some (.ok cache)) :
      StoreRun crc config { s with phase := .up t, replies := [], cache }
  | reacted {s : DurableStore} {t : Thread} (h : StoreRun crc config s) (hup : s.phase = .up t)
      (e : StoreEvent) (hfits : e.Fits t) :
      StoreRun crc config { s with
        phase := e.event.next (t.react crc config.fsync e.event).2
        sent := s.sent ++ e.commits
        replies := s.replies ++ (t.react crc config.fsync e.event).1 }
  | finished {s : DurableStore} {k base count : ℕ} (h : StoreRun crc config s)
      (c : CommitRequest) (hsent : c ∈ s.sent)
      (hreply : s.replies[k]? = some (.append c.produce (.ok (base, count)))) :
      StoreRun crc config { s with
        replies := s.replies.eraseIdx k
        acked := s.acked ++ [(c, base)]
        cache := s.cache.insert c.key c.offset.toNat }
  | crashed {s : DurableStore} {t : Thread} (h : StoreRun crc config s) (hup : s.phase = .up t)
      {e : StoreEvent} (hfits : e.Fits t) {ops : List FsOp} {d d' : Dir}
      (htrace : (t.react crc config.fsync e.event).2.fs.trace = t.fs.trace ++ ops)
      (hcrash : CrashPoint t.fs.dir ops d) (hloss : Partition.Loses d d') :
      StoreRun crc config
        { s with phase := .down d', sent := s.sent ++ e.commits, replies := [] }
  | crashedOpening {s : DurableStore} {d d' d'' : Dir} {clock : Clock} {t : Thread}
      (h : StoreRun crc config s) (hdown : s.phase = .down d)
      (hspawn : Thread.spawn crc config clock d none = some t)
      (hcrash : CrashPoint d t.fs.trace d') (hloss : Partition.Loses d' d'') :
      StoreRun crc config { s with phase := .down d'', replies := [] }

/-- Opening the store here finds for each key the last commit among these. -/
def Finds (crc : List UInt8 → UInt32) (t : Thread) (held : List CommitRequest) : Prop :=
  ∃ fuel cache, (∀ more, openCache crc (fuel + more) t = some (.ok cache)) ∧
    ∀ key, cache.lookup key = lastCommitted (held.map CommitRequest.entry) key

def PhaseFinds (crc : List UInt8 → UInt32) (config : LogConfig) (held : List CommitRequest) :
    Phase → Prop
  | .up t => Finds crc t held
  | .down d => ∀ clock, ∃ t, Thread.spawn crc config clock d none = some t ∧ Finds crc t held

variable {crc : List UInt8 → UInt32} {config : LogConfig}

/-! ## One record at a time -/

/-- A directory on the way to these records, of which the first `k` stay. -/
def Written (crc : List UInt8 → UInt32) (config : LogConfig) (rs : List Record) (k : ℕ)
    (d : Dir) : Prop :=
  Reaches crc config rs d ∧ Kept LogFile.stable rs k d

theorem written_self {s : Log × Fs} {rs : List Record} {k opened : ℕ}
    (h : LogInv crc config LogFile.stable s rs k opened) : Written crc config rs k s.2.dir := by
  obtain ⟨cs, act, hok, rfl⟩ := h.represents
  exact ⟨⟨cs, act ++ [], _, by simp, hok.surviving (numbered_nil _)⟩, h.kept⟩

/-- What a step of the thread writes, to the last record. -/
def Takes (crc : List UInt8 → UInt32) (config : LogConfig) (t : Thread) (out : List Reply)
    (rs : List Record) (k opened : ℕ) (records : List KeyValue) (r : List Reply × Thread) : Prop :=
  ∃ more k' ops, r.2.fs = t.fs.advance ops ∧ k ≤ k' ∧
    Inv crc config r.2 (out ++ r.1) (rs ++ more) k' opened ∧
    Passes (Written crc config (rs ++ more) k) t.fs ops ∧ (more.map keyValue).Sublist records

theorem takes_self {t : Thread} {out : List Reply} {rs : List Record} {k opened : ℕ}
    (h : Inv crc config t out rs k opened) (records : List KeyValue) {r : List Reply × Thread}
    (hr : Inv crc config r.2 (out ++ r.1) rs k opened) (hfs : r.2.fs = t.fs) :
    Takes crc config t out rs k opened records r := by
  refine ⟨[], k, [], hfs.trans (Fs.advance_nil h.log.represents.healthy).symm, le_rfl, ?_, ?_,
    List.nil_sublist records⟩
  · rwa [List.append_nil]
  · rw [List.append_nil]
    exact .nil (written_self h.log)

private theorem append_takes (hc : config.Valid) {policy : FsyncPolicy} (hpolicy : policy ≠ .os)
    {t : Thread} {out : List Reply} {rs : List Record} {k opened : ℕ}
    (h : Inv crc config t out rs k opened) (kv : KeyValue) (acks : Proto.Acks)
    (hroom : rs.length < 2 ^ 64) (clock : ℕ → Clock) (now : ℕ) :
    Takes crc config t out rs k opened [kv] (t.append crc policy ⟨[kv], acks⟩ true clock now) := by
  obtain ⟨key, value⟩ := kv
  have happ := append_appended LogFile.enduring_stable hc h.log.represents h.log.kept_le h.log.kept
    hroom (clock 0) key value
  rw [Thread.append, Thread.appendAll]
  generalize (Log.append crc (clock 0) key value).run t.state = result at happ
  cases happ with
  | failed e =>
    have hwritten : Inv crc config ((t.withState t.state).refreshDirty now) out (rs ++ []) k
        opened := ((List.append_nil rs).symm ▸ h).congr rfl rfl
    have hanswered := (@answerAppend_inv _ _ _ hpolicy ⟨[(key, value)], acks⟩
      ⟨none, 0, some (mapFailure (.err e))⟩ _ _ _ _ _ _ hwritten h.opened_le
      fun hnone => by cases hnone).drain
    rw [List.append_nil, List.append_assoc] at hanswered
    exact takes_self h _ hanswered (answerAppend_fs policy ⟨[(key, value)], acks⟩
      ⟨none, 0, some (mapFailure (.err e))⟩ ((t.withState t.state).refreshDirty now))
  | done info log ops hinfo hrep hpasses hby =>
    obtain ⟨k', hle, hlog⟩ := h.log.keptBy hrep hby
    have hwritten : Inv crc config ((t.withState (log, t.fs.advance ops)).refreshDirty now) out
        (rs ++ [_]) k' opened := (h.withState hlog hle).congr rfl rfl
    have hanswered := (@answerAppend_inv _ _ _ hpolicy ⟨[(key, value)], acks⟩
      ⟨some info.offset, 1, none⟩ _ _ _ _ _ _ hwritten h.opened_le
      fun _ => ⟨rfl, rfl, by rw [hinfo]; rfl⟩).drain
    rw [List.append_assoc] at hanswered
    exact ⟨[_], k', ops, answerAppend_fs policy ⟨[(key, value)], acks⟩ ⟨some info.offset, 1, none⟩
      ((t.withState (log, t.fs.advance ops)).refreshDirty now), hle, hanswered,
      hpasses.and hby.passes, List.Sublist.refl _⟩

theorem flush_takes {t : Thread} {out : List Reply} {rs : List Record} {k opened : ℕ}
    (h : Inv crc config t out rs k opened) (clock : Clock) :
    Takes crc config t out rs k opened [] (t.flush clock) := by
  obtain ⟨log, k', hrun, hle, hlog, -⟩ := flush_inv LogFile.enduring_stable h.log clock
  have hflushed : Inv crc config (t.withState _) out (rs ++ []) k' opened :=
    h.withState ((List.append_nil rs).symm ▸ hlog) hle
  have hstart : Written crc config (rs ++ []) k t.fs.dir :=
    (List.append_nil rs).symm ▸ written_self h.log
  have hend := written_self hflushed.log
  refine ⟨[], k', [.fsyncLog t.log.active.baseOffset], ?_, hle, ?_,
    .cons hstart (fun _ => hstart) (.nil ⟨hend.1, hend.2.mono hle⟩), List.Sublist.slnil⟩
  · simp only [Thread.flush, hrun]
    rfl
  · simp only [Thread.flush, hrun]
    exact Inv.drain (t := { t.withState _ with dirtySince := none }) (hflushed.congr rfl rfl)

private theorem read_takes {t : Thread} {out : List Reply} {rs : List Record}
    {k opened : ℕ} (h : Inv crc config t out rs k opened) (offset maxBytes : ℕ) :
    Takes crc config t out rs k opened [] (t.read crc offset maxBytes) := by
  obtain ⟨hsame, result, hreply⟩ := @read_state crc offset maxBytes t
  refine takes_self h _ ?_ (congrArg Thread.fs hsame)
  rw [hsame, hreply]
  exact h.reply (.read result) trivial

theorem react_takes (hc : config.Valid) {policy : FsyncPolicy} (hpolicy : policy ≠ .os)
    {t : Thread} {out : List Reply} {rs : List Record} {k opened : ℕ}
    (h : Inv crc config t out rs k opened) {e : StoreEvent} (hfits : e.Fits t) :
    Takes crc config t out rs k opened (e.commits.map (·.entry.keyValue))
      (t.react crc policy e.event) := by
  have hnext : t.log.nextOffset = rs.length := h.log.represents.nextOffset_eq
  cases e with
  | commit c clock now =>
    have hroom : t.log.nextOffset + 1 ≤ 2 ^ 64 := hfits.2
    exact append_takes hc hpolicy h _ .durable (by omega) clock now
  | read offset maxBytes => exact read_takes h offset maxBytes
  | timeout clock =>
    simp only [StoreEvent.event, Thread.react, Thread.timeout]
    split
    · split_ifs
      · exact flush_takes h clock
      · exact takes_self h _ ((List.append_nil out).symm ▸ h) rfl
    · exact takes_self h _ ((List.append_nil out).symm ▸ h) rfl
  | disconnect clock => exact flush_takes h clock

/-! ## The commits in the log -/

/-- The records are commits, in the order in which they were sent. -/
def Holding (rs : List Record) (held sent : List CommitRequest) : Prop :=
  rs.map keyValue = held.map (·.entry.keyValue) ∧ held.Sublist sent

theorem Holding.of_isPrefix {rs rs' : List Record} {held sent : List CommitRequest}
    (h : Holding rs held sent) (hpre : rs' <+: rs) : ∃ held', Holding rs' held' sent := by
  obtain ⟨hkeys, hsub⟩ := h
  refine ⟨held.take rs'.length, ?_, (List.take_sublist _ _).trans hsub⟩
  rw [List.map_take, ← hkeys, ← List.map_take, ← List.prefix_iff_eq_take.mp hpre]

theorem Holding.append {rs more : List Record} {held sent commits : List CommitRequest}
    (h : Holding rs held sent)
    (hmore : (more.map keyValue).Sublist (commits.map (·.entry.keyValue))) :
    ∃ held', Holding (rs ++ more) held' (sent ++ commits) := by
  obtain ⟨held', hsub, hkeys⟩ := List.sublist_map_iff.mp hmore
  refine ⟨held ++ held', ?_, h.2.append hsub⟩
  rw [List.map_append, List.map_append, h.1, hkeys]

/-- A directory that opens with everything that has to stay. -/
inductive Resting (crc : List UInt8 → UInt32) (config : LogConfig) (out : List Reply)
    (sent : List CommitRequest) : Dir → Prop
  | empty (hout : ∀ reply ∈ out, reply.Stands [] 0) : Resting crc config out sent .empty
  | left {rs : List Record} {k : ℕ} {held : List CommitRequest} {d : Dir}
      (hleft : Left crc config rs d) (hkept : Kept LogFile.stable rs k d) (hk : k ≤ rs.length)
      (hout : ∀ reply ∈ out, reply.Stands rs k) (hheld : Holding rs held sent) :
      Resting crc config out sent d

section Resting

variable {out : List Reply} {sent : List CommitRequest} {d d' : Dir}

theorem Resting.loses (hc : config.Valid) (h : Resting crc config out sent d)
    (hloss : Partition.Loses d d') : Resting crc config out sent d' := by
  rcases hloss with rfl | hpower
  · exact h
  cases h with
  | empty hout =>
    obtain ⟨newest, n, hdamage, -⟩ := hpower
    obtain ⟨f, synced, hf, -⟩ := hdamage.newest_log
    cases hf
  | left hleft hkept hk hout hheld =>
    obtain ⟨rs', hpre, hk', hleft', hkept'⟩ := hleft.powerLoss hc hkept hk hpower
    obtain ⟨held', hheld'⟩ := hheld.of_isPrefix hpre
    exact .left hleft' hkept' hk' (fun reply hreply => (hout reply hreply).of_isPrefix hpre hk')
      hheld'

theorem Written.resting (hc : config.Valid) {rs : List Record} {k : ℕ}
    {held : List CommitRequest} (h : Written crc config rs k d) (hk : k ≤ rs.length)
    (hout : ∀ reply ∈ out, reply.Stands rs k) (hheld : Holding rs held sent) :
    Resting crc config out sent d := by
  obtain ⟨rs', hpre, hle, hleft, hkept⟩ := h.1.left LogFile.enduring_stable hc h.2 hk
  obtain ⟨held', hheld'⟩ := hheld.of_isPrefix hpre
  exact .left hleft hkept hle (fun reply hreply => (hout reply hreply).of_isPrefix hpre hle) hheld'

/-- A restart finds what is there, whatever time it is and wherever it stops. -/
theorem Resting.spawn (hvalid : config.Valid)
    (h : Resting crc (Partition.logConfig config) out sent d) :
    ∃ rs k held, Holding rs held sent ∧ (∀ reply ∈ out, reply.Stands rs k) ∧
      ∀ clock, ∃ t, Thread.spawn crc config clock d none = some t ∧
        Partition.Inv crc (Partition.logConfig config) t out rs k rs.length ∧
        ∀ d', CrashPoint d t.fs.trace d' →
          Resting crc (Partition.logConfig config) out sent d' := by
  have hc := logConfig_valid hvalid
  cases h with
  | empty hout =>
    have hnil : Holding [] [] sent := ⟨rfl, List.nil_sublist sent⟩
    have hmade {d : Dir} (hd : ∀ b, d.log b = if b = 0 then some ⟨[], 0⟩ else none) :
        Resting crc (Partition.logConfig config) out sent d := by
      obtain ⟨hleft, hkept⟩ := left_nil hd
      exact .left hleft hkept le_rfl hout hnil
    have hcreated : Resting crc (Partition.logConfig config) out sent
        ((FsOp.createLog 0).apply .empty) := hmade fun b => by simp
    have hkept := @left_nil crc (Partition.logConfig config) LogFile.stable
      (Fs.advance ⟨Dir.empty, [], []⟩ [.createLog 0, .createIndex 0]).dir fun b => by simp
    refine ⟨[], 0, [], hnil, hout, fun clock => ?_⟩
    obtain ⟨log, hrun, hok, hdurable⟩ := openDir_empty_run crc hc clock
    refine ⟨_, spawn_eq hrun, ⟨⟨⟨[], [], hok, rfl⟩, hkept.2, le_rfl, fun d hd => ?_⟩,
      le_rfl, fun _ hp => absurd hp List.not_mem_nil, hout⟩, fun d' hd' => ?_⟩
    · rw [Thread.state, hdurable] at hd
      cases hd
    · have hpasses : Passes (Resting crc (Partition.logConfig config) out sent)
          ⟨Dir.empty, [], []⟩ [.createLog 0, .createIndex 0] :=
        .cons (.empty hout) (fun _ => .empty hout)
          (.cons hcreated (fun _ => hcreated) (.nil (hmade fun b => by simp)))
      exact hpasses d' hd'
  | @left rs k held _ hleft hkept hk hout hheld =>
    refine ⟨rs, k, held, hheld, hout, fun clock => ?_⟩
    obtain ⟨log, ops, hrun, hrep, hdurable, hpasses⟩ :=
      hleft.open LogFile.enduring_stable hc hkept clock
    refine ⟨_, spawn_eq hrun, ⟨⟨hrep, hpasses.last.2, hk, fun d hd => ?_⟩, le_rfl,
      fun _ hp => absurd hp List.not_mem_nil, hout⟩, fun d' hd' => ?_⟩
    · rw [Thread.state, hdurable] at hd
      exact .inr (checkedPred_eq_some hd)
    · obtain ⟨hleft', hkept'⟩ := hpasses d' hd'
      exact .left hleft' hkept' hk hout hheld

end Resting

/-! ## Runs -/

/-- The log holds commits that were sent, and everything that was promised. -/
def PhaseHolds (crc : List UInt8 → UInt32) (config : LogConfig) (out : List Reply)
    (sent : List CommitRequest) : Phase → Prop
  | .up t => ∃ rs k opened held, Partition.Inv crc config t out rs k opened ∧ Holding rs held sent
  | .down d => Resting crc config out sent d

/-- The replies given so far account for what was acknowledged. -/
structure Accounted (crc : List UInt8 → UInt32) (config : LogConfig) (out : List Reply)
    (s : DurableStore) : Prop where
  phase : PhaseHolds crc config out s.sent s.phase
  fits : ∀ c ∈ s.sent, c.entry.Fits
  replies : ∀ reply ∈ s.replies, reply ∈ out
  acked : ∀ a ∈ s.acked, a.1 ∈ s.sent ∧ ∃ count, .append a.1.produce (.ok (a.2, count)) ∈ out

private theorem StoreRun.accounted (hvalid : config.Valid) (hpolicy : config.fsync ≠ .os)
    {s : DurableStore} (h : StoreRun crc config s) :
    ∃ out, Accounted crc (Partition.logConfig config) out s := by
  have hc := logConfig_valid hvalid
  have hsent {s : DurableStore} {e : StoreEvent} {t : Thread} (hfits : e.Fits t)
      (hall : ∀ c ∈ s.sent, c.entry.Fits) : ∀ c ∈ s.sent ++ e.commits, c.entry.Fits :=
    List.forall_mem_append.mpr ⟨hall, hfits.1⟩
  have hkeep {a : CommitRequest × ℕ} {s : DurableStore} {commits : List CommitRequest}
      {out more : List Reply}
      (ha : a.1 ∈ s.sent ∧ ∃ count, .append a.1.produce (.ok (a.2, count)) ∈ out) :
      a.1 ∈ s.sent ++ commits ∧
        ∃ count, .append a.1.produce (.ok (a.2, count)) ∈ out ++ more := by
    obtain ⟨hmem, count, hreply⟩ := ha
    exact ⟨List.mem_append_left _ hmem, count, List.mem_append_left _ hreply⟩
  induction h with
  | new =>
    refine ⟨[], .empty ?_, ?_, ?_, ?_⟩
    · exact fun _ h => absurd h List.not_mem_nil
    · exact fun _ h => absurd h List.not_mem_nil
    · exact fun _ h => absurd h List.not_mem_nil
    · exact fun _ h => absurd h List.not_mem_nil
  | @opened s d clock t fuel cache _ hdown hspawn hopen ih =>
    obtain ⟨out, hphase, hfits, -, hacked⟩ := ih
    rw [hdown] at hphase
    obtain ⟨rs, k, held, hheld, -, hstart⟩ := Resting.spawn hvalid hphase
    obtain ⟨t', hspawn', hinv, -⟩ := hstart clock
    rw [hspawn] at hspawn'
    cases hspawn'
    exact ⟨out, ⟨rs, k, _, held, hinv, hheld⟩, hfits, fun _ h => absurd h List.not_mem_nil, hacked⟩
  | @reacted s t _ hup e hfits ih =>
    obtain ⟨out, hphase, hall, hreplies, hacked⟩ := ih
    rw [hup] at hphase
    obtain ⟨rs, k, opened, held, hinv, hheld⟩ := hphase
    obtain ⟨more, k', ops, -, -, hinv', -, hmore⟩ := react_takes hc hpolicy hinv hfits
    obtain ⟨held', hheld'⟩ := hheld.append hmore
    refine ⟨out ++ (t.react crc config.fsync e.event).1, ?_, hsent hfits hall,
      fun reply hreply => ?_, fun a ha => hkeep (hacked a ha)⟩
    · cases e with
      | disconnect clock =>
        exact (written_self hinv'.log).resting hc hinv'.log.kept_le hinv'.out hheld'
      | _ => exact ⟨_, _, _, _, hinv', hheld'⟩
    · rcases List.mem_append.mp hreply with hold | hnew
      · exact List.mem_append_left _ (hreplies reply hold)
      · exact List.mem_append_right _ hnew
  | @finished s k base count _ c hmem hreply ih =>
    obtain ⟨out, hphase, hall, hreplies, hacked⟩ := ih
    refine ⟨out, hphase, hall, fun reply hin => hreplies reply (List.mem_of_mem_eraseIdx hin),
      List.forall_mem_append.mpr ⟨hacked, List.forall_mem_singleton.mpr ⟨hmem, count, ?_⟩⟩⟩
    exact hreplies _ (List.mem_of_getElem? hreply)
  | crashed _ hup hfits htrace hcrash hloss ih =>
    obtain ⟨out, hphase, hall, -, hacked⟩ := ih
    rw [hup] at hphase
    obtain ⟨rs, k, opened, held, hinv, hheld⟩ := hphase
    obtain ⟨more, k', ops, hfs, hle, hinv', hpasses, hmore⟩ := react_takes hc hpolicy hinv hfits
    obtain ⟨held', hheld'⟩ := hheld.append hmore
    rw [hfs] at htrace
    obtain rfl := List.append_cancel_left htrace
    have hkept := hinv.log.kept_le
    refine ⟨out, ?_, hsent hfits hall, fun _ h => absurd h List.not_mem_nil, fun a ha => ?_⟩
    · exact ((hpasses _ hcrash).resting hc (hkept.trans (by simp))
        (fun reply hreply => (hinv.out reply hreply).append hkept le_rfl more) hheld').loses hc
          hloss
    · obtain ⟨hmem, hreply⟩ := hacked a ha
      exact ⟨List.mem_append_left _ hmem, hreply⟩
  | @crashedOpening s d d' d'' clock t _ hdown hspawn hcrash hloss ih =>
    obtain ⟨out, hphase, hall, -, hacked⟩ := ih
    rw [hdown] at hphase
    obtain ⟨rs, k, held, -, -, hstart⟩ := Resting.spawn hvalid hphase
    obtain ⟨t', hspawn', -, hpasses⟩ := hstart clock
    rw [hspawn] at hspawn'
    cases hspawn'
    exact ⟨out, (hpasses _ hcrash).loses hc hloss, hall, fun _ h => absurd h List.not_mem_nil,
      hacked⟩

/-! ## What is found -/

private theorem CommitRequest.eq_of_keyValue {c c' : CommitRequest} (h : c.entry.Fits)
    (h' : c'.entry.Fits) (heq : c.entry.keyValue = c'.entry.keyValue) : c = c' := by
  have hdecode (c : CommitRequest) (hc : c.entry.Fits) :
      decodeEntry (encodeKey c.group c.topic c.partition) (leBytes 8 c.offset.toNat) =
        some ((c.group, c.topic, c.partition), c.offset.toNat) :=
    decodeEntry_encodeKey hc.1 hc.2 c.partition c.offset.toNat_lt
  obtain ⟨hkey, hvalue⟩ := Prod.mk.inj heq
  have hboth := hdecode c h
  rw [Option.some.inj hkey, hvalue, hdecode c' h', Option.some.injEq, Prod.mk.injEq,
    Prod.mk.injEq, Prod.mk.injEq] at hboth
  obtain ⟨⟨hgroup, htopic, hpartition⟩, hoffset⟩ := hboth
  obtain ⟨group, topic, partition, offset⟩ := c
  obtain rfl := hgroup
  obtain rfl := htopic
  obtain rfl := hpartition
  obtain rfl := UInt64.toNat_inj.mp hoffset
  rfl

theorem Holding.getElem? {rs : List Record} {held sent : List CommitRequest}
    (h : Holding rs held sent) (hfits : ∀ c ∈ sent, c.entry.Fits) {c : CommitRequest}
    (hc : c ∈ sent) {base count : ℕ} (hholds : Holds rs base count [c.entry.keyValue]) :
    held[base]? = some c := by
  obtain ⟨hrecords, hcount⟩ := hholds
  obtain rfl : count = 1 := hcount
  rw [List.map_take, List.map_drop, h.1, ← List.map_drop, ← List.map_take] at hrecords
  cases hdrop : held.drop base with
  | nil =>
    rw [hdrop] at hrecords
    cases hrecords
  | cons c' rest =>
    rw [hdrop, List.take_succ_cons, List.take_zero, List.map_singleton] at hrecords
    have hget : held[base]? = some c' := by
      have hzero := congrArg (·[0]?) hdrop
      rwa [List.getElem?_drop, List.getElem?_cons_zero] at hzero
    have hmem := h.2.subset (List.mem_of_getElem? hget)
    have heq := CommitRequest.eq_of_keyValue (hfits c' hmem) (hfits c hc)
      (List.singleton_inj.mp hrecords)
    rw [hget, heq]

theorem Holding.finds (hc : config.Valid) {t : Thread} {rs : List Record}
    {held sent : List CommitRequest} (h : Holding rs held sent)
    (hfits : ∀ c ∈ sent, c.entry.Fits)
    (hrep : Represents crc (Partition.logConfig config) t.state rs) : Finds crc t held := by
  have hrs : rs.map keyValue = (held.map CommitRequest.entry).map OffsetsEntry.keyValue := by
    rw [h.1, List.map_map]
    rfl
  have hall : ∀ e ∈ held.map CommitRequest.entry, e.Fits :=
    List.forall_mem_map.mpr fun c hc => hfits c (h.2.subset hc)
  refine ⟨rs.length + 1, (rs.foldl replayRecord (0, ∅)).2, fun more => ?_, fun key => ?_⟩
  · exact replayFrom_spec hc hrep _ (0, ∅) (Nat.zero_le _) (by omega)
  · rw [foldl_replayRecord, filterMap_decodeRecord hrs hall, lastCommitted]
    exact Assoc.lookup_tabulate_last Prod.fst Prod.snd _ key

private theorem lastCommitted_map (held : List CommitRequest) (key : CacheKey) :
    lastCommitted (held.map CommitRequest.entry) key =
      (held.filter (·.key = key)).getLast?.map (·.offset.toNat) := by
  have hcommitted : (held.map CommitRequest.entry).filterMap OffsetsEntry.committed? =
      held.map fun c => (c.key, c.offset.toNat) := by
    rw [List.filterMap_map]
    exact congrFun List.filterMap_eq_map held
  rw [lastCommitted, hcommitted, List.filter_map, List.getLast?_map, Option.map_map]
  rfl

private theorem getLast?_filter {α : Type} {p : α → Bool} {l : List α} {j : ℕ} {a : α}
    (ha : l[j]? = some a) (hp : p a = true) :
    ∃ i b, j ≤ i ∧ l[i]? = some b ∧ p b = true ∧ (l.filter p).getLast? = some b := by
  induction l using List.reverseRecOn with
  | nil => cases ha
  | append_singleton front b ih =>
    by_cases hb : p b = true
    · have hlt := (List.getElem?_eq_some_iff.mp ha).1
      rw [List.length_append, List.length_singleton] at hlt
      refine ⟨front.length, b, by omega, List.getElem?_concat_length, hb, ?_⟩
      rw [List.filter_append, List.filter_cons_of_pos hb, List.filter_nil, List.getLast?_concat]
    · have hfront : front[j]? = some a := by
        rcases Nat.lt_or_ge j front.length with hlt | hge
        · rwa [List.getElem?_append_left hlt] at ha
        · rw [List.getElem?_append_right hge, List.getElem?_singleton] at ha
          split at ha
          · cases ha
            exact absurd hp hb
          · cases ha
      obtain ⟨i, c, hji, hc, hpc, hlast⟩ := ih hfront
      refine ⟨i, c, hji, ?_, hpc, ?_⟩
      · rwa [List.getElem?_append_left (List.getElem?_eq_some_iff.mp hc).1]
      · rwa [List.filter_append, List.filter_cons_of_neg hb, List.filter_nil, List.append_nil]

private theorem le_getLast {l : List CommitRequest} (h : l.Pairwise (·.offset ≤ ·.offset))
    {c last : CommitRequest} (hc : c ∈ l) (hlast : l.getLast? = some last) :
    c.offset ≤ last.offset := by
  obtain ⟨front, rfl⟩ := List.getLast?_eq_some_iff.mp hlast
  rcases List.mem_append.mp hc with hfront | hsame
  · exact (List.pairwise_append.mp h).2.2 c hfront last (List.mem_singleton_self last)
  · rw [List.mem_singleton.mp hsame]
    exact UInt64.le_refl _

/-- Whatever crashes and restarts come, and in whatever order the tasks go on: what the store finds
when it is opened are commits that were sent, in that order; every acknowledged commit is among
them, and what is found for its key is that commit or one that the log took later. If the offsets
that are sent for a key only grow, what is found is never below one that was acknowledged. -/
theorem commits_survive (hconfig : config.validate = .ok ()) (hpolicy : config.fsync ≠ .os)
    {s : DurableStore} (h : StoreRun crc config s) :
    ∃ held : List CommitRequest, held.Sublist s.sent ∧ PhaseFinds crc config held s.phase ∧
      ∀ a ∈ s.acked, held[a.2]? = some a.1 ∧
        (∃ i c, a.2 ≤ i ∧ held[i]? = some c ∧ c.key = a.1.key ∧
          lastCommitted (held.map CommitRequest.entry) a.1.key = some c.offset.toNat) ∧
        ((s.sent.filter (·.key = a.1.key)).Pairwise (·.offset ≤ ·.offset) →
          ∃ v, lastCommitted (held.map CommitRequest.entry) a.1.key = some v ∧
            a.1.offset.toNat ≤ v) := by
  have hvalid := config.validate_eq_ok_iff.mp hconfig
  obtain ⟨out, hphase, hfits, -, hacked⟩ := h.accounted hvalid hpolicy
  -- a running store, or the one that a restart gives
  obtain ⟨rs, k, held, hheld, hout, hfinds⟩ : ∃ rs k held, Holding rs held s.sent ∧
      (∀ reply ∈ out, reply.Stands rs k) ∧ PhaseFinds crc config held s.phase := by
    cases hs : s.phase with
    | up t =>
      rw [hs] at hphase
      obtain ⟨rs, k, opened, held, hinv, hheld⟩ := hphase
      exact ⟨rs, k, held, hheld, hinv.out, hheld.finds hvalid hfits hinv.log.represents⟩
    | down d =>
      rw [hs] at hphase
      obtain ⟨rs, k, held, hheld, hout, hstart⟩ := Resting.spawn hvalid hphase
      refine ⟨rs, k, held, hheld, hout, fun clock => ?_⟩
      obtain ⟨t, hspawn, hinv, -⟩ := hstart clock
      exact ⟨t, hspawn, hheld.finds hvalid hfits hinv.log.represents⟩
  refine ⟨held, hheld.2, hfinds, fun a ha => ?_⟩
  obtain ⟨hmem, count, hreply⟩ := hacked a ha
  have hget : held[a.2]? = some a.1 :=
    hheld.getElem? hfits hmem (hout _ hreply (.inl rfl)).1
  obtain ⟨i, c, hle, hc, hkey, hlast⟩ := getLast?_filter hget (p := (·.key = a.1.key)) (by simp)
  have hlookup : lastCommitted (held.map CommitRequest.entry) a.1.key = some c.offset.toNat := by
    rw [lastCommitted_map, hlast, Option.map_some]
  refine ⟨hget, ⟨i, c, hle, hc, of_decide_eq_true hkey, hlookup⟩, fun hgrow => ⟨_, hlookup, ?_⟩⟩
  have hheldGrow := hgrow.sublist (hheld.2.filter _)
  exact UInt64.le_iff_toNat_le.mp (le_getLast hheldGrow
    (List.mem_filter.mpr ⟨List.mem_of_getElem? hget, decide_eq_true rfl⟩) hlast)

section Torn

def commitOf (offset : UInt64) : CommitRequest := ⟨"g", "t", 0, offset⟩

def commitEvent (offset : UInt64) : StoreEvent := .commit (commitOf offset) (fun _ => ⟨0, 0⟩) 0

/-- What a store that has just been opened does with one commit. -/
def afterCommit : List Reply × Thread :=
  freshThread.react (fun _ => 0) syncingConfig.fsync (commitEvent 5).event

def secondRecord : Record :=
  ⟨1, 0, some (encodeKey "g" "t" 0), leBytes 8 9⟩

/-- The second commit dies in the middle of its write; the first one has been acknowledged. -/
theorem commits_survive_torn : ∃ s, StoreRun (fun _ => 0) syncingConfig s ∧
    s.acked = [(commitOf 5, 0)] ∧ s.sent = [commitOf 5, commitOf 9] ∧
    ∃ held : List CommitRequest, held.Sublist s.sent ∧
      PhaseFinds (fun _ => 0) syncingConfig held s.phase ∧ held[0]? = some (commitOf 5) ∧
      ∃ v, lastCommitted (held.map CommitRequest.entry) ("g", "t", 0) = some v ∧ 5 ≤ v := by
  have hopened : StoreRun (fun _ => 0) syncingConfig ⟨.up freshThread, [], [], [], ∅⟩ :=
    @StoreRun.opened _ _ _ _ ⟨0, 0⟩ freshThread 1 ∅ .new rfl rfl rfl
  have hfits : (commitEvent 5).Fits freshThread :=
    ⟨List.forall_mem_singleton.mpr ⟨by decide, by decide⟩, by decide⟩
  have hfits' : (commitEvent 9).Fits afterCommit.2 :=
    ⟨List.forall_mem_singleton.mpr ⟨by decide, by decide⟩, by decide +kernel⟩
  have hanswered : StoreRun (fun _ => 0) syncingConfig
      ⟨.up afterCommit.2, [commitOf 5], afterCommit.1, [], ∅⟩ :=
    hopened.reacted rfl (commitEvent 5) hfits
  have hreply : afterCommit.1 = [.append (commitOf 5).produce (.ok (0, 1))] := rfl
  have hacked := hanswered.finished (k := 0) (commitOf 5) (List.mem_singleton_self _)
    (congrArg (·[0]?) hreply)
  have htorn := hacked.crashed rfl hfits'
    (show (afterCommit.2.react (fun _ => 0) syncingConfig.fsync (commitEvent 9).event).2.fs.trace =
      afterCommit.2.fs.trace ++
        [.writeLog 0 (Record.encode (fun _ => 0) secondRecord), .fsyncLog 0] by decide +kernel)
    (.during _ _ _ 5) (.inl rfl)
  obtain ⟨held, hsub, hfinds, hall⟩ := commits_survive rfl (by decide) htorn
  obtain ⟨hget, -, hmono⟩ := hall (commitOf 5, 0) (List.mem_singleton_self _)
  exact ⟨_, htorn, rfl, rfl, held, hsub, hfinds, hget, hmono (by decide)⟩

end Torn

end Replog.Groups
