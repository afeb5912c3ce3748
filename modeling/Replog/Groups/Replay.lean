import Replog.Groups.Offsets
import Replog.Library.Tabulate
import Replog.Partition.DurableQueue

/-!
# Replaying the offsets log

The store of committed offsets is opened by reading its log from the front, a batch at a time, and
keeping the last offset of each key. Records without a key and records that do not decode are
skipped.
-/

namespace Replog.Groups
open Replog.Library Replog.LittleEndian
open Replog.Partition Replog.Storage
open Replog.Proto (ErrorCode StrFits)

/-- Group, topic and partition, as they are decoded. -/
abbrev CacheKey := String × String × UInt32

variable {crc : List UInt8 → UInt32} {config : LogConfig}

/-! ## The store's loop -/

def decodeRecord (r : Record) : Option (CacheKey × ℕ) :=
  r.key.bind fun key => decodeEntry key r.value

/-- The position moves behind the record, whatever it is. -/
def replayRecord (s : ℕ × Assoc CacheKey ℕ) (r : Record) : ℕ × Assoc CacheKey ℕ :=
  (r.offset + 1,
    match decodeRecord r with
    | some (k, v) => s.2.insert k v
    | none => s.2)

/-- Reads until nothing comes any more, `fuel` times at most. -/
def replayFrom (crc : List UInt8 → UInt32) : ℕ → ℕ × Assoc CacheKey ℕ → Thread →
    Option (Except ErrorCode (Assoc CacheKey ℕ))
  | 0, _, _ => none
  | fuel + 1, s, t =>
    match t.read crc s.1 (4 * 1024 * 1024) with
    | ([.read (.ok ok)], t') =>
      if ok.records = [] then some (.ok s.2)
      else replayFrom crc fuel (ok.records.foldl replayRecord s) t'
    | ([.read (.error code)], _) => some (.error code)
    | _ => none

def openCache (crc : List UInt8 → UInt32) (fuel : ℕ) (t : Thread) :
    Option (Except ErrorCode (Assoc CacheKey ℕ)) :=
  replayFrom crc fuel (0, ∅) t

/-! ## What is in the log -/

/-- A commit, or a record that somebody else appended. -/
inductive OffsetsEntry where
  | commit (group topic : String) (partition : UInt32) (offset : UInt64)
  | other (key : Option (List UInt8)) (value : List UInt8)

namespace OffsetsEntry

def keyValue : OffsetsEntry → KeyValue
  | .commit group topic partition offset =>
    (some (encodeKey group topic partition), leBytes 8 offset.toNat)
  | .other key value => (key, value)

/-- The names of a commit fit in their length fields, and other records have no key or do not
decode. -/
def Fits : OffsetsEntry → Prop
  | .commit group topic _ _ => StrFits group ∧ StrFits topic
  | .other key value => ∀ k, key = some k → decodeEntry k value = none

def committed? : OffsetsEntry → Option (CacheKey × ℕ)
  | .commit group topic partition offset => some ((group, topic, partition), offset.toNat)
  | .other _ _ => none

end OffsetsEntry

/-- The offset of the last commit for a key. -/
def lastCommitted (entries : List OffsetsEntry) (key : CacheKey) : Option ℕ :=
  (((entries.filterMap OffsetsEntry.committed?).filter (·.1 = key)).getLast?).map Prod.snd

/-- How the log of the store comes about. Whoever appends, an entry at a time, a record that is too
large is turned away; in between the thread reads and flushes, and it is started again on the
directory it has left. -/
inductive OffsetsLog (crc : List UInt8 → UInt32) (config : LogConfig) :
    Thread → List OffsetsEntry → Prop
  | spawned {clock : Clock} {epochFile : Option (List UInt8)} {t : Thread}
      (hspawn : Thread.spawn crc config clock Dir.empty epochFile = some t) :
      OffsetsLog crc config t []
  | appended {t : Thread} {entries : List OffsetsEntry} (h : OffsetsLog crc config t entries)
      (e : OffsetsEntry) (hfits : e.Fits) (hroom : t.log.nextOffset < 2 ^ 64) (acks : Proto.Acks)
      (answered : Bool) (clock : ℕ → Clock) (now : ℕ) :
      OffsetsLog crc config
        (t.append crc config.fsync ⟨[e.keyValue], acks⟩ answered clock now).2
        (if TooLarge config e.keyValue then entries else entries ++ [e])
  | read {t : Thread} {entries : List OffsetsEntry} (h : OffsetsLog crc config t entries)
      (offset maxBytes : ℕ) : OffsetsLog crc config (t.read crc offset maxBytes).2 entries
  | timeout {t : Thread} {entries : List OffsetsEntry} (h : OffsetsLog crc config t entries)
      (clock : Clock) : OffsetsLog crc config (t.timeout config.fsync clock).2 entries
  | respawned {t t' : Thread} {entries : List OffsetsEntry} (h : OffsetsLog crc config t entries)
      {clock : Clock} (hspawn : Thread.spawn crc config clock t.fs.dir t.epochFile = some t') :
      OffsetsLog crc config t' entries

/-- The log of the partition stands for the entries. -/
def Carries (crc : List UInt8 → UInt32) (config : LogConfig) (t : Thread)
    (entries : List OffsetsEntry) : Prop :=
  ∃ rs, Represents crc (Partition.logConfig config) t.state rs ∧
    rs.map keyValue = entries.map OffsetsEntry.keyValue

/-- The append of an entry puts it behind the others, unless it is too large. -/
theorem Carries.append (hc : config.Valid) {t : Thread} {entries : List OffsetsEntry}
    (h : Carries crc config t entries) (e : OffsetsEntry) (hroom : t.log.nextOffset < 2 ^ 64)
    (policy : FsyncPolicy) (acks : Proto.Acks) (answered : Bool) (clock : ℕ → Clock) (now : ℕ) :
    Carries crc config (t.append crc policy ⟨[e.keyValue], acks⟩ answered clock now).2
      (if TooLarge config e.keyValue then entries else entries ++ [e]) := by
  obtain ⟨rs, hrep, hrs⟩ := h
  have hnext : t.log.nextOffset = rs.length := hrep.nextOffset_eq
  obtain ⟨more, hmore, hwritten, -⟩ := @appendAll_takeWhile _ _ (logConfig_valid hc)
    [e.keyValue] clock ⟨none, 0, none⟩ _ _ hrep (by rw [List.length_singleton]; omega)
  have hlimit : TooLarge (Partition.logConfig config) e.keyValue ↔ TooLarge config e.keyValue := by
    rw [TooLarge, TooLarge, logConfig_maxRecordBytes]
  refine ⟨rs ++ more, ?_, ?_⟩
  · rw [append_state]
    exact hmore
  · rw [List.map_append, hrs, hwritten]
    by_cases hlarge : TooLarge config e.keyValue
    · rw [if_pos hlarge, List.takeWhile_cons_of_neg (by simpa using hlimit.mpr hlarge),
        List.append_nil]
    · rw [if_neg hlarge, List.takeWhile_cons_of_pos (by simpa using fun h => hlarge (hlimit.mp h)),
        List.takeWhile_nil, List.map_append, List.map_singleton]

theorem Carries.timeout {t : Thread} {entries : List OffsetsEntry}
    (h : Carries crc config t entries) (policy : FsyncPolicy) (clock : Clock) :
    Carries crc config (t.timeout policy clock).2 entries := by
  obtain ⟨rs, ⟨cs, act, hok, rfl⟩, hrs⟩ := h
  rw [Thread.timeout]
  split
  · split_ifs
    · obtain ⟨log, hrun, -, -, -, hok'⟩ := flush_spec hok clock
      rw [Thread.flush, hrun]
      exact ⟨_, ⟨cs, act, hok', rfl⟩, hrs⟩
    · exact ⟨_, ⟨cs, act, hok, rfl⟩, hrs⟩
  · exact ⟨_, ⟨cs, act, hok, rfl⟩, hrs⟩

theorem Carries.respawned (hc : config.Valid) {t t' : Thread} {entries : List OffsetsEntry}
    (h : Carries crc config t entries) {clock : Clock} {epochFile : Option (List UInt8)}
    (hspawn : Thread.spawn crc config clock t.fs.dir epochFile = some t') :
    Carries crc config t' entries := by
  obtain ⟨rs, ⟨cs, act, hok, rfl⟩, hrs⟩ := h
  obtain ⟨log, fs, hrun, hok'⟩ := @openDir_spec _ _ (logConfig_valid hc) ⟨t.fs.dir, [], []⟩ rfl
    _ _ _ hok.crashDir clock
  rw [Thread.spawn, hrun] at hspawn
  obtain ⟨epochs, -, rfl⟩ := Option.map_eq_some_iff.mp hspawn
  exact ⟨_, ⟨cs, act, hok', rfl⟩, hrs⟩

/-- Every log that comes about stands for what was appended. -/
theorem OffsetsLog.carries (hc : config.Valid) {t : Thread} {entries : List OffsetsEntry}
    (h : OffsetsLog crc config t entries) :
    Carries crc config t entries ∧ ∀ e ∈ entries, e.Fits := by
  induction h with
  | @spawned clock _ _ hspawn =>
    obtain ⟨log, fs, hrun, hok⟩ := openDir_empty crc (logConfig_valid hc) clock
    rw [Thread.spawn, hrun] at hspawn
    obtain ⟨epochs, -, rfl⟩ := Option.map_eq_some_iff.mp hspawn
    exact ⟨⟨[], ⟨[], [], hok, rfl⟩, rfl⟩, fun _ he => absurd he List.not_mem_nil⟩
  | appended _ e hfits hroom acks answered clock now ih =>
    refine ⟨ih.1.append hc e hroom config.fsync acks answered clock now, fun e' he' => ?_⟩
    split_ifs at he'
    · exact ih.2 e' he'
    · rcases List.mem_append.mp he' with he' | he'
      · exact ih.2 e' he'
      · exact List.mem_singleton.mp he' ▸ hfits
  | read _ offset maxBytes ih =>
    rw [(read_state offset maxBytes _).1]
    exact ih
  | timeout _ clock ih => exact ⟨ih.1.timeout config.fsync clock, ih.2⟩
  | respawned _ hspawn ih => exact ⟨ih.1.respawned hc hspawn, ih.2⟩

/-! ## The replay -/

private theorem decodeRecord_eq {r : Record} {e : OffsetsEntry} (hr : keyValue r = e.keyValue)
    (hfits : e.Fits) : decodeRecord r = e.committed? := by
  obtain ⟨hkey, hvalue⟩ := Prod.mk.inj hr
  cases e with
  | commit group topic partition offset =>
    rw [decodeRecord, hkey, hvalue]
    exact decodeEntry_encodeKey hfits.1 hfits.2 partition offset.toNat_lt
  | other key value =>
    rw [decodeRecord, hkey, hvalue]
    cases key with
    | none => rfl
    | some k => exact hfits k rfl

/-- What the loop keeps depends on what decodes only. -/
theorem foldl_replayRecord (s : ℕ × Assoc CacheKey ℕ) (rs : List Record) :
    (rs.foldl replayRecord s).2 =
      (rs.filterMap decodeRecord).foldl (fun m e => m.insert e.1 e.2) s.2 := by
  induction rs generalizing s with
  | nil => rfl
  | cons r rs ih =>
    rw [List.foldl_cons, ih, List.filterMap_cons, replayRecord]
    cases decodeRecord r <;> rfl

private theorem fst_foldl_replayRecord {config : LogConfig} {n : ℕ} {rs : List Record}
    (hnum : Numbered config n rs) (hne : rs ≠ []) (s : ℕ × Assoc CacheKey ℕ) :
    (rs.foldl replayRecord s).1 = n + rs.length := by
  obtain ⟨front, last, rfl⟩ := List.eq_nil_or_concat rs |>.resolve_left hne
  rw [List.concat_eq_append] at hnum ⊢
  rw [List.foldl_append, List.length_append, List.length_singleton]
  change last.offset + 1 = _
  rw [(numbered_append.mp hnum).2.1, Nat.add_assoc]

theorem read_of_run {t : Thread} {o maxBytes : ℕ} {run : List Record}
    (hrun : (Log.read crc o maxBytes).run t.state = .ok run t.state) :
    t.read crc o maxBytes =
      ([.read (.ok ⟨t.log.startOffset, t.log.nextOffset, run⟩)], t) := by
  rw [Thread.read, hrun]
  rfl

/-- From the records still to come the loop takes a batch at a time, until none is left. -/
theorem replayFrom_spec (hc : config.Valid) {t : Thread} {rs : List Record}
    (h : Represents crc (Partition.logConfig config) t.state rs) (fuel : ℕ)
    (s : ℕ × Assoc CacheKey ℕ) (hpos : s.1 ≤ rs.length) (hfuel : rs.length - s.1 < fuel) :
    replayFrom crc fuel s t = some (.ok ((rs.drop s.1).foldl replayRecord s).2) := by
  have hreads := Storage.Represents.reads (logConfig_valid hc) h
  induction fuel generalizing s with
  | zero => omega
  | succ fuel ih =>
    rw [replayFrom]
    rcases Nat.lt_or_eq_of_le hpos with hlt | hend
    · obtain ⟨run, hrun, hread⟩ := hreads.inside s.1 hlt (4 * 1024 * 1024)
      obtain ⟨rest, hrest⟩ :=
        Partition.Represents.read_isPrefix (logConfig_valid hc) h hrun
      have hlength := congrArg List.length hrest
      rw [List.length_append, List.length_drop] at hlength
      have hbatch : Numbered (Partition.logConfig config) s.1 run := by
        have hall : Numbered (Partition.logConfig config) 0 (rs.take s.1 ++ rs.drop s.1) := by
          rw [List.take_append_drop]
          exact h.numbered
        have hnum := (numbered_append.mp hall).2
        rw [Nat.zero_add, List.length_take, Nat.min_eq_left hpos, ← hrest] at hnum
        exact (numbered_append.mp hnum).1
      have hnext := fst_foldl_replayRecord hbatch hread.nonempty s
      have hpositive := List.length_pos_of_ne_nil hread.nonempty
      rw [read_of_run hrun]
      simp only [if_neg hread.nonempty]
      rw [ih _ (by omega) (by omega), hnext, ← hrest, List.foldl_append]
      have hdrop : rs.drop (s.1 + run.length) = rest := by
        rw [← List.drop_drop, ← hrest, List.drop_left]
      rw [hdrop]
    · rw [hend, read_of_run (hreads.atEnd _), List.drop_length]
      rfl

/-- The entries that decode are the commits, in their order. -/
theorem filterMap_decodeRecord {rs : List Record} {entries : List OffsetsEntry}
    (hrs : rs.map keyValue = entries.map OffsetsEntry.keyValue) (hfits : ∀ e ∈ entries, e.Fits) :
    rs.filterMap decodeRecord = entries.filterMap OffsetsEntry.committed? := by
  induction rs generalizing entries with
  | nil =>
    rw [List.map_nil, eq_comm, List.map_eq_nil_iff] at hrs
    rw [hrs]
    rfl
  | cons r rs ih =>
    obtain ⟨e, entries', rfl, he, hrest⟩ := List.map_eq_cons_iff.mp hrs.symm
    obtain ⟨hfirst, hfits'⟩ := List.forall_mem_cons.mp hfits
    rw [List.filterMap_cons, List.filterMap_cons, decodeRecord_eq he.symm hfirst,
      ih hrest.symm hfits']

/-- However a log of commits and other records came about, opening the store ends, and what it
builds is the last committed offset of each key. -/
theorem openCache_spec (hconfig : config.validate = .ok ()) {t : Thread}
    {entries : List OffsetsEntry} (h : OffsetsLog crc config t entries) :
    ∃ fuel cache, (∀ more, openCache crc (fuel + more) t = some (.ok cache)) ∧
      ∀ key, cache.lookup key = lastCommitted entries key := by
  have hc := config.validate_eq_ok_iff.mp hconfig
  obtain ⟨⟨rs, hrep, hrs⟩, hfits⟩ := h.carries hc
  refine ⟨rs.length + 1, (rs.foldl replayRecord (0, ∅)).2, fun more => ?_, fun key => ?_⟩
  · exact replayFrom_spec hc hrep _ (0, ∅) (Nat.zero_le _) (by omega)
  · rw [foldl_replayRecord, filterMap_decodeRecord hrs hfits, lastCommitted]
    exact Assoc.lookup_tabulate_last Prod.fst Prod.snd _ key

section Recommitted

/-- A record that is not a commit stands between the two of one key. -/
def recommitted : List OffsetsEntry :=
  [.commit "g" "t" 0 5, .other none [7], .commit "g" "t" 0 9]

def recommittedThread : Thread :=
  recommitted.foldl (fun t e => (t.append (fun _ => 0) batchConfig.fsync
    ⟨[e.keyValue], .durable⟩ true (fun _ => ⟨0, 0⟩) 0).2) startedThread

private theorem recommitted_log : OffsetsLog (fun _ => 0) batchConfig recommittedThread recommitted := by
  have hstarted : OffsetsLog (fun _ => 0) batchConfig startedThread [] :=
    @OffsetsLog.spawned _ _ ⟨0, 0⟩ none _ rfl
  have hfirst := hstarted.appended (.commit "g" "t" 0 5) ⟨by decide, by decide⟩ (by decide)
    .durable true (fun _ => ⟨0, 0⟩) 0
  have hbetween := hfirst.appended (.other none [7]) nofun (by decide +kernel) .durable true
    (fun _ => ⟨0, 0⟩) 0
  have hlast := hbetween.appended (.commit "g" "t" 0 9) ⟨by decide, by decide⟩
    (by decide +kernel) .durable true (fun _ => ⟨0, 0⟩) 0
  rw [if_neg (by decide +kernel), if_neg (by decide +kernel), if_neg (by decide +kernel)] at hlast
  exact hlast

theorem openCache_spec_recommitted : ∃ fuel cache,
    (∀ more, openCache (fun _ => 0) (fuel + more) recommittedThread = some (.ok cache)) ∧
      cache.lookup ("g", "t", 0) = some 9 := by
  obtain ⟨fuel, cache, hopen, hlookup⟩ := openCache_spec rfl recommitted_log
  exact ⟨fuel, cache, hopen, (hlookup _).trans (by decide +kernel)⟩

end Recommitted

end Replog.Groups
