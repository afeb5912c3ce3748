import Replog.Storage.LogRefinement

/-!
# Recovery after a crash

A crash stops an operation between two file operations or inside a write. It leaves rolled
segment files intact, any prefix of the newest one that covers its synced bytes, and any
prefix of each index. Opening what is left recovers every record that survived whole.
-/

namespace Replog.Storage
open Replog.Library

variable {crc : List UInt8 → UInt32} {config : LogConfig}

/-- The state a call ended in, however it ended. -/
def resultState {α : Type} : EStateM.Result Failure (Log × Fs) α → Log × Fs
  | .ok _ s => s
  | .error _ s => s

/-- A directory that a crash inside the call may leave before any cached bytes are lost. -/
def CrashDuring {α : Type} (x : LogM α) (s : Log × Fs) (d : Dir) : Prop :=
  ∃ ops, (resultState (x.run s)).2.trace = s.2.trace ++ ops ∧ CrashPoint s.2.dir ops d

/-- The loss of cached bytes: the newest segment keeps its first `n` bytes, among them the
synced ones, and an index may end at any byte. -/
structure Damaged (d d' : Dir) (newest n : ℕ) : Prop where
  newest_log : ∃ f synced, d.log newest = some f ∧ f.synced ≤ n ∧ n ≤ f.bytes.length ∧
    d'.log newest = some ⟨f.bytes.take n, synced⟩
  newest_max : ∀ b, (d.log b).isSome → b ≤ newest
  closed_log : ∀ b, b ≠ newest → d'.log b = d.log b
  indexes : ∀ b, ∃ k, d'.index b = (d.index b).map (List.take k)

/-- The newest segment of a directory is the one after the rolled chunks. -/
theorem Surviving.newest_eq {d d' : Dir} {cs : List (List Record)} {live : List Record}
    {m newest n : ℕ} (h : Surviving crc config cs live m d) (hd : Damaged d d' newest n) :
    newest = nextBase cs := by
  obtain ⟨_, hlast⟩ := h.newest
  obtain ⟨f, _, hf, -⟩ := hd.newest_log
  have hle := hd.newest_max (nextBase cs) (by simp [hlast])
  rcases (h.files newest).mp (by simp [hf]) with hmem | heq
  · have hlt := h.closed.lt_end hmem
    omega
  · exact heq

/-- Damage shortens what survives of the newest segment, and nothing else. -/
theorem Surviving.damaged {d d' : Dir} {cs : List (List Record)} {live : List Record}
    {m newest n : ℕ} (h : Surviving crc config cs live m d) (hd : Damaged d d' newest n) :
    Surviving crc config cs live n d' := by
  have hnewest := h.newest_eq hd
  subst hnewest
  obtain ⟨_, hlast⟩ := h.newest
  obtain ⟨f, synced, hf, -, hn, hf'⟩ := hd.newest_log
  rw [hlast] at hf
  obtain rfl := Option.some.inj hf
  simp only [List.length_take] at hn
  have hsize := h.size_le
  refine { h with
    closed := h.closed.imp fun b hb c hfile => ?_
    newest := ⟨synced, ?_⟩
    size_le := by omega
    files := fun b => ?_ }
  · have hlt := h.closed.lt_end hb
    obtain ⟨k, hindex⟩ := hd.indexes b
    exact ⟨hd.closed_log b (by omega) ▸ hfile.log_file, hindex ▸ hfile.index_file.cut k,
      hfile.numbered, hfile.size_le⟩
  · rw [hf', List.take_take, Nat.min_eq_left (by omega)]
  · by_cases hb : b = nextBase cs
    · simp [hb, hf']
    · rw [hd.closed_log b hb, h.files b]

/-- What is left of the records `rs` when the newest segment starts at offset `newest` and
keeps `n` bytes. -/
def survivors (newest n : ℕ) (rs : List Record) : List Record :=
  rs.take newest ++ whole n (rs.drop newest)

/-- The calls a crash may interrupt here. -/
def LogOp.Writes : LogOp → Prop
  | .append .. | .appendReplicated .. | .flush .. => True
  | .truncateSuffix .. | .reopen .. => False

/-- A crash meets only directories that the call's operations pass through. -/
theorem CrashDuring.of_passes {α : Type} {x : LogM α} {s : Log × Fs} {P : Dir → Prop} {d : Dir}
    {ops : List FsOp} (hd : CrashDuring x s d)
    (hresult : (resultState (x.run s)).2 = s.2.advance ops) (hp : Passes P s.2 ops) : P d := by
  obtain ⟨ops', htrace, hpoint⟩ := hd
  rw [hresult] at htrace
  obtain rfl := List.append_cancel_left htrace
  exact hp d hpoint

private theorem CrashDuring.of_error {α : Type} {x : LogM α} {s : Log × Fs}
    {cs : List (List Record)} {act : List Record} {d : Dir} {e : Failure}
    (h : LogOk crc config s cs act) (hd : CrashDuring x s d) (hrun : x.run s = .error e s) :
    Reaches crc config (cs.flatten ++ act) d := by
  have hstay : (resultState (x.run s)).2 = s.2.advance [] := by
    rw [hrun, Fs.advance_nil h.healthy]
    rfl
  exact hd.of_passes hstay (.nil ⟨cs, act ++ [], _, by simp, h.surviving (numbered_nil _)⟩)

private theorem execRecord_reaches (hc : config.Valid) {s : Log × Fs} {cs : List (List Record)}
    {act : List Record} (h : LogOk crc config s cs act) {r : Record}
    (hoffset : r.offset = (cs.flatten ++ act).length)
    (hroom : (cs.flatten ++ act).length < 2 ^ 64) {clock : Clock} {x : LogM (Option ℕ)} {d : Dir}
    (hd : CrashDuring x s d) (hexec : x.run s = (LogOp.execRecord crc clock r).run s) :
    Reaches crc config (LogOp.specAppend config r (cs.flatten ++ act)).2 d := by
  rw [LogOp.specAppend]
  rcases appendRecord_refines hc h hoffset hroom clock with
    ⟨hlarge, hrun⟩ | ⟨hfits, info, log, ops, hrun, -, hpasses, -⟩
  · rw [if_pos hlarge]
    have hfail : x.run s = .error (.err (.recordTooLarge r.encodedLen)) s := by
      rw [hexec]
      simp only [LogOp.execRecord, EStateM.run_bind, hrun]
    exact CrashDuring.of_error h hd hfail
  · rw [if_neg (by omega)]
    refine hd.of_passes ?_ hpasses
    rw [hexec]
    simp only [LogOp.execRecord, EStateM.run_bind, hrun, EStateM.run_pure, resultState]

/-- Along a writing operation every directory is on the way to the records it ends with. -/
theorem LogOp.Writes.reaches (hc : config.Valid) {op : LogOp} (hop : op.Writes) {s : Log × Fs}
    {rs : List Record} (h : Represents crc config s rs) (hroom : rs.length < 2 ^ 64) {d : Dir}
    (hd : CrashDuring (op.exec crc) s d) : Reaches crc config (op.spec config rs).2 d := by
  obtain ⟨cs, act, hok, rfl⟩ := h
  have hnext := hok.nextOffset_eq
  cases op with
  | append clock key value =>
    exact execRecord_reaches hc hok rfl hroom hd (LogOp.exec_append hnext clock key value)
  | appendReplicated clock record =>
    by_cases hoffset : record.offset = (cs.flatten ++ act).length
    · rw [LogOp.spec, if_neg (not_not.mpr hoffset)]
      exact execRecord_reaches hc hok hoffset hroom hd
        (LogOp.exec_appendReplicated hnext clock hoffset)
    · rw [LogOp.spec, if_pos hoffset]
      exact CrashDuring.of_error hok hd (LogOp.exec_appendReplicated_gap crc hnext clock hoffset)
  | flush clock =>
    obtain ⟨log, hrun, -⟩ := flush_spec hok clock
    refine hd.of_passes ?_ ((fsync_passes hok (numbered_nil _)).imp fun d hd =>
      ⟨cs, act ++ [], _, by simp [LogOp.spec], hd⟩)
    simp only [LogOp.exec, EStateM.run_bind, hrun, EStateM.run_pure, resultState]
  | truncateSuffix => exact hop.elim
  | reopen => exact hop.elim

/-- The rolled segment files hold the records below `newest`, and the newest one the first
`n` bytes of the records from there on. -/
def FilesHold (crc : List UInt8 → UInt32) (rs : List Record) (newest n : ℕ) (d : Dir) : Prop :=
  (∃ cs, cs.flatten = rs.take newest ∧
    Tiled (fun b c => ∃ synced, d.log b = some ⟨encodeAll crc c, synced⟩) 0 cs) ∧
  ∃ synced, d.log newest = some ⟨(encodeAll crc (rs.drop newest)).take n, synced⟩

/-- A directory left by a crash opens as the log of the surviving records. -/
theorem Reaches.open_damaged (hc : config.Valid) {rs : List Record} {d d' : Dir} {newest n : ℕ}
    (h : Reaches crc config rs d) (hd : Damaged d d' newest n) (clock : Clock) :
    FilesHold crc rs newest n d' ∧
      ∃ log fs, (Log.openDir crc config clock).run ⟨d', [], []⟩ = .ok log fs ∧
        Represents crc config (log, fs) (survivors newest n rs) := by
  obtain ⟨cs, live, m, rfl, hsurviving⟩ := h
  have hleft := hsurviving.damaged hd
  obtain ⟨tail, hcrash⟩ := hleft.crashDir hc
  obtain ⟨log, fs, hrun, hok⟩ :=
    openDir_spec hc (show Fs.Healthy ⟨d', [], []⟩ from rfl) hcrash clock
  have hflat : cs.flatten.length = newest := (hsurviving.newest_eq hd).symm
  have hnewest : nextBase cs = newest := hflat
  refine ⟨⟨⟨cs, ?_, hleft.closed.imp fun _ _ _ hfile => hfile.log_file⟩, ?_⟩, log, fs, hrun,
    cs, whole n live, hok, ?_⟩
  · rw [List.take_left' hflat]
  · rw [List.drop_left' hflat, ← hnewest]
    exact hleft.newest
  · rw [survivors, List.take_left' hflat, List.drop_left' hflat]

/-- The logs a process can hold, with the records they stand for: opened on an empty
directory, after any operation, or opened again after a crash in a writing one. -/
inductive Reachable (crc : List UInt8 → UInt32) (config : LogConfig) :
    Log × Fs → List Record → Prop
  | opened {clock : Clock} {log : Log} {fs : Fs}
      (hrun : (Log.openDir crc config clock).run ⟨Dir.empty, [], []⟩ = .ok log fs) :
      Reachable crc config (log, fs) []
  | step {s : Log × Fs} {rs : List Record} (h : Reachable crc config s rs)
      (hroom : rs.length < 2 ^ 64) (op : LogOp) :
      Reachable crc config (op.step crc s).2 (op.spec config rs).2
  | crashed {s : Log × Fs} {rs : List Record} (h : Reachable crc config s rs)
      (hroom : rs.length < 2 ^ 64) {op : LogOp} (hop : op.Writes) {d d' : Dir} {newest n : ℕ}
      (hcrash : CrashDuring (op.exec crc) s d) (hd : Damaged d d' newest n) {clock : Clock}
      {log : Log} {fs : Fs}
      (hrun : (Log.openDir crc config clock).run ⟨d', [], []⟩ = .ok log fs) :
      Reachable crc config (log, fs) (survivors newest n (op.spec config rs).2)

theorem Reachable.represents (hc : config.Valid) {s : Log × Fs} {rs : List Record}
    (h : Reachable crc config s rs) : Represents crc config s rs := by
  induction h with
  | opened hrun =>
    obtain ⟨log', fs', hrun', hok⟩ := openDir_empty crc hc _
    rw [hrun] at hrun'
    cases hrun'
    exact ⟨[], [], hok, rfl⟩
  | step h hroom op ih => exact ((step_refines hc) 0 op _ _ ⟨ih, by omega⟩).2.1
  | crashed h hroom hop hcrash hd hrun ih =>
    obtain ⟨-, log', fs', hrun', hok⟩ := (hop.reaches hc ih hroom hcrash).open_damaged hc hd _
    rw [hrun] at hrun'
    cases hrun'
    exact hok

/-- After a crash at any point of an append, roll or flush of a reachable log, and any damage
to unsynced bytes and indexes, opening succeeds with exactly the surviving records, and the
log goes on as one that only ever held those. -/
theorem crash_recovers {s : Log × Fs} {rs : List Record} (hconfig : config.validate = .ok ())
    (h : Reachable crc config s rs) (hroom : rs.length < 2 ^ 64) {op : LogOp} (hop : op.Writes)
    {d d' : Dir} {newest n : ℕ} (hcrash : CrashDuring (op.exec crc) s d)
    (hd : Damaged d d' newest n) (clock : Clock) :
    FilesHold crc (op.spec config rs).2 newest n d' ∧
      ∃ log fs, (Log.openDir crc config clock).run ⟨d', [], []⟩ = .ok log fs ∧
        log.nextOffset = (survivors newest n (op.spec config rs).2).length ∧
        Refines crc config (log, fs) (survivors newest n (op.spec config rs).2) := by
  have hc := config.validate_eq_ok_iff.mp hconfig
  obtain ⟨hfiles, log, fs, hrun, hrep⟩ :=
    (hop.reaches hc (h.represents hc) hroom hcrash).open_damaged hc hd clock
  exact ⟨hfiles, log, fs, hrun, hrep.nextOffset_eq, hrep.refines hc⟩

section Torn

/-- An empty log as it is after opening. -/
def emptyLog : Log × Fs :=
  (⟨smallConfig, [], ⟨0, ⟨[]⟩, 0, 0, 0⟩, none, 0, 0⟩,
    Fs.advance ⟨Dir.empty, [], []⟩ [.createLog 0, .createIndex 0])

def tornOp : LogOp := .append ⟨0, 0⟩ none [7]

def oneLog : Log × Fs := (tornOp.step (fun _ => 0) emptyLog).2

private theorem oneLog_dir : oneLog.2.dir = (FsOp.writeLog 0
    (Record.encode (fun _ => 0) ⟨0, 0, none, [7]⟩)).apply emptyLog.2.dir := rfl

def tornBytes : List UInt8 := Record.encode (fun _ => 0) ⟨1, 0, none, [7]⟩

/-- Five bytes of the second record were written, three of them survive. -/
theorem crash_recovers_torn :
    ∃ d d' log fs, CrashDuring (tornOp.exec fun _ => 0) oneLog d ∧ Damaged d d' 0 36 ∧
      (Log.openDir (fun _ => 0) smallConfig ⟨0, 0⟩).run ⟨d', [], []⟩ = .ok log fs ∧
      log.nextOffset = 1 ∧ Refines (fun _ => 0) smallConfig (log, fs) [⟨0, 0, none, [7]⟩] := by
  have hcrash : CrashDuring (tornOp.exec fun _ => 0) oneLog
      ((FsOp.writeLog 0 (tornBytes.take 5)).apply oneLog.2.dir) :=
    ⟨[.writeLog 0 tornBytes], rfl, .during _ _ _ 5⟩
  have hdamage : Damaged ((FsOp.writeLog 0 (tornBytes.take 5)).apply oneLog.2.dir)
      ((FsOp.setLen 0 36).apply ((FsOp.writeLog 0 (tornBytes.take 5)).apply oneLog.2.dir))
      0 36 := by
    refine ⟨⟨⟨Record.encode (fun _ => 0) ⟨0, 0, none, [7]⟩ ++ tornBytes.take 5, 0⟩, 0, rfl,
      by decide, by decide, rfl⟩, fun b hb => ?_, fun b hb => ?_, fun b => ⟨0, ?_⟩⟩
    · by_contra hne
      have hb0 : b ≠ 0 := by omega
      simp [oneLog_dir, emptyLog, hb0] at hb
    · simp [hb]
    · by_cases hb : b = 0 <;> simp [oneLog_dir, emptyLog, hb]
  have hopened : Reachable (fun _ => 0) smallConfig emptyLog [] :=
    .opened (show (Log.openDir (fun _ => 0) smallConfig ⟨0, 0⟩).run ⟨Dir.empty, [], []⟩ =
      .ok emptyLog.1 emptyLog.2 from rfl)
  have hone : Reachable (fun _ => 0) smallConfig oneLog [⟨0, 0, none, [7]⟩] :=
    hopened.step (by decide) tornOp
  obtain ⟨-, log, fs, hrun, hnext, hrefines⟩ := crash_recovers rfl hone (by decide)
    (show tornOp.Writes from trivial) hcrash hdamage ⟨0, 0⟩
  exact ⟨_, _, log, fs, hcrash, hdamage, hrun, hnext, hrefines⟩

end Torn

end Replog.Storage
