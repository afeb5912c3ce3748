import Replog.Storage.IoFaults

/-!
# Runs of a log whose appends fail

The operations of a log in any order, each append with its own failures. As long as every
append survives the failure that hits it, a failed one leaves the records as they were, and the
records of the others stay readable, in the open log and after closing and opening it.
-/

namespace Replog.Storage
open Replog.Library

/-- An open log, and the records its callers know to be in it. -/
structure LogRun where
  log : Log
  fs : Fs
  records : List Record

/-- The failures that come while an operation runs; only those of appends are looked at. -/
def LogOp.failures (faults : List (Option ℕ)) : LogOp → List (Option ℕ)
  | append .. | appendReplicated .. => faults
  | _ => []

namespace LogRun

variable (crc : List UInt8 → UInt32)

/-- One call. Its caller counts on what it asked for when the call succeeds, and on nothing
having changed when it fails. -/
def call (s : LogRun) (op : LogOp) (faults : List (Option ℕ)) : Reply × LogRun :=
  let (reply, log, fs) := op.step crc (s.log, { s.fs with faults := op.failures faults })
  (reply, {
    log
    fs := { fs with faults := [] }
    records := match reply with
      | .ok _ => (op.spec s.log.config s.records).2
      | .error _ => s.records })

/-- Calls are made while offsets fit into a `u64`. -/
def step (s : LogRun) (i : LogOp × List (Option ℕ)) : Option LogRun :=
  if s.records.length < 2 ^ 64 then some (s.call crc i.1 i.2).2 else none

/-- The call survives the failure that hits it. -/
def Survives (s : LogRun) : LogOp × List (Option ℕ) → Prop
  | (.append clock key value, faults) =>
    Storage.Survives crc clock
      { offset := s.log.nextOffset, timestampMs := clock.wallMs, key, value } s.log s.fs.dir faults
  | (.appendReplicated clock record, faults) =>
    record.offset = s.log.nextOffset → Storage.Survives crc clock record s.log s.fs.dir faults
  | _ => True

/-- The log ends after its records, reads return them, and so they do once the log is closed and
opened again. -/
structure Intact (s : LogRun) : Prop where
  next_eq : s.log.nextOffset = s.records.length
  reads : ReadsOf crc (s.log, s.fs) s.records
  reopens : ∀ clock, ∃ log fs, (Log.openDir crc s.log.config clock).run s.fs = .ok log fs ∧
    log.nextOffset = s.records.length ∧ ReadsOf crc (log, fs) s.records

variable {crc} {config : LogConfig}

private theorem exec_append_eq {op : LogOp} {s : Log × Fs} {r : Record} {clock : Clock}
    (h : (op.exec crc).run s = (LogOp.execRecord crc clock r).run s) :
    op.step crc s = match (Log.appendRecord crc clock r).run s with
      | .ok info s' => (.ok (some info.offset), s')
      | .error e s' => (.error e, s') := by
  rw [LogOp.step, h, LogOp.execRecord, EStateM.run_bind]
  cases (Log.appendRecord crc clock r).run s <;> rfl

/-- What a call keeps: the log holds its records, and no failure is left over. -/
def Kept (crc : List UInt8 → UInt32) (config : LogConfig) (s : LogRun) : Prop :=
  s.fs.Healthy ∧ Holds crc config (s.log, s.fs) s.records

theorem Kept.intact (hc : config.Valid) {s : LogRun} (h : Kept crc config s) : Intact crc s := by
  obtain ⟨hfs, hheld⟩ := h
  refine ⟨hheld.nextOffset_eq, hheld.reads hc, fun clock => ?_⟩
  obtain ⟨log, fs, hrun, -, hheld'⟩ := hheld.reopens hc hfs clock
  have hconfig : s.log.config = config := hheld.config_eq
  exact ⟨log, fs, hconfig ▸ hrun, hheld'.nextOffset_eq, hheld'.reads hc⟩

private theorem call_append (hc : config.Valid) {s : LogRun} (h : Kept crc config s)
    (hroom : s.records.length < 2 ^ 64) {op : LogOp} {faults : List (Option ℕ)} {clock : Clock}
    {r : Record} (hfailures : op.failures faults = faults)
    (hexec : ∀ fs, (op.exec crc).run (s.log, fs) = (LogOp.execRecord crc clock r).run (s.log, fs))
    (hspec : op.spec config s.records = LogOp.specAppend config r s.records)
    (hr : r.offset = s.records.length)
    (hsurvives : Storage.Survives crc clock r s.log s.fs.dir faults) :
    Kept crc config (s.call crc op faults).2 ∧
      ∀ offset, (s.call crc op faults).1 = .ok (some offset) → offset = s.records.length := by
  obtain ⟨-, hheld⟩ := h
  have hconfig : s.log.config = config := hheld.config_eq
  obtain ⟨twin, hrep, hnear⟩ := hheld
  have hheld' : Holds crc config (s.log, { s.fs with faults := faults }) s.records :=
    ⟨twin, hrep, hnear.of_dir_eq rfl⟩
  have hends := appendRecord_ends hc hheld' hr hroom hsurvives
  rw [call, hfailures, exec_append_eq (hexec _), hconfig, hspec, LogOp.specAppend]
  cases hrun : (Log.appendRecord crc clock r).run (s.log, { s.fs with faults := faults }) with
  | ok info s' =>
    rw [hrun] at hends
    obtain ⟨hoffset, hfits, twin', hrep', hnear'⟩ := hends
    rw [if_neg (by omega)]
    refine ⟨⟨rfl, twin', hrep', hnear'.of_dir_eq rfl⟩, fun offset hreply => ?_⟩
    cases hreply
    exact hoffset
  | error e s' =>
    rw [hrun] at hends
    obtain ⟨twin', hrep', hnear'⟩ := hends
    exact ⟨⟨rfl, twin', hrep', hnear'.of_dir_eq rfl⟩, fun offset hreply => by cases hreply⟩

private theorem call_follows (hc : config.Valid) {s : LogRun} (h : Kept crc config s)
    (hroom : s.records.length < 2 ^ 64) {op : LogOp} {faults : List (Option ℕ)}
    (hfailures : op.failures faults = [])
    (hfollows : Follows (Beside (Near (flip Spoiled))) (op.exec crc) (op.exec crc))
    (hspec : (op.spec config s.records).1 = .ok none) :
    Kept crc config (s.call crc op faults).2 ∧
      ∀ offset, (s.call crc op faults).1 = .ok (some offset) → offset = s.records.length := by
  obtain ⟨hfs, hheld⟩ := h
  have hconfig : s.log.config = config := hheld.config_eq
  obtain ⟨twin, hrep, hnear⟩ := hheld
  obtain ⟨hreply, hrep', -⟩ := step_refines hc 0 op (s.log, twin) s.records ⟨hrep, by omega⟩
  rw [hspec] at hreply
  have hsame : { s.fs with faults := [] } = s.fs := by
    rw [Fs.Healthy] at hfs
    rw [← hfs]
  cases hrun : (op.exec crc).run (s.log, twin) with
  | error e t => simp [LogOp.step, hrun] at hreply
  | ok v t =>
    simp only [LogOp.step, hrun, Except.ok.injEq] at hreply hrep'
    obtain ⟨⟨log, fs⟩, hrun', hlog, hnear'⟩ :=
      hfollows (s.log, twin) (s.log, s.fs) ⟨rfl, hnear.flip hfs⟩ v t hrun
    simp only [call, hfailures, hsame, LogOp.step, hrun', hconfig, hreply]
    refine ⟨⟨rfl, t.2, hlog ▸ hrep', (hnear'.flip hrep'.healthy).of_dir_eq rfl⟩,
      fun offset hcontra => by cases hcontra⟩

/-- Every call that survives its failure keeps the log, and replies with its record's offset. -/
theorem call_keeps (hc : config.Valid) {s : LogRun} (h : Kept crc config s)
    (hroom : s.records.length < 2 ^ 64) {op : LogOp} {faults : List (Option ℕ)}
    (hsurvives : s.Survives crc (op, faults)) :
    Kept crc config (s.call crc op faults).2 ∧
      ∀ offset, (s.call crc op faults).1 = .ok (some offset) → offset = s.records.length := by
  have hnext : s.log.nextOffset = s.records.length := h.2.nextOffset_eq
  have hconfig : s.log.config = config := h.2.config_eq
  cases op with
  | append clock key value =>
    exact call_append hc h hroom rfl (fun fs => LogOp.exec_append hnext clock key value) rfl rfl
      (hnext ▸ hsurvives)
  | appendReplicated clock record =>
    by_cases hoffset : record.offset = s.records.length
    · refine call_append hc h hroom rfl
        (fun fs => LogOp.exec_appendReplicated hnext clock hoffset) ?_ hoffset
        (hsurvives (hoffset.trans hnext.symm))
      rw [LogOp.spec, if_neg (not_not.mpr hoffset)]
    · obtain ⟨hfs, twin, hrep, hnear⟩ := h
      have hrun := LogOp.exec_appendReplicated_gap crc (s := (s.log, { s.fs with faults := faults }))
        hnext clock hoffset
      simp only [call, LogOp.failures, LogOp.step, hrun]
      exact ⟨⟨rfl, twin, hrep, hnear.of_dir_eq rfl⟩, fun offset hreply => by cases hreply⟩
  | flush clock =>
    exact call_follows hc h hroom rfl
      (.bind (flush_follows (Near.carried Spoiled.stable.flip) clock) fun _ => .pure _) rfl
  | truncateSuffix newNext =>
    exact call_follows hc h hroom rfl
      (.bind (truncateSuffix_follows crc (Near.carried Spoiled.stable.flip) newNext)
        fun _ => .pure _) rfl
  | reopen clock =>
    obtain ⟨hfs, hheld⟩ := h
    have hsame : { s.fs with faults := [] } = s.fs := by
      rw [Fs.Healthy] at hfs
      rw [← hfs]
    obtain ⟨log, fs, hrun, hfs', twin, hrep, hnear⟩ := hheld.reopens hc hfs clock
    rw [← hconfig] at hrun
    simp only [call, LogOp.failures, hsame, LogOp.step, LogOp.exec, EStateM.run_bind,
      MethodM.run_self, MethodM.run_onFs hrun, MethodM.run_modifySelf, EStateM.run_pure]
    exact ⟨⟨rfl, twin, hrep, hnear.of_dir_eq rfl⟩, fun offset hreply => by cases hreply⟩

/-- From an empty directory on, whatever the calls are: if each survives the failure that hits
it, the log is intact after every one of them, and an append that succeeds replies with the
offset its record has. -/
theorem intact_of_reach (crc : List UInt8 → UInt32) {config : LogConfig}
    (hconfig : config.validate = .ok ()) {clock : Clock} {log : Log} {fs : Fs}
    (hopen : (Log.openDir crc config clock).run ⟨Dir.empty, [], []⟩ = .ok log fs) {s : LogRun}
    (h : Reach (step crc) (Survives crc) ⟨log, fs, []⟩ s) :
    Intact crc s ∧ ∀ op faults, s.Survives crc (op, faults) → s.records.length < 2 ^ 64 →
      ∀ offset, (s.call crc op faults).1 = .ok (some offset) → offset = s.records.length := by
  have hc := config.validate_eq_ok_iff.mp hconfig
  have hkept : Kept crc config s := by
    refine h.invariant (P := Kept crc config) ?_ ?_
    · obtain ⟨log', fs', hrun, hok⟩ := openDir_empty crc hc clock
      rw [hopen] at hrun
      cases hrun
      exact ⟨hok.healthy, Represents.holds ⟨[], [], hok, rfl⟩⟩
    · rintro s ⟨op, faults⟩ s' hs hsurvives hstep
      simp only [step, Option.ite_none_right_eq_some, Option.some.injEq] at hstep
      obtain ⟨hroom, rfl⟩ := hstep
      exact (call_keeps hc hs hroom hsurvives).1
  exact ⟨hkept.intact hc, fun op faults hsurvives hroom => (call_keeps hc hkept hroom hsurvives).2⟩


/-- A log just opened on an empty directory. -/
def opened (config : LogConfig) : LogRun where
  log := {
    config, closed := [], active := ⟨0, ⟨[]⟩, 0, 0, 0⟩, durableOffset := none, dirtyBytes := 0
    lastFlush := 0 }
  fs := Fs.advance ⟨Dir.empty, [], []⟩ [.createLog 0, .createIndex 0]
  records := []

theorem Allowed.nil (G : FsOp → ℕ → Prop) (ops : List FsOp) : Allowed G ops [] := by
  cases ops <;> trivial

/-- An append whose write fails with nothing stored, and one that succeeds after it. -/
theorem intact_after_failed_write : ∃ s, Reach (step fun _ => 0) (Survives fun _ => 0)
    (opened smallConfig) s ∧ s.records.length = 1 ∧ Intact (fun _ => 0) s ∧
    ∀ op faults, s.Survives (fun _ => 0) (op, faults) → s.records.length < 2 ^ 64 →
      ∀ offset, (s.call (fun _ => 0) op faults).1 = .ok (some offset) →
        offset = s.records.length := by
  have hfailed : Reach (step fun _ => 0) (Survives fun _ => 0) (opened smallConfig)
      ((opened smallConfig).call (fun _ => 0) (.append ⟨0, 0⟩ none [1]) [some 0]).2 :=
    .step .init (fun _ => rfl) (i := (.append ⟨0, 0⟩ none [1], [some 0])) (if_pos (by decide))
  have hwritten := Reach.step hfailed (i := (.append ⟨0, 0⟩ none [2], []))
    (by intro _; exact Allowed.nil _ _) (if_pos (by decide))
  have hvalid : smallConfig.validate = .ok () := rfl
  have hopen : (Log.openDir (fun _ => 0) smallConfig ⟨0, 0⟩).run ⟨Dir.empty, [], []⟩ =
    .ok (opened smallConfig).log (opened smallConfig).fs := rfl
  exact ⟨_, hwritten, rfl, intact_of_reach (fun _ => 0) hvalid hopen hwritten⟩

/-- A byte of one record is stored, and the next record written behind it. -/
def torn : LogRun :=
  (((opened smallConfig).call (fun _ => 0) (.append ⟨0, 0⟩ none [1]) [some 1]).2.call
    (fun _ => 0) (.append ⟨0, 0⟩ none [2]) []).2

/-- Where the policy's flush fails, the failed append has moved the end of the log. Where a byte
of the record was stored, the next append succeeds, and its record is gone when the log is opened
again. -/
theorem failed_append_leaves_record :
    (∃ op faults e, ((opened { smallConfig with fsync := .always }).call (fun _ => 0) op faults).1 =
        .error e ∧
      ((opened { smallConfig with fsync := .always }).call (fun _ => 0) op faults).2.log.nextOffset ≠
        (opened { smallConfig with fsync := .always }).log.nextOffset) ∧
      ∃ s, Reach (step fun _ => 0) (fun _ _ => True) (opened smallConfig) s ∧
        s.records.length = 1 ∧ ¬ Intact (fun _ => 0) s := by
  refine ⟨⟨.append ⟨0, 0⟩ none [1], [none, some 0], .err .io, rfl, by decide⟩, torn, ?_, rfl, ?_⟩
  · exact .step (.step .init trivial (i := (.append ⟨0, 0⟩ none [1], [some 1]))
      (if_pos (by decide))) trivial (i := (.append ⟨0, 0⟩ none [2], [])) (if_pos (by decide))
  · intro h
    obtain ⟨log, fs, hrun, hnext, -⟩ := h.reopens ⟨0, 0⟩
    have hlost : okValue (fun log _ => some log.nextOffset) none
        ((Log.openDir (fun _ => 0) torn.log.config ⟨0, 0⟩).run torn.fs) = some 0 := by
      decide +kernel
    rw [hrun] at hlost
    have hzero : log.nextOffset = 0 := Option.some.inj hlost
    rw [hzero] at hnext
    cases hnext

end LogRun

end Replog.Storage
