import Replog.Partition.Thread
import Replog.Storage.Durability

/-!
# What a step writes

The commands of a partition that write do so one record at a time. Each of them leaves the log
with more records, and a crash on the way leaves some of those.
-/

namespace Replog.Partition
open Replog.Storage

variable {crc : List UInt8 → UInt32} {config : LogConfig} {size : LogFile → ℕ}

def keyValue (r : Record) : KeyValue := (r.key, r.value)

/-- The log holds `rs`, of which the first `k` stay. What it takes for durable is among them or
was there when it was opened with `opened` records. -/
structure LogInv (crc : List UInt8 → UInt32) (config : LogConfig) (size : LogFile → ℕ)
    (s : Log × Fs) (rs : List Record) (k opened : ℕ) : Prop where
  represents : Represents crc config s rs
  kept : Kept size rs k s.2.dir
  kept_le : k ≤ rs.length
  durable : ∀ d, s.1.durableOffset = some d → d < k ∨ d < opened

/-- A directory on the way to more records. -/
def Writing (crc : List UInt8 → UInt32) (config : LogConfig) (size : LogFile → ℕ)
    (rs : List Record) (k : ℕ) (d : Dir) : Prop :=
  ∃ more, Reaches crc config (rs ++ more) d ∧ Kept size (rs ++ more) k d

/-- What an append does to the log, whole or in part. -/
theorem LogInv.keptBy {s s' : Log × Fs} {rs more : List Record} {k opened : ℕ}
    {ops : List FsOp} (h : LogInv crc config size s rs k opened)
    (hrep : Represents crc config s' (rs ++ more))
    (hby : KeptBy size (rs ++ more) k s s' ops) :
    ∃ k', k ≤ k' ∧ LogInv crc config size s' (rs ++ more) k' opened := by
  rcases hby.durable with ⟨hsame, hkept⟩ | ⟨k', hle, hle', hdurable, hkept⟩
  · exact ⟨k, le_rfl, hrep, hkept, h.kept_le.trans (by simp), hsame ▸ h.durable⟩
  · refine ⟨k', hle, hrep, hkept, hle', fun d hd => ?_⟩
    rw [hdurable] at hd
    exact .inl (checkedPred_eq_some hd)

theorem LogInv.writing {s : Log × Fs} {rs : List Record} {k opened : ℕ}
    (h : LogInv crc config size s rs k opened) : Writing crc config size rs k s.2.dir := by
  obtain ⟨cs, act, hok, rfl⟩ := h.represents
  exact ⟨[], ⟨cs, act ++ [], _, by simp, hok.surviving (numbered_nil _)⟩, by simpa using h.kept⟩

theorem LogInv.unchanged {s : Log × Fs} {rs : List Record} {k opened : ℕ}
    (h : LogInv crc config size s rs k opened) :
    ∃ more k' ops, s.2 = s.2.advance ops ∧ k ≤ k' ∧
      LogInv crc config size s (rs ++ more) k' opened ∧
      Passes (Writing crc config size rs k) s.2 ops :=
  ⟨[], k, [], (Fs.advance_nil h.represents.healthy).symm, le_rfl, (List.append_nil rs).symm ▸ h,
    .nil h.writing⟩

theorem Writing.mono {rs : List Record} {k k' : ℕ} {d : Dir} (more : List Record)
    (h : Writing crc config size (rs ++ more) k' d) (hk : k ≤ k') :
    Writing crc config size rs k d := by
  obtain ⟨more', hreaches, hkept⟩ := h
  rw [List.append_assoc] at hreaches hkept
  exact ⟨more ++ more', hreaches, hkept.mono hk⟩

/-- How far an append of `records` has got when no error has come in the way. -/
structure Thread.Progress.Covers (p p' : Progress) (start : ℕ) (records : List KeyValue)
    (more : List Record) : Prop where
  written : more.map keyValue = records
  count : p'.count = p.count + records.length
  base : p'.base = p.base.or (if records = [] then none else some start)

theorem Thread.Progress.Covers.cons {p p' : Progress} {offset start start' : ℕ} {kv : KeyValue}
    {records : List KeyValue} {r : Record} {more : List Record}
    (h : Covers { p with base := p.base.or (some offset), count := p.count + 1 } p' start' records
      more) (hoffset : offset = start) (hr : keyValue r = kv) :
    p.Covers p' start (kv :: records) (r :: more) := by
  subst hoffset
  obtain ⟨hwritten, hcount, hbase⟩ := h
  refine ⟨by rw [List.map_cons, hr, hwritten], ?_, ?_⟩
  · rw [hcount, List.length_cons, Nat.add_assoc, Nat.add_comm 1]
  · rw [hbase, if_neg (List.cons_ne_nil _ _)]
    cases p.base <;> simp

/-- Appends one by one: what is written, what a crash on the way leaves, and how far it got. -/
theorem appendAll_inv (hsize : Enduring size) (hc : config.Valid) {records : List KeyValue}
    (clock : ℕ → Clock) (p : Thread.Progress) {s : Log × Fs} {rs : List Record} {k opened : ℕ}
    (h : LogInv crc config size s rs k opened) (hroom : rs.length + records.length ≤ 2 ^ 64) :
    ∃ more k' ops, (Thread.appendAll crc records clock p s).2.2 = s.2.advance ops ∧ k ≤ k' ∧
      LogInv crc config size (Thread.appendAll crc records clock p s).2 (rs ++ more) k' opened ∧
      Passes (Writing crc config size rs k) s.2 ops ∧
      ((Thread.appendAll crc records clock p s).1.error = none →
        p.Covers (Thread.appendAll crc records clock p s).1 rs.length records more) := by
  induction records generalizing clock p s rs k with
  | nil =>
    refine ⟨[], k, [], (Fs.advance_nil h.represents.healthy).symm, le_rfl,
      (List.append_nil rs).symm ▸ h, .nil h.writing, fun _ => ⟨rfl, rfl, ?_⟩⟩
    simp [Thread.appendAll]
  | cons kv records ih =>
    obtain ⟨key, value⟩ := kv
    simp only [List.length_cons] at hroom
    have happ := append_appended hsize hc h.represents h.kept_le h.kept
      (by omega) (clock 0) key value
    rw [Thread.appendAll]
    generalize (Log.append crc (clock 0) key value).run s = result at happ
    cases happ with
    | failed e =>
      exact ⟨[], k, [], (Fs.advance_nil h.represents.healthy).symm, le_rfl,
        (List.append_nil rs).symm ▸ h, .nil h.writing, nofun⟩
    | done info log ops hinfo hrep hpasses hby =>
      dsimp only
      obtain ⟨k', hle, h'⟩ := h.keptBy hrep hby
      have hstart : Passes (Writing crc config size rs k) s.2 ops :=
        (hpasses.and hby.passes).imp fun d hd => ⟨_, hd⟩
      have hr : keyValue { offset := rs.length, timestampMs := (clock 0).wallMs, key, value } =
        (key, value) := rfl
      generalize ({ offset := rs.length, timestampMs := (clock 0).wallMs, key, value } : Record) = r
        at h' hstart hr
      obtain ⟨more, k'', ops', hfs, hle', hinv, hpasses', hprogress⟩ := @ih
        (fun i => clock (i + 1))
        { p with base := p.base.or (some info.offset), count := p.count + 1 }
        (log, s.2.advance ops) _ k' h' (by rw [List.length_append, List.length_singleton]; omega)
      refine ⟨r :: more, k'', ops ++ ops', by rw [hfs, Fs.advance_advance], hle.trans hle', ?_,
        hstart.append (hpasses'.imp fun d hd => Writing.mono [r] hd hle),
        fun hdone => (hprogress hdone).cons hinfo hr⟩
      rwa [List.append_assoc] at hinv

theorem appendReplicatedAll_inv (hsize : Enduring size) (hc : config.Valid) {records : List Record}
    (clock : ℕ → Clock) {s : Log × Fs} {rs : List Record} {k opened : ℕ}
    (h : LogInv crc config size s rs k opened) (hroom : rs.length + records.length ≤ 2 ^ 64) :
    ∃ more k' ops, (Thread.appendReplicatedAll crc records clock s).2.2 = s.2.advance ops ∧
      k ≤ k' ∧
      LogInv crc config size (Thread.appendReplicatedAll crc records clock s).2 (rs ++ more) k'
        opened ∧ Passes (Writing crc config size rs k) s.2 ops := by
  induction records generalizing clock s rs k with
  | nil => exact h.unchanged
  | cons r records ih =>
    simp only [List.length_cons] at hroom
    have hnext : s.1.nextOffset = rs.length := h.represents.nextOffset_eq
    rw [Thread.appendReplicatedAll]
    by_cases hoffset : r.offset = rs.length
    · have hrun : (Log.appendReplicated crc (clock 0) r).run s =
          (Log.appendRecord crc (clock 0) r).run s := by
        simp only [Log.appendReplicated, EStateM.run_bind, MethodM.run_self]
        rw [if_neg (by rw [hnext]; exact not_not.mpr hoffset)]
      have happ := appendRecord_appended hsize hc h.represents h.kept_le h.kept hoffset (by omega)
        (clock 0)
      rw [hrun]
      generalize (Log.appendRecord crc (clock 0) r).run s = result at happ
      cases happ with
      | failed e => exact h.unchanged
      | done info log ops hinfo hrep hpasses hby =>
        dsimp only
        obtain ⟨k', hle, h'⟩ := h.keptBy hrep hby
        have hstart : Passes (Writing crc config size rs k) s.2 ops :=
          (hpasses.and hby.passes).imp fun d hd => ⟨_, hd⟩
        have hroom' : (rs ++ [r]).length + records.length ≤ 2 ^ 64 := by
          rw [List.length_append, List.length_singleton]
          omega
        obtain ⟨more, k'', ops', hfs, hle', hinv, hpasses'⟩ :=
          ih (fun i => clock (i + 1)) h' hroom'
        refine ⟨r :: more, k'', ops ++ ops', by rw [hfs, Fs.advance_advance], hle.trans hle', ?_,
          hstart.append (hpasses'.imp fun d hd => Writing.mono [r] hd hle)⟩
        rwa [List.append_assoc] at hinv
    · have hrun : (Log.appendReplicated crc (clock 0) r).run s =
          .error (.err (.replicatedGap r.offset rs.length)) s := by
        simp only [Log.appendReplicated, EStateM.run_bind, MethodM.run_self]
        rw [if_pos (by rwa [hnext]), hnext]
        rfl
      rw [hrun]
      exact h.unchanged

theorem flush_inv (hsize : Enduring size) {s : Log × Fs} {rs : List Record} {k opened : ℕ}
    (h : LogInv crc config size s rs k opened) (clock : Clock) :
    ∃ log k', (Log.flush clock).run s = .ok log.durableOffset
        (log, s.2.advance [.fsyncLog s.1.active.baseOffset]) ∧ k ≤ k' ∧
      LogInv crc config size (log, s.2.advance [.fsyncLog s.1.active.baseOffset]) rs k' opened ∧
      Passes (Writing crc config size rs k) s.2 [.fsyncLog s.1.active.baseOffset] := by
  obtain ⟨cs, act, hok, hrs⟩ := h.represents
  obtain ⟨log, hrun, hok', hby⟩ := flush_kept hsize hok (hrs.symm ▸ h.kept_le) (hrs.symm ▸ h.kept)
    clock
  have hnil : cs.flatten ++ act = rs ++ [] := by rw [hrs, List.append_nil]
  rw [hnil] at hby
  obtain ⟨k', hle, hinv⟩ := h.keptBy ⟨cs, act, hok', hnil⟩ hby
  rw [List.append_nil] at hinv
  have hend : Writing crc config size rs k (s.2.advance [.fsyncLog s.1.active.baseOffset]).dir :=
    Writing.mono [] ((List.append_nil rs).symm ▸ hinv.writing) hle
  exact ⟨log, k', hrun, hle, hinv, .cons h.writing (fun _ => h.writing) (.nil hend)⟩

/-! ## Starting -/

theorem logConfig_valid (h : config.Valid) : (Partition.logConfig config).Valid := by
  obtain ⟨hge, hle, hinterval, hrecord⟩ := h
  unfold Partition.logConfig
  split <;> exact ⟨hge, hle, hinterval, hrecord⟩

end Replog.Partition
