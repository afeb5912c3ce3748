import Replog.Groups.DurableCommits
import Replog.Partition.EpochStarts

/-!
# The store opens again

However the process of a broker ended, and under every fsync policy, the files of the offsets log
open as a log and the replay comes to its end. What it finds may be less than was acknowledged where
nothing is synced.
-/

namespace Replog.Groups
open Replog.Library
open Replog.Partition
open Replog.Storage hiding Reply

variable {crc : List UInt8 → UInt32} {config : LogConfig}

/-- A directory that is new or opens as a log. -/
inductive Reopens (crc : List UInt8 → UInt32) (config : LogConfig) : Dir → Prop
  | empty : Reopens crc config .empty
  | left {rs : List Record} {d : Dir} (h : Left crc config rs d) : Reopens crc config d

/-- A running thread has a log of some records, and a stopped one leaves such a directory. -/
def PhaseOpens (crc : List UInt8 → UInt32) (config : LogConfig) : Phase → Prop
  | .up t => ∃ rs, Represents crc config t.state rs
  | .down d => Reopens crc config d

theorem Reopens.loses (hc : config.Valid) {d d' : Dir} (h : Reopens crc config d)
    (hloss : Partition.Loses d d') : Reopens crc config d' := by
  rcases hloss with rfl | ⟨newest, n, hdamage, -⟩
  · exact h
  cases h with
  | empty =>
    obtain ⟨f, synced, hf, -⟩ := hdamage.newest_log
    cases hf
  | left hleft =>
    obtain ⟨rs', hleft'⟩ := hleft.damaged hc hdamage
    exact .left hleft'

/-- A restart on such a directory succeeds, and a crash on the way leaves as much. -/
theorem Reopens.spawn (hvalid : config.Valid) {d : Dir}
    (h : Reopens crc (Partition.logConfig config) d) (clock : Clock) :
    ∃ t rs, Thread.spawn crc config clock d none = some t ∧
      Represents crc (Partition.logConfig config) t.state rs ∧
      ∀ d', CrashPoint d t.fs.trace d' → Reopens crc (Partition.logConfig config) d' := by
  have hc := logConfig_valid hvalid
  cases h with
  | empty =>
    obtain ⟨log, hrun, hok, -⟩ := openDir_empty_run crc hc clock
    have hmade {d : Dir} (hd : ∀ b, d.log b = if b = 0 then some ⟨[], 0⟩ else none) :
        Reopens crc (Partition.logConfig config) d :=
      .left (@left_nil crc (Partition.logConfig config) LogFile.length _ hd).1
    have hcreated : Reopens crc (Partition.logConfig config) ((FsOp.createLog 0).apply .empty) :=
      hmade fun b => by simp
    have hpasses : Passes (Reopens crc (Partition.logConfig config)) ⟨Dir.empty, [], []⟩
        [.createLog 0, .createIndex 0] :=
      .cons .empty (fun _ => .empty)
        (.cons hcreated (fun _ => hcreated) (.nil (hmade fun b => by simp)))
    exact ⟨_, [], spawn_eq hrun, ⟨[], [], hok, rfl⟩, hpasses⟩
  | @left rs _ hleft =>
    obtain ⟨log, ops, hrun, hrep, -, hpasses⟩ :=
      hleft.open LogFile.enduring_length hc hleft.kept_zero clock
    exact ⟨_, rs, spawn_eq hrun, hrep, fun d' hd' => .left (hpasses d' hd').1⟩

/-- What a step of the thread leaves, and what a crash in it leaves. -/
def StepOpens (crc : List UInt8 → UInt32) (config : LogConfig) (t t' : Thread) : Prop :=
  ∃ rs ops, t'.fs = t.fs.advance ops ∧ Represents crc config t'.state rs ∧
    Passes (Reopens crc config) t.fs ops

theorem stepOpens_of_writing (hc : config.Valid) {t t' : Thread} {rs rs' : List Record}
    {ops : List FsOp} (hfs : t'.fs = t.fs.advance ops) (hrep : Represents crc config t'.state rs')
    (hpasses : Passes (Writing crc config LogFile.length rs 0) t.fs ops) :
    StepOpens crc config t t' := by
  refine ⟨rs', ops, hfs, hrep, hpasses.imp fun d hd => ?_⟩
  obtain ⟨more, hreaches, hkept⟩ := hd
  obtain ⟨rs'', -, -, hleft, -⟩ := hreaches.left LogFile.enduring_length hc hkept (by simp)
  exact .left hleft

theorem StepOpens.unchanged {t : Thread} {rs : List Record} (h : Represents crc config t.state rs) :
    StepOpens crc config t t :=
  ⟨rs, [], (Fs.advance_nil h.healthy).symm, h, .nil (.left h.left)⟩

theorem flush_opens (hc : config.Valid) {t : Thread} {rs : List Record}
    (h : Represents crc config t.state rs) (clock : Clock) :
    StepOpens crc config t (t.flush clock).2 := by
  obtain ⟨opened, hlog⟩ := Partition.Represents.logInv h
  obtain ⟨log, k, hrun, -, hlog', hpasses⟩ := flush_inv LogFile.enduring_length hlog clock
  have hstate : (t.flush clock).2.state =
      (log, t.fs.advance [.fsyncLog t.log.active.baseOffset]) := by
    simp only [Thread.flush, hrun]
    rfl
  exact stepOpens_of_writing hc (congrArg Prod.snd hstate) (hstate ▸ hlog'.represents) hpasses

theorem react_opens (hc : config.Valid) (policy : FsyncPolicy) {t : Thread} {rs : List Record}
    (h : Represents crc config t.state rs) {e : StoreEvent} (hfits : e.Fits t) :
    StepOpens crc config t (t.react crc policy e.event).2 := by
  have hnext : t.log.nextOffset = rs.length := h.nextOffset_eq
  cases e with
  | commit c clock now =>
    obtain ⟨opened, hlog⟩ := Partition.Represents.logInv h
    have hroom : t.log.nextOffset + 1 ≤ 2 ^ 64 := hfits.2
    obtain ⟨more, k, ops, hfs, -, hlog', hpasses, -⟩ :=
      appendAll_inv LogFile.enduring_length hc clock ⟨none, 0, none⟩ hlog
        (show rs.length + c.produce.records.length ≤ 2 ^ 64 by
          simpa [CommitRequest.produce, hnext] using hroom)
    have hfiles := @append_files crc policy c.produce true clock now t
    have hstate : (t.append crc policy c.produce true clock now).2.state =
        (Thread.appendAll crc c.produce.records clock ⟨none, 0, none⟩ t.state).2 :=
      congrArg Prod.fst hfiles
    exact stepOpens_of_writing hc ((congrArg Prod.snd hstate).trans hfs)
      (hstate ▸ hlog'.represents) hpasses
  | read offset maxBytes =>
    have hsame := (@read_state crc offset maxBytes t).1
    rw [StoreEvent.event, Thread.react, hsame]
    exact .unchanged h
  | timeout clock =>
    simp only [StoreEvent.event, Thread.react, Thread.timeout]
    split
    · split_ifs
      · exact flush_opens hc h clock
      · exact .unchanged h
    · exact .unchanged h
  | disconnect clock => exact flush_opens hc h clock

theorem StoreRun.opens (hvalid : config.Valid) {s : DurableStore} (h : StoreRun crc config s) :
    PhaseOpens crc (Partition.logConfig config) s.phase := by
  have hc := logConfig_valid hvalid
  induction h with
  | new => exact .empty
  | @opened s d clock t fuel cache _ hdown hspawn _ ih =>
    rw [hdown] at ih
    obtain ⟨t', rs, hspawn', hrep, -⟩ := Reopens.spawn hvalid ih clock
    rw [hspawn] at hspawn'
    cases hspawn'
    exact ⟨rs, hrep⟩
  | @reacted s t _ hup e hfits ih =>
    rw [hup] at ih
    obtain ⟨rs, hrep⟩ := ih
    obtain ⟨rs', ops, -, hrep', -⟩ := react_opens hc config.fsync hrep hfits
    cases e with
    | disconnect clock => exact .left hrep'.left
    | commit | read | timeout => exact ⟨rs', hrep'⟩
  | finished _ c hsent hreply ih => exact ih
  | @crashed s t _ hup e hfits ops d d' htrace hcrash hloss ih =>
    rw [hup] at ih
    obtain ⟨rs, hrep⟩ := ih
    obtain ⟨rs', ops', hfs, -, hpasses⟩ := react_opens hc config.fsync hrep hfits
    rw [hfs] at htrace
    obtain rfl := List.append_cancel_left htrace
    exact (hpasses _ hcrash).loses hc hloss
  | @crashedOpening s d d' d'' clock t _ hdown hspawn hcrash hloss ih =>
    rw [hdown] at ih
    obtain ⟨t', rs, hspawn', -, hpasses⟩ := Reopens.spawn hvalid ih clock
    rw [hspawn] at hspawn'
    cases hspawn'
    exact (hpasses _ hcrash).loses hc hloss

/-- A stopped store opens: the log does, and the replay ends. -/
theorem StoreRun.reopens (hvalid : config.Valid) {s : DurableStore} (h : StoreRun crc config s)
    {d : Dir} (hdown : s.phase = .down d) (clock : Clock) :
    ∃ t, Thread.spawn crc config clock d none = some t ∧
      ∃ fuel cache, ∀ more, openCache crc (fuel + more) t = some (.ok cache) := by
  have hopens := h.opens hvalid
  rw [hdown] at hopens
  obtain ⟨t, rs, hspawn, hrep, -⟩ := Reopens.spawn hvalid hopens clock
  refine ⟨t, hspawn, rs.length + 1, (rs.foldl replayRecord (0, ∅)).2, fun more => ?_⟩
  exact replayFrom_spec hvalid hrep _ (0, ∅) (Nat.zero_le _) (by omega)

end Replog.Groups
