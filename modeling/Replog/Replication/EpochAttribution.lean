import Replog.Replication.Cluster

/-!
# The epoch that a checkpoint attributes to a record

A checkpoint entry is written at the log's end of that moment: by a leader that takes over, and by
a follower before the first records of a new epoch. A record that is appended then belongs to the
last entry, whatever epoch it comes from. Attribution is right exactly as long as every record
reaches the log while its own epoch is the last entry.
-/

namespace Replog.Storage.EpochCheckpoint

/-- The epoch of the last entry that starts at or below an offset. -/
def epochAt (ck : EpochCheckpoint) (offset : ℕ) : Option ℕ :=
  (ck.entries.filter fun e => e.2 ≤ offset).getLast?.map Prod.fst

def lastEpoch? (ck : EpochCheckpoint) : Option ℕ := ck.entries.getLast?.map Prod.fst

/-- The entries of a log that ends at `logEnd`. -/
structure Within (ck : EpochCheckpoint) (logEnd : ℕ) : Prop where
  starts_le : ∀ e ∈ ck.entries, e.2 ≤ logEnd
  ascending : ck.entries.Pairwise fun a b => a.2 ≤ b.2

variable {ck : EpochCheckpoint} {logEnd epoch offset : ℕ}

theorem Within.nil : (⟨[]⟩ : EpochCheckpoint).Within 0 := ⟨by simp, .nil⟩

theorem Within.mono (h : ck.Within logEnd) {n : ℕ} (hn : logEnd ≤ n) : ck.Within n :=
  ⟨fun e he => (h.starts_le e he).trans hn, h.ascending⟩

/-- The offset at the log's end belongs to the last entry. -/
theorem Within.epochAt_end (h : ck.Within logEnd) (hoffset : logEnd ≤ offset) :
    ck.epochAt offset = ck.lastEpoch? := by
  rw [epochAt, lastEpoch?, List.filter_eq_self.mpr]
  intro e he
  exact decide_eq_true ((h.starts_le e he).trans hoffset)

theorem append_cases (ck : EpochCheckpoint) (epoch start : ℕ) :
    (ck.append epoch start).getD ck = ck ∨
      (ck.append epoch start).getD ck = ⟨ck.entries ++ [(epoch, start)]⟩ := by
  rw [append]
  split
  · split
    · exact .inl rfl
    · split
      · exact .inl rfl
      · exact .inr rfl
  · exact .inr rfl

theorem Within.append (h : ck.Within logEnd) (epoch : ℕ) :
    ((ck.append epoch logEnd).getD ck).Within logEnd := by
  rcases ck.append_cases epoch logEnd with heq | heq
  · rwa [heq]
  · rw [heq]
    constructor
    · intro e he
      rcases List.mem_append.mp he with he | he
      · exact h.starts_le e he
      · rw [List.mem_singleton.mp he]
    · refine List.pairwise_append.mpr ⟨h.ascending, List.pairwise_singleton _ _, ?_⟩
      intro e he x hx
      rw [List.mem_singleton.mp hx]
      exact h.starts_le e he

private theorem epochAt_append (hoffset : offset < logEnd) :
    ((ck.append epoch logEnd).getD ck).epochAt offset = ck.epochAt offset := by
  rcases ck.append_cases epoch logEnd with heq | heq
  · rw [heq]
  · have hlate : ¬ logEnd ≤ offset := by omega
    rw [heq, epochAt, epochAt, List.filter_append]
    simp [hlate]

theorem Within.truncateTo (h : ck.Within logEnd) (n : ℕ) :
    (ck.truncateTo n).Within (min n logEnd) := by
  constructor
  · intro e he
    have hlt := List.mem_takeWhile_imp he
    have hle := h.starts_le e ((List.takeWhile_prefix _).subset he)
    simp only [decide_eq_true_eq] at hlt
    omega
  · exact h.ascending.sublist (List.takeWhile_sublist _)

private theorem Within.epochAt_truncateTo (h : ck.Within logEnd) {n : ℕ} (hoffset : offset < n) :
    (ck.truncateTo n).epochAt offset = ck.epochAt offset := by
  rw [epochAt, epochAt, EpochCheckpoint.truncateTo]
  congr 2
  have hascending := h.ascending
  generalize ck.entries = entries at hascending
  induction entries with
  | nil => rfl
  | cons e rest ih =>
    obtain ⟨hfirst, hrest⟩ := List.pairwise_cons.mp hascending
    by_cases he : e.2 < n
    · rw [List.takeWhile_cons, if_pos (decide_eq_true he), List.filter_cons, List.filter_cons,
        ih hrest]
    · rw [List.takeWhile_cons, if_neg (by simpa using he)]
      symm
      rw [List.filter_nil, List.filter_eq_nil_iff]
      intro x hx
      rcases List.mem_cons.mp hx with rfl | hx
      · simp only [decide_eq_true_eq]
        omega
      · have hle := hfirst x hx
        simp only [decide_eq_true_eq]
        omega

end Replog.Storage.EpochCheckpoint

namespace Replog.Replication
open Replog.Library Replog.Storage

namespace Broker

/-- Every record has the epoch that the checkpoint attributes to its offset. -/
def Attributed (log : List Entry) (epochs : EpochCheckpoint) : Prop :=
  ∀ offset e, log[offset]? = some e → epochs.epochAt offset = some e.epoch

/-- The records that a command adds to the log. -/
def appending (config : BrokerConfig) (b : Broker) (wall : ℕ → Int64) : Cmd → List Entry
  | .append ticket =>
    (appendRecords config.log ticket.authority.epoch wall ticket.records b.log).1.drop b.log.length
  | .appendReplicated _ records => (appendFetched config.log records b.log).1.drop b.log.length
  | _ => []

variable {config : BrokerConfig} {self : BrokerId} {b b' : Broker} {events : List Event}

private theorem attributed_append {log new : List Entry} {epochs : EpochCheckpoint}
    (hwithin : epochs.Within log.length) (h : Attributed log epochs) :
    Attributed (log ++ new) epochs ↔ ∀ e ∈ new, epochs.lastEpoch? = some e.epoch := by
  constructor
  · intro hnew e he
    obtain ⟨i, hi⟩ := List.mem_iff_getElem?.mp he
    have hat := hnew (log.length + i) e (by
      rw [List.getElem?_append_right (Nat.le_add_right _ _), Nat.add_sub_cancel_left]
      exact hi)
    rwa [hwithin.epochAt_end (Nat.le_add_right _ _)] at hat
  · intro hnew offset e he
    by_cases hlt : offset < log.length
    · rw [List.getElem?_append_left hlt] at he
      exact h offset e he
    · rw [List.getElem?_append_right (Nat.le_of_not_lt hlt)] at he
      rw [hwithin.epochAt_end (Nat.le_of_not_lt hlt)]
      exact hnew e (List.mem_of_getElem? he)

private theorem attributed_take {log : List Entry} {epochs : EpochCheckpoint}
    (hwithin : epochs.Within log.length) (h : Attributed log epochs) (n : ℕ) :
    Attributed (log.take n) (epochs.truncateTo n) := by
  intro offset e he
  have hlt : offset < n := by
    have hlen := (List.getElem?_eq_some_iff.mp he).1
    rw [List.length_take] at hlen
    omega
  rw [List.getElem?_take_of_lt hlt] at he
  rw [hwithin.epochAt_truncateTo hlt]
  exact h offset e he

private theorem attributed_recordEpoch {log : List Entry} {epochs : EpochCheckpoint} {epoch : ℕ}
    (h : Attributed log epochs) :
    Attributed log ((epochs.append epoch log.length).getD epochs) := by
  intro offset e he
  rw [EpochCheckpoint.epochAt_append (List.getElem?_eq_some_iff.mp he).1]
  exact h offset e he

private theorem handle_log (wall : ℕ → Int64) (more : ℕ) (again : Bool) (c : Cmd) :
    ((b.handle config wall more again c).1.log = b.log ++ b.appending config wall c ∧
      (b.handle config wall more again c).1.epochs = b.epochs) ∨
    (∃ authority n, c = .truncateTo authority n ∧
      (b.handle config wall more again c).1.log = b.log.take n ∧
      (b.handle config wall more again c).1.epochs = b.epochs.truncateTo n) ∨
    (∃ authority epoch, c = .recordEpoch authority epoch ∧
      (b.handle config wall more again c).1.log = b.log ∧
      (b.handle config wall more again c).1.epochs =
        (b.epochs.append epoch b.log.length).getD b.epochs) := by
  have happend : ∀ new, b.log ++ (b.log ++ new).drop b.log.length = b.log ++ new := by
    intro new
    rw [List.drop_left]
  cases c with
  | append ticket =>
    obtain ⟨new, hlog, -⟩ := appendRecords_spec config.log ticket.authority.epoch wall
      ticket.records b.log
    left
    rw [appending, hlog, happend, ← hlog]
    simp only [handle]
    split
    · exact ⟨rfl, rfl⟩
    · split <;> exact ⟨rfl, rfl⟩
  | appendReplicated authority records =>
    obtain ⟨new, -, hlog, -⟩ := appendFetched_spec config.log records b.log
    left
    rw [appending, hlog, happend, ← hlog]
    exact ⟨rfl, rfl⟩
  | truncateTo authority n => exact .inr (.inl ⟨authority, n, rfl, rfl, rfl⟩)
  | recordEpoch authority epoch =>
    rw [handle]
    split
    · exact .inr (.inr ⟨authority, epoch, rfl, rfl, rfl⟩)
    · exact .inl ⟨(List.append_nil _).symm, rfl⟩
  | epochStatus authority => exact .inl ⟨(List.append_nil _).symm, rfl⟩
  | epochEndFor authority req => exact .inl ⟨(List.append_nil _).symm, rfl⟩
  | readReplica fetch =>
    left
    rw [handle, show b.appending config wall (.readReplica fetch) = [] from rfl, List.append_nil]
    split
    · split <;> exact ⟨rfl, rfl⟩
    · exact ⟨rfl, rfl⟩
  | readConsumer offset hwm =>
    left
    rw [handle, show b.appending config wall (.readConsumer offset hwm) = [] from rfl,
      List.append_nil]
    split <;> exact ⟨rfl, rfl⟩

private theorem attributed_handle {queue : List Cmd} (hwithin : b.epochs.Within b.log.length)
    (h : Attributed b.log b.epochs) (wall : ℕ → Int64) (more : ℕ) (again : Bool) (c : Cmd)
    (hb : { b with queue }.handle config wall more again c = (b', events)) :
    b'.epochs.Within b'.log.length ∧ (Attributed b'.log b'.epochs ↔
      ∀ e ∈ b.appending config wall c, b.epochs.lastEpoch? = some e.epoch) := by
  have hcases := @handle_log config { b with queue } wall more again c
  rw [hb] at hcases
  rcases hcases with ⟨hlog, hepochs⟩ | ⟨authority, n, rfl, hlog, hepochs⟩ |
    ⟨authority, epoch, rfl, hlog, hepochs⟩
  · dsimp only at hlog hepochs
    rw [hlog, hepochs]
    refine ⟨hwithin.mono ?_, attributed_append hwithin h⟩
    rw [List.length_append]
    exact Nat.le_add_right _ _
  · dsimp only at hlog hepochs
    rw [hlog, hepochs, List.length_take]
    exact ⟨hwithin.truncateTo n, iff_of_true (attributed_take hwithin h n) (by simp [appending])⟩
  · dsimp only at hlog hepochs
    rw [hlog, hepochs]
    exact ⟨hwithin.append epoch, iff_of_true (attributed_recordEpoch h) (by simp [appending])⟩

private theorem log_of_not_process {a : Action} (ha : a.isProcess = false)
    (hb : b.step config self a = some (b', events)) :
    b'.log = b.log ∧ b'.epochs = b.epochs := by
  have hlog := (step_explained hb).log
  dsimp only at hlog
  generalize b'.log = log, b'.epochs = epochs at hlog
  cases hlog with
  | same => exact ⟨rfl, rfl⟩
  | _ => cases ha

end Broker

namespace Cluster

variable {config : BrokerId → BrokerConfig}

def Action.isCrash : Action → Bool
  | .crash _ _ _ => true
  | _ => false

/-- The broker whose writer thread handles a command, and its wall clock. -/
def Action.process? : Action → Option (BrokerId × (ℕ → Int64))
  | .broker b (.process wall _ _) => some (b, wall)
  | _ => none

/-- What the writer thread adds to a log comes from the epoch that the checkpoint ends with. -/
def AppendsCurrent (config : BrokerId → BrokerConfig) (c : Cluster) (a : Action) : Prop :=
  ∀ x ∈ a.process?, ∀ cmd ∈ (c.nodes x.1).broker.queue.head?,
    ∀ e ∈ (c.nodes x.1).broker.appending (config x.1) x.2 cmd,
      (c.nodes x.1).broker.epochs.lastEpoch? = some e.epoch

instance (c : Cluster) (a : Action) : Decidable (AppendsCurrent config c a) :=
  inferInstanceAs (Decidable (∀ x ∈ a.process?, _))

/-- In every replica, every record has the epoch that the checkpoint attributes to it. -/
def Attributed (c : Cluster) : Prop :=
  ∀ b, Broker.Attributed (c.nodes b).broker.log (c.nodes b).broker.epochs

/-- In every replica the checkpoint lies within the log. -/
def CheckpointsWithin (c : Cluster) : Prop :=
  ∀ b, (c.nodes b).broker.epochs.Within (c.nodes b).broker.log.length

variable {c c' : Cluster} {a : Action}

private theorem attributed_acts {b : BrokerId} {act : Replication.Action} {net : List Message}
    (hacts : Acts c a b act net) {broker : Broker} {events : List Event}
    (hb : (c.nodes b).broker.step (config b) b act = some (broker, events))
    (hwithin : CheckpointsWithin c) (h : Attributed c) :
    broker.epochs.Within broker.log.length ∧
      (Broker.Attributed broker.log broker.epochs ↔ AppendsCurrent config c a) := by
  cases hprocess : act.isProcess with
  | false =>
    obtain ⟨hlog, hepochs⟩ := Broker.log_of_not_process hprocess hb
    rw [hlog, hepochs]
    refine ⟨hwithin b, iff_of_true (h b) ?_⟩
    intro x hx
    cases hacts with
    | broker =>
      cases act with
      | process wall more again => cases hprocess
      | _ => cases hx
    | _ => cases hx
  | true =>
    cases act with
    | process wall more again =>
      cases hacts
      cases hqueue : (c.nodes b).broker.queue with
      | nil =>
        rw [Broker.step, hqueue] at hb
        cases hb
      | cons cmd queue =>
        have hhandle := Broker.step_process hqueue hb
        obtain ⟨hin, hiff⟩ := Broker.attributed_handle (hwithin b) (h b) wall more again cmd
          hhandle.symm
        refine ⟨hin, hiff.trans ?_⟩
        constructor
        · intro hnew x hx cmd' hcmd
          cases hx
          rw [hqueue] at hcmd
          cases hcmd
          exact hnew
        · intro hcurrent
          exact hcurrent _ rfl cmd (by rw [hqueue]; rfl)
    | _ => cases hprocess

/-- A step without a crash keeps the records attributed exactly when what it adds to a log comes
from the last epoch of the checkpoint. -/
theorem attributed_step (hcrash : a.isCrash = false) (hwithin : CheckpointsWithin c)
    (h : Attributed c) (hstep : step config c a = some c') :
    CheckpointsWithin c' ∧ (Attributed c' ↔ AppendsCurrent config c a) := by
  have hstill : c'.nodes = c.nodes → a.process? = none →
      CheckpointsWithin c' ∧ (Attributed c' ↔ AppendsCurrent config c a) := by
    intro hnodes hprocess
    refine ⟨fun b => ?_, iff_of_true (fun b => ?_) fun x hx => ?_⟩
    · rw [hnodes]
      exact hwithin b
    · rw [hnodes]
      exact h b
    · rw [hprocess] at hx
      cases hx
  cases steps_of_step hstep with
  | sweeps hsweeps => exact hstill rfl (by cases hsweeps <;> rfl)
  | alterIsr hm => exact hstill rfl rfl
  | lose => exact hstill rfl rfl
  | crash => cases hcrash
  | @acts _ b act net broker events hacts hb =>
    obtain ⟨hin, hiff⟩ := attributed_acts hacts hb hwithin h
    refine ⟨fun b' => ?_, ?_⟩
    · by_cases hb' : b' = b
      · subst hb'
        simpa using hin
      · simpa [hb'] using hwithin b'
    · rw [← hiff]
      constructor
      · intro hall
        simpa using hall b
      · intro hnew b'
        by_cases hb' : b' = b
        · subst hb'
          simpa using hnew
        · simpa [hb'] using h b'

theorem Attributed.create (replicas : List BrokerId) :
    CheckpointsWithin (create replicas) ∧ Attributed (create replicas) :=
  ⟨fun _ => .nil, fun _ offset e he => by simp [Cluster.create] at he⟩

/-- Along every run without crashes whose appends are of the last epoch of the checkpoint, all
records are attributed rightly, and the first step that appends otherwise ends that. -/
theorem attributed_of_reach {replicas : List BrokerId}
    (h : Reach (step config) (fun c a => a.isCrash = false ∧ AppendsCurrent config c a)
      (create replicas) c) :
    Attributed c ∧ ∀ a c', a.isCrash = false → step config c a = some c' →
      (Attributed c' ↔ AppendsCurrent config c a) := by
  have hinv := Reach.invariant (P := fun c => CheckpointsWithin c ∧ Attributed c)
    (Attributed.create replicas)
    (fun c a c' hinv hguard hstep => by
      obtain ⟨hwithin, hiff⟩ := attributed_step hguard.1 hinv.1 hinv.2 hstep
      exact ⟨hwithin, hiff.mpr hguard.2⟩) h
  exact ⟨hinv.2, fun a c' hcrash hstep => (attributed_step hcrash hinv.1 hinv.2 hstep).2⟩

/-- Broker 0 leads epoch 1 and appends one record. -/
def leadAndAppend : List Action :=
  [.pull 0, .broker 0 .applyMetadata, .broker 0 .recordEpoch,
    .broker 0 (.process (fun _ => 0) 0 false), .broker 0 (.produce .written 0 [(none, [7])]),
    .broker 0 (.task 1), .broker 0 (.process (fun _ => 0) 0 false)]

/-- The partition is left without a leader, and broker 0 is elected again. -/
def electAgain : List Action :=
  [.sweepLiveness [0, 1], .heartbeat 0, .heartbeat 1, .pull 0, .broker 0 .applyMetadata,
    .broker 0 .recordEpoch, .broker 0 (.process (fun _ => 0) 0 false)]

/-- Broker 1 follows broker 0, whose `tasks` are not part of this, and fetches once. -/
def followAndFetch (tasks : ℕ) : List Action :=
  [.pull 1, .broker 1 .applyMetadata, .broker 1 (.fetcher 1), .broker 1 (.fetcher 1),
    .broker 1 (.process (fun _ => 0) 0 false), .broker 1 (.fetcher 1), .deliver 0 0,
    .broker 0 (.task tasks), .broker 0 (.process (fun _ => 0) 0 false), .deliver 0 1,
    .broker 1 (.fetcher 1), .broker 1 (.fetcher 1), .broker 1 (.fetcher 1),
    .broker 1 (.fetcher 1), .deliver 0 0, .broker 0 (.task tasks), .broker 0 (.task tasks),
    .broker 0 (.task tasks), .broker 0 (.task tasks), .broker 0 (.process (fun _ => 0) 0 false),
    .deliver 0 1, .broker 1 (.fetcher 1), .broker 1 (.fetcher 1), .broker 1 (.fetcher 1),
    .broker 1 (.process (fun _ => 0) 0 false), .broker 1 (.process (fun _ => 0) 0 false)]

theorem attributed_follower : ∃ c : Cluster, (c.nodes 1).broker.log ≠ [] ∧ Attributed c := by
  obtain ⟨c, hc, hlog⟩ := Reach.exists_of_runSteps (step fun _ => Node.smallConfig)
    (fun c a => a.isCrash = false ∧ AppendsCurrent (fun _ => Node.smallConfig) c a)
    (create [0, 1]) (leadAndAppend ++ followAndFetch 1) (fun c => (c.nodes 1).broker.log ≠ [])
    (by decide +kernel)
  exact ⟨c, hlog, (attributed_of_reach hc).1⟩

/-- A follower that fetches a record of epoch 1 only in epoch 2 attributes it to epoch 2. -/
theorem not_attributed : ¬ ∀ c, Reach (step fun _ => Node.smallConfig) (fun _ a => a.isCrash = false)
    (create [0, 1]) c → Attributed c := by
  intro hall
  obtain ⟨c, hc, hlog, hepochs⟩ := Reach.exists_of_runSteps (step fun _ => Node.smallConfig)
    (fun _ a => a.isCrash = false) (create [0, 1])
    (leadAndAppend ++ electAgain ++ followAndFetch 2)
    (fun c => (c.nodes 1).broker.log = [⟨1, 0, 0, none, [7]⟩] ∧
      (c.nodes 1).broker.epochs = ⟨[(2, 0)]⟩) (by decide +kernel)
  have hattributed := hall c hc 1 0 ⟨1, 0, 0, none, [7]⟩ (by rw [hlog]; rfl)
  rw [hepochs] at hattributed
  exact absurd hattributed (by decide)

end Cluster
end Replog.Replication
