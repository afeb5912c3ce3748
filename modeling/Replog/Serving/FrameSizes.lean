import Mathlib.Data.UInt
import Replog.Serving.Requests

/-!
# Which responses a receiver takes

A request asks for as many bytes as it likes, and the metadata and the assignments are as large as
the cluster. A response is read by its receiver exactly if what it has to hold is small enough.
-/

namespace Replog.Serving
open Replog.Library Replog.Storage Replog.Proto
open Replog.Groups (GroupCoordinator)

/-! ## Runs of records -/

/-- Every run of records that a read may take leaves room for the rest of the message. -/
def RunsFit (head maxBytes : ℕ) (avail : List Record) : Prop :=
  ∀ run, run <+: avail → (totalLen run ≤ maxBytes ∨ run.length = 1) →
    head + recordsSize (run.map fetchedRecord) ≤ MAX_FRAME_BYTES

private theorem size_fetchedRecord (r : Record) : (fetchedRecord r).size + 8 = r.encodedLen := by
  simp only [FetchedRecord.size, fetchedRecord, Record.encodedLen, Record.keyLen,
    LEN_FIELD_BYTES, CRC_FIELD_BYTES, MIN_BODY_BYTES]
  omega

/-- On the wire a record takes eight bytes less than in the log. -/
theorem recordsSize_eq (run : List Record) :
    recordsSize (run.map fetchedRecord) + 8 * run.length = 4 + totalLen run := by
  induction run with
  | nil => rfl
  | cons r run ih =>
    have hr := size_fetchedRecord r
    rw [recordsSize] at ih ⊢
    rw [List.map_cons, List.map_cons, List.sum_cons, List.length_cons, totalLen_cons]
    omega

theorem recordsSize_mono {run run' : List Record} (h : run <+: run') :
    recordsSize (run.map fetchedRecord) ≤ recordsSize (run'.map fetchedRecord) := by
  obtain ⟨rest, rfl⟩ := h
  rw [recordsSize, recordsSize, List.map_append, List.map_append, List.sum_append]
  omega

theorem totalLen_le_of_isPrefix {run avail : List Record} (h : run <+: avail) :
    totalLen run ≤ totalLen avail := by
  obtain ⟨rest, rfl⟩ := h
  rw [totalLen_append]
  exact Nat.le_add_right _ _

theorem isPrefix_takeWhile {P : Record → Bool} {q l : List Record} (hq : q <+: l)
    (hall : ∀ r ∈ q, P r = true) : q <+: l.takeWhile P := by
  obtain ⟨rest, rfl⟩ := hq
  rw [List.takeWhile_append_of_pos hall]
  exact List.prefix_append _ _

private theorem takeWhile_isPrefix_takeWhile {P : Record → Bool} {q l : List Record} (hq : q <+: l) :
    q.takeWhile P <+: l.takeWhile P :=
  isPrefix_takeWhile ((List.takeWhile_prefix P).trans hq) fun _ => List.mem_takeWhile_imp

theorem sizeAccepted_iff {n : ℕ} (hpos : 0 < n) (hlt : n < 2 ^ 32) :
    SizeAccepted n ↔ n ≤ MAX_FRAME_BYTES := by
  rw [SizeAccepted, Nat.mod_eq_of_lt hlt]
  exact and_iff_right hpos.ne'

/-- The run that a read takes, as far as it is visible, fits exactly if all runs do. -/
theorem sizeAccepted_run_iff {head maxBytes : ℕ} {avail run : List Record} (P : Record → Bool)
    (h : ReadRun maxBytes avail run) (hhead : 0 < head ∧ head ≤ 2 ^ 10)
    (hbound : totalLen avail ≤ 2 ^ 30) :
    SizeAccepted (head + recordsSize ((run.takeWhile P).map fetchedRecord)) ↔
      RunsFit head maxBytes (avail.takeWhile P) := by
  have hvisible : run.takeWhile P <+: run := List.takeWhile_prefix P
  have hsize := recordsSize_eq (run.takeWhile P)
  have hle := totalLen_le_of_isPrefix (hvisible.trans h.isPrefix)
  rw [sizeAccepted_iff (by omega) (by omega)]
  constructor
  · intro hfits q hq hsmall
    refine le_trans (Nat.add_le_add_left (recordsSize_mono ?_) head) hfits
    refine isPrefix_takeWhile (h.isPrefix_of (hq.trans (List.takeWhile_prefix P)) hsmall) ?_
    exact fun r hr => List.mem_takeWhile_imp (hq.subset hr)
  · intro hfits
    refine hfits _ (takeWhile_isPrefix_takeWhile h.isPrefix) ?_
    rcases h.within with hwithin | hone
    · exact .inl ((totalLen_le_of_isPrefix hvisible).trans hwithin)
    · cases hshown : run.takeWhile P with
      | nil => exact .inl (Nat.zero_le _)
      | cons r rest =>
        have hlen := hvisible.length_le
        rw [hshown, hone, List.length_cons] at hlen
        right
        rw [List.length_cons]
        omega

private theorem sizeAccepted_whole_iff {head maxBytes : ℕ} {avail run : List Record}
    (h : ReadRun maxBytes avail run) (hhead : 0 < head ∧ head ≤ 2 ^ 10)
    (hbound : totalLen avail ≤ 2 ^ 30) :
    SizeAccepted (head + recordsSize (run.map fetchedRecord)) ↔ RunsFit head maxBytes avail := by
  have hiff := sizeAccepted_run_iff (fun _ => true) h hhead hbound
  rwa [List.takeWhile_eq_self_iff.mpr fun _ _ => rfl,
    List.takeWhile_eq_self_iff.mpr fun _ _ => rfl] at hiff

theorem runsFit_nil {head : ℕ} (hhead : head ≤ 2 ^ 10) (maxBytes : ℕ) :
    RunsFit head maxBytes [] := by
  intro run hrun _
  rw [List.prefix_nil.mp hrun]
  exact (Nat.add_le_add_right hhead _).trans (by decide)

private theorem runsFit_of_le {head : ℕ} {avail : List Record}
    (h : head + recordsSize (avail.map fetchedRecord) ≤ MAX_FRAME_BYTES) (maxBytes : ℕ) :
    RunsFit head maxBytes avail :=
  fun _ hrun _ => (Nat.add_le_add_left (recordsSize_mono hrun) head).trans h

/-! ## Fetches -/

namespace Hosted

variable {crc : List UInt8 → UInt32} {config : LogConfig} {h : Hosted}

/-- What is left of the segment at an offset. -/
def tail (h : Hosted) (offset : ℕ) : List Record := h.log.1.segmentTail h.records offset

theorem tail_eq_nil {offset : ℕ} (ho : h.records.length ≤ offset) : h.tail offset = [] := by
  rw [tail, Log.segmentTail, List.drop_of_length_le ho, List.take_nil]

theorem totalLen_tail_le (hlog : Represents crc config h.log h.records) (offset : ℕ) :
    totalLen (h.tail offset) ≤ 2 ^ 30 := by
  obtain ⟨cs, act, hok, hflat⟩ := hlog
  rw [tail, ← hflat]
  exact hok.totalLen_segmentTail_le offset

theorem read_cases (hc : config.Valid) (hlog : Represents crc config h.log h.records)
    (offset maxBytes : ℕ) :
    (∃ run, h.read crc offset maxBytes = .ok run ∧ ReadRun maxBytes (h.tail offset) run) ∨
      h.tail offset = [] ∧
        (h.read crc offset maxBytes = .ok [] ∨
          ∃ code, h.read crc offset maxBytes = .error code) := by
  have hreads := hlog.reads hc
  rcases Nat.lt_trichotomy offset h.records.length with hlt | rfl | hgt
  · obtain ⟨run, hread, hrun⟩ := hreads.inside offset hlt maxBytes
    exact .inl ⟨run, by rw [read, hread], hrun⟩
  · exact .inr ⟨tail_eq_nil le_rfl, .inl (by rw [read, hreads.atEnd])⟩
  · exact .inr ⟨tail_eq_nil hgt.le, .inr ⟨_, by rw [read, hreads.past offset hgt]⟩⟩

/-- A response with what was read, or with nothing, fits exactly if all runs do. -/
theorem sizeAccepted_read (hc : config.Valid) (hlog : Represents crc config h.log h.records)
    {head : ℕ} (hhead : 0 < head ∧ head ≤ 2 ^ 10) (offset maxBytes : ℕ) {resp : Response}
    (hok : ∀ run, h.read crc offset maxBytes = .ok run →
      6 + resp.size = head + recordsSize (run.map fetchedRecord))
    (herror : ∀ code, h.read crc offset maxBytes = .error code →
      6 + resp.size = head + recordsSize []) :
    SizeAccepted (6 + resp.size) ↔ RunsFit head maxBytes (h.tail offset) := by
  rcases read_cases hc hlog offset maxBytes with ⟨run, hread, hrun⟩ | ⟨hnil, hread⟩
  · rw [hok run hread]
    exact sizeAccepted_whole_iff hrun hhead (totalLen_tail_le hlog offset)
  · have hempty : SizeAccepted (head + recordsSize []) := by
      rw [show recordsSize [] = 4 from rfl, sizeAccepted_iff (by omega) (by omega),
        MAX_FRAME_BYTES]
      omega
    refine iff_of_true ?_ (hnil ▸ runsFit_nil hhead.2 maxBytes)
    rcases hread with hread | ⟨code, hread⟩
    · rw [hok [] hread]
      exact hempty
    · rw [herror code hread]
      exact hempty

theorem sizeAccepted_handleFetch (hc : config.Valid)
    (hlog : Represents crc config h.log h.records) (offset maxBytes : ℕ) :
    SizeAccepted (6 + (h.handleFetch crc offset maxBytes).size) ↔
      RunsFit 24 maxBytes (h.tail offset) := by
  apply sizeAccepted_read hc hlog (by decide) offset maxBytes
  · intro run hread
    rw [handleFetch, hread, Response.size, ← add_assoc]
  · intro code hread
    rw [handleFetch, hread]
    rfl

private theorem sizeAccepted_handleReplicaFetch (hc : config.Valid)
    (hlog : Represents crc config h.log h.records) (leaderEpoch : UInt64)
    (offset maxBytes : ℕ) :
    SizeAccepted (6 + (h.handleReplicaFetch crc leaderEpoch offset maxBytes).size) ↔
      RunsFit 32 maxBytes (h.tail offset) := by
  apply sizeAccepted_read hc hlog (by decide) offset maxBytes
  · intro run hread
    rw [handleReplicaFetch, hread, Response.size, ← add_assoc]
  · intro code hread
    rw [handleReplicaFetch, hread]
    rfl

/-- What a consumer sees of the rest of the segment. -/
def visibleTail (h : Hosted) (offset : ℕ) : List Record :=
  (h.tail offset).takeWhile (·.offset < h.hwm)

private theorem visibleTail_eq_nil (hlog : Represents crc config h.log h.records) {offset : ℕ}
    (ho : h.hwm ≤ offset) : h.visibleTail offset = [] := by
  rw [visibleTail]
  cases htail : h.tail offset with
  | nil => rfl
  | cons r rest =>
    have hfirst : h.records[offset]? = some r := by
      rw [tail, Log.segmentTail] at htail
      have hzero := congrArg (·[0]?) htail
      simp only [List.getElem?_cons_zero, List.getElem?_take, List.getElem?_drop] at hzero
      split at hzero
      · exact hzero
      · cases hzero
    have hoffset := hlog.numbered.offset_eq hfirst
    rw [List.takeWhile_cons_of_neg]
    rw [decide_eq_true_eq, hoffset]
    omega

private theorem sizeAccepted_handleFetchHwm (hc : config.Valid)
    (hlog : Represents crc config h.log h.records) (offset maxBytes : ℕ) :
    SizeAccepted (6 + (h.handleFetchHwm crc offset maxBytes).size) ↔
      RunsFit 24 maxBytes (h.visibleTail offset) := by
  have hempty : SizeAccepted 28 := by decide
  have hnext := hlog.nextOffset_eq
  by_cases hpast : h.log.1.nextOffset < offset
  · rw [handleFetchHwm, if_pos hpast, visibleTail, tail_eq_nil (by omega)]
    exact iff_of_true hempty (runsFit_nil (by decide) maxBytes)
  · by_cases hvisible : offset < h.hwm
    · rw [handleFetchHwm, if_neg hpast, if_pos hvisible]
      rcases read_cases hc hlog offset maxBytes with ⟨run, hread, hrun⟩ | ⟨hnil, hread⟩
      · rw [hread, Response.size, ← add_assoc]
        exact sizeAccepted_run_iff _ hrun (by decide) (totalLen_tail_le hlog offset)
      · rw [visibleTail, hnil]
        refine iff_of_true ?_ (runsFit_nil (by decide) maxBytes)
        rcases hread with hread | ⟨code, hread⟩
        · rw [hread]
          exact hempty
        · rw [hread]
          exact hempty
    · rw [handleFetchHwm, if_neg hpast, if_neg hvisible, visibleTail_eq_nil hlog (by omega)]
      exact iff_of_true hempty (runsFit_nil (by decide) maxBytes)

end Hosted

/-! ## Every request -/

namespace Broker

/-- The id and the slots of a member that joins: those it has, or if the subscriptions change, those
of an assignment to the members with it among them. -/
def joined (b : Broker) (group memberId : String) (sessionTimeout : ℕ) (topics : List String)
    (now : ℕ) : String × List (String × ℕ) :=
  let g := b.coordinator.group group
  let (id, changed, _) := b.coordinator.enroll g memberId topics
  let members := g.members.insert id { topics, sessionTimeout, lastHeartbeat := now }
  (id, if changed then ((Groups.assign members b.topicPartitions).lookup id).getD []
    else g.slotsOf id)

private theorem joined_eq (b : Broker) (group memberId : String) (sessionTimeout : ℕ)
    (topics : List String) (now : ℕ) : b.joined group memberId sessionTimeout topics now =
      let outcome := (b.coordinator.join group memberId sessionTimeout topics
        b.topicPartitions now).1
      (outcome.memberId, outcome.assignment) := by
  simp only [joined, GroupCoordinator.join, Groups.Group.slotsOf]
  split <;> rfl

/-- What a response has to hold leaves its frame within the limit: the metadata, the runs of
records at a fetch that was let in, the assignment of a member. -/
def Fits (b : Broker) : Request → Prop
  | .metadata => SizeAccepted (8 + b.metadata.size)
  | .fetch topic partition offset maxBytes maxWaitMs =>
    .fetch topic partition offset maxBytes maxWaitMs ∈ b.waiting →
      ∀ h ∈ b.hosted topic partition, RunsFit 24 maxBytes.toNat
        (if b.clustered then h.visibleTail offset.toNat else h.tail offset.toNat)
  | .replicaFetch topic partition followerId leaderEpoch offset maxBytes maxWaitMs =>
    .replicaFetch topic partition followerId leaderEpoch offset maxBytes maxWaitMs ∈ b.waiting →
      ∀ h ∈ b.hosted topic partition, RunsFit 32 maxBytes.toNat (h.tail offset.toNat)
  | .joinGroup group memberId sessionTimeoutMs topics => ∀ now,
    let (id, slots) := b.joined group memberId sessionTimeoutMs.toNat topics now
    SizeAccepted (16 + strSize id + assignmentSize (slots.map fun a => (a.1, .ofNat a.2)))
  | _ => True

variable {crc : List UInt8 → UInt32} {config : LogConfig} {b b' : Broker}

def LogsOk (crc : List UInt8 → UInt32) (config : LogConfig) (b : Broker) : Prop :=
  ∀ topic partition h, b.hosted topic partition = some h → Represents crc config h.log h.records

theorem represents_openNew (hc : config.Valid) {clock : Clock} {h : Hosted}
    (hopen : openNew crc config clock = some h) : Represents crc config h.log h.records := by
  obtain ⟨log, fs, hrun, hok⟩ := openDir_empty crc hc clock
  rw [openNew, hrun] at hopen
  cases hopen
  exact ⟨[], [], hok, rfl⟩

private theorem represents_stepLog (hc : config.Valid) {op : LogOp} {h h' : Hosted}
    (hlog : Represents crc config h.log h.records) (hstep : stepLog crc config op h = some h') :
    Represents crc config h'.log h'.records := by
  rw [stepLog] at hstep
  split at hstep
  · rename_i hroom
    cases hstep
    have hrefines := step_refines hc 0 op h.log h.records ⟨hlog, hroom⟩
    exact hrefines.2.1
  · cases hstep

theorem LogsOk.setHosted (hb : b.LogsOk crc config) (topic : String) (partition : UInt32)
    {h : Hosted} (hlog : Represents crc config h.log h.records) :
    (b.setHosted topic partition h).LogsOk crc config := by
  intro topic' partition' h' hhosted
  rw [Broker.setHosted] at hhosted
  dsimp only at hhosted
  split at hhosted
  · cases hhosted
    exact hlog
  · exact hb topic' partition' h' hhosted

theorem LogsOk.step (hc : config.Valid) (hb : b.LogsOk crc config) {a : Action}
    (hstep : b.step crc config a = some b') : b'.LogsOk crc config := by
  cases a with
  | createTopic topic partitions replicationFactor clock =>
    rw [Broker.step] at hstep
    split at hstep
    · cases hstep
      exact hb
    · cases hstep
      intro topic' partition' h hhosted
      dsimp only at hhosted
      split at hhosted
      · exact represents_openNew hc hhosted
      · exact hb topic' partition' h hhosted
  | host topic partition clock =>
    rw [Broker.step] at hstep
    split at hstep
    · cases hstep
      exact hb
    · obtain ⟨h, hopen, rfl⟩ := Option.map_eq_some_iff.mp hstep
      exact hb.setHosted topic partition (represents_openNew hc hopen)
  | log topic partition op =>
    rw [Broker.step] at hstep
    split at hstep
    · rename_i h hhosted
      obtain ⟨h', hlog, rfl⟩ := Option.map_eq_some_iff.mp hstep
      exact hb.setHosted topic partition
        (represents_stepLog hc (hb topic partition h hhosted) hlog)
    · cases hstep
  | role topic partition isLeader epoch hwm =>
    rw [Broker.step] at hstep
    split at hstep
    · rename_i h hhosted
      cases hstep
      have hlog := hb topic partition h hhosted
      exact hb.setHosted topic partition hlog
    · cases hstep
  | metadata cluster =>
    cases hstep
    exact hb
  | call c =>
    cases hstep
    exact hb
  | letIn req =>
    rw [Broker.step] at hstep
    split at hstep
    · cases hstep
      exact hb
    · cases hstep
  | answered k =>
    cases hstep
    exact hb

private theorem LogsOk.accepted_iff (hc : config.Valid) (hb : b.LogsOk crc config) (req : Request) :
    (∀ resp, b.Answers crc req resp → SizeAccepted (6 + resp.size)) ↔ b.Fits req := by
  have hsmall : ∀ n ∈ [8, 16, 20, 28, 36], SizeAccepted n := by decide
  cases req with
  | metadata =>
    rw [Fits]
    constructor
    · intro hall
      have hmeta := hall _ .metadata
      rwa [Response.size, ← add_assoc] at hmeta
    · intro hfits resp hresp
      cases hresp
      rwa [Response.size, ← add_assoc]
  | fetch topic partition offset maxBytes maxWaitMs =>
    have hiff : ∀ h, b.hosted topic partition = some h →
        (SizeAccepted (6 + (if b.clustered then
            h.handleFetchHwm crc offset.toNat maxBytes.toNat
          else h.handleFetch crc offset.toNat maxBytes.toNat).size) ↔
        RunsFit 24 maxBytes.toNat
          (if b.clustered then h.visibleTail offset.toNat else h.tail offset.toNat)) := by
      intro h hhosted
      have hlog := hb topic partition h hhosted
      split
      · exact Hosted.sizeAccepted_handleFetchHwm hc hlog _ _
      · exact Hosted.sizeAccepted_handleFetch hc hlog _ _
    constructor
    · intro hall hin h hhosted
      exact (hiff h hhosted).mp (hall _ (.fetched _ _ _ _ _ h hin hhosted))
    · intro hfits resp hresp
      cases hresp with
      | fetchRefused _ _ _ _ _ error => exact hsmall 28 (by simp)
      | fetched _ _ _ _ _ h hin hhosted => exact (hiff h hhosted).mpr (hfits hin h hhosted)
  | replicaFetch topic partition followerId leaderEpoch offset maxBytes maxWaitMs =>
    have hiff := fun h hhosted => Hosted.sizeAccepted_handleReplicaFetch hc
      (hb topic partition h hhosted) leaderEpoch offset.toNat maxBytes.toNat
    constructor
    · intro hall hin h hhosted
      exact (hiff h hhosted).mp (hall _ (.replicaFetched _ _ _ _ _ _ _ h hin hhosted))
    · intro hfits resp hresp
      cases hresp with
      | replicaFetchRefused _ _ _ _ _ _ _ error => exact hsmall 36 (by simp)
      | replicaFetched _ _ _ _ _ _ _ h hin hhosted =>
        exact (hiff h hhosted).mpr (hfits hin h hhosted)
  | controllerMetadata =>
    refine iff_of_true (fun resp hresp => ?_) trivial
    cases hresp
    decide
  | joinGroup group memberId sessionTimeoutMs topics =>
    rw [Fits]
    simp only [joined_eq]
    constructor
    · intro hall now
      have hjoin := hall _ (.joinGroup _ _ _ _ now)
      rwa [Response.size, ← add_assoc, ← add_assoc] at hjoin
    · intro hfits resp hresp
      cases hresp with
      | joinGroup _ _ _ _ now =>
        rw [Response.size, ← add_assoc, ← add_assoc]
        exact hfits now
  | _ =>
    refine iff_of_true (fun resp hresp => ?_) trivial
    cases hresp
    exact hsmall _ (by simp [Response.size])

end Broker

namespace Server

variable {crc : List UInt8 → UInt32} {config : LogConfig}

/-- What the response has to hold leaves its frame within the limit. -/
def Fits : Server → Request → Prop
  | .controller c, .controllerMetadata => SizeAccepted (8 + c.mem.clusterMeta.toProto.size)
  | .controller _, _ => True
  | .broker b, req => b.Fits req

private theorem controller_accepted_iff (c : Controller.Shared) (req : Request) :
    (∀ resp, (Server.controller c).Answers crc req resp → SizeAccepted (6 + resp.size)) ↔
      (Server.controller c).Fits req := by
  have hsmall : ∀ n ∈ [8, 16, 28], SizeAccepted n := by decide
  have hother : ∀ now persisted, SizeAccepted (6 +
      (c.handle .other now persisted).1.toProto.size) := fun _ _ => hsmall 28 (by simp)
  cases req with
  | controllerMetadata =>
    have hsize : ∀ now persisted,
        6 + (c.handle .controllerMetadata now persisted).1.toProto.size =
          8 + c.mem.clusterMeta.toProto.size := fun _ _ => (add_assoc 6 2 _).symm
    rw [Fits]
    constructor
    · intro hall
      rw [← hsize 0 true]
      exact hall _ ⟨0, true, rfl⟩
    · intro hfits resp hanswers
      obtain ⟨now, persisted, rfl⟩ := hanswers
      exact (hsize now persisted).symm ▸ hfits
  | registerBroker brokerId addr peerAddr =>
    refine iff_of_true ?_ trivial
    rintro resp ⟨now, persisted, rfl⟩
    exact hsmall 16 (by simp)
  | brokerHeartbeat brokerId version =>
    refine iff_of_true ?_ trivial
    rintro resp ⟨now, persisted, rfl⟩
    exact hsmall 16 (by simp)
  | createTopic topic partitions replicationFactor =>
    refine iff_of_true ?_ trivial
    rintro resp ⟨now, persisted, rfl⟩
    exact hsmall 8 (by simp)
  | alterIsr topic partition leaderEpoch isr =>
    refine iff_of_true ?_ trivial
    rintro resp ⟨now, persisted, rfl⟩
    exact hsmall 16 (by simp)
  | _ =>
    refine iff_of_true ?_ trivial
    rintro resp ⟨now, persisted, rfl⟩
    exact hother now persisted

def LogsOk (crc : List UInt8 → UInt32) (config : LogConfig) : Server → Prop
  | .controller _ => True
  | .broker b => b.LogsOk crc config

private theorem logsOk_of_reach (hc : config.Valid) {kind : Kind} {s : Server}
    (h : Reach (step crc config) Free (init kind) s) : s.LogsOk crc config := by
  refine h.invariant (P := LogsOk crc config) ?_ ?_
  · cases kind with
    | controller config => trivial
    | broker clustered advertised => exact nofun
  · intro s a s' hs _ hstep
    cases s with
    | controller c =>
      cases a with
      | controller a =>
        cases hstep
        trivial
      | broker a => cases hstep
    | broker b =>
      cases a with
      | controller a => cases hstep
      | broker a =>
        obtain ⟨b', hb', rfl⟩ := Option.map_eq_some_iff.mp hstep
        exact Broker.LogsOk.step hc hs hb'

/-- In every reachable state of a broker or of the controller a request gets only responses whose
frames the receiver goes on reading, exactly if what they have to hold fits. -/
theorem frames_accepted_iff (hc : config.Valid) {kind : Kind} {s : Server}
    (h : Reach (step crc config) Free (init kind) s) (req : Request) (corr : UInt32) :
    (∀ resp, s.Answers crc req resp → LengthAccepted (encodeResponse resp corr)) ↔ s.Fits req := by
  simp only [lengthAccepted_encodeResponse]
  cases s with
  | controller c => exact controller_accepted_iff c req
  | broker b => exact Broker.LogsOk.accepted_iff hc (logsOk_of_reach hc h) req

/-- The log configuration of a partition of a broker that is started without options. -/
def partitionConfig : LogConfig :=
  Partition.logConfig
    { maxSegmentBytes := 128 * 1024 * 1024, indexIntervalBytes := 4096
      maxRecordBytes := 16 * 1024 * 1024, fsync := .batch (1024 * 1024) 50 }

theorem partitionConfig_valid : partitionConfig.Valid :=
  (LogConfig.validate_eq_ok_iff _).mp rfl

/-- A fetch of two records that was let in. -/
def fetchTwo : List Action :=
  [.broker (.createTopic "t" 1 1 ⟨0, 0⟩), .broker (.log "t" 0 (.append ⟨0, 0⟩ none [7])),
    .broker (.log "t" 0 (.append ⟨0, 0⟩ (some [1]) [8])),
    .broker (.letIn (.fetch "t" 0 0 1024 0))]

/-- What a broker has let in, whether it is in cluster mode, and what is in the log. -/
def tailAt : Server → List Request × Bool × Option (List Record)
  | .controller _ => ([], false, none)
  | .broker b => (b.waiting, b.clustered, (b.hosted "t" 0).map fun h => h.tail 0)

instance (s : Server) (a : Action) : Decidable (Free s a) := inferInstanceAs (Decidable True)

theorem frames_accepted_two : ∃ s,
    Reach (step (fun _ => 0) partitionConfig) Free (init (.broker false "127.0.0.1:9092")) s ∧
      tailAt s = ([.fetch "t" 0 0 1024 0], false,
        some [⟨0, 0, none, [7]⟩, ⟨1, 0, some [1], [8]⟩]) ∧
      ∀ resp, s.Answers (fun _ => 0) (.fetch "t" 0 0 1024 0) resp →
        LengthAccepted (encodeResponse resp 7) := by
  obtain ⟨s, hs, htail⟩ := Reach.exists_of_runSteps (step (fun _ => 0) partitionConfig) Free
    (init (.broker false "127.0.0.1:9092")) fetchTwo
    (fun s => tailAt s = ([.fetch "t" 0 0 1024 0], false,
      some [⟨0, 0, none, [7]⟩, ⟨1, 0, some [1], [8]⟩]))
    (by decide +kernel)
  refine ⟨s, hs, htail, (frames_accepted_iff partitionConfig_valid hs _ 7).mpr ?_⟩
  cases s with
  | controller c => cases htail
  | broker b =>
    intro _ h hhosted
    rw [tailAt, Prod.mk.injEq, Prod.mk.injEq, hhosted, Option.map_some, Option.some.injEq] at htail
    obtain ⟨-, hclustered, hrecords⟩ := htail
    rw [hclustered, if_neg Bool.false_ne_true]
    exact runsFit_of_le (hrecords ▸ by decide) _

theorem encodedLen_big {value : List UInt8} (hvalue : value.length + 32 = 16 * 1024 * 1024)
    (offset : ℕ) :
    Record.encodedLen { offset, timestampMs := 0, key := none, value } = 16 * 1024 * 1024 := by
  simp only [Record.encodedLen, Record.keyLen, LEN_FIELD_BYTES, CRC_FIELD_BYTES, MIN_BODY_BYTES,
    Option.elim_none]
  omega

private theorem not_runsFit_big {r r' : Record} (hr : r.encodedLen = 16 * 1024 * 1024)
    (hr' : r'.encodedLen = 16 * 1024 * 1024) : ¬ RunsFit 24 (2 ^ 32 - 1) [r, r'] := by
  intro hfits
  have hlen := recordsSize_eq [r, r']
  have htotal : totalLen [r, r'] = 2 * (16 * 1024 * 1024) := by
    rw [totalLen_cons, totalLen_cons, totalLen_nil, hr, hr']
  have hrun := hfits _ List.prefix_rfl (.inl (by omega))
  rw [htotal, List.length_cons, List.length_singleton] at hlen
  rw [MAX_FRAME_BYTES] at hrun
  omega

private theorem exists_big {value : List UInt8} (hvalue : value.length + 32 = 16 * 1024 * 1024) :
    ∃ h₀ h₁ h₂, Broker.openNew (fun _ => 0) partitionConfig ⟨0, 0⟩ = some h₀ ∧
      Broker.stepLog (fun _ => 0) partitionConfig (.append ⟨0, 0⟩ none value) h₀ = some h₁ ∧
      Broker.stepLog (fun _ => 0) partitionConfig (.append ⟨0, 0⟩ none value) h₁ = some h₂ ∧
      Represents (fun _ => 0) partitionConfig h₂.log h₂.records ∧
      ∃ r r', h₂.tail 0 = [r, r'] ∧ r.encodedLen = 16 * 1024 * 1024 ∧
        r'.encodedLen = 16 * 1024 * 1024 := by
  have hc := partitionConfig_valid
  have hmax : partitionConfig.maxRecordBytes = 16 * 1024 * 1024 := rfl
  have hroom : partitionConfig.maxSegmentBytes = 128 * 1024 * 1024 := rfl
  obtain ⟨r, hr⟩ : ∃ r : Record, r = { offset := 0, timestampMs := 0, key := none, value } :=
    ⟨_, rfl⟩
  obtain ⟨r', hr'⟩ : ∃ r : Record, r = { offset := 1, timestampMs := 0, key := none, value } :=
    ⟨_, rfl⟩
  have hlen : r.encodedLen = 16 * 1024 * 1024 := by rw [hr, encodedLen_big hvalue]
  have hlen' : r'.encodedLen = 16 * 1024 * 1024 := by rw [hr', encodedLen_big hvalue]
  have hspec : ∀ (rs : List Record) (s : Record),
      s = { offset := rs.length, timestampMs := 0, key := none, value } →
      ((LogOp.append ⟨0, 0⟩ none value).spec partitionConfig rs).2 = rs ++ [s] := by
    rintro rs s rfl
    rw [LogOp.spec, LogOp.specAppend, if_neg]
    rw [encodedLen_big hvalue, hmax]
    exact lt_irrefl _
  have hstep : ∀ h : Hosted, h.records.length < 2 ^ 64 →
      ∃ h', Broker.stepLog (fun _ => 0) partitionConfig (.append ⟨0, 0⟩ none value) h = some h' ∧
        h'.log = ((LogOp.append ⟨0, 0⟩ none value).step (fun _ => 0) h.log).2 ∧
        h'.records = ((LogOp.append ⟨0, 0⟩ none value).spec partitionConfig h.records).2 :=
    fun h hlt => ⟨_, if_pos hlt, rfl, rfl⟩
  obtain ⟨log, fs, hopen, hok₀⟩ := openDir_empty (fun _ => 0) hc ⟨0, 0⟩
  obtain ⟨h₁, hstep₁, hlog₁, hrecords₁⟩ := hstep ⟨(log, fs), [], false, 0, 0⟩ (by simp)
  have hok₁ := hok₀.append_within hc ⟨0, 0⟩ none value (r := r) hr (by rw [hmax, hlen])
    (by simp) (by rw [hroom, totalLen_nil, hlen]; omega)
  rw [← hlog₁, List.nil_append] at hok₁
  rw [hspec [] r hr, List.nil_append] at hrecords₁
  obtain ⟨h₂, hstep₂, hlog₂, hrecords₂⟩ := hstep h₁ (by rw [hrecords₁]; simp)
  have hok₂ := hok₁.append_within hc ⟨0, 0⟩ none value (r := r') hr' (by rw [hmax, hlen'])
    (by simp) (by rw [hroom, totalLen_cons, totalLen_nil, hlen, hlen']; omega)
  rw [← hlog₂] at hok₂
  rw [hrecords₁, hspec [r] r' hr'] at hrecords₂
  refine ⟨_, h₁, h₂, by rw [Broker.openNew, hopen], hstep₁, hstep₂, ?_, r, r', ?_, hlen, hlen'⟩
  · rw [hrecords₂]
    exact ⟨[], _, hok₂, rfl⟩
  · rw [Hosted.tail, hrecords₂]
    exact hok₂.segmentTail_active 0

/-- A consumer asks for all that is there, and gets a frame that it does not read. -/
theorem fetch_frame_too_long :
    ∃ s, Reach (step (fun _ => 0) partitionConfig) Free (init (.broker false "127.0.0.1:9092")) s ∧
      (readFrame (encodeRequest (.fetch "t" 0 0 (2 ^ 32 - 1) 0) 7) =
        .ok (some ((encodeRequest (.fetch "t" 0 0 (2 ^ 32 - 1) 0) 7).drop 4, [])) ∧
      Exact decodeRequest (encodeRequest (.fetch "t" 0 0 (2 ^ 32 - 1) 0) 7) 7
        (.fetch "t" 0 0 (2 ^ 32 - 1) 0)) ∧
      ∃ resp, s.Answers (fun _ => 0) (.fetch "t" 0 0 (2 ^ 32 - 1) 0) resp ∧
        ¬ LengthAccepted (encodeResponse resp 7) := by
  obtain ⟨value, hvalue⟩ : ∃ value : List UInt8, value.length + 32 = 16 * 1024 * 1024 :=
    ⟨List.replicate (16 * 1024 * 1024 - 32) 0, by rw [List.length_replicate]⟩
  obtain ⟨h₀, h₁, h₂, hopen, hfirst, hsecond, hlog, r, r', htail, hr, hr'⟩ := exists_big hvalue
  obtain ⟨b₁, hcreate, hhosted₁, hclustered₁⟩ : ∃ b₁ : Broker,
      (Broker.init false "127.0.0.1:9092").step (fun _ => 0) partitionConfig
        (.createTopic "t" 1 1 ⟨0, 0⟩) = some b₁ ∧
      b₁.hosted "t" 0 = some h₀ ∧ b₁.clustered = false :=
    ⟨_, by rw [Broker.step, if_neg (by decide)],
      by simp only [show (0 : UInt32) < 1 by decide, and_self, if_true, hopen], rfl⟩
  have hset : ∀ (b : Broker) (h : Hosted), (b.setHosted "t" 0 h).hosted "t" 0 = some h := by
    intro b h
    simp only [Broker.setHosted, and_self, if_true]
  have hlog₁ : b₁.step (fun _ => 0) partitionConfig (.log "t" 0 (.append ⟨0, 0⟩ none value)) =
      some (b₁.setHosted "t" 0 h₁) := by
    simp only [Broker.step, hhosted₁, hfirst, Option.map_some]
  have hlog₂ : (b₁.setHosted "t" 0 h₁).step (fun _ => 0) partitionConfig
      (.log "t" 0 (.append ⟨0, 0⟩ none value)) =
      some ((b₁.setHosted "t" 0 h₁).setHosted "t" 0 h₂) := by
    simp only [Broker.step, hset, hsecond, Option.map_some]
  obtain ⟨b, hb⟩ : ∃ b, b = (b₁.setHosted "t" 0 h₁).setHosted "t" 0 h₂ := ⟨_, rfl⟩
  have hhosted : b.hosted "t" 0 = some h₂ := by rw [hb, hset]
  have hclustered : b.clustered = false := by rw [hb]; exact hclustered₁
  have hletIn : b.step (fun _ => 0) partitionConfig (.letIn (.fetch "t" 0 0 (2 ^ 32 - 1) 0)) =
      some { b with waiting := .fetch "t" 0 0 (2 ^ 32 - 1) 0 :: b.waiting } := by
    refine if_pos ?_
    simp only [Broker.admits, hhosted, hclustered, Option.any_some, Bool.not_false, Bool.true_or]
  refine ⟨.broker { b with waiting := .fetch "t" 0 0 (2 ^ 32 - 1) 0 :: b.waiting }, ?_,
    ⟨by decide, exact_encodeRequest _ 7 (show StrFits "t" by decide) (by decide)⟩, _,
    .fetched "t" 0 0 (2 ^ 32 - 1) 0 h₂ (List.mem_cons_self ..) hhosted, ?_⟩
  · have hlift : ∀ {b b' : Broker} {a : Broker.Action},
        b.step (fun _ => 0) partitionConfig a = some b' →
        Server.step (fun _ => 0) partitionConfig (.broker b) (.broker a) = some (.broker b') :=
      fun h => congrArg (Option.map Server.broker) h
    refine .step (.step (.step (.step .init trivial (hlift hcreate)) trivial (hlift hlog₁)) trivial
      (hb ▸ hlift hlog₂)) trivial (hlift hletIn)
  · rw [lengthAccepted_encodeResponse, hclustered, if_neg Bool.false_ne_true]
    have hiff := Hosted.sizeAccepted_handleFetch partitionConfig_valid hlog 0 (2 ^ 32 - 1)
    rw [htail] at hiff
    exact fun haccepted => not_runsFit_big hr hr' (hiff.mp haccepted)

end Server
end Replog.Serving
