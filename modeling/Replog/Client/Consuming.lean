import Replog.Client.Producer
import Replog.Proto.FrameStream
import Replog.Serving.FrameSizes

/-!
# A consumer and its log

A consumer polls a partition over the wire: its request is framed, read and decoded by the broker,
and the answer comes back the same way. What it has received is what the log has held from its
first position on, in order and without gaps, and enough polls bring it to the end. A connection that
is lost, or on which an answer was too large, stays closed.
-/

namespace Replog.Client
open Replog.Library Replog.Storage Replog.Proto Replog.LittleEndian
open Replog.Serving (Hosted fetchedRecord)

/-! ## Calls over the wire -/

/-- The frame that a server answers a frame with, if it does. -/
def answerFrame (server : Request → Option Response) (frame : List UInt8) : Option (List UInt8) :=
  match readFrame frame with
  | .ok (some (body, _)) =>
    match decodeRequest body with
    | .ok (corr, req) => (server req).map (encodeResponse · corr)
    | .error _ => none
  | _ => none

/-- What a call gets out of the frame that comes back. -/
def takeFrame (corr : UInt32) (frame : List UInt8) : Except ClientError Response :=
  match readFrame frame with
  | .ok (some (body, _)) =>
    match decodeResponse body with
    -- nobody waits for another correlation id, and the call stays until the connection ends
    | .ok (corr', resp) => if corr' = corr then .ok resp else .error .closed
    | .error _ => .error .closed
  | _ => .error .closed

/-- A call and its answer. A side that does not get along with a frame closes the connection, and
on a closed one there is no answer. -/
def callServer (server : Request → Option Response) (closed : Bool) (corr : UInt32)
    (req : Request) : Except ClientError Response :=
  if closed then .error .closed
  else
    match answerFrame server (encodeRequest req corr) with
    | some frame => takeFrame corr frame
    | none => .error .closed

/-- `Connection::fetch` with what the call gave. -/
def fetchResult : Except ClientError Response →
    Except ClientError (UInt64 × UInt64 × List FetchedRecord)
  | .ok (.fetch .none logStart nextOffset records) => .ok (logStart, nextOffset, records)
  | .ok (.fetch error _ _ _) => .error (.broker error)
  | .ok _ => .error .unexpectedResponse
  | .error e => .error e

/-! ## Consumers -/

structure Consumer where
  /-- The reader of the connection has ended. -/
  closed : Bool
  topic : String
  partition : UInt32
  group : Option String
  position : UInt64
  maxBytes : UInt32
  maxWaitMs : UInt32

namespace Consumer

def startAt (topic : String) (partition : UInt32) (position : UInt64) : Consumer :=
  { closed := false, topic, partition, group := none, position, maxBytes := 2 ^ 20
    maxWaitMs := 0 }

def request (c : Consumer) : Request :=
  .fetch c.topic c.partition c.position c.maxBytes c.maxWaitMs

def poll (c : Consumer) (result : Except ClientError (UInt64 × UInt64 × List FetchedRecord)) :
    Except ClientError (List FetchedRecord) × Consumer :=
  match result with
  | .error e => (.error e, c)
  | .ok (_, _, records) =>
    (.ok records, match records.getLast? with
      | some last => { c with position := last.offset + 1 }
      | none => c)

/-- A call ends without an answer because the connection is closed. -/
def afterCall (c : Consumer) : Except ClientError Response → Consumer
  | .ok _ => c
  | .error _ => { c with closed := true }

end Consumer

/-- `dispatch` as far as it answers fetches. One that waited was let in when it came: only the log
is looked at again. -/
def dispatchFetch (crc : List UInt8 → UInt32) (b : Serving.Broker) (waited : Bool) :
    Request → Option Response
  | .fetch topic partition offset maxBytes _ =>
    some <|
      if b.clustered then
        match b.hosted topic partition with
        | none => .fetch .notLeader 0 0 []
        | some h =>
          if !waited && !h.isLeader then .fetch .notLeader 0 0 []
          else h.handleFetchHwm crc offset.toNat maxBytes.toNat
      else
        match b.hosted topic partition with
        | none => .fetch .unknownTopicOrPartition 0 0 []
        | some h => h.handleFetch crc offset.toNat maxBytes.toNat
  | _ => none

/-! ## Runs -/

/-- A broker and a consumer of one of its partitions, with everything the consumer was given. -/
structure Consuming where
  broker : Serving.Broker
  consumer : Consumer
  received : List FetchedRecord

namespace Consuming

inductive Action where
  | broker (a : Serving.Broker.Action)
  | poll (corr : UInt32) (waited : Bool)
  /-- The limits are public fields. -/
  | limit (maxBytes maxWaitMs : UInt32)
  | disconnect

def log (s : Consuming) : Option Hosted := s.broker.hosted s.consumer.topic s.consumer.partition

def records (s : Consuming) : List Record := s.log.elim [] Hosted.records

variable (crc : List UInt8 → UInt32) (config : LogConfig)

def poll (s : Consuming) (corr : UInt32) (waited : Bool) : Consuming :=
  let answer := callServer (dispatchFetch crc s.broker waited) s.consumer.closed corr
    s.consumer.request
  let r := (s.consumer.afterCall answer).poll (fetchResult answer)
  { s with consumer := r.2, received := s.received ++ r.1.toOption.getD [] }

def polls (s : Consuming) (calls : List (UInt32 × Bool)) : Consuming :=
  calls.foldl (fun s call => s.poll crc call.1 call.2) s

def step (s : Consuming) : Action → Option Consuming
  | .broker a => (s.broker.step crc config a).map fun broker => { s with broker }
  | .poll corr waited => some (s.poll crc corr waited)
  | .limit maxBytes maxWaitMs =>
    some { s with consumer := { s.consumer with maxBytes, maxWaitMs } }
  | .disconnect => some { s with consumer := { s.consumer with closed := true } }

def cut : LogOp → Option ℕ
  | .truncateSuffix newNext => some newNext
  | _ => none

/-- Without a cluster no replicas are hosted. A log stays shorter than `2 ^ 64 - 1`, and what the
consumer was given is not truncated. -/
def Keeps (s : Consuming) : Action → Prop
  | .broker (.host _ _ _) => s.broker.clustered = true
  | .broker (.log topic partition op) =>
    (∀ h ∈ s.broker.hosted topic partition, h.records.length + 1 < 2 ^ 64) ∧
      ((topic, partition) = (s.consumer.topic, s.consumer.partition) → s.received ≠ [] →
        ∀ n ∈ cut op, s.consumer.position.toNat ≤ n)
  | _ => True

instance (s : Consuming) (a : Action) : Decidable (s.Keeps a) :=
  match a with
  | .broker (.host _ _ _) => inferInstanceAs (Decidable (_ = _))
  | .broker (.log _ _ _) => inferInstanceAs (Decidable (_ ∧ _))
  | .broker (.createTopic _ _ _ _) | .broker (.role _ _ _ _ _) | .broker (.metadata _)
  | .broker (.call _) | .broker (.letIn _) | .broker (.answered _) | .poll _ _ | .limit _ _
  | .disconnect =>
    inferInstanceAs (Decidable True)

def visible (s : Consuming) (h : Hosted) : ℕ :=
  if s.broker.clustered then min h.hwm h.records.length else h.records.length

/-- The connection stands, the broker serves the partition, and every answer stays within the limit
of a frame. -/
structure Served (s : Consuming) (h : Hosted) : Prop where
  connected : s.consumer.closed = false
  log : s.log = some h
  leads : s.broker.clustered = true → h.isLeader = true
  maxBytes : s.consumer.maxBytes.toNat + 28 ≤ MAX_FRAME_BYTES
  records : config.maxRecordBytes + 28 ≤ MAX_FRAME_BYTES

end Consuming

/-! ## The wire -/

theorem length_frame (msgType : UInt8) (corr : UInt32) (body : List UInt8) :
    (frame msgType corr body).length = 10 + body.length := by
  rw [frame_eq, List.length_append, length_leBytes, length_payload]
  omega

theorem readFrame_frame (msgType : UInt8) (corr : UInt32) {body : List UInt8}
    (h : 6 + body.length ≤ MAX_FRAME_BYTES) :
    readFrame (frame msgType corr body) = .ok (some (payload msgType corr body, [])) := by
  have hfits : BodyFits (payload msgType corr body) := by
    rw [BodyFits, length_payload]
    omega
  have hread := readFrame_framed hfits []
  rwa [List.append_nil, framed, ← frame_eq] at hread

private theorem readFrame_frame_large (msgType : UInt8) (corr : UInt32) (body : List UInt8)
    (h : MAX_FRAME_BYTES < 6 + body.length) (hlt : 6 + body.length < 2 ^ 32) :
    ∃ e, readFrame (frame msgType corr body) = .error e := by
  have hlen : leValue ((frame msgType corr body).take 4) = 6 + body.length := by
    rw [frame_eq, List.take_left' (length_leBytes ..), length_payload,
      leValue_leBytes_of_lt hlt]
  refine ⟨.outOfBounds (6 + body.length), ?_⟩
  rw [readFrame, if_neg (by rw [length_frame]; omega)]
  dsimp only
  rw [hlen, if_pos (.inr h)]

private theorem length_encodeRequest_fetch (topic : String) (partition : UInt32) (offset : UInt64)
    (maxBytes maxWaitMs corr : UInt32) :
    (encodeRequest (.fetch topic partition offset maxBytes maxWaitMs) corr).length =
      32 + topic.utf8ByteSize := by
  rw [encodeRequest, length_frame]
  simp [strSize]
  omega

private theorem callServer_fetch {server : Request → Option Response} {topic : String}
    (htopic : StrFits topic) (partition : UInt32) (offset : UInt64)
    (maxBytes maxWaitMs corr : UInt32) {resp : Response}
    (hserver : server (.fetch topic partition offset maxBytes maxWaitMs) = some resp)
    (hresp : resp.Fits) (hsize : 6 + resp.size < 2 ^ 32) :
    callServer server false corr (.fetch topic partition offset maxBytes maxWaitMs) =
      if 6 + resp.size ≤ MAX_FRAME_BYTES then .ok resp else .error .closed := by
  have hlength := length_encodeRequest_fetch topic partition offset maxBytes maxWaitMs corr
  obtain ⟨msgType, body, hframe, hreads⟩ :=
    reads_encodeRequest (.fetch topic partition offset maxBytes maxWaitMs) htopic
  rw [hframe, length_frame] at hlength
  have hsmall : 6 + body.length ≤ MAX_FRAME_BYTES := by
    rw [StrFits] at htopic
    rw [MAX_FRAME_BYTES]
    omega
  have hdecode : decodeRequest (payload msgType corr body) =
      .ok (corr, .fetch topic partition offset maxBytes maxWaitMs) := decode_payload hreads corr
  have hanswer : answerFrame server (frame msgType corr body) =
      some (encodeResponse resp corr) := by
    rw [answerFrame, readFrame_frame msgType corr hsmall]
    dsimp only
    rw [hdecode]
    dsimp only
    rw [hserver, Option.map_some]
  rw [callServer, if_neg Bool.false_ne_true, hframe, hanswer]
  dsimp only
  obtain ⟨msgType', body', hframe', hreads'⟩ := reads_encodeResponse resp hresp
  have hbody : 6 + body'.length = 6 + resp.size := by
    obtain ⟨msgType'', body'', hframe'', hlength''⟩ := encodeResponse_eq_frame resp corr
    have heq := congrArg List.length ((hframe' corr).symm.trans hframe'')
    rw [length_frame, length_frame] at heq
    omega
  rw [hframe', takeFrame]
  split_ifs with hlimit
  · have hdecode' : decodeResponse (payload msgType' corr body') = .ok (corr, resp) :=
      decode_payload hreads' corr
    rw [readFrame_frame msgType' corr (by omega)]
    dsimp only
    rw [hdecode']
    exact if_pos rfl
  · obtain ⟨e, he⟩ := readFrame_frame_large msgType' corr body' (by omega) (by omega)
    rw [he]

/-! ## Fetches -/

/-- What a fetch of `maxBytes` at an offset may return, up to where the log is visible. -/
structure Fetches (config : LogConfig) (h : Hosted) (offset maxBytes limit : ℕ)
    (run : List Record) : Prop where
  isPrefix : run <+: h.records.drop offset
  nonempty : run ≠ []
  within : totalLen run ≤ maxBytes ∨ run.length = 1
  small : totalLen run ≤ 2 ^ 30
  records : ∀ r ∈ run, r.encodedLen ≤ config.maxRecordBytes
  visible : offset + run.length ≤ limit

/-- A response with a run of records, or with none. -/
def Responds (config : LogConfig) (h : Hosted) (offset maxBytes limit : ℕ) (resp : Response) :
    Prop :=
  (∃ run logStart nextOffset, resp = .fetch .none logStart nextOffset (run.map fetchedRecord) ∧
      Fetches config h offset maxBytes limit run) ∨
    limit ≤ offset ∧ ∃ error logStart nextOffset, resp = .fetch error logStart nextOffset []

section Fetches

variable {crc : List UInt8 → UInt32} {config : LogConfig} {h : Hosted}

private theorem numbered_encodedLen {n : ℕ} {rs : List Record} (h : Numbered config n rs) :
    ∀ r ∈ rs, r.encodedLen ≤ config.maxRecordBytes := by
  induction rs generalizing n with
  | nil => exact fun _ hr => absurd hr List.not_mem_nil
  | cons r rs ih =>
    obtain ⟨-, -, hlen, hrest⟩ := h
    exact List.forall_mem_cons.mpr ⟨hlen, ih hrest⟩

theorem offset_of_isPrefix (hlog : Represents crc config h.log h.records) {offset i : ℕ}
    {run : List Record} (hrun : run <+: h.records.drop offset) {r : Record}
    (hr : run[i]? = some r) : r.offset = offset + i := by
  obtain ⟨rest, heq⟩ := hrun
  have hget : h.records[offset + i]? = some r := by
    rw [← List.getElem?_drop, ← heq]
    exact (List.getElem?_append_left (List.getElem?_eq_some_iff.mp hr).1).trans hr
  rw [hlog.numbered.offset_eq hget, Nat.zero_add]

theorem add_length_le {offset : ℕ} {run : List Record} (hrun : run <+: h.records.drop offset)
    (hne : run ≠ []) : offset + run.length ≤ h.records.length := by
  have hle := hrun.length_le
  have hpos := List.length_pos_of_ne_nil hne
  rw [List.length_drop] at hle
  omega

theorem fetches_of_readRun (hlog : Represents crc config h.log h.records) {offset maxBytes : ℕ}
    {run : List Record} (hrun : ReadRun maxBytes (h.tail offset) run) :
    Fetches config h offset maxBytes h.records.length run := by
  have hstart : run <+: h.records.drop offset := hrun.isPrefix.trans (List.take_prefix _ _)
  refine ⟨hstart, hrun.nonempty, hrun.within, ?_, fun r hr => ?_,
    add_length_le hstart hrun.nonempty⟩
  · exact (Serving.totalLen_le_of_isPrefix hrun.isPrefix).trans
      (Hosted.totalLen_tail_le hlog offset)
  · exact numbered_encodedLen hlog.numbered r (List.mem_of_mem_drop (hstart.subset hr))

theorem tail_ne_nil (hlog : Represents crc config h.log h.records) (hc : config.Valid)
    {offset : ℕ} (ho : offset < h.records.length) : h.tail offset ≠ [] := by
  obtain ⟨run, -, hrun⟩ := (hlog.reads hc).inside offset ho 0
  intro hnil
  change ReadRun 0 (h.tail offset) run at hrun
  rw [hnil] at hrun
  exact hrun.nonempty (List.prefix_nil.mp hrun.isPrefix)

private theorem handleFetch_responds (hc : config.Valid) (hlog : Represents crc config h.log h.records)
    (offset maxBytes : ℕ) :
    Responds config h offset maxBytes h.records.length (h.handleFetch crc offset maxBytes) := by
  rcases Hosted.read_cases hc hlog offset maxBytes with ⟨run, hread, hrun⟩ | ⟨hnil, hread⟩
  · refine .inl ⟨run, h.logStart, h.nextOffset, ?_, fetches_of_readRun hlog hrun⟩
    rw [Hosted.handleFetch, hread]
  · refine .inr ⟨Nat.le_of_not_lt fun hlt => tail_ne_nil hlog hc hlt hnil, ?_⟩
    rcases hread with hread | ⟨code, hread⟩
    · exact ⟨.none, h.logStart, h.nextOffset, by rw [Hosted.handleFetch, hread]; rfl⟩
    · exact ⟨code, 0, 0, by rw [Hosted.handleFetch, hread]⟩

/-- The records below the high-water mark are the front of the run. -/
theorem Fetches.takeWhile (hlog : Represents crc config h.log h.records) {offset maxBytes : ℕ}
    {run : List Record} (hrun : Fetches config h offset maxBytes h.records.length run)
    (hlt : offset < h.hwm) :
    Fetches config h offset maxBytes (min h.hwm h.records.length)
      (run.takeWhile (·.offset < h.hwm)) := by
  have hstart : run.takeWhile (·.offset < h.hwm) <+: run := List.takeWhile_prefix _
  have hne : run.takeWhile (·.offset < h.hwm) ≠ [] := by
    obtain ⟨r, rest, hcons⟩ := List.exists_cons_of_ne_nil hrun.nonempty
    have hoffset := offset_of_isPrefix hlog hrun.isPrefix (i := 0) (by rw [hcons]; rfl)
    rw [hcons, List.takeWhile_cons_of_pos (by rw [decide_eq_true_eq]; omega)]
    exact List.cons_ne_nil _ _
  have hpos := List.length_pos_of_ne_nil hne
  refine ⟨hstart.trans hrun.isPrefix, hne, ?_,
    (Serving.totalLen_le_of_isPrefix hstart).trans hrun.small,
    fun r hr => hrun.records r (hstart.subset hr), ?_⟩
  · rcases hrun.within with hwithin | hone
    · exact .inl ((Serving.totalLen_le_of_isPrefix hstart).trans hwithin)
    · have hle := hstart.length_le
      exact .inr (by omega)
  · obtain ⟨r, hr⟩ : ∃ r, (run.takeWhile (·.offset < h.hwm)).getLast? = some r :=
      ⟨_, List.getLast?_eq_some_getLast hne⟩
    have htaken := List.mem_takeWhile_imp (List.mem_of_getLast? hr)
    have hbelow : r.offset < h.hwm := of_decide_eq_true htaken
    rw [List.getLast?_eq_getElem?] at hr
    have hoffset := offset_of_isPrefix hlog (hstart.trans hrun.isPrefix) hr
    have hlength := add_length_le (hstart.trans hrun.isPrefix) hne
    omega

private theorem handleFetchHwm_responds (hc : config.Valid)
    (hlog : Represents crc config h.log h.records) (offset maxBytes : ℕ) :
    Responds config h offset maxBytes (min h.hwm h.records.length)
      (h.handleFetchHwm crc offset maxBytes) := by
  have hnext := hlog.nextOffset_eq
  by_cases hpast : h.log.1.nextOffset < offset
  · exact .inr ⟨by omega, _, _, _, by rw [Hosted.handleFetchHwm, if_pos hpast]⟩
  · by_cases hvisible : offset < h.hwm
    · rcases Hosted.read_cases hc hlog offset maxBytes with ⟨run, hread, hrun⟩ | ⟨hnil, hread⟩
      · refine .inl ⟨_, h.logStart, .ofNat h.hwm, ?_,
          (fetches_of_readRun hlog hrun).takeWhile hlog hvisible⟩
        rw [Hosted.handleFetchHwm, if_neg hpast, if_pos hvisible, hread]
      · have hend := Nat.le_of_not_lt fun hlt => tail_ne_nil hlog hc hlt hnil
        refine .inr ⟨by omega, ?_⟩
        rw [Hosted.handleFetchHwm, if_neg hpast, if_pos hvisible]
        rcases hread with hread | ⟨code, hread⟩
        · exact ⟨.none, h.logStart, .ofNat h.hwm, by rw [hread]; rfl⟩
        · exact ⟨code, 0, .ofNat h.hwm, by rw [hread]⟩
    · exact .inr ⟨by omega, _, _, _, by
        rw [Hosted.handleFetchHwm, if_neg hpast, if_neg hvisible]⟩

private theorem payloadFits_of_encodedLen {r : Record} (hr : r.encodedLen ≤ 2 ^ 30) :
    PayloadFits (fetchedRecord r).key (fetchedRecord r).value := by
  rw [Record.encodedLen] at hr
  refine ⟨fun k hk => ?_, ?_⟩
  · have hkey : r.keyLen = k.length := by
      rw [Record.keyLen, show r.key = some k from hk, Option.elim_some]
    omega
  · change r.value.length < 2 ^ 32
    omega

theorem Fetches.fits (hc : config.Valid) {offset maxBytes limit : ℕ} {run : List Record}
    (hrun : Fetches config h offset maxBytes limit run) (logStart nextOffset : UInt64) :
    (Response.fetch .none logStart nextOffset (run.map fetchedRecord)).Fits := by
  refine ⟨?_, List.forall_mem_map.mpr fun r hr => ?_⟩
  · have hlength := (length_le_totalLen run).trans hrun.small
    rw [List.length_map]
    omega
  · exact payloadFits_of_encodedLen ((hrun.records r hr).trans hc.record_le)

theorem size_fetch_le (error : ErrorCode) (logStart nextOffset : UInt64) (run : List Record) :
    (Response.fetch error logStart nextOffset (run.map fetchedRecord)).size ≤
      22 + totalLen run := by
  have hsize := Serving.recordsSize_eq run
  rw [Response.size]
  omega

/-- The frame is within the limit if that leaves room for the bytes asked for and for a record. -/
theorem Fetches.size_le {offset maxBytes limit : ℕ} {run : List Record}
    (hrun : Fetches config h offset maxBytes limit run) (hbytes : maxBytes + 28 ≤ MAX_FRAME_BYTES)
    (hrecord : config.maxRecordBytes + 28 ≤ MAX_FRAME_BYTES) (logStart nextOffset : UInt64) :
    6 + (Response.fetch .none logStart nextOffset (run.map fetchedRecord)).size ≤
      MAX_FRAME_BYTES := by
  have hsize := size_fetch_le .none logStart nextOffset run
  rcases hrun.within with hwithin | hone
  · omega
  · obtain ⟨r, rfl⟩ := List.length_eq_one_iff.mp hone
    have hlen := hrun.records r List.mem_cons_self
    rw [totalLen_cons, totalLen_nil] at hsize
    omega

private theorem Fetches.next_position (hlog : Represents crc config h.log h.records)
    {offset maxBytes limit : ℕ} {run : List Record}
    (hrun : Fetches config h offset maxBytes limit run) :
    ∃ last, (run.map fetchedRecord).getLast? = some last ∧
      last.offset + 1 = .ofNat (offset + run.length) := by
  have hpos := List.length_pos_of_ne_nil hrun.nonempty
  obtain ⟨r, hr⟩ : ∃ r, run.getLast? = some r := ⟨_, List.getLast?_eq_some_getLast hrun.nonempty⟩
  refine ⟨fetchedRecord r, by rw [List.getLast?_map, hr, Option.map_some], ?_⟩
  rw [List.getLast?_eq_getElem?] at hr
  have hoffset := offset_of_isPrefix hlog hrun.isPrefix hr
  rw [fetchedRecord, show offset + run.length = r.offset + 1 by omega, UInt64.ofNat_add]
  rfl

end Fetches

/-! ## Polls -/

namespace Consuming

variable {crc : List UInt8 → UInt32} {config : LogConfig} {s : Consuming}

private theorem dispatchFetch_cases (hc : config.Valid) (hlogs : s.broker.LogsOk crc config)
    (waited : Bool) :
    ∃ resp, dispatchFetch crc s.broker waited s.consumer.request = some resp ∧
      ((∃ h, s.log = some h ∧ Responds config h s.consumer.position.toNat
          s.consumer.maxBytes.toNat (s.visible h) resp) ∨
        (∀ h, ¬ s.Served config h) ∧ ∃ error, resp = .fetch error 0 0 []) := by
  refine ⟨_, rfl, ?_⟩
  cases hlog : s.broker.hosted s.consumer.topic s.consumer.partition with
  | none =>
    refine .inr ⟨fun h hserved => ?_, ?_⟩
    · exact absurd (hlog.symm.trans hserved.log) (Option.some_ne_none h).symm
    · split
      · exact ⟨_, rfl⟩
      · exact ⟨_, rfl⟩
  | some h =>
    have hok := hlogs _ _ h hlog
    by_cases hclustered : s.broker.clustered = true
    · dsimp only
      rw [if_pos hclustered]
      split
      · rename_i hrefused
        refine .inr ⟨fun h' hserved => ?_, .notLeader, rfl⟩
        have heq : h = h' := Option.some.inj (hlog.symm.trans hserved.log)
        rw [heq, hserved.leads hclustered, Bool.not_true, Bool.and_false] at hrefused
        exact absurd hrefused Bool.false_ne_true
      · refine .inl ⟨h, hlog, ?_⟩
        rw [visible, if_pos hclustered]
        exact handleFetchHwm_responds hc hok _ _
    · refine .inl ⟨h, hlog, ?_⟩
      dsimp only
      rw [if_neg hclustered, visible, if_neg hclustered]
      exact handleFetch_responds hc hok _ _

theorem poll_of_error {corr : UInt32} {waited : Bool} {e : ClientError}
    (h : callServer (dispatchFetch crc s.broker waited) s.consumer.closed corr
      s.consumer.request = .error e) :
    s.poll crc corr waited = { s with consumer := { s.consumer with closed := true } } := by
  rw [Consuming.poll, h]
  change ({ s with
    consumer := { s.consumer with closed := true }
    received := s.received ++ [] } : Consuming) = _
  rw [List.append_nil]

private theorem poll_of_empty {corr : UInt32} {waited : Bool} {error : ErrorCode}
    {logStart nextOffset : UInt64}
    (h : callServer (dispatchFetch crc s.broker waited) s.consumer.closed corr
      s.consumer.request = .ok (.fetch error logStart nextOffset [])) :
    s.poll crc corr waited = s := by
  have hresult : fetchResult (.ok (.fetch error logStart nextOffset [])) =
      if error = .none then .ok (logStart, nextOffset, []) else .error (.broker error) := by
    cases error <;> rfl
  rw [Consuming.poll, h, hresult]
  split_ifs
  · change { s with received := s.received ++ [] } = s
    rw [List.append_nil]
  · change { s with received := s.received ++ [] } = s
    rw [List.append_nil]

/-- A poll gets a run from the position on, or nothing; a consumer that is served gets nothing
only at the end of what is visible. -/
theorem poll_cases (hc : config.Valid) (hlogs : s.broker.LogsOk crc config)
    (htopic : StrFits s.consumer.topic) (corr : UInt32) (waited : Bool) :
    ((∃ closed, s.poll crc corr waited =
        { s with consumer := { s.consumer with closed } }) ∧
      ∀ h, s.Served config h → s.poll crc corr waited = s ∧
        s.visible h ≤ s.consumer.position.toNat) ∨
    ∃ h run, s.log = some h ∧ Fetches config h s.consumer.position.toNat
        s.consumer.maxBytes.toNat (s.visible h) run ∧
      s.poll crc corr waited =
        { s with
          consumer := { s.consumer with
            position := .ofNat (s.consumer.position.toNat + run.length) }
          received := s.received ++ run.map fetchedRecord } := by
  cases hopen : s.consumer.closed with
  | true =>
    refine .inl ⟨⟨true, poll_of_error (e := .closed) ?_⟩, fun h hserved => ?_⟩
    · rw [callServer, if_pos hopen]
    · exact absurd (hopen.symm.trans hserved.connected) (by decide)
  | false =>
    obtain ⟨resp, hserver, hresp⟩ := dispatchFetch_cases hc hlogs waited
    have hcall (hfits : resp.Fits) (hsize : 6 + resp.size < 2 ^ 32) :
        callServer (dispatchFetch crc s.broker waited) s.consumer.closed corr
          s.consumer.request = if 6 + resp.size ≤ MAX_FRAME_BYTES then .ok resp
            else .error .closed := by
      rw [hopen]
      exact callServer_fetch htopic _ _ _ _ corr hserver hfits hsize
    -- an answer without records leaves everything as it is
    have hempty {error : ErrorCode} {logStart nextOffset : UInt64}
        (heq : resp = .fetch error logStart nextOffset []) : s.poll crc corr waited = s := by
      subst heq
      refine poll_of_empty ((hcall ⟨by decide, ?_⟩ ?_).trans (if_pos ?_))
      · exact fun r hr => absurd hr List.not_mem_nil
      · exact Nat.lt_of_le_of_lt (Nat.add_le_add_left (size_fetch_le error _ _ []) 6) (by decide)
      · exact (Nat.add_le_add_left (size_fetch_le error _ _ []) 6).trans (by decide)
    rcases hresp with ⟨h, hlog, ⟨run, logStart, nextOffset, rfl, hrun⟩ | ⟨hend, _, _, _, heq⟩⟩ |
      ⟨hserved, _, heq⟩
    · have hsize := size_fetch_le .none logStart nextOffset run
      have hsmall := hrun.small
      have hanswer := hcall (hrun.fits hc _ _) (by omega)
      by_cases hlimit :
          6 + (Response.fetch .none logStart nextOffset (run.map fetchedRecord)).size ≤
            MAX_FRAME_BYTES
      · refine .inr ⟨h, run, hlog, hrun, ?_⟩
        obtain ⟨last, hlast, hposition⟩ := hrun.next_position (hlogs _ _ h hlog)
        rw [if_pos hlimit] at hanswer
        rw [Consuming.poll, hanswer, fetchResult, Consumer.afterCall, Consumer.poll]
        dsimp only
        rw [hlast]
        dsimp only
        rw [hposition]
        rfl
      · refine .inl ⟨⟨true, poll_of_error (hanswer.trans (if_neg hlimit))⟩, fun h' hserved => ?_⟩
        exact absurd (hrun.size_le hserved.maxBytes hserved.records _ _) hlimit
    · refine .inl ⟨⟨s.consumer.closed, hempty heq⟩, fun h' hserved => ⟨hempty heq, ?_⟩⟩
      have hh : h = h' := Option.some.inj (hlog.symm.trans hserved.log)
      exact hh ▸ hend
    · exact .inl ⟨⟨s.consumer.closed, hempty heq⟩,
        fun h' hserved' => absurd hserved' (hserved h')⟩

/-! ## Runs -/

/-- What was received are the records from the start to the position. -/
structure Given (crc : List UInt8 → UInt32) (config : LogConfig) (c : Consumer) (s : Consuming) :
    Prop where
  topic : s.consumer.topic = c.topic
  logs : s.broker.LogsOk crc config
  topics : s.broker.clustered = false →
    ∀ topic partition h, s.broker.hosted topic partition = some h → topic ∈ s.broker.topics
  short : s.records.length < 2 ^ 64
  position : s.consumer.position.toNat = c.position.toNat + s.received.length
  received : s.received =
    ((s.records.drop c.position.toNat).take s.received.length).map fetchedRecord

theorem records_of_log {h : Hosted} (hlog : s.log = some h) : s.records = h.records := by
  rw [records, hlog, Option.elim_some]

theorem Given.le_length {c : Consumer} (h : s.Given crc config c) (hne : s.received ≠ []) :
    s.consumer.position.toNat ≤ s.records.length := by
  have hlength := congrArg List.length h.received
  have hpos := List.length_pos_of_ne_nil hne
  have hposition := h.position
  rw [List.length_map, List.length_take, List.length_drop] at hlength
  omega

private theorem spec_records (op : LogOp) (rs : List Record) :
    (op.spec config rs).2 = rs ∨ (∃ r, (op.spec config rs).2 = rs ++ [r]) ∨
      ∃ n, op = .truncateSuffix n ∧ (op.spec config rs).2 = rs.take n := by
  have happend (r : Record) : (LogOp.specAppend config r rs).2 = rs ∨
      ∃ r', (LogOp.specAppend config r rs).2 = rs ++ [r'] := by
    rw [LogOp.specAppend]
    split
    · exact .inl rfl
    · exact .inr ⟨r, rfl⟩
  cases op with
  | append clock key value =>
    rcases happend { offset := rs.length, timestampMs := clock.wallMs, key, value } with h | h
    · exact .inl h
    · exact .inr (.inl h)
  | appendReplicated clock record =>
    rw [LogOp.spec]
    split
    · exact .inl rfl
    · rcases happend record with h | h
      · exact .inl h
      · exact .inr (.inl h)
  | flush clock => exact .inl rfl
  | truncateSuffix n => exact .inr (.inr ⟨n, rfl, rfl⟩)
  | reopen clock => exact .inl rfl

theorem openNew_records {clock : Clock} {h : Hosted}
    (hopen : Serving.Broker.openNew crc config clock = some h) : h.records = [] := by
  rw [Serving.Broker.openNew] at hopen
  split at hopen
  · cases hopen
    rfl
  · cases hopen

theorem records_setHosted (topic : String) (partition : UInt32) (h : Hosted) :
    ({ s with broker := s.broker.setHosted topic partition h } : Consuming).records =
      if (topic, partition) = (s.consumer.topic, s.consumer.partition) then h.records
      else s.records := by
  rw [records, log, Serving.Broker.setHosted]
  dsimp only
  by_cases hsame : s.consumer.topic = topic ∧ s.consumer.partition = partition
  · rw [if_pos hsame, if_pos (by rw [hsame.1, hsame.2]), Option.elim_some]
  · rw [if_neg hsame, if_neg fun heq => ?_]
    · rfl
    · obtain ⟨htopic, hpartition⟩ := Prod.mk.inj heq
      exact hsame ⟨htopic.symm, hpartition.symm⟩

private theorem broker_records {c : Consumer} (h : s.Given crc config c) {a : Serving.Broker.Action}
    {broker : Serving.Broker} (hkeeps : s.Keeps (.broker a))
    (hstep : s.broker.step crc config a = some broker) :
    let records' := ({ s with broker } : Consuming).records
    records' = s.records ∨
      (∃ r, records' = s.records ++ [r] ∧ s.records.length + 1 < 2 ^ 64) ∨
      ∃ n, records' = s.records.take n ∧ (s.received ≠ [] → s.consumer.position.toNat ≤ n) := by
  intro records'
  cases a with
  | createTopic topic partitions replicationFactor clock =>
    left
    rw [Serving.Broker.step] at hstep
    split at hstep
    · cases hstep
      rfl
    · rename_i hnew
      simp only [Bool.or_eq_true, decide_eq_true_eq, not_or, Bool.not_eq_true] at hnew
      cases hstep
      by_cases hsame : s.consumer.topic = topic ∧ s.consumer.partition < partitions
      · -- the partition is new
        have hnone : s.records = [] := by
          rw [records]
          cases hlog : s.log with
          | none => rfl
          | some h' =>
            have hmem := h.topics hnew.1.1.1.1.1 _ _ h' hlog
            exact absurd (hsame.1 ▸ hmem) (by simpa using hnew.2)
        rw [hnone]
        change ((if s.consumer.topic = topic ∧ s.consumer.partition < partitions then
          Serving.Broker.openNew crc config clock else s.log).elim [] Hosted.records) = []
        rw [if_pos hsame]
        cases hopen : Serving.Broker.openNew crc config clock with
        | none => rfl
        | some h' => exact openNew_records hopen
      · change ((if s.consumer.topic = topic ∧ s.consumer.partition < partitions then
          Serving.Broker.openNew crc config clock else s.log).elim [] Hosted.records) = s.records
        rw [if_neg hsame, records]
  | host topic partition clock =>
    left
    rw [Serving.Broker.step] at hstep
    split at hstep
    · cases hstep
      rfl
    · rename_i hnone
      obtain ⟨h', hopen, rfl⟩ := Option.map_eq_some_iff.mp hstep
      refine (records_setHosted topic partition h').trans ?_
      split_ifs with hsame
      · obtain ⟨rfl, rfl⟩ := Prod.mk.inj hsame
        rw [openNew_records hopen, records, log, hnone, Option.elim_none]
      · rfl
  | log topic partition op =>
    rw [Serving.Broker.step] at hstep
    split at hstep
    · rename_i h' hhosted
      obtain ⟨h'', hlog, rfl⟩ := Option.map_eq_some_iff.mp hstep
      have hrecords : records' = if (topic, partition) = (s.consumer.topic, s.consumer.partition)
          then h''.records else s.records := records_setHosted topic partition h''
      obtain ⟨hroom, htruncate⟩ := hkeeps
      by_cases hsame : (topic, partition) = (s.consumer.topic, s.consumer.partition)
      · have hshort := hroom h' hhosted
        obtain ⟨rfl, rfl⟩ := Prod.mk.inj hsame
        have hspec : h''.records = (op.spec config h'.records).2 := by
          rw [Serving.Broker.stepLog] at hlog
          split at hlog
          · cases hlog
            rfl
          · cases hlog
        rw [hrecords, if_pos rfl, hspec, records_of_log hhosted]
        rcases @spec_records config op h'.records with heq | ⟨r, heq⟩ | ⟨n, hop, heq⟩
        · exact .inl heq
        · exact .inr (.inl ⟨r, heq, hshort⟩)
        · exact .inr (.inr ⟨n, heq, fun hne => htruncate rfl hne n (hop ▸ rfl)⟩)
      · exact .inl (hrecords.trans (if_neg hsame))
    · cases hstep
  | role topic partition isLeader epoch hwm =>
    left
    rw [Serving.Broker.step] at hstep
    split at hstep
    · rename_i h' hhosted
      cases hstep
      refine (records_setHosted topic partition _).trans ?_
      split_ifs with hsame
      · obtain ⟨rfl, rfl⟩ := Prod.mk.inj hsame
        exact (records_of_log hhosted).symm
      · rfl
    · cases hstep
  | metadata cluster =>
    cases hstep
    exact .inl rfl
  | call c =>
    cases hstep
    exact .inl rfl
  | letIn req =>
    rw [Serving.Broker.step] at hstep
    split at hstep
    · cases hstep
      exact .inl rfl
    · cases hstep
  | answered k =>
    cases hstep
    exact .inl rfl

theorem Given.poll (hc : config.Valid) {c : Consumer} (htopic : StrFits c.topic)
    (h : s.Given crc config c) (corr : UInt32) (waited : Bool) :
    (s.poll crc corr waited).Given crc config c := by
  rcases poll_cases hc h.logs (h.topic ▸ htopic) corr waited with
    ⟨⟨closed, heq⟩, -⟩ | ⟨hosted, run, hlog, hrun, heq⟩
  · rw [heq]
    exact ⟨h.topic, h.logs, h.topics, h.short, h.position, h.received⟩
  · have hshort := h.short
    have hend := add_length_le hrun.isPrefix hrun.nonempty
    have hrecords := records_of_log hlog
    rw [hrecords] at hshort
    have hposition : (UInt64.ofNat (s.consumer.position.toNat + run.length)).toNat =
        s.consumer.position.toNat + run.length :=
      UInt64.toNat_ofNat_of_lt' (Nat.lt_of_le_of_lt hend hshort)
    rw [heq]
    refine ⟨h.topic, h.logs, h.topics, h.short, ?_, ?_⟩
    · dsimp only
      rw [hposition, h.position, List.length_append, List.length_map, add_assoc]
    · change s.received ++ run.map fetchedRecord =
        ((s.records.drop c.position.toNat).take
          (s.received ++ run.map fetchedRecord).length).map fetchedRecord
      rw [List.length_append, List.length_map, List.take_add, List.map_append, ← h.received,
        List.drop_drop, ← h.position, hrecords, ← List.prefix_iff_eq_take.mp hrun.isPrefix]

private theorem Given.topics_step {c : Consumer} (h : s.Given crc config c)
    {a : Serving.Broker.Action} {broker : Serving.Broker} (hkeeps : s.Keeps (.broker a))
    (hstep : s.broker.step crc config a = some broker) (halone : broker.clustered = false)
    (topic : String) (partition : UInt32) (h' : Hosted)
    (hhosted : broker.hosted topic partition = some h') : topic ∈ broker.topics := by
  have hset (topic' : String) (partition' : UInt32) (hosted old : Hosted)
      (hold : s.broker.hosted topic' partition' = some old)
      (heq : broker = s.broker.setHosted topic' partition' hosted) : topic ∈ broker.topics := by
    subst heq
    rw [Serving.Broker.setHosted] at hhosted
    dsimp only at hhosted
    split at hhosted
    · rename_i hsame
      rw [hsame.1]
      exact h.topics halone _ _ old hold
    · exact h.topics halone _ _ h' hhosted
  cases a with
  | createTopic topic' partitions replicationFactor clock =>
    rw [Serving.Broker.step] at hstep
    split at hstep
    · cases hstep
      exact h.topics halone _ _ h' hhosted
    · cases hstep
      rw [AList.mem_insert]
      dsimp only at hhosted
      split at hhosted
      · rename_i hsame
        exact .inl hsame.1
      · exact .inr (h.topics halone _ _ h' hhosted)
  | host topic' partition' clock =>
    rw [Serving.Broker.step] at hstep
    split at hstep
    · cases hstep
      exact h.topics halone _ _ h' hhosted
    · obtain ⟨_, _, rfl⟩ := Option.map_eq_some_iff.mp hstep
      exact absurd (halone.symm.trans hkeeps) Bool.false_ne_true
  | log topic' partition' op =>
    rw [Serving.Broker.step] at hstep
    split at hstep
    · rename_i old hold
      obtain ⟨_, _, rfl⟩ := Option.map_eq_some_iff.mp hstep
      exact hset _ _ _ old hold rfl
    · cases hstep
  | role topic' partition' isLeader epoch hwm =>
    rw [Serving.Broker.step] at hstep
    split at hstep
    · rename_i old hold
      cases hstep
      exact hset _ _ _ old hold rfl
    · cases hstep
  | metadata cluster =>
    cases hstep
    exact h.topics halone _ _ h' hhosted
  | call c =>
    cases hstep
    exact h.topics halone _ _ h' hhosted
  | letIn req =>
    rw [Serving.Broker.step] at hstep
    split at hstep
    · cases hstep
      exact h.topics halone _ _ h' hhosted
    · cases hstep
  | answered k =>
    cases hstep
    exact h.topics halone _ _ h' hhosted

private theorem Given.received_of {c : Consumer} (h : s.Given crc config c) {rs : List Record}
    (hstart : s.records.take s.consumer.position.toNat <+: rs ∨ s.received = []) :
    s.received = ((rs.drop c.position.toNat).take s.received.length).map fetchedRecord := by
  by_cases hnil : s.received = []
  · rw [hnil]
    rfl
  · obtain ⟨rest, rfl⟩ := hstart.resolve_right hnil
    have hlength : (s.records.take s.consumer.position.toNat).length =
        c.position.toNat + s.received.length := by
      rw [List.length_take_of_le (h.le_length hnil), h.position]
    rw [List.take_drop, List.take_left' hlength, h.position, ← List.take_drop]
    exact h.received

theorem Given.broker (hc : config.Valid) {c : Consumer} (h : s.Given crc config c)
    {a : Serving.Broker.Action} {broker : Serving.Broker} (hkeeps : s.Keeps (.broker a))
    (hstep : s.broker.step crc config a = some broker) :
    ({ s with broker } : Consuming).Given crc config c := by
  have hrecords := broker_records h hkeeps hstep
  generalize hrs : ({ s with broker } : Consuming).records = rs at hrecords
  have hlength : rs.length < 2 ^ 64 := by
    have hshort := h.short
    rcases hrecords with rfl | ⟨r, rfl, hroom⟩ | ⟨n, rfl, -⟩
    · exact hshort
    · rwa [List.length_append, List.length_singleton]
    · exact Nat.lt_of_le_of_lt (List.length_take_le' ..) hshort
  have hstart : s.records.take s.consumer.position.toNat <+: rs ∨ s.received = [] := by
    rcases hrecords with rfl | ⟨r, rfl, -⟩ | ⟨n, rfl, hn⟩
    · exact .inl (List.take_prefix _ _)
    · exact .inl ((List.take_prefix _ _).trans (List.prefix_append _ _))
    · by_cases hnil : s.received = []
      · exact .inr hnil
      · exact .inl (List.take_prefix_take_left (hn hnil))
  exact ⟨h.topic, h.logs.step hc hstep, h.topics_step hkeeps hstep, hrs ▸ hlength, h.position,
    (h.received_of hstart).trans (by rw [hrs])⟩

private theorem given_step (hc : config.Valid) {c : Consumer} (htopic : StrFits c.topic) {s' : Consuming}
    {a : Action} (h : s.Given crc config c) (hkeeps : s.Keeps a)
    (hstep : s.step crc config a = some s') : s'.Given crc config c := by
  cases a with
  | broker a =>
    obtain ⟨broker, hbroker, rfl⟩ := Option.map_eq_some_iff.mp hstep
    exact h.broker hc hkeeps hbroker
  | poll corr waited =>
    cases hstep
    exact h.poll hc htopic corr waited
  | limit maxBytes maxWaitMs =>
    cases hstep
    exact ⟨h.topic, h.logs, h.topics, h.short, h.position, h.received⟩
  | disconnect =>
    cases hstep
    exact ⟨h.topic, h.logs, h.topics, h.short, h.position, h.received⟩

private theorem given_init (clustered : Bool) (advertised : String) (c : Consumer) :
    Given crc config c ⟨.init clustered advertised, c, []⟩ where
  topic := rfl
  logs _ _ _ hhosted := by cases hhosted
  topics _ _ _ _ hhosted := by cases hhosted
  short := Nat.two_pow_pos 64
  position := rfl
  received := rfl

/-- As many polls as there are records left to see bring the position to their end. -/
theorem Given.polls (hc : config.Valid) {c : Consumer} (htopic : StrFits c.topic) {h : Hosted}
    {calls : List (UInt32 × Bool)} (hgiven : s.Given crc config c) (hserved : s.Served config h)
    (hposition : s.consumer.position.toNat ≤ s.visible h)
    (henough : s.visible h - s.consumer.position.toNat ≤ calls.length) :
    let s' := s.polls crc calls
    s'.Given crc config c ∧ s'.records = h.records ∧
      s'.consumer.position.toNat = s.visible h := by
  induction calls generalizing s with
  | nil =>
    rw [List.length_nil] at henough
    exact ⟨hgiven, records_of_log hserved.log, by rw [polls, List.foldl_nil]; omega⟩
  | cons call calls ih =>
    rw [List.length_cons] at henough
    rw [polls, List.foldl_cons]
    have hgiven' := hgiven.poll hc htopic call.1 call.2
    rcases poll_cases hc hgiven.logs (hgiven.topic ▸ htopic) call.1 call.2 with
      ⟨-, hend⟩ | ⟨h', run, hlog, hrun, heq⟩
    · obtain ⟨heq, hle⟩ := hend h hserved
      rw [heq]
      exact ih hgiven hserved hposition (by omega)
    · obtain rfl : h = h' := Option.some.inj (hserved.log.symm.trans hlog)
      generalize s.poll crc call.1 call.2 = polled at hgiven' heq
      subst heq
      have hadvance := hgiven'.position
      have hstart := hgiven.position
      have hpos := List.length_pos_of_ne_nil hrun.nonempty
      have hvisible := hrun.visible
      dsimp only at hadvance
      rw [List.length_append, List.length_map] at hadvance
      have hnext : (UInt64.ofNat (s.consumer.position.toNat + run.length)).toNat =
          s.consumer.position.toNat + run.length := by omega
      exact ih hgiven' ⟨hserved.connected, hserved.log, hserved.leads, hserved.maxBytes,
          hserved.records⟩
        (hnext.trans_le hvisible) (by
          change s.visible h - (UInt64.ofNat (s.consumer.position.toNat + run.length)).toNat ≤ _
          omega)

/-- Whatever happens on the broker and to the connection, a consumer was given the records that the
log holds from its first position up to the position it is at, each once and in order; and while the
connection stands, the broker serves the partition and every answer fits in a frame, as many polls as
there are visible records ahead bring it all of them. -/
theorem consumed_in_order (hc : config.Valid) (clustered : Bool) (advertised : String)
    {c : Consumer} (htopic : StrFits c.topic)
    (hreach : Reach (step crc config) Keeps ⟨.init clustered advertised, c, []⟩ s) :
    s.consumer.position.toNat = c.position.toNat + s.received.length ∧
    s.received =
      ((s.records.drop c.position.toNat).take s.received.length).map fetchedRecord ∧
    ∀ h, s.Served config h → s.consumer.position.toNat ≤ s.visible h →
      ∀ calls : List (UInt32 × Bool),
        s.visible h - s.consumer.position.toNat ≤ calls.length →
        (s.polls crc calls).received =
          ((h.records.take (s.visible h)).drop c.position.toNat).map fetchedRecord := by
  have hgiven : s.Given crc config c :=
    hreach.invariant (given_init clustered advertised c)
      fun _ _ _ hs hkeeps hstep => given_step hc htopic hs hkeeps hstep
  refine ⟨hgiven.position, hgiven.received, fun h hserved hposition calls henough => ?_⟩
  obtain ⟨hgiven', hrecords, hend⟩ := hgiven.polls hc htopic hserved hposition henough
  generalize s.polls crc calls = s' at hgiven' hrecords hend
  have hlength := hgiven'.position
  rw [hgiven'.received, hrecords, List.take_drop, ← hlength, hend]

/-- A poll before the first record, one after the second, and one more for the last. -/
theorem consumed_in_order_late : ∃ s h,
    Reach (step (fun _ => 0) Serving.Server.partitionConfig) Keeps
      ⟨.init false "127.0.0.1:9092", .startAt "t" 0 1, []⟩ s ∧
    (s.Served Serving.Server.partitionConfig h ∧ s.received.map (·.value) = [[2]] ∧
      s.consumer.position = 2 ∧ s.visible h = 3) ∧
    s.received = ((s.records.drop 1).take s.received.length).map fetchedRecord ∧
    (s.polls (fun _ => 0) [(3, false)]).received =
      ((h.records.take 3).drop 1).map fetchedRecord := by
  obtain ⟨s, hreach, hpoll, hposition, hbytes, hlog⟩ := Reach.exists_of_runSteps
    (step (fun _ => 0) Serving.Server.partitionConfig) Keeps
    ⟨.init false "127.0.0.1:9092", .startAt "t" 0 1, []⟩
    [.broker (.createTopic "t" 1 1 ⟨0, 0⟩), .poll 1 false,
      .broker (.log "t" 0 (.append ⟨0, 0⟩ none [1])),
      .broker (.log "t" 0 (.append ⟨0, 0⟩ (some [7]) [2])), .poll 2 true,
      .broker (.log "t" 0 (.append ⟨0, 0⟩ none [3]))]
    (fun s => s.received.map (·.value) = [[2]] ∧ s.consumer.position = 2 ∧
      (s.consumer.maxBytes = 2 ^ 20 ∧ s.consumer.closed = false) ∧
      ∃ h ∈ s.log, s.visible h = 3 ∧ s.broker.clustered = false)
    (by decide +kernel)
  obtain ⟨h, hsome, hvisible, halone⟩ := hlog
  have hserved : s.Served Serving.Server.partitionConfig h :=
    ⟨hbytes.2, hsome, fun hclustered => absurd (halone.symm.trans hclustered) Bool.false_ne_true,
      by rw [hbytes.1]; decide, by decide⟩
  have hordered := consumed_in_order Serving.Server.partitionConfig_valid false "127.0.0.1:9092"
    (c := .startAt "t" 0 1) (by decide) hreach
  have hnext := hordered.2.2 h hserved (by rw [hposition, hvisible]; decide) [(3, false)]
    (by rw [hposition, hvisible]; decide)
  rw [hvisible] at hnext
  exact ⟨s, h, hreach, ⟨hserved, hpoll, hposition, hvisible⟩, hordered.2.1, hnext⟩

end Consuming

end Replog.Client
