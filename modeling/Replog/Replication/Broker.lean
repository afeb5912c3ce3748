import Mathlib.Logic.Function.Basic
import Replog.Replication.ReplState
import Replog.Storage.EpochCheckpoint
import Replog.Storage.LogRefinement

/-!
# A broker as a machine of small steps

One replica with its writer thread, its command queue, the tasks that serve produces and fetches,
the runtime task that applies metadata and maintains the ISR, and its fetchers. A lock-protected
block, a channel send, the read of a published value and the handling of one command are one step
each, so whatever happens between a check and its use is an interleaving of steps.

The log is the list of records that the storage layer stands for. Each record carries the epoch of
the produce it came from, which the code does not store.
-/

namespace Replog.Replication
open Replog.Storage

instance decidableEqExcept {ε α : Type} [DecidableEq ε] [DecidableEq α] :
    DecidableEq (Except ε α)
  | .ok a, .ok b => decidable_of_iff (a = b) ⟨congrArg _, Except.ok.inj⟩
  | .error a, .error b => decidable_of_iff (a = b) ⟨congrArg _, Except.error.inj⟩
  | .ok _, .error _ => .isFalse fun h => (by cases h)
  | .error _, .ok _ => .isFalse fun h => (by cases h)

structure Entry where
  epoch : ℕ
  record : Record
  deriving DecidableEq

structure EpochCheckRequest where
  call : ℕ
  follower : BrokerId
  epoch : ℕ
  deriving DecidableEq

structure AlterIsrRequest where
  call : ℕ
  proposer : BrokerId
  leaderEpoch : ℕ
  isr : List BrokerId
  deriving DecidableEq

/-- A request or a reply on its way; a reply names the request it answers. -/
inductive Message where
  | replicaFetch (target : BrokerId) (req : FetchRequest)
  | fetchReply (req : FetchRequest) (result : Except ErrorCode (List Entry))
  | epochCheck (target : BrokerId) (req : EpochCheckRequest)
  | epochReply (req : EpochCheckRequest) (result : Except ErrorCode ℕ)
  | alterIsr (req : AlterIsrRequest)
  | alterIsrReply (req : AlterIsrRequest) (result : Except ErrorCode ℕ)
  deriving DecidableEq

structure AcceptedFetch where
  authority : Authority
  req : FetchRequest
  deriving DecidableEq

/-- The commands of the writer thread, with who waits for the reply. -/
inductive Cmd where
  | append (ticket : Ticket)
  | appendReplicated (authority : Authority) (records : List Entry)
  | truncateTo (authority : Authority) (offset : ℕ)
  | recordEpoch (authority : Authority) (epoch : ℕ)
  | epochStatus (authority : Authority)
  | epochEndFor (authority : Authority) (req : EpochCheckRequest)
  | readReplica (fetch : AcceptedFetch)
  | readConsumer (offset hwm : ℕ)
  deriving DecidableEq

inductive Task where
  /-- Prechecked, the append not yet queued. -/
  | produce (ticket : Ticket)
  /-- The append of an acks=all produce was answered. -/
  | ledger (ticket : Ticket) (base count : ℕ)
  /-- About to advance the high-water mark, and then to serve a fetch. -/
  | advance (serve : Option AcceptedFetch)
  | advanceTo (logEnd : ℕ) (serve : Option AcceptedFetch)
  | acceptFetch (req : FetchRequest) (logEnd : ℕ)
  | serveFetch (fetch : AcceptedFetch)
  | answerEpoch (authority : Authority) (req : EpochCheckRequest)
  | consume (offset hwm : ℕ)
  deriving DecidableEq

/-- Where a fetcher stands: after the await, the check or the read its name tells. -/
inductive Phase where
  | connect
  | connected
  | awaitStatus
  | check
  | awaitCheck (req : EpochCheckRequest)
  | checked (endOffset : ℕ)
  | reconcile (endOffset : ℕ)
  | truncate (target : ℕ)
  | awaitTruncate
  | loop
  | fetch
  | awaitFetch (req : FetchRequest)
  | received (leaderEpoch : ℕ) (records : List Entry)
  | apply (leaderEpoch : ℕ) (records : List Entry)
  | append (records : List Entry)
  | awaitAppend
  | exiting
  deriving DecidableEq

/-- A fetcher; its generation is the key it is kept under. -/
structure Fetcher where
  leader : BrokerId
  epoch : ℕ
  localEpoch : ℕ := 0
  phase : Phase := .connect
  deriving DecidableEq

def Fetcher.authority (f : Fetcher) (generation : ℕ) : Authority :=
  ⟨false, f.epoch, generation⟩

inductive Runtime where
  | idle
  | pulled (p : PartitionMeta)
  | leading (authority : Authority)
  | proposing (req : AlterIsrRequest)
  deriving DecidableEq

structure BrokerConfig where
  log : LogConfig
  minInsyncReplicas : ℕ
  replicaLagMs : ℕ

structure Broker where
  log : List Entry := []
  epochs : EpochCheckpoint := ⟨[]⟩
  queue : List Cmd := []
  repl : ReplState := {}
  hwm : ℕ := 0
  tasks : List Task := []
  fetchers : ℕ → Option Fetcher := fun _ => none
  runtime : Runtime := .idle
  calls : ℕ := 0
  clock : ℕ := 0

/-- What a step does besides changing the broker. -/
inductive Event where
  | sent (m : Message)
  | queued (c : Cmd)
  | accepted (req : FetchRequest)
  | appended (ticket : Ticket) (base : ℕ)
  /-- The high-water mark rose; the ISR is the one the minimum was taken over. -/
  | raised (epoch : ℕ) (isr : List BrokerId) (hwm : ℕ)
  /-- An acks=all produce was answered with success. -/
  | completed (p : Pending)
  | served (records : List Record)
  deriving DecidableEq

inductive Action where
  | tick (ms : ℕ)
  | produce (acks : Acks) (leaderEpoch : ℕ) (records : List KeyValue)
  | replicaFetch (req : FetchRequest)
  | epochCheck (req : EpochCheckRequest)
  | consumerFetch (offset : ℕ)
  | task (i : ℕ)
  /-- The writer thread handles a command. `wall` is the wall clock, `more` how many records a
  read returns after the first, `again` whether an empty read is repeated. -/
  | process (wall : ℕ → Int64) (more : ℕ) (again : Bool)
  | metadata (p : PartitionMeta)
  | applyMetadata
  | recordEpoch
  | propose
  | alterIsrReply (req : AlterIsrRequest) (result : Except ErrorCode ℕ)
  | giveUp
  | fetcher (generation : ℕ)
  | epochReply (generation : ℕ) (req : EpochCheckRequest) (result : Except ErrorCode ℕ)
  | fetchReply (generation : ℕ) (req : FetchRequest) (result : Except ErrorCode (List Entry))
  | callFailed (generation : ℕ)

/-- The append loop: stops at the first record that is too large. -/
def appendRecords (config : LogConfig) (epoch : ℕ) (wall : ℕ → Int64) :
    List KeyValue → List Entry → List Entry × Option ErrorCode
  | [], log => (log, none)
  | (key, value) :: rest, log =>
    let record : Record := { offset := log.length, timestampMs := wall log.length, key, value }
    if config.maxRecordBytes < record.encodedLen then (log, some .malformed)
    else appendRecords config epoch wall rest (log ++ [⟨epoch, record⟩])

/-- The loop over leader-fetched records: each has to continue the log and to fit. -/
def appendFetched (config : LogConfig) :
    List Entry → List Entry → List Entry × Option ErrorCode
  | [], log => (log, none)
  | e :: rest, log =>
    if e.record.offset ≠ log.length then (log, some .storage)
    else if config.maxRecordBytes < e.record.encodedLen then (log, some .malformed)
    else appendFetched config rest (log ++ [e])

/-- A read: a nonempty run of records from the offset on, nothing at the end. -/
def readFrom (log : List Entry) (offset more : ℕ) : Except ErrorCode (List Entry) :=
  if log.length < offset then .error .offsetOutOfRange
  else .ok ((log.drop offset).take (more + 1))

namespace Broker

variable (config : BrokerConfig) (self : BrokerId) (b : Broker)

def spawn (t : Task) : Broker := { b with tasks := b.tasks ++ [t] }

def enqueue (c : Cmd) : Broker × List Event := ({ b with queue := b.queue ++ [c] }, [.queued c])

def setFetcher (generation : ℕ) (f : Fetcher) : Broker :=
  { b with fetchers := Function.update b.fetchers generation (some f) }

def resume (generation : ℕ) (update : Fetcher → Fetcher) : Broker :=
  { b with fetchers := Function.update b.fetchers generation ((b.fetchers generation).map update) }

def isCurrent (generation : ℕ) : Bool :=
  !b.repl.isLeader && b.repl.fetcherGeneration = generation

/-- The end of `advance_hwm`: publishes the high-water mark and answers the covered produces. -/
def advanceTo (logEnd : ℕ) : Broker × List Event :=
  let (hwm, ready, st) := b.repl.advanceHwm self logEnd b.hwm
  ({ b with repl := st, hwm },
    (if b.hwm < hwm then [.raised b.repl.epoch b.repl.isr hwm] else []) ++
      ready.map .completed)

/-- The next step of a spawned task, which is no longer among the tasks. -/
def runTask : Task → Broker × List Event
  | .produce ticket => b.enqueue (.append ticket)
  | .ledger ticket base count =>
    let entry : Pending := { lastOffset := base + count - 1, base, count, ticket }
    let st := { b.repl with pendingAll := b.repl.pendingAll ++ [entry] }
    ({ b with repl := st }.spawn (.advance none), [])
  | .advance serve => (b.spawn (.advanceTo b.log.length serve), [])
  | .advanceTo logEnd serve =>
    let (b, events) := b.advanceTo self logEnd
    (serve.elim b fun fetch => b.spawn (.serveFetch fetch), events)
  | .acceptFetch req logEnd =>
    match b.repl.acceptFetch b.clock logEnd req with
    | .error code => (b, [.sent (.fetchReply req (.error code))])
    | .ok st =>
      ({ b with repl := st }.spawn (.advance (some ⟨st.authority, req⟩)), [.accepted req])
  | .serveFetch fetch => b.enqueue (.readReplica fetch)
  | .answerEpoch a req => b.enqueue (.epochEndFor a req)
  | .consume offset hwm =>
    if b.log.length < offset then (b, [])
    else if offset < hwm then b.enqueue (.readConsumer offset hwm)
    else (b, [])

/-- The writer thread handles a command, which is no longer in the queue. -/
def handle (wall : ℕ → Int64) (more : ℕ) (again : Bool) : Cmd → Broker × List Event
  | .append ticket =>
    let (log, error) := appendRecords config.log ticket.authority.epoch wall ticket.records b.log
    let b' := { b with log }
    match error with
    | some _ => (b', [])
    | none =>
      if ticket.acks = .all ∧ ticket.records ≠ [] then
        (b'.spawn (.ledger ticket b.log.length ticket.records.length),
          [.appended ticket b.log.length])
      else (b', [.appended ticket b.log.length])
  | .appendReplicated a records =>
    let (log, error) := appendFetched config.log records b.log
    ({ b with log }.resume a.generation fun f =>
      { f with phase := if error.isNone then .loop else .exiting }, [])
  | .truncateTo a offset =>
    ({ b with log := b.log.take offset, epochs := b.epochs.truncateTo offset }.resume
      a.generation fun f => { f with phase := .loop }, [])
  | .recordEpoch _ epoch =>
    if b.epochs.currentEpoch < epoch then
      ({ b with epochs := (b.epochs.append epoch b.log.length).getD b.epochs }, [])
    else (b, [])
  | .epochStatus a =>
    (b.resume a.generation fun f =>
      { f with localEpoch := b.epochs.currentEpoch, phase := .check }, [])
  | .epochEndFor _ req =>
    (b, [.sent (.epochReply req (.ok (b.epochs.endOffsetFor req.epoch b.log.length)))])
  | .readReplica fetch =>
    match readFrom b.log fetch.req.offset more with
    | .ok [] => if again then (b.spawn (.serveFetch fetch), [])
      else (b, [.sent (.fetchReply fetch.req (.ok []))])
    | result => (b, [.sent (.fetchReply fetch.req result)])
  | .readConsumer offset hwm =>
    match readFrom b.log offset more with
    | .ok records =>
      (b, [.served ((records.map Entry.record).takeWhile fun r => r.offset < hwm)])
    | .error _ => (b, [])

/-- The next step of a fetcher that does not wait for a reply. -/
def runFetcher (g : ℕ) (f : Fetcher) : Option (Broker × List Event) :=
  match f.phase with
  | .connect =>
    some (b.setFetcher g { f with phase := if b.isCurrent g then .connected else .exiting }, [])
  | .connected =>
    some ((b.setFetcher g { f with phase := .awaitStatus }).enqueue (.epochStatus (f.authority g)))
  | .check =>
    let req : EpochCheckRequest := { call := b.calls, follower := self, epoch := f.localEpoch }
    some ({ b.setFetcher g { f with phase := .awaitCheck req } with calls := b.calls + 1 },
      [.sent (.epochCheck f.leader req)])
  | .checked endOffset =>
    some (b.setFetcher g
      { f with phase := if b.isCurrent g then .reconcile endOffset else .exiting }, [])
  | .reconcile endOffset =>
    let target := min endOffset b.log.length
    some (b.setFetcher g { f with
      phase := if target < b.log.length then .truncate target else .loop }, [])
  | .truncate target =>
    some ((b.setFetcher g { f with phase := .awaitTruncate }).enqueue
      (.truncateTo (f.authority g) target))
  | .loop =>
    some (b.setFetcher g { f with phase := if b.isCurrent g then .fetch else .exiting }, [])
  | .fetch =>
    let req : FetchRequest :=
      { call := b.calls, follower := self, leaderEpoch := f.epoch, offset := b.log.length }
    some ({ b.setFetcher g { f with phase := .awaitFetch req } with calls := b.calls + 1 },
      [.sent (.replicaFetch f.leader req)])
  | .received leaderEpoch records =>
    some (b.setFetcher g { f with
      phase := if b.isCurrent g then .apply leaderEpoch records else .exiting }, [])
  | .apply leaderEpoch records =>
    if f.localEpoch < leaderEpoch then
      some ((b.setFetcher g { f with localEpoch := leaderEpoch, phase := .append records }).enqueue
        (.recordEpoch (f.authority g) leaderEpoch))
    else some (b.setFetcher g { f with phase := .append records }, [])
  | .append records =>
    if records = [] then some (b.setFetcher g { f with phase := .loop }, [])
    else
      some ((b.setFetcher g { f with phase := .awaitAppend }).enqueue
        (.appendReplicated (f.authority g) records))
  | .exiting =>
    some ({ b with
      repl := b.repl.fetcherExit g
      fetchers := Function.update b.fetchers g none }, [])
  | .awaitStatus | .awaitCheck _ | .awaitTruncate | .awaitFetch _ | .awaitAppend => none

/-- The locked block of `apply_metadata` and what directly follows it. -/
def applyMetadata (p : PartitionMeta) : Broker :=
  if self ∉ p.replicas then { b with runtime := .idle }
  else
    let (transition, _, st) := b.repl.applyMetadata self b.clock p
    match transition with
    | .unchanged => { b with repl := st, runtime := .idle }.spawn (.advance none)
    | .leading => { b with repl := st, runtime := .leading st.authority }
    | .following none => { b with repl := st, runtime := .idle }
    | .following (some leader) =>
      { b with repl := st, runtime := .idle }.setFetcher st.fetcherGeneration
        { leader, epoch := p.leaderEpoch }

def step : Action → Option (Broker × List Event)
  | .tick ms => some ({ b with clock := b.clock + ms }, [])
  | .produce acks leaderEpoch records =>
    match b.repl.precheck config.minInsyncReplicas acks leaderEpoch with
    | .error _ => none
    | .ok authority => some (b.spawn (.produce { authority, acks, records }), [])
  | .replicaFetch req => some (b.spawn (.acceptFetch req b.log.length), [])
  | .epochCheck req =>
    if b.repl.isLeader then some (b.spawn (.answerEpoch b.repl.authority req), [])
    else some (b, [.sent (.epochReply req (.error .notLeader))])
  | .consumerFetch offset => some (b.spawn (.consume offset b.hwm), [])
  | .task i =>
    b.tasks[i]?.map fun t => { b with tasks := b.tasks.eraseIdx i }.runTask self t
  | .process wall more again =>
    match b.queue with
    | [] => none
    | c :: queue => some ({ b with queue }.handle config wall more again c)
  | .metadata p => if b.runtime = .idle then some ({ b with runtime := .pulled p }, []) else none
  | .applyMetadata =>
    match b.runtime with
    | .pulled p => some (b.applyMetadata self p, [])
    | _ => none
  | .recordEpoch =>
    match b.runtime with
    | .leading a =>
      some (({ b with runtime := .idle }.spawn (.advance none)).enqueue (.recordEpoch a a.epoch))
    | _ => none
  | .propose =>
    if b.runtime = .idle then
      (b.repl.isrProposal self config.replicaLagMs b.clock).map fun (leaderEpoch, isr) =>
        let req : AlterIsrRequest := { call := b.calls, proposer := self, leaderEpoch, isr }
        ({ b with runtime := .proposing req, calls := b.calls + 1 }, [.sent (.alterIsr req)])
    else none
  | .alterIsrReply req result =>
    if b.runtime = .proposing req then
      match result with
      | .ok version =>
        let st := b.repl.installIsr req.leaderEpoch req.isr version
        some ({ b with repl := st, runtime := .idle }.spawn (.advance none), [])
      | .error _ => some ({ b with runtime := .idle }, [])
    else none
  | .giveUp =>
    match b.runtime with
    | .pulled _ | .proposing _ => some ({ b with runtime := .idle }, [])
    | _ => none
  | .fetcher generation => (b.fetchers generation).bind (b.runFetcher self generation)
  | .epochReply generation req result =>
    (b.fetchers generation).bind fun f =>
      if f.phase = .awaitCheck req then
        some (b.setFetcher generation { f with phase := match result with
          | .ok endOffset => .checked endOffset
          | .error _ => .exiting }, [])
      else none
  | .fetchReply generation req result =>
    (b.fetchers generation).bind fun f =>
      if f.phase = .awaitFetch req then
        some (b.setFetcher generation { f with phase := match result with
          | .ok records => .received req.leaderEpoch records
          | .error _ => .exiting }, [])
      else none
  | .callFailed generation =>
    (b.fetchers generation).bind fun f =>
      match f.phase with
      | .awaitCheck _ | .awaitFetch _ =>
        some (b.setFetcher generation { f with phase := .exiting }, [])
      | _ => none

/-- What the log has become when the process dies inside a command: some of its records are
written, or the suffix is cut only in part. -/
def torn (wall : ℕ → Int64) (k : ℕ) : List Entry :=
  match b.queue with
  | .append ticket :: _ =>
    (appendRecords config.log ticket.authority.epoch wall (ticket.records.take k) b.log).1
  | .appendReplicated _ records :: _ => (appendFetched config.log (records.take k) b.log).1
  | .truncateTo _ offset :: _ => b.log.take (max offset k)
  | _ => b.log

/-- A restart on the same data directory: the log and the checkpoint are what is left. -/
def restart : Broker := { log := b.log, epochs := b.epochs, calls := b.calls, clock := b.clock }

end Broker
end Replog.Replication
