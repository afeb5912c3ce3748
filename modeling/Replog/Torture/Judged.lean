import Replog.Torture.Run

/-!
# What the checker finds

While every partition keeps its first leader the checker has nothing to say against what the readers
recorded, and no acked id is missing once some reader of each partition is past what was committed.
-/

namespace Replog.Torture
open Replog.Library Replog.Checker Replog.Client Replog.Replication
open Replog.Storage (Record)

def HoldsId (r : KeyValue) : Prop := (decodeId r.2).isSome = true

/-- The log of a partition's first leader. -/
def leaderLog (l : UInt32 → BrokerId) (clusters : UInt32 → Cluster) (partition : UInt32) :
    List Entry :=
  ((clusters partition).nodes (l partition)).broker.log

def leaderIds (l : UInt32 → BrokerId) (clusters : UInt32 → Cluster) (partition : UInt32) :
    List UInt64 :=
  (leaderLog l clusters partition).map fun e => (decodeId e.record.value).getD 0

/-- The leader has acknowledged a batch with the id. -/
structure Committed (cfg : RunConfig) (l : UInt32 → BrokerId) (clusters : UInt32 → Cluster)
    (partition : UInt32) (id : UInt64) : Prop where
  hosted : partition < cfg.partitions
  answered : ∃ p ids, .completed p ∈ ((clusters partition).nodes (l partition)).trace ∧
    p.ticket.records = batch cfg.valueBytes ids ∧ id ∈ ids

namespace Run

/-- A reader fetches from where it is. -/
def Plausible (cfg : RunConfig) (s : Run) : Caller → Call → Prop
  | .producer partition, _ => partition < cfg.partitions
  | .reader name partition, call =>
    ∀ offset, call.request = .fetch offset → offset = s.positions name partition

structure Inv (cfg : RunConfig) (l : UInt32 → BrokerId) (s : Run) : Prop where
  contents : ∀ partition, Cluster.ContentsInv HoldsId (l partition) (s.clusters partition)
  reads : ∀ r ∈ s.reads,
    r.records <+: ((leaderLog l s.clusters r.partition).map Entry.record).drop r.offset
  calls : ∀ who call, s.calls who = some call → s.Plausible cfg who call
  acked : ∀ r ∈ s.history.produced, ∃ partition, Committed cfg l s.clusters partition r.id
  read : s.history.ReadUpTo cfg.topic (leaderIds l s.clusters) s.positions

variable {cfg : RunConfig} {l : UInt32 → BrokerId} {s s' : Run}

theorem Inv.init {replicas : UInt32 → List BrokerId}
    (hl : ∀ partition, (replicas partition).head? = some (l partition)) (bootstrap : List String) :
    Inv cfg l (.init replicas bootstrap) where
  contents partition := .create (hl partition)
  reads := nofun
  calls := nofun
  acked := nofun
  read := .start _ _

/-! ## The clusters -/

section Clusters

variable {partition : UInt32} {c : Cluster} {a : Cluster.Action}

theorem leaderLog_setCluster (h : Inv cfg l s)
    (hstays : Cluster.Stays (l partition) (s.clusters partition) a)
    (hstep : (s.clusters partition).step cfg.brokers a = some c) (partition' : UInt32) :
    leaderLog l s.clusters partition' <+:
      leaderLog l (s.setCluster partition c).clusters partition' := by
  rw [leaderLog, leaderLog, clusters_setCluster]
  split
  · rename_i heq
    subst heq
    exact (h.contents partition').reign.logs_grow hstays hstep _
  · exact List.prefix_rfl

theorem Inv.setCluster (h : Inv cfg l s)
    (hstays : Cluster.Stays (l partition) (s.clusters partition) a)
    (hids : ∀ r ∈ a.produces, HoldsId r)
    (hstep : (s.clusters partition).step cfg.brokers a = some c) :
    Inv cfg l (s.setCluster partition c) := by
  have hlog := leaderLog_setCluster h hstays hstep
  refine ⟨fun partition' => ?_, fun r hr => ?_, h.calls, fun r hr => ?_, ?_⟩
  · rw [clusters_setCluster]
    split
    · rename_i heq
      subst heq
      exact (h.contents partition').step hstays hids hstep
    · exact h.contents partition'
  · exact (h.reads r hr).trans (((hlog r.partition).map Entry.record).drop r.offset)
  · obtain ⟨partition', hhosted, p, ids, hp, hrecords, hid⟩ := h.acked r hr
    refine ⟨partition', hhosted, p, ids, ?_, hrecords, hid⟩
    rw [clusters_setCluster]
    split
    · rename_i heq
      subst heq
      exact Cluster.mem_trace_step hstep hp
    · exact hp
  · exact h.read.mono rfl fun partition' => (hlog partition').map _

end Clusters

/-! ## The history -/

section History

variable {topic name : String} {partition : UInt32} {h : History} {positions : String → UInt32 → ℕ}

private theorem readUpTo_recordGiven {clusters : UInt32 → Cluster} {records : List Record}
    (hread : h.ReadUpTo topic (leaderIds l clusters) positions)
    (hplace : InPlace (leaderLog l clusters partition))
    (hids : ∀ e ∈ leaderLog l clusters partition, HoldsId e.keyValue)
    (hahead : records <+:
      ((leaderLog l clusters partition).map Entry.record).drop (positions name partition))
    (hfits : ∀ r ∈ records, r.offset + 1 < 2 ^ 64) :
    (recordGiven topic name partition h records).ReadUpTo topic (leaderIds l clusters)
      (moved positions name partition
        (records.foldl (fun _ r => r.offset + 1) (positions name partition))) := by
  induction records generalizing h positions with
  | nil =>
    rw [List.foldl_nil, moved_same]
    exact hread
  | cons r rest ih =>
    obtain ⟨tail, htail⟩ := hahead
    have hat : ((leaderLog l clusters partition).map Entry.record)[positions name partition]? =
        some r := by
      rw [← Nat.add_zero (positions name partition), ← List.getElem?_drop, ← htail]
      rfl
    have hrest : rest <+: ((leaderLog l clusters partition).map Entry.record).drop
        (positions name partition + 1) := by
      rw [← List.tail_drop, ← htail]
      exact List.prefix_append rest tail
    rw [List.getElem?_map] at hat
    obtain ⟨e, he, rfl⟩ := Option.map_eq_some_iff.mp hat
    obtain ⟨id, hid⟩ := Option.isSome_iff_exists.mp (hids e (List.mem_of_getElem? he))
    have hoffset := hplace _ e he
    have hfit := hfits e.record List.mem_cons_self
    rw [hoffset] at hfit
    have hdecoded : decodeId e.record.value = some id := hid
    have hthere : (leaderIds l clusters partition)[positions name partition]? = some id := by
      rw [leaderIds, List.getElem?_map, he, Option.map_some, hdecoded, Option.getD_some]
    have hnext := hread.next hthere hfit
    have hlater := ih hnext (by rwa [moved_self]) fun r hr => hfits r (List.mem_cons_of_mem _ hr)
    rw [moved_self, moved_moved] at hlater
    rw [List.foldl_cons, hoffset, recordGiven, List.foldl_cons, hoffset, hdecoded]
    exact hlater

end History

/-! ## Steps -/

theorem Inv.setCall (h : Inv cfg l s) {who : Caller} {call : Option Call}
    (hcall : ∀ c, call = some c → s.Plausible cfg who c) : Inv cfg l (s.setCall who call) := by
  refine ⟨h.contents, h.reads, fun who' call' hcall' => ?_, h.acked, h.read⟩
  rw [calls_setCall] at hcall'
  split at hcall'
  · rename_i heq
    subst heq
    exact hcall call' hcall'
  · exact h.calls who' call' hcall'

theorem Inv.moveCall (h : Inv cfg l s) {who : Caller} {call : Call}
    (hcall : s.calls who = some call) (attempt : Option Attempt) :
    Inv cfg l (s.setCall who (attempt.map fun attempt => { call with attempt })) := by
  refine h.setCall fun c hc => ?_
  obtain ⟨-, -, rfl⟩ := Option.map_eq_some_iff.mp hc
  have hold := h.calls who call hcall
  cases who with
  | producer partition => exact hold
  | reader name partition => exact hold

/-- The arrival of a request is no matter of the leader's. -/
theorem Inv.arrive (h : Inv cfg l s) {r : Sent} {c : Cluster}
    (harrive : r.arrive cfg (s.clusters r.partition) = some c) :
    Inv cfg l (s.setCluster r.partition c) := by
  obtain ⟨b, -, hrest⟩ := Option.bind_eq_some_iff.mp harrive
  obtain ⟨a, haction, hstep⟩ := Option.bind_eq_some_iff.mp hrest
  cases hrequest : r.request with
  | produce ids =>
    rw [hrequest] at haction
    cases haction
    have hstays : Cluster.Stays (l r.partition) (s.clusters r.partition)
        (.broker b (.produce .all r.epoch.toNat (batch cfg.valueBytes ids))) := trivial
    refine h.setCluster hstays (fun kv hkv => ?_) hstep
    obtain ⟨id, -, rfl⟩ := List.mem_map.mp hkv
    rw [HoldsId, decodeId_encodeValue]
    rfl
  | fetch offset =>
    rw [hrequest, Request.action] at haction
    split at haction
    · cases haction
      have hstays : Cluster.Stays (l r.partition) (s.clusters r.partition)
          (.broker b (.consumerFetch offset)) := trivial
      exact h.setCluster hstays (fun kv hkv => absurd hkv List.not_mem_nil) hstep
    · cases haction

private theorem produced_recordAcked (topic : String) (h : History) (ids : List UInt64) :
    (recordAcked topic h ids).consumed = h.consumed ∧
      ∀ r ∈ (recordAcked topic h ids).produced, r ∈ h.produced ∨ r.id ∈ ids := by
  induction ids generalizing h with
  | nil => exact ⟨rfl, fun r hr => .inl hr⟩
  | cons id rest ih =>
    obtain ⟨hconsumed, hproduced⟩ := ih (h.recordProduced id topic)
    refine ⟨hconsumed, fun r hr => ?_⟩
    rcases hproduced r hr with hold | hrest
    · rcases List.mem_append.mp hold with hold | hnew
      · exact .inl hold
      · rw [List.mem_singleton.mp hnew]
        exact .inr List.mem_cons_self
    · exact .inr (List.mem_cons_of_mem id hrest)

private theorem produced_recordGiven (topic name : String) (partition : UInt32) (h : History)
    (records : List Record) :
    (recordGiven topic name partition h records).produced = h.produced := by
  induction records generalizing h with
  | nil => rfl
  | cons r rest ih =>
    rw [recordGiven, List.foldl_cons]
    refine (ih _).trans ?_
    cases decodeId r.value <;> rfl

/-- Only the leader acknowledges, so what is recorded was committed. -/
theorem Inv.recordAcked (h : Inv cfg l s) {partition : UInt32} {call : Call}
    (hcall : s.calls (.producer partition) = some call) {b : BrokerId} {p : Replication.Pending}
    {ids : List UInt64} (hcompleted : .completed p ∈ ((s.clusters partition).nodes b).trace)
    (hrecords : p.ticket.records = batch cfg.valueBytes ids) :
    Inv cfg l { s.setCall (.producer partition) none with
      history := Run.recordAcked cfg.topic s.history ids } := by
  have hb : b = l partition := by
    by_contra hne
    exact (h.contents partition).silent b hne p hcompleted
  rw [hb] at hcompleted
  obtain ⟨hconsumed, hproduced⟩ := produced_recordAcked cfg.topic s.history ids
  have hfreed : Inv cfg l (s.setCall (.producer partition) none) := h.setCall nofun
  refine ⟨h.contents, h.reads, hfreed.calls, fun r hr => ?_,
    h.read.mono hconsumed fun _ => List.prefix_rfl⟩
  rcases hproduced r hr with hold | hnew
  · exact h.acked r hold
  · exact ⟨partition, h.calls _ _ hcall, p, ids, hcompleted, hrecords, hnew⟩

theorem Inv.recordGiven (h : Inv cfg l s) {name : String} {partition : UInt32}
    {records : List Record}
    (hahead : records <+: ((leaderLog l s.clusters partition).map Entry.record).drop
      (s.positions name partition))
    (hfits : ∀ r ∈ records, r.offset + 1 < 2 ^ 64) :
    Inv cfg l { s.setCall (.reader name partition) none with
      positions := moved s.positions name partition
        (records.foldl (fun _ r => r.offset + 1) (s.positions name partition))
      history := Run.recordGiven cfg.topic name partition s.history records } := by
  have hcontents := h.contents partition
  refine ⟨h.contents, h.reads, fun who call hwho => ?_, ?_,
    readUpTo_recordGiven h.read hcontents.reign.leader.place hcontents.holds.log hahead hfits⟩
  · have hcall : (s.setCall (.reader name partition) none).calls who = some call := hwho
    rw [calls_setCall] at hcall
    split at hcall
    · cases hcall
    · rename_i hne
      have hold := h.calls who call hcall
      cases who with
      | producer partition' => exact hold
      | reader name' partition' =>
        intro offset hrequest
        rw [hold offset hrequest]
        refine (moved_other _ _ _ _ fun hname hpartition => ?_).symm
        exact hne (hname ▸ hpartition ▸ rfl)
  · rw [produced_recordGiven]
    exact h.acked

theorem Inv.step (h : Inv cfg l s) {e : Event} (hguard : s.Undisturbed l e)
    (hstep : s.step cfg e = some s') : Inv cfg l s' := by
  cases e with
  | cluster partition a =>
    obtain ⟨c, hc, rfl⟩ := Option.map_eq_some_iff.mp hstep
    obtain ⟨hstays, hids⟩ := hguard
    have hnew := h.setCluster hstays hids hc
    refine ⟨hnew.contents, fun r hr => ?_, hnew.calls, hnew.acked, hnew.read⟩
    rcases List.mem_append.mp hr with hold | hread
    · exact hnew.reads r hold
    · obtain ⟨⟨offset, records⟩, hmem, rfl⟩ := List.mem_map.mp hread
      exact ((h.contents partition).reign.consumerReads_prefix hc hmem).trans
        (((leaderLog_setCluster h hstays hc partition).map Entry.record).drop offset)
  | refresh e =>
    obtain ⟨client, -, rfl⟩ := Option.map_eq_some_iff.mp hstep
    exact ⟨h.contents, h.reads, h.calls, h.acked, h.read⟩
  | call who =>
    cases who with
    | producer partition =>
      rw [Run.step] at hstep
      split at hstep
      · rename_i hfree
        cases hstep
        have hids : Inv cfg l { s with ids := s.ids + cfg.batchRecords } :=
          ⟨h.contents, h.reads, h.calls, h.acked, h.read⟩
        exact hids.setCall fun c hc => hfree.2.1
      · cases hstep
    | reader name partition =>
      rw [Run.step] at hstep
      split at hstep
      · cases hstep
        refine h.setCall fun c hc offset hrequest => ?_
        cases hc
        cases hrequest
        rfl
      · cases hstep
  | route who connected late =>
    rw [Run.step] at hstep
    split at hstep
    · rename_i call hcall
      split at hstep
      · cases hstep
        have hmoved := h.moveCall hcall
          (s.client.attempt call.request.retries cfg.topic call.partition connected late).1
        exact ⟨hmoved.contents, hmoved.reads, hmoved.calls, hmoved.acked, hmoved.read⟩
      · cases hstep
    · cases hstep
  | arrive k =>
    obtain ⟨r, -, rfl⟩ := Option.map_eq_some_iff.mp hstep
    have hsent : Inv cfg l { s with sent := s.sent.eraseIdx k } :=
      ⟨h.contents, h.reads, h.calls, h.acked, h.read⟩
    cases harrive : r.arrive cfg (s.clusters r.partition) with
    | none => exact hsent
    | some c => exact hsent.arrive harrive
  | fail who error late =>
    rw [Run.step] at hstep
    split at hstep
    · rename_i call hcall
      split at hstep
      · cases hstep
        exact h.moveCall hcall _
      · cases hstep
    · cases hstep
  | wake who =>
    rw [Run.step] at hstep
    split at hstep
    · rename_i call hcall
      split at hstep
      · cases hstep
        exact h.moveCall hcall (some .route)
      · cases hstep
    · cases hstep
  | acked partition p =>
    rw [Run.step] at hstep
    split at hstep
    · rename_i _ ids addr hcall
      split at hstep
      · rename_i hanswered
        cases hstep
        obtain ⟨b, -, hcompleted, hrecords⟩ := hanswered
        exact h.recordAcked hcall hcompleted hrecords
      · cases hstep
    · cases hstep
  | given name partition records =>
    rw [Run.step] at hstep
    split at hstep
    · rename_i _ offset addr hcall
      split at hstep
      · rename_i hgiven
        cases hstep
        obtain ⟨hfrom, hfits⟩ := hgiven
        have hoffset := h.calls _ _ hcall offset rfl
        have hahead : records <+: ((leaderLog l s.clusters partition).map Entry.record).drop
            (s.positions name partition) := by
          rcases hfrom with rfl | hread
          · exact List.nil_prefix
          · exact hoffset ▸ h.reads _ hread
        exact h.recordGiven hahead hfits
      · cases hstep
    · cases hstep

/-! ## The verdict -/

/-- What was acknowledged is in the leader's log below the high-water mark. -/
theorem Inv.committed (h : Inv cfg l s) {partition : UInt32} {id : UInt64}
    (hid : Committed cfg l s.clusters partition id) :
    ∃ o < ((s.clusters partition).nodes (l partition)).broker.hwm,
      (leaderIds l s.clusters partition)[o]? = some id := by
  obtain ⟨-, p, ids, hcompleted, hrecords, hmem⟩ := hid
  obtain ⟨hin, hcovered⟩ := (h.contents partition).reign.leader.completed p hcompleted
  obtain ⟨i, hi⟩ := List.mem_iff_getElem?.mp hmem
  have hrecord : p.ticket.records[i]? = some (none, encodeValue id cfg.valueBytes) := by
    rw [hrecords, batch, List.getElem?_map, hi]
    rfl
  have hlt : i < p.count := hin.length ▸ (List.getElem?_eq_some_iff.mp hrecord).1
  refine ⟨p.base + i, by omega, ?_⟩
  rw [← hin.records, List.getElem?_map, List.getElem?_take_of_lt hlt, List.getElem?_drop] at hrecord
  obtain ⟨e, he, hkv⟩ := Option.map_eq_some_iff.mp hrecord
  have hvalue : e.record.value = encodeValue id cfg.valueBytes := congrArg Prod.snd hkv
  rw [leaderIds, leaderLog, List.getElem?_map, he, Option.map_some, hvalue, decodeId_encodeValue,
    Option.getD_some]

/-- While every partition keeps its first leader, whatever else fails and however often a call is
tried again, the checker's report is there and finds no offset out of order, none with two ids and
no gap; and it is ok as soon as some reader of each partition has got to the high-water mark. -/
theorem report_clean {replicas : UInt32 → List BrokerId}
    (hl : ∀ partition, (replicas partition).head? = some (l partition)) {bootstrap : List String}
    (h : Reach (step cfg) (Undisturbed l) (.init replicas bootstrap) s) :
    ∃ report, s.history.verifyFromStart = some report ∧ report.monotonicityViolations = [] ∧
      report.divergentOffsets = [] ∧ report.offsetGaps = [] ∧
      ((∀ partition < cfg.partitions, ∃ name,
        ((s.clusters partition).nodes (l partition)).broker.hwm ≤ s.positions name partition) →
        report.isOk = true) := by
  have hinv : Inv cfg l s := h.invariant (.init hl bootstrap)
    fun _ _ _ hs hguard hstep => hs.step hguard hstep
  obtain ⟨report, hreport, hordered, hsame, hgaps, hok⟩ := hinv.read.report
  refine ⟨report, hreport, hordered, hsame, hgaps, fun hdrained => hok fun r hr => ?_⟩
  obtain ⟨partition, hcommitted⟩ := hinv.acked r hr
  obtain ⟨name, hposition⟩ := hdrained partition hcommitted.hosted
  obtain ⟨o, ho, hid⟩ := hinv.committed hcommitted
  exact hinv.read.delivered (ho.trans_le hposition) hid

/-- A partition on two brokers, the first of which is known to the client. -/
def twoReplicas : RunConfig where
  topic := "t"
  partitions := 1
  batchRecords := 1
  valueBytes := 8
  brokers _ := Node.smallConfig
  host addr := if addr = "b0" then some 0 else none

/-- A producer finds no leader at first, tries again and is acknowledged; a reader gets the
record. -/
def produceAndRead : List Event :=
  let first : List Cluster.Action := [.pull 0, .broker 0 .applyMetadata, .broker 0 .recordEpoch,
    .broker 0 (.process (fun _ => 0) 0 false)]
  let append : List Cluster.Action := [.broker 0 (.task 1),
    .broker 0 (.process (fun _ => 0) 0 false), .broker 0 (.task 1)]
  first.map (.cluster 0) ++
  [.call (.producer 0), .route (.producer 0) true false, .refresh .start,
    .refresh (.answer 0 (some ⟨1, [(0, "b0")], [], [⟨"t", [⟨0, 0, 1, [0, 1], [0, 1]⟩]⟩]⟩)),
    .refresh (.store 0), .wake (.producer 0), .route (.producer 0) true false, .arrive 0] ++
  (append ++ Cluster.followAndFetch 2 ++ Cluster.fetchAgain 2).map (.cluster 0) ++
  [.acked 0 ⟨0, 0, 1, ⟨⟨true, 1, 1⟩, .all, [(none, encodeValue 0 8)]⟩⟩, .call (.reader "a" 0),
    .route (.reader "a" 0) true false, .arrive 0, .cluster 0 (.broker 0 (.task 3)),
    .cluster 0 (.broker 0 (.process (fun _ => 0) 0 false)),
    .given "a" 0 [⟨0, 0, none, encodeValue 0 8⟩]]

theorem report_clean_retried : ∃ s report,
    Reach (step twoReplicas) (Undisturbed fun _ => 0) (.init (fun _ => [0, 1]) ["b0"]) s ∧
    (s.history.produced.length = 1 ∧ s.history.consumed.length = 1) ∧
    s.history.verifyFromStart = some report ∧ report.isOk = true := by
  obtain ⟨s, hreach, hseen, hdrained⟩ := Reach.exists_of_runSteps (step twoReplicas)
    (Undisturbed fun _ => 0) (.init (fun _ => [0, 1]) ["b0"]) produceAndRead
    (fun s => (s.history.produced.length = 1 ∧ s.history.consumed.length = 1) ∧
      ((s.clusters 0).nodes 0).broker.hwm ≤ s.positions "a" 0)
    (by decide +kernel)
  obtain ⟨report, hreport, -, -, -, hok⟩ := report_clean (fun _ => rfl) hreach
  refine ⟨s, report, hreach, hseen, hreport, hok fun partition hpartition => ⟨"a", ?_⟩⟩
  have hzero : partition = 0 := by
    rw [← UInt32.toNat_inj]
    have hlt : partition.toNat < 1 := UInt32.lt_iff_toNat_lt.mp hpartition
    exact Nat.lt_one_iff.mp hlt
  rw [hzero]
  exact hdrained

end Run
end Replog.Torture
