import Replog.Groups.Fencing

/-!
# Group consumers

Consumers join, poll, heartbeat, commit and rejoin against a standalone broker that keeps its
logs. Each consumer is in the middle of one call at most; a call goes on request by request, and
everything else may happen between two of them.
-/

namespace Replog.Groups
open Replog.Library
open Replog.Proto (ErrorCode)

abbrev Positions := Assoc (String × ℕ) ℕ

/-- What a consumer does once it has rejoined: go on with its poll, or return. -/
inductive Afterwards where
  | poll
  | done
  deriving DecidableEq

inductive Call where
  | idle
  | heartbeat
  | join (afterwards : Afterwards)
  /-- Reading the committed offsets of what is left of the assignment. -/
  | refresh (afterwards : Afterwards) (outcome : JoinOutcome) (rest : List (String × ℕ))
      (positions : Positions)
  /-- Fetching, with this many tries left. -/
  | fetch (tries : ℕ)
  | commit (rest : List ((String × ℕ) × ℕ))
  /-- Waiting for the answer to a commit. -/
  | committing (rest : List ((String × ℕ) × ℕ))

structure GroupConsumer where
  group : String
  topics : List String
  sessionTimeout : ℕ
  memberId : String
  generation : ℕ
  assignment : List (String × ℕ)
  positions : Positions
  lastHeartbeat : ℕ
  roundRobin : ℕ
  call : Call

/-- A consumer that is about to join. -/
def GroupConsumer.new (group : String) (topics : List String) (sessionTimeout now : ℕ) :
    GroupConsumer :=
  { group, topics, sessionTimeout, memberId := "", generation := 0, assignment := [],
    positions := ∅, lastHeartbeat := now, roundRobin := 0, call := .join .done }

/-- A fetch returns a run of offsets from the position on, nothing at the end of the log. -/
def fetchOffsets (nextOffset position more : ℕ) : Except ErrorCode (List ℕ) :=
  if nextOffset < position then .error .offsetOutOfRange
  else .ok ((List.range' position (nextOffset - position)).take (more + 1))

/-- The broker with the lengths of its logs, the consumers, the commits they have sent, and the
(topic, partition, offset)s that polls have returned. -/
structure World where
  broker : GroupBroker
  topics : Assoc String (List ℕ)
  consumers : ℕ → Option GroupConsumer
  sent : List Commit
  returned : List (String × ℕ × ℕ)

namespace World

def init : World where
  broker := .init
  topics := ∅
  consumers _ := none
  sent := []
  returned := []

/-- The partition counts an assignment is made with. -/
def counts (w : World) (topic : String) : Option ℕ := (w.topics.lookup topic).map List.length

def nextOffset (w : World) (topic : String) (partition : ℕ) : Option ℕ :=
  (w.topics.lookup topic).bind fun lens => lens[partition]?

def setConsumer (w : World) (i : ℕ) (c : GroupConsumer) : World :=
  { w with consumers := Function.update w.consumers i (some c) }

private theorem consumers_setConsumer (w : World) (i j : ℕ) (c : GroupConsumer) :
    (w.setConsumer i c).consumers j = if j = i then some c else w.consumers j :=
  Function.update_apply ..

inductive Action where
  /-- A topic is created, a record is produced. -/
  | createTopic (topic : String) (partitions : ℕ)
  | produce (topic : String) (partition : ℕ)
  /-- Anything anyone asks of the coordinator, and the eviction sweep. -/
  | coordinate (a : Groups.Action)
  /-- A commit arrives at the broker, late or twice if the network likes. -/
  | deliver (c : Commit)
  | append (k : ℕ) (ok : Bool)
  | finish (k : ℕ) (ok : Bool)
  /-- The broker restarts from its logs. -/
  | restart
  /-- A consumer starts, polls, commits its positions in some order, or takes the next step of what
  it is doing. -/
  | start (i : ℕ) (group : String) (topics : List String) (sessionTimeout now : ℕ)
  | poll (i now : ℕ)
  | commit (i : ℕ) (order : List ((String × ℕ) × ℕ))
  | next (i now more : ℕ)
  /-- The answer to a commit, or any failure of a call. -/
  | answer (i : ℕ) (code : ErrorCode)
  | fail (i : ℕ)

/-- Heartbeats are due after a third of the session timeout. -/
def heartbeatDue (c : GroupConsumer) (now : ℕ) : Bool :=
  max (c.sessionTimeout / 3) 1 ≤ now - c.lastHeartbeat

/-- The next step of the call a consumer is in. -/
def next (w : World) (i : ℕ) (c : GroupConsumer) (now more : ℕ) : Option World :=
  match c.call with
  | .idle => none
  | .heartbeat =>
    let (code, coordinator) := w.broker.coordinator.heartbeat c.group c.memberId c.generation now
    let w' := { w with broker := { w.broker with coordinator } }
    match code with
    | .none =>
      some (w'.setConsumer i { c with lastHeartbeat := now, call := .fetch c.assignment.length })
    | .staleGeneration => some (w'.setConsumer i { c with call := .join .poll })
    | .unknownMember => some (w'.setConsumer i { c with call := .join .poll })
    | _ => some (w'.setConsumer i { c with call := .idle })
  | .join afterwards =>
    let (outcome, coordinator) :=
      w.broker.coordinator.join c.group c.memberId c.sessionTimeout c.topics w.counts now
    some ({ w with broker := { w.broker with coordinator } }.setConsumer i
      { c with call := .refresh afterwards outcome outcome.assignment ∅ })
  | .refresh afterwards outcome ((topic, partition) :: rest) positions =>
    let committed := w.broker.store.fetch c.group topic partition
    some (w.setConsumer i { c with
      call := .refresh afterwards outcome rest
        (positions.insert (topic, partition) (committed.getD 0)) })
  | .refresh afterwards outcome [] positions =>
    some (w.setConsumer i { c with
      memberId := outcome.memberId
      generation := outcome.generation
      assignment := outcome.assignment
      positions
      lastHeartbeat := now
      call :=
        match afterwards with
        | .poll => .fetch outcome.assignment.length
        | .done => .idle })
  | .fetch 0 => some (w.setConsumer i { c with call := .idle })
  | .fetch (tries + 1) =>
    match c.assignment[c.roundRobin % c.assignment.length]? with
    | none => none
    | some (topic, partition) =>
      let c := { c with roundRobin := c.roundRobin + 1 }
      let position := (c.positions.lookup (topic, partition)).getD 0
      match w.nextOffset topic partition with
      | none => some (w.setConsumer i { c with call := .idle })
      | some nextOffset =>
        match fetchOffsets nextOffset position more with
        | .error _ => some (w.setConsumer i { c with call := .idle })
        | .ok offsets =>
          match offsets.getLast? with
          | none => some (w.setConsumer i { c with call := .fetch tries })
          | some last =>
            some { w.setConsumer i { c with
                positions := c.positions.insert (topic, partition) (last + 1), call := .idle } with
              returned := offsets.map (fun o => (topic, partition, o)) ++ w.returned }
  | .commit [] => some (w.setConsumer i { c with call := .idle })
  | .commit (((topic, partition), position) :: rest) =>
    some { w.setConsumer i { c with call := .committing rest } with
      sent := { group := c.group, topic, partition, offset := position, memberId := c.memberId,
                generation := c.generation } :: w.sent }
  | .committing _ => none

def step (w : World) : Action → Option World
  | .createTopic topic partitions =>
    if topic ∈ w.topics then none
    else some { w with topics := w.topics.insert topic (List.replicate partitions 0) }
  | .produce topic partition =>
    match w.topics.lookup topic with
    | none => none
    | some lens => some { w with topics := w.topics.insert topic (lens.modify partition (· + 1)) }
  | .coordinate a =>
    some { w with broker := { w.broker with coordinator := w.broker.coordinator.call a } }
  | .deliver c => some { w with broker := (w.broker.commitOffset c).2 }
  | .append k ok => (w.broker.appendCommit k ok).map fun broker => { w with broker }
  | .finish k ok => (w.broker.finishCommit k ok).map fun broker => { w with broker }
  | .restart =>
    some { w with broker :=
      { coordinator := .new, tasks := [], store := .openStore w.broker.store.log } }
  | .start i group topics sessionTimeout now =>
    some (w.setConsumer i (.new group topics sessionTimeout now))
  | .poll i now =>
    match w.consumers i with
    | some c =>
      match c.call with
      | .idle =>
        some (w.setConsumer i { c with
          call := if heartbeatDue c now then .heartbeat else .fetch c.assignment.length })
      | _ => none
    | none => none
  | .commit i order =>
    match w.consumers i with
    | some c =>
      match c.call with
      | .idle =>
        if order.Perm (c.positions.entries.map fun e => (e.1, e.2)) then
          some (w.setConsumer i { c with call := .commit order })
        else none
      | _ => none
    | none => none
  | .next i now more =>
    match w.consumers i with
    | some c => w.next i c now more
    | none => none
  | .answer i code =>
    match w.consumers i with
    | some c =>
      match c.call with
      | .committing rest =>
        some (w.setConsumer i { c with
          call :=
            match code with
            | .none => .commit rest
            | .staleGeneration => .join .done
            | .unknownMember => .join .done
            | _ => .idle })
      | _ => none
    | none => none
  | .fail i =>
    match w.consumers i with
    | some c => some (w.setConsumer i { c with call := .idle })
    | none => none

/-- For this group only its consumers commit: what arrives was sent by one of them. -/
def OnlyConsumers (group : String) (w : World) : Action → Prop
  | .deliver c => c.group = group → c ∈ w.sent
  | _ => True

instance (group : String) (w : World) (a : Action) : Decidable (OnlyConsumers group w a) := by
  cases a <;> unfold OnlyConsumers <;> infer_instance

/-! ## Everything below a committed offset was returned -/

/-- All records of the partition below the offset were returned by polls. -/
def Covered (returned : List (String × ℕ × ℕ)) (key : String × ℕ) (offset : ℕ) : Prop :=
  ∀ k < offset, (key.1, key.2, k) ∈ returned

/-- The positions in the call of a consumer. -/
def CallCovered (returned : List (String × ℕ × ℕ)) : Call → Prop
  | .refresh _ _ _ positions =>
    ∀ key o, positions.lookup key = some o → Covered returned key o
  | .commit rest => ∀ e ∈ rest, Covered returned e.1 e.2
  | .committing rest => ∀ e ∈ rest, Covered returned e.1 e.2
  | _ => True

structure ConsumerCovered (returned : List (String × ℕ × ℕ)) (c : GroupConsumer) : Prop where
  positions : ∀ key o, c.positions.lookup key = some o → Covered returned key o
  call : CallCovered returned c.call

/-- The commits of a group under way, in the log and in the cache. -/
structure BrokerCovered (group : String) (returned : List (String × ℕ × ℕ)) (b : GroupBroker) :
    Prop where
  tasks : ∀ t ∈ b.tasks, t.commit.group = group →
    Covered returned (t.commit.topic, t.commit.partition) t.commit.offset
  log : ∀ e ∈ b.store.log, e.1.1 = group → Covered returned e.1.2 e.2
  cache : ∀ key o, b.store.cache.lookup key = some o → key.1 = group → Covered returned key.2 o

structure AtLeastOnce (group : String) (w : World) : Prop where
  consumers : ∀ i c, w.consumers i = some c → c.group = group → ConsumerCovered w.returned c
  sent : ∀ c ∈ w.sent, c.group = group → Covered w.returned (c.topic, c.partition) c.offset
  broker : BrokerCovered group w.returned w.broker

variable {group : String} {w w' : World} {returned returned' : List (String × ℕ × ℕ)}

theorem Covered.mono {key : String × ℕ} {o : ℕ} (h : Covered returned key o)
    (hsub : returned ⊆ returned') : Covered returned' key o :=
  fun k hk => hsub (h k hk)

theorem ConsumerCovered.mono {c : GroupConsumer} (h : ConsumerCovered returned c)
    (hsub : returned ⊆ returned') : ConsumerCovered returned' c := by
  refine ⟨fun key o ho => (h.positions key o ho).mono hsub, ?_⟩
  have hcall := h.call
  cases hc : c.call <;> rw [hc] at hcall
  case refresh => exact fun key o ho => (hcall key o ho).mono hsub
  case commit => exact fun e he => (hcall e he).mono hsub
  case committing => exact fun e he => (hcall e he).mono hsub
  all_goals trivial

theorem BrokerCovered.mono {b : GroupBroker} (h : BrokerCovered group returned b)
    (hsub : returned ⊆ returned') : BrokerCovered group returned' b where
  tasks t ht hg := (h.tasks t ht hg).mono hsub
  log e he hg := (h.log e he hg).mono hsub
  cache key o ho hg := (h.cache key o ho hg).mono hsub

/-- Tasks carry on with commits that were covered when they were let through. -/
theorem BrokerCovered.taskStep {b b' : GroupBroker} {t : CommitTask}
    (h : BrokerCovered group returned b) (ht : b.TaskStep b' t) :
    BrokerCovered group returned b' where
  tasks t' ht' hg := by
    obtain ⟨s, hs, heq⟩ := ht.tasks t' ht'
    rw [← heq] at hg ⊢
    exact h.tasks s hs hg
  log e he hg := by
    rcases ht.log e he with he | rfl
    · exact h.log e he hg
    · exact h.tasks t ht.mem hg
  cache key o ho hg := by
    rcases ht.cache key o ho with ho | heq
    · exact h.cache key o ho hg
    · cases heq
      exact h.tasks t ht.mem hg

theorem BrokerCovered.coordinator {b : GroupBroker} (h : BrokerCovered group returned b)
    (coordinator : GroupCoordinator) : BrokerCovered group returned { b with coordinator } :=
  ⟨h.tasks, h.log, h.cache⟩

theorem AtLeastOnce.setConsumer (h : AtLeastOnce group w) {i : ℕ} {c : GroupConsumer}
    (hc : c.group = group → ConsumerCovered w.returned c) :
    AtLeastOnce group (w.setConsumer i c) where
  consumers j d hd hg := by
    rw [consumers_setConsumer] at hd
    split at hd
    · cases hd
      exact hc hg
    · exact h.consumers j d hd hg
  sent := h.sent
  broker := h.broker

private theorem AtLeastOnce.returnMore (h : AtLeastOnce group w) (more : List (String × ℕ × ℕ)) :
    AtLeastOnce group { w with returned := more ++ w.returned } where
  consumers i c hc hg := (h.consumers i c hc hg).mono (List.subset_append_right _ _)
  sent c hc hg := (h.sent c hc hg).mono (List.subset_append_right _ _)
  broker := h.broker.mono (List.subset_append_right _ _)

private theorem covered_fetchOffsets {topic : String} {nextOffset partition position more last : ℕ}
    {offsets : List ℕ} (hposition : Covered returned (topic, partition) position)
    (hfetch : fetchOffsets nextOffset position more = .ok offsets)
    (hlast : offsets.getLast? = some last) :
    Covered (offsets.map (fun o => (topic, partition, o)) ++ returned) (topic, partition)
      (last + 1) := by
  rw [fetchOffsets] at hfetch
  split at hfetch
  · cases hfetch
  · cases hfetch
    have hrun : ∃ n, (List.range' position (nextOffset - position)).take (more + 1) =
        List.range' position n := by
      rcases Nat.le_total (nextOffset - position) (more + 1) with hle | hge
      · exact ⟨_, List.take_range'_of_length_le hle⟩
      · exact ⟨_, List.take_range'_of_length_ge hge⟩
    obtain ⟨n, hn⟩ := hrun
    rw [hn] at hlast ⊢
    intro k hk
    rw [List.getLast?_range'] at hlast
    split at hlast
    · cases hlast
    · cases hlast
      by_cases hbelow : k < position
      · exact List.mem_append_right _ (hposition k hbelow)
      · refine List.mem_append_left _ (List.mem_map.mpr ⟨k, ?_, rfl⟩)
        exact List.mem_range'_1.mpr (by omega)

private theorem atLeastOnce_next {i : ℕ} {c : GroupConsumer} {now more : ℕ} (h : AtLeastOnce group w)
    (hc : c.group = group → ConsumerCovered w.returned c)
    (hnext : w.next i c now more = some w') : AtLeastOnce group w' := by
  -- a step that leaves the positions alone
  have hkeep : ∀ {w₁ : World} {d : GroupConsumer}, AtLeastOnce group w₁ →
      w₁.returned = w.returned → d.group = c.group → d.positions = c.positions →
      (c.group = group → CallCovered w.returned d.call) →
      AtLeastOnce group (w₁.setConsumer i d) := by
    intro w₁ d h₁ hreturned hgroup hpositions hcall
    refine h₁.setConsumer fun hg => ?_
    rw [hgroup] at hg
    rw [hreturned]
    exact ⟨by rw [hpositions]; exact (hc hg).positions, hcall hg⟩
  rw [World.next] at hnext
  split at hnext
  · cases hnext
  · rename_i hcall
    have hbroker : AtLeastOnce group { w with broker := { w.broker with
        coordinator := (w.broker.coordinator.heartbeat c.group c.memberId c.generation now).2 } } :=
      ⟨h.consumers, h.sent, h.broker.coordinator _⟩
    dsimp only at hnext
    split at hnext <;> cases hnext <;> exact hkeep hbroker rfl rfl rfl fun _ => trivial
  · rename_i afterwards hcall
    cases hnext
    exact hkeep ⟨h.consumers, h.sent, h.broker.coordinator _⟩ rfl rfl rfl fun _ => nofun
  · rename_i afterwards outcome topic partition rest positions hcall
    cases hnext
    refine hkeep h rfl rfl rfl fun hg key o ho => ?_
    have hpositions := (hc hg).call
    rw [hcall] at hpositions
    by_cases hkey : key = (topic, partition)
    · subst hkey
      rw [AList.lookup_insert, Option.some.injEq] at ho
      cases hfetch : w.broker.store.fetch c.group topic partition with
      | none =>
        rw [hfetch, Option.getD_none] at ho
        exact ho ▸ nofun
      | some committed =>
        rw [hfetch, Option.getD_some] at ho
        exact ho ▸ h.broker.cache _ _ hfetch hg
    · rw [AList.lookup_insert_ne hkey] at ho
      exact hpositions key o ho
  · rename_i afterwards outcome positions hcall
    cases hnext
    refine h.setConsumer fun hg => ?_
    have hpositions := (hc hg).call
    rw [hcall] at hpositions
    exact ⟨hpositions, by cases afterwards <;> trivial⟩
  · cases hnext
    exact hkeep h rfl rfl rfl fun _ => trivial
  · rename_i tries hcall
    split at hnext
    · cases hnext
    · rename_i topic partition hslot
      dsimp only at hnext
      split at hnext
      · cases hnext
        exact hkeep h rfl rfl rfl fun _ => trivial
      · rename_i nextOffset hnextOffset
        split at hnext
        · cases hnext
          exact hkeep h rfl rfl rfl fun _ => trivial
        · rename_i offsets hfetch
          split at hnext
          · cases hnext
            exact hkeep h rfl rfl rfl fun _ => trivial
          · rename_i last hlast
            cases hnext
            refine (h.returnMore _).setConsumer fun hg => ⟨fun key o ho => ?_, trivial⟩
            have hpositions := (hc hg).positions
            by_cases hkey : key = (topic, partition)
            · subst hkey
              rw [AList.lookup_insert, Option.some.injEq] at ho
              subst ho
              refine covered_fetchOffsets ?_ hfetch hlast
              cases hposition : c.positions.lookup (topic, partition) with
              | none => exact nofun
              | some position => exact hpositions _ _ hposition
            · rw [AList.lookup_insert_ne hkey] at ho
              exact (hpositions key o ho).mono (List.subset_append_right _ _)
  · cases hnext
    exact hkeep h rfl rfl rfl fun _ => trivial
  · rename_i topic partition position rest hcall
    cases hnext
    have hpending : c.group = group → ∀ e ∈ ((topic, partition), position) :: rest,
        Covered w.returned e.1 e.2 := fun hg => by
      have hcovered := (hc hg).call
      rwa [hcall] at hcovered
    have hsent : AtLeastOnce group { w with sent :=
        { group := c.group, topic, partition, offset := position, memberId := c.memberId,
          generation := c.generation } :: w.sent } :=
      ⟨h.consumers, List.forall_mem_cons.mpr ⟨fun hg => (List.forall_mem_cons.mp (hpending hg)).1,
        h.sent⟩, h.broker⟩
    exact hkeep hsent rfl rfl rfl fun hg => (List.forall_mem_cons.mp (hpending hg)).2
  · cases hnext

private theorem atLeastOnce_step {a : Action} (h : AtLeastOnce group w) (ha : OnlyConsumers group w a)
    (hstep : step w a = some w') : AtLeastOnce group w' := by
  cases a with
  | createTopic topic partitions =>
    simp only [step] at hstep
    split at hstep
    · cases hstep
    · cases hstep
      exact ⟨h.consumers, h.sent, h.broker⟩
  | produce topic partition =>
    simp only [step] at hstep
    split at hstep
    · cases hstep
    · cases hstep
      exact ⟨h.consumers, h.sent, h.broker⟩
  | coordinate a =>
    cases hstep
    exact ⟨h.consumers, h.sent, h.broker.coordinator _⟩
  | deliver c =>
    cases hstep
    refine ⟨h.consumers, h.sent, ?_⟩
    rcases w.broker.commitOffset_spec c with hsame | ⟨-, hnew⟩
    · rw [hsame]
      exact h.broker
    · rw [hnew]
      refine ⟨fun t ht hg => ?_, h.broker.log, h.broker.cache⟩
      rcases List.mem_append.mp ht with ht | ht
      · exact h.broker.tasks t ht hg
      · cases List.mem_singleton.mp ht
        exact h.sent c (ha hg) hg
  | append k ok =>
    obtain ⟨broker, hbroker, heq⟩ := Option.map_eq_some_iff.mp hstep
    cases heq
    obtain ⟨t, -, ht⟩ := GroupBroker.appendCommit_spec hbroker
    exact ⟨h.consumers, h.sent, h.broker.taskStep ht⟩
  | finish k ok =>
    obtain ⟨broker, hbroker, heq⟩ := Option.map_eq_some_iff.mp hstep
    cases heq
    obtain ⟨t, -, ht⟩ := GroupBroker.finishCommit_spec hbroker
    exact ⟨h.consumers, h.sent, h.broker.taskStep ht⟩
  | restart =>
    cases hstep
    refine ⟨h.consumers, h.sent, nofun, h.broker.log, fun key o ho hg => ?_⟩
    exact h.broker.log _ (Assoc.mem_of_lookup_ofList ho) hg
  | start i group' topics sessionTimeout now =>
    cases hstep
    exact h.setConsumer fun _ => ⟨nofun, trivial⟩
  | poll i now =>
    simp only [step] at hstep
    split at hstep
    · rename_i c hc
      split at hstep
      · cases hstep
        refine h.setConsumer fun hg => ⟨(h.consumers i c hc hg).positions, ?_⟩
        dsimp only
        split <;> trivial
      · cases hstep
    · cases hstep
  | commit i order =>
    simp only [step] at hstep
    split at hstep
    · rename_i c hc
      split at hstep
      · split at hstep
        · rename_i horder
          cases hstep
          refine h.setConsumer fun hg => ⟨(h.consumers i c hc hg).positions, ?_⟩
          intro e he
          obtain ⟨d, hd, rfl⟩ := List.mem_map.mp (horder.mem_iff.mp he)
          exact (h.consumers i c hc hg).positions d.1 d.2 (AList.mem_lookup_iff.mpr hd)
        · cases hstep
      · cases hstep
    · cases hstep
  | next i now more =>
    simp only [step] at hstep
    split at hstep
    · rename_i c hc
      exact atLeastOnce_next h (h.consumers i c hc) hstep
    · cases hstep
  | answer i code =>
    simp only [step] at hstep
    split at hstep
    · rename_i c hc
      split at hstep
      · rename_i rest hcall
        cases hstep
        refine h.setConsumer fun hg => ⟨(h.consumers i c hc hg).positions, ?_⟩
        have hcovered := (h.consumers i c hc hg).call
        rw [hcall] at hcovered
        cases code <;> first | exact hcovered | trivial
      · cases hstep
    · cases hstep
  | fail i =>
    simp only [step] at hstep
    split at hstep
    · rename_i c hc
      cases hstep
      exact h.setConsumer fun hg => ⟨(h.consumers i c hc hg).positions, trivial⟩
    · cases hstep

private theorem atLeastOnce_init : AtLeastOnce group init where
  consumers := nofun
  sent := nofun
  broker := ⟨nofun, nofun, nofun⟩

/-- At every moment, everything below a committed offset was returned by a poll. -/
theorem committed_returned (h : Reach step (OnlyConsumers group) init w) {topic : String}
    {partition offset : ℕ} (hcommitted : w.broker.store.fetch group topic partition = some offset) :
    ∀ k < offset, (topic, partition, k) ∈ w.returned :=
  (h.invariant atLeastOnce_init fun _ _ _ hs ha hstep =>
    atLeastOnce_step hs ha hstep).broker.cache (group, topic, partition) offset hcommitted rfl

/-- Two consumers, the second of which takes a partition over that the first has polled from. The
first one's commit is fenced; it rejoins, polls again and commits, and so does the second. -/
def twoConsumers : List Action :=
  [.createTopic "t" 2, .produce "t" 0, .produce "t" 0, .produce "t" 1, .produce "t" 1,
    .start 0 "g" ["t"] 30 0, .next 0 0 0, .next 0 0 0, .next 0 0 0, .next 0 0 0,
    .poll 0 0, .next 0 0 1, .poll 0 0, .next 0 0 0,
    .start 1 "g" ["t"] 30 0, .next 1 0 0, .next 1 0 0, .next 1 0 0,
    .commit 0 [(("t", 1), 1), (("t", 0), 2)], .next 0 0 0,
    .deliver ⟨"g", "t", 1, 1, "m-1", 1⟩, .answer 0 .staleGeneration,
    .next 0 0 0, .next 0 0 0, .next 0 0 0, .poll 0 0, .next 0 0 1,
    .poll 1 0, .next 1 0 0, .commit 0 [(("t", 0), 2)], .next 0 0 0, .commit 1 [(("t", 1), 1)],
    .next 1 0 0, .deliver ⟨"g", "t", 1, 1, "m-2", 2⟩, .deliver ⟨"g", "t", 0, 2, "m-1", 2⟩,
    .append 1 true, .append 0 true, .finish 0 true, .finish 0 true, .answer 1 .none, .answer 0 .none]

theorem committed_returned_rebalanced :
    ∃ w : World, (w.broker.store.fetch "g" "t" 0 = some 2 ∧
        w.broker.store.fetch "g" "t" 1 = some 1) ∧
      (∀ k < 2, ("t", 0, k) ∈ w.returned) ∧ ∀ k < 1, ("t", 1, k) ∈ w.returned := by
  obtain ⟨w, hreach, hfetch⟩ := Reach.exists_of_runSteps step (OnlyConsumers "g") init twoConsumers
    (fun w => w.broker.store.fetch "g" "t" 0 = some 2 ∧ w.broker.store.fetch "g" "t" 1 = some 1)
    (by decide +kernel)
  exact ⟨w, hfetch, committed_returned hreach hfetch.1, committed_returned hreach hfetch.2⟩

end World
end Replog.Groups
