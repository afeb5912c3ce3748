import Replog.Groups.Consumer
import Replog.Groups.Incarnations

/-!
# What a generation delivers

While the broker does not restart, one generation of a group delivers each partition through one
member, as one run of offsets: nothing twice, nothing out of order and nothing left out in between.
-/

namespace Replog.Groups
open Replog.Library
open Replog.Proto (ErrorCode)

/-- A record that a poll returned, with the member and the generation it was returned to. -/
structure Delivery where
  group : String
  memberId : String
  generation : ℕ
  topic : String
  partition : ℕ
  offset : ℕ
  deriving DecidableEq

/-- The offsets of a partition that were returned to a member in a generation. -/
def offsetsOf (delivered : List Delivery) (group memberId : String) (generation : ℕ)
    (topic : String) (partition : ℕ) : List ℕ :=
  (delivered.filter fun d => d.group = group ∧ d.memberId = memberId ∧
    d.generation = generation ∧ d.topic = topic ∧ d.partition = partition).map Delivery.offset

/-- A world with the outcomes of all joins, the commits of consumers that were refused as a
zombie's, and everything that polls returned, in order. -/
structure Deliveries where
  world : World
  outcomes : List (String × JoinOutcome)
  refused : List Commit
  delivered : List Delivery

def GroupCoordinator.outcome (c : GroupCoordinator) : Action → List (String × JoinOutcome)
  | .join group memberId sessionTimeout topics counts now =>
    [(group, (c.join group memberId sessionTimeout topics counts now).1)]
  | _ => []

namespace World

/-- What a step asks of the coordinator. -/
def calls (w : World) : Action → Option Groups.Action
  | .coordinate a => some a
  | .next i now _ =>
    (w.consumers i).bind fun c =>
      match c.call with
      | .heartbeat => some (.heartbeat c.group c.memberId c.generation now)
      | .join _ => some (.join c.group c.memberId c.sessionTimeout c.topics w.counts now)
      | _ => none
  | _ => none

/-- A consumer's commit that arrives and is refused. -/
def refuses (w : World) : Action → List Commit
  | .deliver c =>
    if c ∈ w.sent ∧ w.broker.coordinator.checkCommit c.group c.memberId c.generation ≠ .none then
      [c]
    else []
  | _ => []

/-- What a step to `w'` returns to a consumer. -/
def delivers (w w' : World) : Action → List Delivery
  | .next i _ _ =>
    (w.consumers i).elim [] fun c =>
      (w'.returned.take (w'.returned.length - w.returned.length)).map fun r =>
        { group := c.group, memberId := c.memberId, generation := c.generation, topic := r.1,
          partition := r.2.1, offset := r.2.2 }
  | _ => []

end World

namespace Deliveries

def init : Deliveries := { world := .init, outcomes := [], refused := [], delivered := [] }

def step (s : Deliveries) (a : World.Action) : Option Deliveries :=
  (s.world.step a).map fun w =>
    { world := w
      outcomes := ((s.world.calls a).map s.world.broker.coordinator.outcome).getD [] ++ s.outcomes
      refused := s.world.refuses a ++ s.refused
      delivered := s.delivered ++ s.world.delivers w a }

/-- The broker keeps running, and it is the broker that refuses a commit. -/
def Steady (s : Deliveries) : World.Action → Prop
  | .restart => False
  | .answer i code => code = .staleGeneration ∨ code = .unknownMember →
    ∀ c ∈ s.world.consumers i, ∃ k ∈ s.refused,
      k.group = c.group ∧ k.memberId = c.memberId ∧ k.generation = c.generation
  | _ => True

instance (s : Deliveries) (a : World.Action) : Decidable (s.Steady a) :=
  match a with
  | .restart => isFalse id
  | .answer i _ => inferInstanceAs (Decidable (_ ∨ _ → ∀ c ∈ s.world.consumers i, _))
  | .createTopic _ _ | .produce _ _ | .coordinate _ | .deliver _ | .append _ _ | .finish _ _
  | .start _ _ _ _ _ | .poll _ _ | .commit _ _ | .next _ _ _ | .fail _ => isTrue trivial

end Deliveries

/-! ## What a step does to a consumer -/

def Call.quiet : Call → Bool
  | .join _ => false
  | .refresh _ _ _ _ => false
  | _ => true

/-- The coordinator will never again take the member for a current one of the generation. -/
def GroupCoordinator.Refuses (c : GroupCoordinator) (group memberId : String) (generation : ℕ) :
    Prop :=
  (memberId ∉ (c.group group).members ∧ ∃ n < c.nextMember, memberId = memberName n) ∨
    generation < (c.group group).generation

/-- How a step changes the consumer `i`, if it is there. The list is what is returned to it. -/
inductive World.Moves (w : World) (i : ℕ) : World.Action → Option GroupConsumer → GroupConsumer →
    List (String × ℕ × ℕ) → Prop where
  | started {c : Option GroupConsumer} {group topics sessionTimeout now} :
    Moves w i (.start i group topics sessionTimeout now) c (.new group topics sessionTimeout now) []
  /-- Who it is and where it stands are as before. -/
  | kept {a : Action} {c c' : GroupConsumer} (hgroup : c'.group = c.group)
      (hmember : c'.memberId = c.memberId) (hgeneration : c'.generation = c.generation)
      (hassignment : c'.assignment = c.assignment) (hpositions : c'.positions = c.positions)
      (hcall : c'.call.quiet = true) : Moves w i a (some c) c' []
  /-- Its heartbeat or its commit was refused. -/
  | refused {a : Action} {c : GroupConsumer} {afterwards : Afterwards}
      (hrefused : (w.broker.coordinator.heartbeat c.group c.memberId c.generation 0).1 ≠ .none ∨
        ∃ code, (code = .staleGeneration ∨ code = .unknownMember) ∧ a = .answer i code) :
    Moves w i a (some c) { c with call := .join afterwards } []
  | joined {c : GroupConsumer} {afterwards : Afterwards} {now more : ℕ} {outcome : JoinOutcome}
      (hcall : c.call = .join afterwards)
      (houtcome : outcome = (w.broker.coordinator.join c.group c.memberId c.sessionTimeout c.topics
        w.counts now).1) :
    Moves w i (.next i now more) (some c)
      { c with call := .refresh afterwards outcome outcome.assignment ∅ } []
  | refreshed {a : Action} {c : GroupConsumer} {afterwards : Afterwards} {outcome : JoinOutcome}
      {slot rest positions positions'}
      (hcall : c.call = .refresh afterwards outcome (slot :: rest) positions) :
    Moves w i a (some c) { c with call := .refresh afterwards outcome rest positions' } []
  | adopted {a : Action} {c : GroupConsumer} {afterwards : Afterwards} {outcome : JoinOutcome}
      {positions lastHeartbeat call} (hcall : c.call = .refresh afterwards outcome [] positions)
      (hquiet : call.quiet = true) :
    Moves w i a (some c) { c with
      memberId := outcome.memberId, generation := outcome.generation
      assignment := outcome.assignment, positions, lastHeartbeat, call } []
  | delivered {c : GroupConsumer} {topic : String} {partition position n roundRobin now more : ℕ}
      (hslot : (topic, partition) ∈ c.assignment) (hn : 0 < n)
      (hposition : position = (c.positions.lookup (topic, partition)).getD 0) :
    Moves w i (.next i now more) (some c)
      { c with roundRobin, positions := c.positions.insert (topic, partition) (position + n)
               call := .idle }
      ((List.range' position n).map fun o => (topic, partition, o))

namespace World

variable {w w' : World} {a : Action}

/-- A step moves at most one consumer, and returns records to it only. -/
structure Stepped (w : World) (a : Action) (w' : World) : Prop where
  moved : (w'.consumers = w.consumers ∧ w'.returned = w.returned) ∨
    ∃ i c out, w.Moves i a (w.consumers i) c out ∧
      w'.consumers = Function.update w.consumers i (some c) ∧ w'.returned = out ++ w.returned
  coordinator : w'.broker.coordinator =
    ((w.calls a).map w.broker.coordinator.call).getD w.broker.coordinator
  sent : ∀ k ∈ w'.sent, k ∈ w.sent ∨ ∃ i c, w.consumers i = some c ∧ k.group = c.group ∧
    k.memberId = c.memberId ∧ k.generation = c.generation

private theorem heartbeat_code (c : GroupCoordinator) (group memberId : String) (generation now : ℕ) :
    (c.heartbeat group memberId generation now).1 =
      (c.heartbeat group memberId generation 0).1 := by
  rw [GroupCoordinator.heartbeat, GroupCoordinator.heartbeat]
  cases c.groups.lookup group with
  | none => rfl
  | some g =>
    dsimp only
    cases g.members.lookup memberId <;> rfl

theorem fetchOffsets_eq {nextOffset position more last : ℕ} {offsets : List ℕ}
    (h : fetchOffsets nextOffset position more = .ok offsets)
    (hlast : offsets.getLast? = some last) :
    ∃ n, 0 < n ∧ offsets = List.range' position n ∧ last + 1 = position + n := by
  rw [fetchOffsets] at h
  split at h
  · cases h
  · cases h
    obtain ⟨n, hn⟩ : ∃ n, (List.range' position (nextOffset - position)).take (more + 1) =
        List.range' position n := by
      rcases Nat.le_total (nextOffset - position) (more + 1) with hle | hge
      · exact ⟨_, List.take_range'_of_length_le hle⟩
      · exact ⟨_, List.take_range'_of_length_ge hge⟩
    rw [hn, List.getLast?_range'] at hlast
    split at hlast
    · cases hlast
    · cases hlast
      exact ⟨n, by omega, hn, by omega⟩

private theorem stepped_next {i now more : ℕ} {c : GroupConsumer} (hc : w.consumers i = some c)
    (h : w.next i c now more = some w') : w.Stepped (.next i now more) w' := by
  have hone {w₁ : World} {c' : GroupConsumer} (hconsumers : w₁.consumers = w.consumers)
      (hreturned : w₁.returned = w.returned)
      (hmoves : w.Moves i (.next i now more) (some c) c' []) :
      ((w₁.setConsumer i c').consumers = w.consumers ∧
        (w₁.setConsumer i c').returned = w.returned) ∨
      ∃ j d out, w.Moves j (.next i now more) (w.consumers j) d out ∧
        (w₁.setConsumer i c').consumers = Function.update w.consumers j (some d) ∧
        (w₁.setConsumer i c').returned = out ++ w.returned :=
    .inr ⟨i, c', [], hc.symm ▸ hmoves, by rw [← hconsumers]; rfl, hreturned⟩
  have hquiet (hcall : ∀ afterwards, c.call ≠ .join afterwards) (hbeat : c.call ≠ .heartbeat) :
      w.calls (.next i now more) = none := by
    rw [calls, hc, Option.bind_some]
    cases hcase : c.call with
    | join afterwards => exact absurd hcase (hcall afterwards)
    | heartbeat => exact absurd hcase hbeat
    | _ => rfl
  rw [World.next] at h
  split at h
  · cases h
  · rename_i hcall
    have hcalls : w.calls (.next i now more) =
        some (.heartbeat c.group c.memberId c.generation now) := by
      rw [calls, hc, Option.bind_some, hcall]
    have hcoordinator : (w.broker.coordinator.heartbeat c.group c.memberId c.generation now).2 =
        ((w.calls (.next i now more)).map w.broker.coordinator.call).getD
          w.broker.coordinator := by
      rw [hcalls]
      rfl
    have hcode := heartbeat_code w.broker.coordinator c.group c.memberId c.generation now
    dsimp only at h
    split at h
    · cases h
      exact ⟨hone rfl rfl (.kept rfl rfl rfl rfl rfl rfl), hcoordinator, fun k hk => .inl hk⟩
    · rename_i hstale
      cases h
      refine ⟨hone rfl rfl (.refused (.inl ?_)), hcoordinator, fun k hk => .inl hk⟩
      rw [← hcode, hstale]
      decide
    · rename_i hunknown
      cases h
      refine ⟨hone rfl rfl (.refused (.inl ?_)), hcoordinator, fun k hk => .inl hk⟩
      rw [← hcode, hunknown]
      decide
    · cases h
      exact ⟨hone rfl rfl (.kept rfl rfl rfl rfl rfl rfl), hcoordinator, fun k hk => .inl hk⟩
  · rename_i afterwards hcall
    cases h
    refine ⟨hone rfl rfl (.joined hcall rfl), ?_, fun k hk => .inl hk⟩
    rw [calls, hc, Option.bind_some, hcall]
    rfl
  · rename_i afterwards outcome topic partition rest positions hcall
    cases h
    have hnone := hquiet (by simp [hcall]) (by simp [hcall])
    exact ⟨hone rfl rfl (.refreshed hcall), by rw [hnone]; rfl, fun k hk => .inl hk⟩
  · rename_i afterwards outcome positions hcall
    cases h
    have hnone := hquiet (by simp [hcall]) (by simp [hcall])
    refine ⟨hone rfl rfl (.adopted hcall ?_), by rw [hnone]; rfl, fun k hk => .inl hk⟩
    cases afterwards <;> rfl
  · rename_i hcall
    cases h
    have hnone := hquiet (by simp [hcall]) (by simp [hcall])
    exact ⟨hone rfl rfl (.kept rfl rfl rfl rfl rfl rfl), by rw [hnone]; rfl, fun k hk => .inl hk⟩
  · rename_i tries hcall
    have hnone := hquiet (by simp [hcall]) (by simp [hcall])
    split at h
    · cases h
    · rename_i topic partition hslot
      dsimp only at h
      split at h
      · cases h
        exact ⟨hone rfl rfl (.kept rfl rfl rfl rfl rfl rfl), by rw [hnone]; rfl,
          fun k hk => .inl hk⟩
      · split at h
        · cases h
          exact ⟨hone rfl rfl (.kept rfl rfl rfl rfl rfl rfl), by rw [hnone]; rfl,
            fun k hk => .inl hk⟩
        · rename_i offsets hfetch
          split at h
          · cases h
            exact ⟨hone rfl rfl (.kept rfl rfl rfl rfl rfl rfl), by rw [hnone]; rfl,
              fun k hk => .inl hk⟩
          · rename_i last hlast
            cases h
            obtain ⟨n, hn, rfl, hend⟩ := fetchOffsets_eq hfetch hlast
            refine ⟨.inr ⟨i, _, _, ?_, rfl, rfl⟩, by rw [hnone]; rfl, fun k hk => .inl hk⟩
            rw [hc, hend]
            exact .delivered (List.mem_of_getElem? hslot) hn rfl
  · rename_i hcall
    cases h
    have hnone := hquiet (by simp [hcall]) (by simp [hcall])
    exact ⟨hone rfl rfl (.kept rfl rfl rfl rfl rfl rfl), by rw [hnone]; rfl, fun k hk => .inl hk⟩
  · rename_i topic partition position rest hcall
    cases h
    have hnone := hquiet (by simp [hcall]) (by simp [hcall])
    refine ⟨.inr ⟨i, _, [], hc.symm ▸ .kept rfl rfl rfl rfl rfl rfl, rfl, rfl⟩,
      by rw [hnone]; rfl, fun k hk => ?_⟩
    rcases List.mem_cons.mp hk with rfl | hk
    · exact .inr ⟨i, c, hc, rfl, rfl, rfl⟩
    · exact .inl hk
  · cases h

theorem stepped_of_step (h : step w a = some w') (ha : a ≠ .restart) : w.Stepped a w' := by
  have hsame (hconsumers : w'.consumers = w.consumers) (hreturned : w'.returned = w.returned)
      (hsent : w'.sent = w.sent) (hcoordinator : w'.broker.coordinator =
        ((w.calls a).map w.broker.coordinator.call).getD w.broker.coordinator) :
      w.Stepped a w' :=
    ⟨.inl ⟨hconsumers, hreturned⟩, hcoordinator, fun k hk => .inl (hsent ▸ hk)⟩
  cases a with
  | createTopic topic partitions =>
    simp only [step] at h
    split at h <;> cases h
    exact hsame rfl rfl rfl rfl
  | produce topic partition =>
    simp only [step] at h
    split at h <;> cases h
    exact hsame rfl rfl rfl rfl
  | coordinate a =>
    cases h
    exact hsame rfl rfl rfl rfl
  | deliver c =>
    cases h
    refine hsame rfl rfl rfl ?_
    rcases w.broker.commitOffset_spec c with hold | ⟨-, hnew⟩
    · exact congrArg GroupBroker.coordinator hold
    · change (w.broker.commitOffset c).2.coordinator = w.broker.coordinator
      rw [hnew]
  | append k ok =>
    obtain ⟨broker, hbroker, rfl⟩ := Option.map_eq_some_iff.mp h
    obtain ⟨t, -, ht⟩ := GroupBroker.appendCommit_spec hbroker
    exact hsame rfl rfl rfl ht.coordinator_eq
  | finish k ok =>
    obtain ⟨broker, hbroker, rfl⟩ := Option.map_eq_some_iff.mp h
    obtain ⟨t, -, ht⟩ := GroupBroker.finishCommit_spec hbroker
    exact hsame rfl rfl rfl ht.coordinator_eq
  | restart => exact absurd rfl ha
  | start i group topics sessionTimeout now =>
    cases h
    exact ⟨.inr ⟨i, _, [], .started, rfl, rfl⟩, rfl, fun k hk => .inl hk⟩
  | poll i now =>
    simp only [step] at h
    split at h
    · rename_i c hc
      split at h
      · cases h
        refine ⟨.inr ⟨i, _, [], hc.symm ▸ .kept rfl rfl rfl rfl rfl ?_, rfl, rfl⟩, rfl,
          fun k hk => .inl hk⟩
        dsimp only
        split <;> rfl
      · cases h
    · cases h
  | commit i order =>
    simp only [step] at h
    split at h
    · rename_i c hc
      split at h
      · split at h
        · cases h
          exact ⟨.inr ⟨i, _, [], hc.symm ▸ .kept rfl rfl rfl rfl rfl rfl, rfl, rfl⟩, rfl,
            fun k hk => .inl hk⟩
        · cases h
      · cases h
    · cases h
  | next i now more =>
    simp only [step] at h
    split at h
    · rename_i c hc
      exact stepped_next hc h
    · cases h
  | answer i code =>
    simp only [step] at h
    split at h
    · rename_i c hc
      split at h
      · rename_i rest hcall
        cases h
        refine ⟨.inr ⟨i, _, [], ?_, rfl, rfl⟩, rfl, fun k hk => .inl hk⟩
        rw [hc]
        cases code with
        | staleGeneration => exact .refused (.inr ⟨_, .inl rfl, rfl⟩)
        | unknownMember => exact .refused (.inr ⟨_, .inr rfl, rfl⟩)
        | _ => exact .kept rfl rfl rfl rfl rfl rfl
      · cases h
    · cases h
  | fail i =>
    simp only [step] at h
    split at h
    · rename_i c hc
      cases h
      exact ⟨.inr ⟨i, _, [], hc.symm ▸ .kept rfl rfl rfl rfl rfl rfl, rfl, rfl⟩, rfl,
        fun k hk => .inl hk⟩
    · cases h

end World

/-! ## What the coordinator refuses -/

namespace GroupCoordinator

variable {c : GroupCoordinator} {group memberId : String} {generation : ℕ}

private theorem generation_le_call (c : GroupCoordinator) (a : Action) (group : String) :
    (c.group group).generation ≤ ((c.call a).group group).generation := by
  rcases (c.evolves_call a group).quiet_or_next with ⟨hsame, -⟩ | ⟨hnext, -⟩ <;> omega

theorem Refuses.call (h : c.Refuses group memberId generation) (a : Action) :
    (c.call a).Refuses group memberId generation := by
  have hnumbers := c.nextMember_call a
  rcases h with ⟨hgone, n, hn, rfl⟩ | hlt
  · refine .inl ⟨fun hmem => ?_, n, by omega, rfl⟩
    rcases mem_members_call hmem with hold | hnew
    · exact hgone hold
    · have hname := registered_eq hnew
      have heq := memberName_injective hname
      omega
  · exact .inr (hlt.trans_le (c.generation_le_call a group))

private theorem refuses_of_heartbeat {now : ℕ}
    (h : (c.heartbeat group memberId generation now).1 ≠ .none)
    (hnamed : ∃ n < c.nextMember, memberId = memberName n)
    (hle : generation ≤ (c.group group).generation) : c.Refuses group memberId generation := by
  rw [heartbeat] at h
  split at h
  · rename_i hnone
    refine .inl ⟨?_, hnamed⟩
    rw [GroupCoordinator.group, hnone]
    exact AList.notMem_empty _
  · rename_i g hg
    split at h
    · rename_i hnone
      rw [← group_of_lookup hg] at hnone
      exact .inl ⟨AList.lookup_eq_none.mp hnone, hnamed⟩
    · dsimp only at h
      split at h
      · rename_i hne
        rw [← group_of_lookup hg] at hne
        exact .inr (lt_of_le_of_ne hle hne)
      · exact absurd rfl h

private theorem refuses_of_checkCommit (h : c.checkCommit group memberId generation ≠ .none)
    (hnamed : ∃ n < c.nextMember, memberId = memberName n)
    (hle : generation ≤ (c.group group).generation) : c.Refuses group memberId generation := by
  rw [checkCommit] at h
  split at h
  · exact absurd rfl h
  · split at h
    · rename_i hnone
      refine .inl ⟨?_, hnamed⟩
      rw [GroupCoordinator.group, hnone]
      exact AList.notMem_empty _
    · rename_i g hg
      rw [← group_of_lookup hg] at h
      split at h
      · rename_i hgone
        exact .inl ⟨hgone, hnamed⟩
      · split at h
        · rename_i hne
          exact .inr (lt_of_le_of_ne hle hne)
        · exact absurd rfl h

/-- Who is let in again although it is refused comes to a later generation. -/
theorem join_refused (h : memberId = "" ∨ c.Refuses group memberId generation)
    (sessionTimeout : ℕ) (topics : List String) (counts : String → Option ℕ) (now : ℕ) :
    (c.join group memberId sessionTimeout topics counts now).1.memberId = memberName c.nextMember ∨
      (c.join group memberId sessionTimeout topics counts now).1.memberId = memberId ∧
        memberId ≠ "" ∧
        generation < (c.join group memberId sessionTimeout topics counts now).1.generation := by
  obtain ⟨hevolves, hgeneration, -⟩ := c.join_spec group memberId sessionTimeout topics counts now
  rcases c.enroll_eq group memberId topics with ⟨-, hid, -⟩ | ⟨hold, hmem, hid, -⟩
  · exact .inl hid
  · have hne : memberId ≠ "" := by
      intro hempty
      simp [registers, hempty] at hold
    refine .inr ⟨hid, hne, ?_⟩
    rw [hgeneration]
    rcases h with hempty | ⟨hgone, -⟩ | hlt
    · exact absurd hempty hne
    · exact absurd hmem hgone
    · rcases (hevolves group).quiet_or_next with ⟨hsame, -⟩ | ⟨hnext, -⟩
      · rwa [hsame]
      · omega

end GroupCoordinator

/-! ## What is known about a consumer -/

/-- The ids a consumer goes by, now or once it is through with a join. -/
def GroupConsumer.ids (c : GroupConsumer) : List String :=
  c.memberId :: match c.call with
    | .refresh _ outcome _ _ => [outcome.memberId]
    | _ => []

def GroupConsumer.position (c : GroupConsumer) (topic : String) (partition : ℕ) : ℕ :=
  (c.positions.lookup (topic, partition)).getD 0

namespace Deliveries

def coordinator (s : Deliveries) : GroupCoordinator := s.world.broker.coordinator

/-- A consumer that has joined goes by an outcome. What it was returned in its generation ends
where it stands, and it rejoins only to come to a later one. -/
structure Serves (s : Deliveries) (c : GroupConsumer) : Prop where
  outcome : (c.memberId = "" ∧ c.assignment = []) ∨
    (c.group, ⟨c.memberId, c.generation, c.assignment⟩) ∈ s.outcomes
  past : ∀ d ∈ s.delivered, d.memberId = c.memberId →
    d.group = c.group ∧ d.generation ≤ c.generation
  run : ∀ topic partition, (topic, partition) ∈ c.assignment → ∃ start n,
    c.position topic partition = start + n ∧
      offsetsOf s.delivered c.group c.memberId c.generation topic partition = List.range' start n
  rejoins : ∀ afterwards, c.call = .join afterwards →
    c.memberId = "" ∨ s.coordinator.Refuses c.group c.memberId c.generation
  refreshes : ∀ afterwards outcome rest positions,
    c.call = .refresh afterwards outcome rest positions →
    (c.group, outcome) ∈ s.outcomes ∧ ∀ d ∈ s.delivered, d.memberId = outcome.memberId →
      d.group = c.group ∧ d.generation < outcome.generation

/-- Every id was handed out under its own number. -/
structure Known (s : Deliveries) : Prop where
  membership : Membership.Invariant ⟨s.coordinator, s.outcomes⟩
  named : ∀ o ∈ s.outcomes, ∃ n < s.coordinator.nextMember, o.2.memberId = memberName n
  members : ∀ group, ∀ id ∈ (s.coordinator.group group).members,
    ∃ n < s.coordinator.nextMember, id = memberName n

structure Inv (s : Deliveries) : Prop extends Known s where
  consumers : ∀ i c, s.world.consumers i = some c → s.Serves c
  distinct : ∀ i j c c', s.world.consumers i = some c → s.world.consumers j = some c' → i ≠ j →
    ∀ id ∈ c.ids, id ≠ "" → id ∉ c'.ids
  refused : ∀ k ∈ s.refused, s.coordinator.Refuses k.group k.memberId k.generation
  sent : ∀ k ∈ s.world.sent, k.memberId = "" ∨ ∃ o ∈ s.outcomes,
    o.1 = k.group ∧ o.2.memberId = k.memberId ∧ o.2.generation = k.generation
  delivered : ∀ d ∈ s.delivered, ∃ o ∈ s.outcomes, o.1 = d.group ∧ o.2.memberId = d.memberId ∧
    o.2.generation = d.generation ∧ (d.topic, d.partition) ∈ o.2.assignment
  runs : ∀ group memberId generation topic partition, ∃ start n,
    offsetsOf s.delivered group memberId generation topic partition = List.range' start n

theorem offsetsOf_append (first second : List Delivery) (group memberId : String) (generation : ℕ)
    (topic : String) (partition : ℕ) :
    offsetsOf (first ++ second) group memberId generation topic partition =
      offsetsOf first group memberId generation topic partition ++
        offsetsOf second group memberId generation topic partition := by
  simp [offsetsOf, List.filter_append]

theorem offsetsOf_eq_nil {delivered : List Delivery} {group memberId : String} {generation : ℕ}
    {topic : String} {partition : ℕ} (h : ∀ d ∈ delivered, ¬ (d.group = group ∧
      d.memberId = memberId ∧ d.generation = generation ∧ d.topic = topic ∧
      d.partition = partition)) :
    offsetsOf delivered group memberId generation topic partition = [] := by
  rw [offsetsOf, List.filter_eq_nil_iff.mpr, List.map_nil]
  intro d hd
  simpa using h d hd

theorem offsetsOf_run (group memberId : String) (generation : ℕ) (topic : String)
    (partition : ℕ) (offsets : List ℕ) :
    offsetsOf (offsets.map fun o => ⟨group, memberId, generation, topic, partition, o⟩) group
      memberId generation topic partition = offsets := by
  rw [offsetsOf, List.filter_eq_self.mpr]
  · simp [Function.comp_def]
  · intro d hd
    obtain ⟨o, -, rfl⟩ := List.mem_map.mp hd
    simp

variable {s s' : Deliveries} {c : GroupConsumer}

/-- The number of every id in use is below the next one. -/
theorem Serves.named (h : s.Serves c) (hnamed : ∀ o ∈ s.outcomes,
      ∃ n < s.coordinator.nextMember, o.2.memberId = memberName n) {id : String}
    (hid : id ∈ c.ids) (hne : id ≠ "") : ∃ n < s.coordinator.nextMember, id = memberName n := by
  rw [GroupConsumer.ids] at hid
  rcases List.mem_cons.mp hid with rfl | hid
  · rcases h.outcome with ⟨hempty, -⟩ | hmem
    · exact absurd hempty hne
    · exact hnamed _ hmem
  · split at hid
    · rename_i afterwards outcome rest positions hcall
      obtain rfl := List.mem_singleton.mp hid
      exact hnamed _ (h.refreshes _ _ _ _ hcall).1
    · cases hid

/-- What is handed out, refused and returned to others leaves a consumer alone. -/
theorem Serves.later (h : s.Serves c) (houtcomes : s.outcomes ⊆ s'.outcomes)
    (hrefuses : ∀ group memberId generation, s.coordinator.Refuses group memberId generation →
      s'.coordinator.Refuses group memberId generation) (more : List Delivery)
    (hdelivered : s'.delivered = s.delivered ++ more) (hmore : ∀ d ∈ more, d.memberId ∉ c.ids) :
    s'.Serves c where
  outcome := h.outcome.imp_right fun hmem => houtcomes hmem
  past d hd hid := by
    rw [hdelivered] at hd
    rcases List.mem_append.mp hd with hd | hd
    · exact h.past d hd hid
    · exact absurd (hid ▸ List.mem_cons_self) (hmore d hd)
  run topic partition hslot := by
    obtain ⟨start, n, hposition, hrun⟩ := h.run topic partition hslot
    refine ⟨start, n, hposition, ?_⟩
    rw [hdelivered, offsetsOf_append, hrun, offsetsOf_eq_nil, List.append_nil]
    rintro d hd ⟨-, hid, -⟩
    exact hmore d hd (hid ▸ List.mem_cons_self)
  rejoins afterwards hcall := (h.rejoins afterwards hcall).imp_right fun href => hrefuses _ _ _ href
  refreshes afterwards outcome rest positions hcall := by
    obtain ⟨hmem, hpast⟩ := h.refreshes afterwards outcome rest positions hcall
    refine ⟨houtcomes hmem, fun d hd hid => ?_⟩
    rw [hdelivered] at hd
    rcases List.mem_append.mp hd with hd | hd
    · exact hpast d hd hid
    · refine absurd ?_ (hmore d hd)
      rw [GroupConsumer.ids, hcall, hid]
      exact List.mem_cons_of_mem _ List.mem_cons_self

/-! ## Steps -/

theorem step_cases {a : World.Action} (h : s.step a = some s') :
    s.world.step a = some s'.world ∧
      s'.outcomes = ((s.world.calls a).map s.coordinator.outcome).getD [] ++ s.outcomes ∧
      s'.refused = s.world.refuses a ++ s.refused ∧
      s'.delivered = s.delivered ++ s.world.delivers s'.world a := by
  obtain ⟨w, hw, rfl⟩ := Option.map_eq_some_iff.mp h
  exact ⟨hw, rfl, rfl, rfl⟩

private theorem nextMember_le_call (c : GroupCoordinator) (a : Groups.Action) :
    c.nextMember ≤ (c.call a).nextMember := by
  rw [c.nextMember_call a]
  exact Nat.le_add_right _ _

/-- The coordinator's part of a step: nothing, or a call. -/
theorem coordinated {a : World.Action} (h : s.step a = some s') (ha : a ≠ .restart) :
    (s'.coordinator = s.coordinator ∧ s'.outcomes = s.outcomes) ∨
      ∃ call, s.world.calls a = some call ∧ s'.coordinator = s.coordinator.call call ∧
        s'.outcomes = s.coordinator.outcome call ++ s.outcomes := by
  obtain ⟨hworld, houtcomes, -, -⟩ := step_cases h
  have hcoordinator := (World.stepped_of_step hworld ha).coordinator
  cases hcalls : s.world.calls a with
  | none =>
    rw [hcalls] at hcoordinator houtcomes
    exact .inl ⟨hcoordinator, houtcomes⟩
  | some call =>
    rw [hcalls] at hcoordinator houtcomes
    exact .inr ⟨call, rfl, hcoordinator, houtcomes⟩

theorem Known.step (h : s.Known) {a : World.Action} (hstep : s.step a = some s')
    (ha : a ≠ .restart) : s'.Known := by
  rcases coordinated hstep ha with ⟨hsame, houtcomes⟩ | ⟨call, -, hcall, houtcomes⟩
  · obtain ⟨hmembership, hnamed, hmembers⟩ := h
    rw [← hsame] at hmembers hnamed hmembership
    rw [← houtcomes] at hnamed hmembership
    exact ⟨hmembership, hnamed, hmembers⟩
  · have hle : s.coordinator.nextMember ≤ s'.coordinator.nextMember := by
      rw [hcall]
      exact nextMember_le_call _ _
    have hmembers : ∀ group, ∀ id ∈ (s'.coordinator.group group).members,
        ∃ n < s'.coordinator.nextMember, id = memberName n := by
      intro group id hid
      rw [hcall] at hid
      rcases GroupCoordinator.mem_members_call hid with hold | hnew
      · obtain ⟨n, hn, hname⟩ := h.members group id hold
        exact ⟨n, by omega, hname⟩
      · refine ⟨s.coordinator.nextMember, ?_, GroupCoordinator.registered_eq hnew⟩
        rw [hcall, s.coordinator.nextMember_call, hnew]
        exact Nat.lt_succ_self _
    refine ⟨?_, fun o ho => ?_, hmembers⟩
    · have hmembership : Membership.step ⟨s.coordinator, s.outcomes⟩ call =
          some ⟨s'.coordinator, s'.outcomes⟩ := by
        rw [hcall, houtcomes]
        cases call <;> rfl
      exact Membership.invariant_step h.membership hmembership
    · rw [houtcomes] at ho
      rcases List.mem_append.mp ho with ho | ho
      · cases call with
        | join group memberId sessionTimeout topics counts now =>
          obtain rfl := List.mem_singleton.mp ho
          have hnext : s'.coordinator.nextMember =
              (s.coordinator.enroll (s.coordinator.group group) memberId topics).2.2 := by
            rw [hcall]
            rfl
          rcases s.coordinator.enroll_eq group memberId topics with
            ⟨-, hid, hnumber⟩ | ⟨-, hmem, hid, -⟩
          · exact ⟨s.coordinator.nextMember, by omega, hid⟩
          · obtain ⟨n, hn, hname⟩ := h.members group memberId hmem
            exact ⟨n, by omega, hid.trans hname⟩
        | _ => cases ho
      · obtain ⟨n, hn, hname⟩ := h.named o ho
        exact ⟨n, by omega, hname⟩

theorem refuses_step {a : World.Action} (hstep : s.step a = some s') (ha : a ≠ .restart)
    {group memberId : String} {generation : ℕ}
    (h : s.coordinator.Refuses group memberId generation) :
    s'.coordinator.Refuses group memberId generation := by
  rcases coordinated hstep ha with ⟨hsame, -⟩ | ⟨call, -, hcall, -⟩
  · rwa [hsame]
  · rw [hcall]
    exact h.call call

theorem outcomes_step {a : World.Action} (hstep : s.step a = some s') :
    s.outcomes ⊆ s'.outcomes := by
  rw [(step_cases hstep).2.1]
  exact List.subset_append_right _ _

/-- What is returned to a consumer in a step carries its name. -/
theorem delivers_eq {w w' : World} {i : ℕ} {a : World.Action} {c' : GroupConsumer}
    {out : List (String × ℕ × ℕ)} (h : w.Moves i a (w.consumers i) c' out)
    (hreturned : w'.returned = out ++ w.returned) :
    (out = [] ∧ w.delivers w' a = []) ∨ ∃ c, w.consumers i = some c ∧
      w.delivers w' a = out.map fun r =>
        ⟨c.group, c.memberId, c.generation, r.1, r.2.1, r.2.2⟩ := by
  have htaken : w'.returned.take (w'.returned.length - w.returned.length) = out := by
    rw [hreturned, List.length_append, Nat.add_sub_cancel, List.take_left']
    rfl
  by_cases hout : out = []
  · refine .inl ⟨hout, ?_⟩
    rw [World.delivers.eq_def]
    split
    · rw [htaken, hout]
      cases w.consumers _ <;> rfl
    · rfl
  · right
    generalize hc : w.consumers i = before at h
    cases h with
    | delivered hslot hposition =>
      refine ⟨_, rfl, ?_⟩
      rw [World.delivers, hc, htaken]
      rfl
    | _ => exact absurd rfl hout

theorem Inv.delivered_named (h : s.Inv) {d : Delivery} (hd : d ∈ s.delivered) :
    ∃ n < s.coordinator.nextMember, d.memberId = memberName n := by
  obtain ⟨o, ho, -, hid, -⟩ := h.delivered d hd
  obtain ⟨n, hn, hname⟩ := h.named o ho
  exact ⟨n, hn, hid.symm.trans hname⟩

theorem Inv.generation_le (h : s.Inv) {o : String × JoinOutcome} (ho : o ∈ s.outcomes) :
    o.2.generation ≤ (s.coordinator.group o.1).generation :=
  (h.membership.current o ho).generation_le

private theorem Inv.refused_step (h : s.Inv) {a : World.Action} (hstep : s.step a = some s')
    (ha : a ≠ .restart) :
    ∀ k ∈ s'.refused, s'.coordinator.Refuses k.group k.memberId k.generation := by
  intro k hk
  refine refuses_step hstep ha ?_
  rw [(step_cases hstep).2.2.1] at hk
  rcases List.mem_append.mp hk with hk | hk
  · rw [World.refuses.eq_def] at hk
    split at hk
    · split_ifs at hk with hrefused
      · obtain rfl := List.mem_singleton.mp hk
        obtain ⟨hsent, hcode⟩ := hrefused
        rcases h.sent _ hsent with hempty | ⟨o, ho, hgroup, hid, hgeneration⟩
        · rw [GroupCoordinator.checkCommit, if_pos hempty] at hcode
          exact absurd rfl hcode
        · refine GroupCoordinator.refuses_of_checkCommit hcode (hid ▸ h.named o ho) ?_
          rw [← hgroup, ← hgeneration]
          exact h.generation_le ho
      · cases hk
    · cases hk
  · exact h.refused k hk

private theorem Inv.sent_step (h : s.Inv) {a : World.Action} (hstep : s.step a = some s')
    (ha : a ≠ .restart) : ∀ k ∈ s'.world.sent, k.memberId = "" ∨ ∃ o ∈ s'.outcomes,
      o.1 = k.group ∧ o.2.memberId = k.memberId ∧ o.2.generation = k.generation := by
  intro k hk
  have hsub := outcomes_step hstep
  rcases (World.stepped_of_step (step_cases hstep).1 ha).sent k hk with
    hk | ⟨i, c, hc, hgroup, hid, hgeneration⟩
  · rcases h.sent k hk with hempty | ⟨o, ho, heq⟩
    · exact .inl hempty
    · exact .inr ⟨o, hsub ho, heq⟩
  · rcases (h.consumers i c hc).outcome with ⟨hempty, -⟩ | hmem
    · exact .inl (hid.trans hempty)
    · exact .inr ⟨_, hsub hmem, hgroup.symm, hid.symm, hgeneration.symm⟩

/-! ## What stays known about a consumer -/

private theorem Inv.serves_new (h : s.Inv) (hdelivered : s'.delivered = s.delivered) (group : String)
    (topics : List String) (sessionTimeout now : ℕ) :
    s'.Serves (.new group topics sessionTimeout now) where
  outcome := .inl ⟨rfl, rfl⟩
  past d hd hid := by
    rw [hdelivered] at hd
    obtain ⟨n, -, hname⟩ := h.delivered_named hd
    exact absurd (hname.symm.trans hid) (memberName_ne_empty n)
  run topic partition hslot := absurd hslot List.not_mem_nil
  rejoins _ _ := .inl rfl
  refreshes _ _ _ _ hcall := by cases hcall

theorem ids_of_quiet {c : GroupConsumer} (h : c.call.quiet = true) :
    c.ids = [c.memberId] := by
  rw [GroupConsumer.ids]
  cases hcase : c.call with
  | refresh afterwards outcome rest positions => simp [hcase, Call.quiet] at h
  | _ => rfl

theorem Serves.kept (h : s.Serves c) {c' : GroupConsumer} (hgroup : c'.group = c.group)
    (hmember : c'.memberId = c.memberId) (hgeneration : c'.generation = c.generation)
    (hassignment : c'.assignment = c.assignment) (hpositions : c'.positions = c.positions)
    (hcall : c'.call.quiet = true) : s.Serves c' where
  outcome := by
    rw [hgroup, hmember, hgeneration, hassignment]
    exact h.outcome
  past := by
    rw [hgroup, hmember, hgeneration]
    exact h.past
  run topic partition hslot := by
    rw [GroupConsumer.position, hgroup, hmember, hgeneration, hpositions]
    exact h.run topic partition (hassignment ▸ hslot)
  rejoins afterwards heq := by simp [heq, Call.quiet] at hcall
  refreshes afterwards outcome rest positions heq := by simp [heq, Call.quiet] at hcall

private theorem Serves.rejoining (h : s.Serves c) (hrefused : c.memberId = "" ∨
      s.coordinator.Refuses c.group c.memberId c.generation) (afterwards : Afterwards) :
    s.Serves { c with call := .join afterwards } :=
  ⟨h.outcome, h.past, h.run, fun _ _ => hrefused, fun _ _ _ _ heq => by cases heq⟩

/-- It takes on an outcome that nothing has been returned under yet. -/
theorem Serves.refreshing (h : s.Serves c) {afterwards : Afterwards} {outcome : JoinOutcome}
    (hmem : (c.group, outcome) ∈ s.outcomes)
    (hpast : ∀ d ∈ s.delivered, d.memberId = outcome.memberId →
      d.group = c.group ∧ d.generation < outcome.generation)
    (rest : List (String × ℕ)) (positions : AList fun _ : String × ℕ => ℕ) :
    s.Serves { c with call := .refresh afterwards outcome rest positions } := by
  refine ⟨h.outcome, h.past, h.run, (fun _ heq => by cases heq), fun _ _ _ _ heq => ?_⟩
  cases heq
  exact ⟨hmem, hpast⟩

theorem Serves.adopted (h : s.Serves c) {afterwards : Afterwards} {outcome : JoinOutcome}
    {positions : AList fun _ : String × ℕ => ℕ} (hcall : c.call = .refresh afterwards outcome []
      positions) (lastHeartbeat : ℕ) {call : Call} (hquiet : call.quiet = true) :
    s.Serves { c with
      memberId := outcome.memberId, generation := outcome.generation
      assignment := outcome.assignment, positions, lastHeartbeat, call } := by
  obtain ⟨hmem, hpast⟩ := h.refreshes _ _ _ _ hcall
  refine ⟨.inr hmem, fun d hd hid => ?_, fun topic partition _ => ⟨_, 0, rfl, ?_⟩,
    fun afterwards' heq => ?_, fun afterwards' outcome' rest positions' heq => ?_⟩
  · obtain ⟨hgroup, hlt⟩ := hpast d hd hid
    exact ⟨hgroup, hlt.le⟩
  · rw [offsetsOf_eq_nil]
    · rfl
    · rintro d hd ⟨-, hid, hgeneration, -⟩
      have hlt := (hpast d hd hid).2
      simp only at hgeneration
      omega
  · change call = _ at heq
    simp [heq, Call.quiet] at hquiet
  · change call = _ at heq
    simp [heq, Call.quiet] at hquiet

private theorem Inv.refused_moves (h : s.Inv) {a : World.Action} (ha : s.Steady a) {i : ℕ}
    (hc : s.world.consumers i = some c)
    (hreason : (s.world.broker.coordinator.heartbeat c.group c.memberId c.generation 0).1 ≠ .none ∨
      ∃ code, (code = .staleGeneration ∨ code = .unknownMember) ∧ a = .answer i code) :
    c.memberId = "" ∨ s.coordinator.Refuses c.group c.memberId c.generation := by
  by_cases hempty : c.memberId = ""
  · exact .inl hempty
  right
  have hmem := (h.consumers i c hc).outcome.resolve_left fun hnew => hempty hnew.1
  rcases hreason with hheartbeat | ⟨code, hcode, rfl⟩
  · exact GroupCoordinator.refuses_of_heartbeat hheartbeat (h.named _ hmem) (h.generation_le hmem)
  · obtain ⟨k, hk, hgroup, hid, hgeneration⟩ := ha hcode c hc
    rw [← hgroup, ← hid, ← hgeneration]
    exact h.refused k hk

private theorem Inv.ids_of_moves (h : s.Inv) {a : World.Action} {i : ℕ} {c' : GroupConsumer}
    {out : List (String × ℕ × ℕ)}
    (hmoves : s.world.Moves i a (s.world.consumers i) c' out) :
    ∀ id ∈ c'.ids, id ≠ "" → (∃ c, s.world.consumers i = some c ∧ id ∈ c.ids) ∨
      id = memberName s.coordinator.nextMember := by
  intro id hid hne
  generalize hbefore : s.world.consumers i = before at hmoves ⊢
  cases hmoves with
  | started => exact absurd (List.mem_singleton.mp hid) hne
  | @kept _ c c' hgroup hmember hgeneration hassignment hpositions hcall =>
    rw [ids_of_quiet hcall, hmember] at hid
    exact .inl ⟨c, rfl, List.mem_singleton.mp hid ▸ List.mem_cons_self⟩
  | refused => exact .inl ⟨_, rfl, List.mem_singleton.mp hid ▸ List.mem_cons_self⟩
  | @joined c afterwards now more outcome hcall houtcome =>
    have hjoin := GroupCoordinator.join_refused ((h.consumers i c hbefore).rejoins afterwards hcall)
      c.sessionTimeout c.topics s.world.counts now
    change outcome = (s.coordinator.join _ _ _ _ _ _).1 at houtcome
    rw [← houtcome] at hjoin
    rcases List.mem_cons.mp hid with rfl | hid
    · exact .inl ⟨c, rfl, List.mem_cons_self⟩
    · obtain rfl := List.mem_singleton.mp hid
      rcases hjoin with hfresh | ⟨hsame, -, -⟩
      · exact .inr hfresh
      · exact .inl ⟨c, rfl, hsame ▸ List.mem_cons_self⟩
  | @refreshed _ c afterwards outcome slot rest positions positions' hcall =>
    refine .inl ⟨c, rfl, ?_⟩
    rw [GroupConsumer.ids, hcall]
    exact hid
  | @adopted _ c afterwards outcome positions lastHeartbeat call hcall hquiet =>
    rw [ids_of_quiet hquiet] at hid
    refine .inl ⟨c, rfl, ?_⟩
    rw [GroupConsumer.ids, hcall, List.mem_singleton.mp hid]
    exact List.mem_cons_of_mem _ List.mem_cons_self
  | delivered => exact .inl ⟨_, rfl, List.mem_singleton.mp hid ▸ List.mem_cons_self⟩

/-- A consumer that is moved without being returned anything. -/
theorem Inv.moved (h : s.Inv) {a : World.Action} (hstep : s.step a = some s') (ha : s.Steady a)
    {i : ℕ} {c' : GroupConsumer} {out : List (String × ℕ × ℕ)}
    (hmoves : s.world.Moves i a (s.world.consumers i) c' out) (hout : out = [])
    (hdelivered : s'.delivered = s.delivered) : s'.Serves c' := by
  have hrestart : a ≠ .restart := by
    rintro rfl
    exact ha
  have hlater {c : GroupConsumer} (hc : s.world.consumers i = some c) : s'.Serves c :=
    (h.consumers i c hc).later (outcomes_step hstep)
      (fun _ _ _ => refuses_step hstep hrestart) [] (by rw [hdelivered, List.append_nil])
      fun _ hd => absurd hd List.not_mem_nil
  generalize hbefore : s.world.consumers i = before at hmoves
  cases hmoves with
  | started => exact h.serves_new hdelivered _ _ _ _
  | kept hgroup hmember hgeneration hassignment hpositions hcall =>
    exact (hlater hbefore).kept hgroup hmember hgeneration hassignment hpositions hcall
  | refused hreason =>
    exact (hlater hbefore).rejoining ((h.refused_moves ha hbefore hreason).imp_right
      fun hrefused => refuses_step hstep hrestart hrefused) _
  | @joined c afterwards now more outcome hcall houtcome =>
    have hold := h.consumers i c hbefore
    have hjoin := GroupCoordinator.join_refused (hold.rejoins afterwards hcall) c.sessionTimeout
      c.topics s.world.counts now
    change outcome = (s.coordinator.join _ _ _ _ _ _).1 at houtcome
    rw [← houtcome] at hjoin
    refine (hlater hbefore).refreshing ?_ (fun d hd hid => ?_) _ _
    · have hcalls : s.world.calls (.next i now more) =
          some (.join c.group c.memberId c.sessionTimeout c.topics s.world.counts now) := by
        rw [World.calls, hbefore, Option.bind_some, hcall]
      rw [(step_cases hstep).2.1, hcalls, houtcome]
      exact List.mem_cons_self
    · rw [hdelivered] at hd
      rcases hjoin with hfresh | ⟨hsame, -, hlt⟩
      · obtain ⟨n, hn, hname⟩ := h.delivered_named hd
        have heq := memberName_injective (hname.symm.trans (hid.trans hfresh))
        omega
      · obtain ⟨hgroup, hle⟩ := hold.past d hd (hid.trans hsame)
        exact ⟨hgroup, hle.trans_lt hlt⟩
  | refreshed hcall =>
    obtain ⟨hmem, hpast⟩ := (hlater hbefore).refreshes _ _ _ _ hcall
    exact (hlater hbefore).refreshing hmem hpast _ _
  | adopted hcall hquiet => exact (hlater hbefore).adopted hcall _ hquiet
  | @delivered c topic partition position n roundRobin now more hslot hn hposition =>
    rw [List.map_eq_nil_iff] at hout
    have hlength := congrArg List.length hout
    rw [List.length_range', List.length_nil] at hlength
    omega

/-- A consumer that is returned a run of offsets. -/
theorem Inv.returned (h : s.Inv) {a : World.Action} (hstep : s.step a = some s') {i : ℕ}
    {c : GroupConsumer} (hc : s.world.consumers i = some c)
    {topic : String} {partition n roundRobin : ℕ} (hslot : (topic, partition) ∈ c.assignment)
    (hdelivered : s'.delivered = s.delivered ++
      (List.range' (c.position topic partition) n).map fun o =>
        ⟨c.group, c.memberId, c.generation, topic, partition, o⟩) :
    s'.Serves { c with
      roundRobin
      positions := c.positions.insert (topic, partition) (c.position topic partition + n)
      call := .idle } := by
  have hold := h.consumers i c hc
  have hmem : (c.group, ⟨c.memberId, c.generation, c.assignment⟩) ∈ s'.outcomes := by
    rcases hold.outcome with ⟨-, hnil⟩ | hmem
    · rw [hnil] at hslot
      cases hslot
    · exact outcomes_step hstep hmem
  refine ⟨.inr hmem, fun d hd hid => ?_, fun topic' partition' hslot' => ?_,
    (fun _ heq => by cases heq), fun _ _ _ _ heq => by cases heq⟩
  · rw [hdelivered] at hd
    rcases List.mem_append.mp hd with hd | hd
    · exact hold.past d hd hid
    · obtain ⟨o, -, rfl⟩ := List.mem_map.mp hd
      exact ⟨rfl, le_rfl⟩
  · obtain ⟨start, m, hposition, hrun⟩ := hold.run topic' partition' hslot'
    rw [hdelivered, offsetsOf_append, hrun]
    by_cases hsame : (topic', partition') = (topic, partition)
    · cases hsame
      refine ⟨start, m + n, ?_, ?_⟩
      · rw [GroupConsumer.position, AList.lookup_insert, Option.getD_some, hposition,
          Nat.add_assoc]
      · rw [offsetsOf_run, hposition, ← List.range'_append_1]
    · refine ⟨start, m, ?_, ?_⟩
      · rw [GroupConsumer.position, AList.lookup_insert_ne hsame]
        exact hposition
      · rw [offsetsOf_eq_nil, List.append_nil]
        rintro d hd ⟨-, -, -, rfl, rfl⟩
        obtain ⟨o, -, rfl⟩ := List.mem_map.mp hd
        exact hsame rfl

theorem Inv.distinct_update (h : s.Inv) {i : ℕ} {c' : GroupConsumer}
    (hconsumers : s'.world.consumers = Function.update s.world.consumers i (some c'))
    (hids : ∀ id ∈ c'.ids, id ≠ "" → (∃ c, s.world.consumers i = some c ∧ id ∈ c.ids) ∨
      id = memberName s.coordinator.nextMember) :
    ∀ j k d d', s'.world.consumers j = some d → s'.world.consumers k = some d' → j ≠ k →
      ∀ id ∈ d.ids, id ≠ "" → id ∉ d'.ids := by
  have hother {j : ℕ} {d : GroupConsumer} (hji : j ≠ i) (hd : s.world.consumers j = some d)
      {id : String} (hid : id ∈ c'.ids) (hne : id ≠ "") : id ∉ d.ids := by
    intro hmem
    rcases hids id hid hne with ⟨c, hc, hold⟩ | hfresh
    · exact h.distinct i j c d hc hd (Ne.symm hji) id hold hne hmem
    · obtain ⟨n, hn, hname⟩ := (h.consumers j d hd).named h.named hmem hne
      have heq := memberName_injective (hname.symm.trans hfresh)
      omega
  intro j k d d' hd hd' hjk id hid hne hid'
  rw [hconsumers, Function.update_apply] at hd hd'
  split at hd
  · rename_i hji
    rw [if_neg (hji ▸ Ne.symm hjk)] at hd'
    cases hd
    exact hother (hji ▸ Ne.symm hjk) hd' hid hne hid'
  · rename_i hji
    split at hd'
    · cases hd'
      exact hother hji hd hid' hne hid
    · exact h.distinct j k d d' hd hd' hjk id hid hne hid'

theorem Inv.delivered_step (h : s.Inv) {a : World.Action} (hstep : s.step a = some s')
    (hdelivered : s'.delivered = s.delivered) :
    (∀ d ∈ s'.delivered, ∃ o ∈ s'.outcomes, o.1 = d.group ∧ o.2.memberId = d.memberId ∧
      o.2.generation = d.generation ∧ (d.topic, d.partition) ∈ o.2.assignment) ∧
    ∀ group memberId generation topic partition, ∃ start n,
      offsetsOf s'.delivered group memberId generation topic partition = List.range' start n := by
  rw [hdelivered]
  refine ⟨fun d hd => ?_, h.runs⟩
  obtain ⟨o, ho, heq⟩ := h.delivered d hd
  exact ⟨o, outcomes_step hstep ho, heq⟩

theorem Inv.step (h : s.Inv) {a : World.Action} (hstep : s.step a = some s') (ha : s.Steady a) :
    s'.Inv := by
  have hrestart : a ≠ .restart := by
    rintro rfl
    exact ha
  have hknown := h.toKnown.step hstep hrestart
  have hrefused := h.refused_step hstep hrestart
  have hsent := h.sent_step hstep hrestart
  obtain ⟨hworld, -, -, hdelivered⟩ := step_cases hstep
  have hlater (more : List Delivery) (hmore : s'.delivered = s.delivered ++ more) {j : ℕ}
      {d : GroupConsumer} (hd : s.world.consumers j = some d)
      (hids : ∀ e ∈ more, e.memberId ∉ d.ids) :
      s'.Serves d :=
    (h.consumers j d hd).later (outcomes_step hstep) (fun _ _ _ => refuses_step hstep hrestart)
      more hmore hids
  rcases (World.stepped_of_step hworld hrestart).moved with
    ⟨hconsumers, hreturned⟩ | ⟨i, c', out, hmoves, hconsumers, hreturned⟩
  · have hnone : s.world.delivers s'.world a = [] := by
      rw [World.delivers.eq_def]
      split
      · rw [hreturned, Nat.sub_self, List.take_zero]
        cases s.world.consumers _ <;> rfl
      · rfl
    rw [hnone, List.append_nil] at hdelivered
    obtain ⟨hdel, hruns⟩ := h.delivered_step hstep hdelivered
    refine ⟨hknown, fun j d hd => ?_, ?_, hrefused, hsent, hdel, hruns⟩
    · rw [hconsumers] at hd
      exact hlater [] (by rw [hdelivered, List.append_nil]) hd
        fun _ he => absurd he List.not_mem_nil
    · rw [hconsumers]
      exact h.distinct
  · have hof {more : List Delivery} (hmore : s'.delivered = s.delivered ++ more)
        (hserves : s'.Serves c') (hids : ∀ j d, j ≠ i → s.world.consumers j = some d →
          ∀ e ∈ more, e.memberId ∉ d.ids) :
        ∀ j d, s'.world.consumers j = some d → s'.Serves d := by
      intro j d hd
      rw [hconsumers, Function.update_apply] at hd
      split at hd
      · cases hd
        exact hserves
      · rename_i hji
        exact hlater more hmore hd (hids j d hji hd)
    have hids := h.ids_of_moves hmoves
    by_cases hout : out = []
    · have hnone : s.world.delivers s'.world a = [] := by
        rcases delivers_eq hmoves hreturned with ⟨-, hnil⟩ | ⟨c, -, heq⟩
        · exact hnil
        · rw [heq, hout, List.map_nil]
      rw [hnone, List.append_nil] at hdelivered
      have hserves := h.moved hstep ha hmoves hout hdelivered
      obtain ⟨hdel, hruns⟩ := h.delivered_step hstep hdelivered
      exact ⟨hknown, hof (by rw [hdelivered, List.append_nil]) hserves
        fun _ _ _ _ _ he => absurd he List.not_mem_nil, h.distinct_update hconsumers hids, hrefused,
        hsent, hdel, hruns⟩
    · rcases delivers_eq hmoves hreturned with ⟨hnil, -⟩ | ⟨c, hc, heq⟩
      · exact absurd hnil hout
      rw [heq] at hdelivered
      rw [hc] at hmoves
      cases hmoves with
      | @delivered _ topic partition position n roundRobin now more hslot hn hposition =>
        obtain rfl : position = c.position topic partition := hposition
        rw [List.map_map] at hdelivered
        have hold := h.consumers i c hc
        have hmem : (c.group, ⟨c.memberId, c.generation, c.assignment⟩) ∈ s.outcomes := by
          rcases hold.outcome with ⟨-, hnil⟩ | hmem
          · rw [hnil] at hslot
            cases hslot
          · exact hmem
        have hnamed : c.memberId ≠ "" := by
          obtain ⟨m, -, hname⟩ := h.named _ hmem
          intro hempty
          exact memberName_ne_empty m (hname.symm.trans hempty)
        refine ⟨hknown, hof hdelivered (h.returned hstep hc hslot hdelivered) ?_,
          h.distinct_update hconsumers hids, hrefused, hsent, ?_, ?_⟩
        · intro j d hji hd e he hmember
          obtain ⟨o, -, rfl⟩ := List.mem_map.mp he
          exact h.distinct i j c d hc hd (Ne.symm hji) c.memberId List.mem_cons_self hnamed hmember
        · intro d hd
          rw [hdelivered] at hd
          rcases List.mem_append.mp hd with hd | hd
          · obtain ⟨o, ho, heq⟩ := h.delivered d hd
            exact ⟨o, outcomes_step hstep ho, heq⟩
          · obtain ⟨o, -, rfl⟩ := List.mem_map.mp hd
            exact ⟨_, outcomes_step hstep hmem, rfl, rfl, rfl, hslot⟩
        · intro group memberId generation topic' partition'
          rw [hdelivered, offsetsOf_append]
          by_cases hkey : c.group = group ∧ c.memberId = memberId ∧ c.generation = generation ∧
              topic = topic' ∧ partition = partition'
          · obtain ⟨rfl, rfl, rfl, rfl, rfl⟩ := hkey
            obtain ⟨start, m, hposition, hrun⟩ := hold.run topic partition hslot
            refine ⟨start, m + n, ?_⟩
            rw [hrun, ← List.range'_append_1, ← hposition]
            exact congrArg _ (offsetsOf_run _ _ _ _ _ _)
          · obtain ⟨start, m, hrun⟩ := h.runs group memberId generation topic' partition'
            refine ⟨start, m, ?_⟩
            rw [hrun, offsetsOf_eq_nil, List.append_nil]
            intro d hd
            obtain ⟨o, -, rfl⟩ := List.mem_map.mp hd
            exact hkey
      | _ => exact absurd rfl hout

theorem inv_init : init.Inv where
  membership := Membership.invariant_init
  named := nofun
  members _ id hid := absurd hid (AList.notMem_empty id)
  consumers := nofun
  distinct := nofun
  refused := nofun
  sent := nofun
  delivered := nofun
  runs _ _ _ _ _ := ⟨0, 0, rfl⟩

private theorem Inv.one_member (h : s.Inv) {d d' : Delivery} (hd : d ∈ s.delivered)
    (hd' : d' ∈ s.delivered) (hgroup : d.group = d'.group)
    (hgeneration : d.generation = d'.generation) (htopic : d.topic = d'.topic)
    (hpartition : d.partition = d'.partition) : d.memberId = d'.memberId := by
  obtain ⟨o, ho, hog, hom, hogen, hslot⟩ := h.delivered d hd
  obtain ⟨o', ho', hog', hom', hogen', hslot'⟩ := h.delivered d' hd'
  by_contra hne
  rw [← hom, ← hom'] at hne
  rw [← htopic, ← hpartition] at hslot'
  exact (h.membership.compatible o ho o' ho' (by rw [hog, hog', hgroup])
    (by rw [hogen, hogen', hgeneration])).2 hne hslot hslot'

/-- While the broker does not restart, a generation of a group returns each partition to one
member, as one run of offsets: none is returned twice, and none in between is left out. -/
theorem deliveries_once (hreach : Reach step Steady init s) (group : String) (generation : ℕ)
    (topic : String) (partition : ℕ) : ∃ memberId start n,
      s.delivered.filter (fun d => d.group = group ∧ d.generation = generation ∧
          d.topic = topic ∧ d.partition = partition) =
        (List.range' start n).map fun o =>
          ⟨group, memberId, generation, topic, partition, o⟩ := by
  have h : s.Inv := hreach.invariant inv_init fun _ _ _ hs ha hstep => hs.step hstep ha
  let kept (d : Delivery) : Prop := d.group = group ∧ d.generation = generation ∧
    d.topic = topic ∧ d.partition = partition
  by_cases hnone : s.delivered.filter (fun d => kept d) = []
  · exact ⟨"", 0, 0, hnone⟩
  obtain ⟨d, hd⟩ := List.exists_mem_of_ne_nil _ hnone
  obtain ⟨hmem, hkept⟩ := List.mem_filter.mp hd
  obtain ⟨hgroup, hgeneration, htopic, hpartition⟩ := of_decide_eq_true hkept
  obtain ⟨start, n, hrun⟩ := h.runs group d.memberId generation topic partition
  refine ⟨d.memberId, start, n, ?_⟩
  have hsame : s.delivered.filter (fun e => kept e) = s.delivered.filter fun e =>
      e.group = group ∧ e.memberId = d.memberId ∧ e.generation = generation ∧ e.topic = topic ∧
        e.partition = partition := by
    refine List.filter_congr fun e he => decide_eq_decide.mpr ⟨fun hkept => ?_, fun hkept => ?_⟩
    · obtain ⟨hg, hgen, ht, hp⟩ := hkept
      exact ⟨hg, h.one_member he hmem (hg.trans hgroup.symm) (hgen.trans hgeneration.symm)
        (ht.trans htopic.symm) (hp.trans hpartition.symm), hgen, ht, hp⟩
    · obtain ⟨hg, -, hgen, ht, hp⟩ := hkept
      exact ⟨hg, hgen, ht, hp⟩
  rw [← hrun, offsetsOf, List.map_map]
  refine hsame.trans ((List.map_congr_left fun e he => ?_).trans (List.map_id _)).symm
  obtain ⟨hg, hm, hgen, ht, hp⟩ := of_decide_eq_true (List.mem_filter.mp he).2
  rw [Function.comp_apply, ← hg, ← hm, ← hgen, ← ht, ← hp]
  rfl

/-- A partition that the first consumer polls from in generation 1 and the second one in generation
2. -/
theorem deliveries_once_rebalanced : ∃ s : Deliveries,
    (s.delivered.filter fun d => d.topic = "t" ∧ d.partition = 1).map
      (fun d => (d.memberId, d.generation)) = [("m-1", 1), ("m-2", 2)] ∧
    ∀ generation, ∃ memberId start n, s.delivered.filter (fun d => d.group = "g" ∧
        d.generation = generation ∧ d.topic = "t" ∧ d.partition = 1) =
      (List.range' start n).map fun o => ⟨"g", memberId, generation, "t", 1, o⟩ := by
  obtain ⟨s, hreach, hdelivered⟩ := Reach.exists_of_runSteps step Steady init World.twoConsumers
    (fun s => (s.delivered.filter fun d => d.topic = "t" ∧ d.partition = 1).map
      (fun d => (d.memberId, d.generation)) = [("m-1", 1), ("m-2", 2)])
    (by decide +kernel)
  exact ⟨s, hdelivered, fun generation => deliveries_once hreach "g" generation "t" 1⟩

end Deliveries

end Replog.Groups
