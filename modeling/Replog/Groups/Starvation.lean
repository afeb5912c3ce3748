import Replog.Groups.Deliveries
import Replog.Library.Turns

/-!
# No partition starves

A consumer that stays in its generation fetches its partitions in turn. However much is produced
meanwhile, after `k` polls for each partition of its assignment every partition has returned `k` of
the records it had, or all of them.
-/

namespace Replog.Groups
open Replog.Library
open Replog.Proto (ErrorCode)

def Call.fetching : Call → Bool
  | .fetch _ => true
  | _ => false

def Call.isIdle : Call → Bool
  | .idle => true
  | _ => false

def Call.isHeartbeat : Call → Bool
  | .heartbeat => true
  | _ => false

private theorem Call.eq_idle {call : Call} (h : call.isIdle = true) : call = .idle := by
  cases call with
  | idle => rfl
  | _ => cases h

/-- The consumer that an action is about. -/
def World.Action.consumer? : World.Action → Option ℕ
  | .start i _ _ _ _ => some i
  | .poll i _ => some i
  | .commit i _ => some i
  | .next i _ _ => some i
  | .answer i _ => some i
  | .fail i => some i
  | _ => none

/-- The step takes the consumer to the end of a poll. -/
def World.endsPoll (i : ℕ) (w w' : World) : Bool :=
  (w.consumers i).any (fun c => c.call.fetching) && (w'.consumers i).any (fun c => c.call.isIdle)

/-- A run with the number of polls that the consumer `i` has been through. -/
structure Polls where
  run : Deliveries
  polls : ℕ

namespace Polls

def step (i : ℕ) (s : Polls) (a : World.Action) : Option Polls :=
  (s.run.step a).map fun run =>
    { run, polls := s.polls + if s.run.world.endsPoll i run.world then 1 else 0 }

end Polls

namespace World

/-- The consumer goes on: no heartbeat and no commit of it is refused, and no call of it fails. -/
def GoesOn (i : ℕ) (w : World) : Action → Prop
  | .start j _ _ _ _ => j ≠ i
  | .fail j => j ≠ i
  | .answer j code => j = i → code ≠ .staleGeneration ∧ code ≠ .unknownMember
  | .next j now _ => j = i → ∀ c ∈ w.consumers i, c.call.isHeartbeat = true →
    (w.broker.coordinator.heartbeat c.group c.memberId c.generation now).1 = .none
  | _ => True

instance (i : ℕ) (w : World) (a : Action) : Decidable (w.GoesOn i a) :=
  match a with
  | .start j _ _ _ _ => inferInstanceAs (Decidable (j ≠ i))
  | .fail j => inferInstanceAs (Decidable (j ≠ i))
  | .answer j _ => inferInstanceAs (Decidable (j = i → _ ≠ _ ∧ _ ≠ _))
  | .next j _ _ => inferInstanceAs (Decidable (j = i → ∀ c ∈ w.consumers i, _ = _ → _ = _))
  | .createTopic _ _ | .produce _ _ | .coordinate _ | .deliver _ | .append _ _ | .finish _ _
  | .restart | .poll _ _ | .commit _ _ => isTrue trivial

end World

/-! ## What a step does to the logs and to the other consumers -/

namespace World

variable {w w' : World} {a : Action} {i : ℕ}

@[simp] theorem consumers_setConsumer_self (w : World) (i : ℕ) (c : GroupConsumer) :
    (w.setConsumer i c).consumers i = some c :=
  Function.update_self ..

theorem consumers_setConsumer_of_ne (w : World) {i j : ℕ} (c : GroupConsumer)
    (hij : some j ≠ some i) : (w.setConsumer j c).consumers i = w.consumers i :=
  Function.update_of_ne (fun heq => hij (congrArg some heq.symm)) _ _

/-- A consumer's step changes that consumer and leaves the logs alone. -/
theorem next_eq {j now more : ℕ} {c : GroupConsumer} (h : w.next j c now more = some w') :
    w'.topics = w.topics ∧ ∃ c', w'.consumers = Function.update w.consumers j (some c') := by
  rw [World.next] at h
  dsimp only at h
  split at h
  all_goals repeat' split at h
  all_goals cases h
  all_goals exact ⟨rfl, _, rfl⟩

inductive Grows (topics : Assoc String (List ℕ)) : Assoc String (List ℕ) → Prop where
  | same : Grows topics topics
  | created {topic : String} {lens : List ℕ} (hnew : topic ∉ topics) :
    Grows topics (topics.insert topic lens)
  | produced {topic : String} {partition : ℕ} {lens : List ℕ}
      (hlens : topics.lookup topic = some lens) :
    Grows topics (topics.insert topic (lens.modify partition (· + 1)))

/-- A step is about one consumer at most, and the logs grow. -/
theorem step_frame (h : w.step a = some w') : Grows w.topics w'.topics ∧
    ∀ i, a.consumer? ≠ some i → w'.consumers i = w.consumers i := by
  cases a with
  | createTopic topic partitions =>
    simp only [step] at h
    split at h
    · cases h
    · rename_i hnew
      cases h
      exact ⟨.created hnew, fun _ _ => rfl⟩
  | produce topic partition =>
    simp only [step] at h
    split at h
    · cases h
    · rename_i lens hlens
      cases h
      exact ⟨.produced hlens, fun _ _ => rfl⟩
  | coordinate a =>
    cases h
    exact ⟨.same, fun _ _ => rfl⟩
  | deliver c =>
    cases h
    exact ⟨.same, fun _ _ => rfl⟩
  | append k ok =>
    obtain ⟨broker, -, rfl⟩ := Option.map_eq_some_iff.mp h
    exact ⟨.same, fun _ _ => rfl⟩
  | finish k ok =>
    obtain ⟨broker, -, rfl⟩ := Option.map_eq_some_iff.mp h
    exact ⟨.same, fun _ _ => rfl⟩
  | restart =>
    cases h
    exact ⟨.same, fun _ _ => rfl⟩
  | start j group topics sessionTimeout now =>
    cases h
    exact ⟨.same, fun i => consumers_setConsumer_of_ne w _⟩
  | poll j now =>
    simp only [step] at h
    split at h
    · split at h <;> cases h
      exact ⟨.same, fun i => consumers_setConsumer_of_ne w _⟩
    · cases h
  | commit j order =>
    simp only [step] at h
    split at h
    · split at h
      · split at h <;> cases h
        exact ⟨.same, fun i => consumers_setConsumer_of_ne w _⟩
      · cases h
    · cases h
  | next j now more =>
    simp only [step] at h
    split at h
    · obtain ⟨htopics, c', hconsumers⟩ := next_eq h
      rw [htopics, hconsumers]
      exact ⟨.same, fun i => consumers_setConsumer_of_ne w c'⟩
    · cases h
  | answer j code =>
    simp only [step] at h
    split at h
    · split at h <;> cases h
      exact ⟨.same, fun i => consumers_setConsumer_of_ne w _⟩
    · cases h
  | fail j =>
    simp only [step] at h
    split at h <;> cases h
    exact ⟨.same, fun i => consumers_setConsumer_of_ne w _⟩

theorem nextOffset_step (h : w.step a = some w') {topic : String} {partition logEnd : ℕ}
    (hend : w.nextOffset topic partition = some logEnd) :
    ∃ logEnd', w'.nextOffset topic partition = some logEnd' ∧ logEnd ≤ logEnd' := by
  obtain ⟨lens, hlens, hlen⟩ := Option.bind_eq_some_iff.mp hend
  have hgrows := (step_frame h).1
  rw [nextOffset]
  generalize w'.topics = topics at hgrows
  cases hgrows with
  | same => exact ⟨logEnd, hend, le_rfl⟩
  | @created topic' _ hnew =>
    have hne : topic ≠ topic' := by
      intro heq
      rw [heq, AList.lookup_eq_none.mpr hnew] at hlens
      cases hlens
    rw [AList.lookup_insert_ne hne]
    exact ⟨logEnd, hend, le_rfl⟩
  | @produced topic' partition' _ hlens' =>
    by_cases heq : topic = topic'
    · subst heq
      cases hlens.symm.trans hlens'
      rw [AList.lookup_insert, Option.bind_some, List.getElem?_modify, hlen]
      refine ⟨if partition' = partition then logEnd + 1 else logEnd, ?_, ?_⟩
      · split <;> rfl
      · split <;> omega
    · rw [AList.lookup_insert_ne heq]
      exact ⟨logEnd, hend, le_rfl⟩

/-! ## What a step does to the consumer -/

/-- A step of a consumer that does not rejoin, with what it is returned. -/
inductive Turn (w : World) (c : GroupConsumer) : GroupConsumer → List (String × ℕ × ℕ) → Prop where
  | waits {lastHeartbeat : ℕ} {call : Call} (hcall : c.call.fetching = false)
      (hquiet : call.quiet = true) (htries : ∀ tries, call = .fetch tries →
        tries = c.assignment.length) : Turn w c { c with lastHeartbeat, call } []
  /-- All partitions were at their ends. -/
  | ended (hcall : c.call = .fetch 0) : Turn w c { c with call := .idle } []
  /-- The partition is not there, or the consumer is past its end. -/
  | missed {tries : ℕ} {topic : String} {partition : ℕ} (hcall : c.call = .fetch (tries + 1))
      (hslot : c.assignment[c.roundRobin % c.assignment.length]? = some (topic, partition))
      (hnone : ∀ logEnd, w.nextOffset topic partition = some logEnd →
        logEnd < c.position topic partition) :
    Turn w c { c with roundRobin := c.roundRobin + 1, call := .idle } []
  | empty {tries : ℕ} {topic : String} {partition : ℕ} (hcall : c.call = .fetch (tries + 1))
      (hslot : c.assignment[c.roundRobin % c.assignment.length]? = some (topic, partition))
      (hend : w.nextOffset topic partition = some (c.position topic partition)) :
    Turn w c { c with roundRobin := c.roundRobin + 1, call := .fetch tries } []
  | read {tries n logEnd : ℕ} {topic : String} {partition : ℕ}
      (hcall : c.call = .fetch (tries + 1))
      (hslot : c.assignment[c.roundRobin % c.assignment.length]? = some (topic, partition))
      (hend : w.nextOffset topic partition = some logEnd) (hn : 0 < n)
      (hle : c.position topic partition + n ≤ logEnd) :
    Turn w c
      { c with roundRobin := c.roundRobin + 1, call := .idle
               positions := c.positions.insert (topic, partition)
                 (c.position topic partition + n) }
      ((List.range' (c.position topic partition) n).map fun o => (topic, partition, o))

private theorem fetchOffsets_le {logEnd position more : ℕ} {offsets : List ℕ}
    (h : fetchOffsets logEnd position more = .ok offsets) : position + offsets.length ≤ logEnd := by
  rw [fetchOffsets] at h
  split at h
  · cases h
  · cases h
    rw [List.length_take, List.length_range']
    omega

private theorem fetchOffsets_end {logEnd position more : ℕ} {offsets : List ℕ}
    (h : fetchOffsets logEnd position more = .ok offsets) (hempty : offsets = []) :
    logEnd = position := by
  rw [fetchOffsets] at h
  split at h
  · cases h
  · cases h
    have hlength := congrArg List.length hempty
    rw [List.length_take, List.length_range', List.length_nil] at hlength
    omega

private theorem turn_next {now more : ℕ} {c : GroupConsumer} (hquiet : c.call.quiet = true)
    (hbeat : c.call.isHeartbeat = true →
      (w.broker.coordinator.heartbeat c.group c.memberId c.generation now).1 = .none)
    (h : w.next i c now more = some w') : ∃ c' out, w.Turn c c' out ∧
      w'.consumers i = some c' ∧ w'.returned = out ++ w.returned := by
  rw [World.next] at h
  split at h
  · cases h
  · rename_i hcall
    dsimp only at h
    rw [hbeat (by rw [hcall]; rfl)] at h
    cases h
    refine ⟨_, [], .waits (by rw [hcall]; rfl) rfl fun tries htries => ?_,
      consumers_setConsumer_self .., rfl⟩
    cases htries
    rfl
  · rename_i afterwards hcall
    rw [hcall] at hquiet
    cases hquiet
  · rename_i hcall
    rw [hcall] at hquiet
    cases hquiet
  · rename_i hcall
    rw [hcall] at hquiet
    cases hquiet
  · rename_i hcall
    cases h
    exact ⟨_, [], .ended hcall, consumers_setConsumer_self .., rfl⟩
  · rename_i tries hcall
    split at h
    · cases h
    · rename_i topic partition hslot
      dsimp only at h
      split at h
      · rename_i hnone
        cases h
        refine ⟨_, [], .missed hcall hslot fun logEnd hend => ?_,
          consumers_setConsumer_self .., rfl⟩
        cases hnone.symm.trans hend
      · rename_i logEnd hend
        split at h
        · rename_i code herror
          cases h
          refine ⟨_, [], .missed hcall hslot fun logEnd' hend' => ?_,
            consumers_setConsumer_self .., rfl⟩
          cases hend.symm.trans hend'
          rw [fetchOffsets] at herror
          split at herror
          · assumption
          · cases herror
        · rename_i offsets hfetch
          split at h
          · rename_i hempty
            cases h
            refine ⟨_, [], .empty hcall hslot ?_, consumers_setConsumer_self .., rfl⟩
            rw [hend, fetchOffsets_end hfetch (List.getLast?_eq_none_iff.mp hempty)]
            rfl
          · rename_i last hlast
            cases h
            have hle := fetchOffsets_le hfetch
            obtain ⟨n, hn, rfl, hnext⟩ := fetchOffsets_eq hfetch hlast
            rw [List.length_range'] at hle
            refine ⟨_, _, .read hcall hslot hend hn hle, ?_, rfl⟩
            rw [hnext]
            exact consumers_setConsumer_self ..
  · rename_i hcall
    cases h
    refine ⟨_, [], .waits (by rw [hcall]; rfl) rfl fun tries htries => ?_,
      consumers_setConsumer_self .., rfl⟩
    cases htries
  · rename_i topic partition position rest hcall
    cases h
    refine ⟨_, [], .waits (by rw [hcall]; rfl) rfl fun tries htries => ?_,
      consumers_setConsumer_self .., rfl⟩
    cases htries
  · cases h

private theorem turn_of_step {c : GroupConsumer} (h : w.step a = some w') (ha : a.consumer? = some i)
    (hc : w.consumers i = some c) (hquiet : c.call.quiet = true)
    (hgoes : w.GoesOn i a) : ∃ c' out, w.Turn c c' out ∧ w'.consumers i = some c' ∧
      w.delivers w' a =
        out.map fun r => ⟨c.group, c.memberId, c.generation, r.1, r.2.1, r.2.2⟩ := by
  cases a with
  | start j group topics sessionTimeout now => exact absurd (Option.some.inj ha) hgoes
  | fail j => exact absurd (Option.some.inj ha) hgoes
  | poll j now =>
    cases ha
    simp only [step, hc] at h
    split at h
    · rename_i hcall
      cases h
      refine ⟨_, [], .waits (by rw [hcall]; rfl) ?_ fun tries htries => ?_,
        consumers_setConsumer_self .., rfl⟩
      · split <;> rfl
      · split at htries
        · cases htries
        · cases htries
          rfl
    · cases h
  | commit j order =>
    cases ha
    simp only [step, hc] at h
    split at h
    · rename_i hcall
      split at h
      · cases h
        refine ⟨_, [], .waits (by rw [hcall]; rfl) rfl fun tries htries => ?_,
          consumers_setConsumer_self .., rfl⟩
        cases htries
      · cases h
    · cases h
  | next j now more =>
    cases ha
    simp only [step, hc] at h
    obtain ⟨c', out, hturn, hc', hreturned⟩ := turn_next hquiet (hgoes rfl c hc) h
    refine ⟨c', out, hturn, hc', ?_⟩
    rw [delivers, hc, hreturned, List.length_append, Nat.add_sub_cancel, List.take_left' rfl]
    rfl
  | answer j code =>
    cases ha
    simp only [step, hc] at h
    split at h
    · rename_i rest hcall
      cases h
      obtain ⟨hstale, hunknown⟩ := hgoes rfl
      refine ⟨_, [], .waits (by rw [hcall]; rfl) ?_ fun tries htries => ?_,
        consumers_setConsumer_self .., rfl⟩
      · cases code <;> first | rfl | exact absurd rfl hstale | exact absurd rfl hunknown
      · cases code <;> cases htries
    · cases h
  | _ => cases ha

end World

/-! ## Over a run -/

namespace Polls

/-- How far the consumer has come since it was `c₀`. The slot of the partition in the assignment is
`j`, and its log had `last` records then. -/
structure Served (i : ℕ) (c₀ : GroupConsumer) (topic : String) (partition j last : ℕ) (s : Polls)
    (c : GroupConsumer) : Prop where
  consumer : s.run.world.consumers i = some c
  group : c.group = c₀.group
  memberId : c.memberId = c₀.memberId
  generation : c.generation = c₀.generation
  assignment : c.assignment = c₀.assignment
  quiet : c.call.quiet = true
  /-- A poll that is over has taken one turn at least. -/
  polled : c₀.roundRobin + s.polls ≤ c.roundRobin
  fetching : ∀ tries, c.call = .fetch tries → tries ≤ c₀.assignment.length ∧
    c₀.roundRobin + s.polls + (c₀.assignment.length - tries) ≤ c.roundRobin
  served : min (c₀.position topic partition +
    turns c₀.assignment.length j c₀.roundRobin c.roundRobin) last ≤ c.position topic partition
  delivered : ∀ o, c₀.position topic partition ≤ o → o < c.position topic partition →
    ⟨c₀.group, c₀.memberId, c₀.generation, topic, partition, o⟩ ∈ s.run.delivered
  logEnd : ∃ logEnd, s.run.world.nextOffset topic partition = some logEnd ∧ last ≤ logEnd ∧
    c.position topic partition ≤ logEnd

variable {i : ℕ} {c₀ c : GroupConsumer} {topic : String} {partition j last : ℕ} {s s' : Polls}

private theorem position_insert (c : GroupConsumer) (slot : String × ℕ) (position roundRobin : ℕ)
    (call : Call) (topic : String) (partition : ℕ) :
    GroupConsumer.position
        { c with roundRobin, call, positions := c.positions.insert slot position } topic partition =
      if (topic, partition) = slot then position else c.position topic partition := by
  rw [GroupConsumer.position]
  split
  · rename_i heq
    rw [heq, AList.lookup_insert, Option.getD_some]
  · rename_i hne
    rw [AList.lookup_insert_ne hne, GroupConsumer.position]

theorem Served.elsewhere (h : Served i c₀ topic partition j last s c) {a : World.Action}
    (ha : a.consumer? ≠ some i) {run : Deliveries} (hrun : s.run.step a = some run) :
    Served i c₀ topic partition j last
      ⟨run, s.polls + if s.run.world.endsPoll i run.world then 1 else 0⟩ c := by
  obtain ⟨hworld, -, -, hdelivered⟩ := Deliveries.step_cases hrun
  obtain ⟨logEnd, hend, hlast, hposition⟩ := h.logEnd
  obtain ⟨logEnd', hend', hle⟩ := World.nextOffset_step hworld hend
  have hsame := (World.step_frame hworld).2 i ha
  have hends : s.run.world.endsPoll i run.world = false := by
    rw [World.endsPoll, hsame, h.consumer]
    cases hcall : c.call <;> simp [hcall, Call.fetching, Call.isIdle]
  rw [hends]
  refine ⟨hsame.trans h.consumer, h.group, h.memberId, h.generation, h.assignment, h.quiet,
    h.polled, h.fetching, h.served, fun o hlo hhi => ?_, logEnd', hend', by omega,
    hposition.trans hle⟩
  rw [hdelivered]
  exact List.mem_append_left _ (h.delivered o hlo hhi)

/-- The place of the partition has its turn, or another one has. -/
theorem Served.turned (h : Served i c₀ topic partition j last s c) (hj : j < c₀.assignment.length)
    {position : ℕ} (hkept : c.position topic partition ≤ position)
    (hturn : c.roundRobin % c₀.assignment.length = j →
      last ≤ position ∨ c.position topic partition + 1 ≤ position) :
    min (c₀.position topic partition +
      turns c₀.assignment.length j c₀.roundRobin (c.roundRobin + 1)) last ≤ position := by
  have hold := h.served
  have hpolled := h.polled
  by_cases heq : c.roundRobin % c₀.assignment.length = j
  · rw [turns_succ (by omega) heq]
    rcases hturn heq with hall | hone <;> omega
  · rw [turns_succ_of_ne hj heq]
    omega

theorem Served.step (h : Served i c₀ topic partition j last s c)
    (hslot : c₀.assignment[j]? = some (topic, partition)) {a : World.Action}
    (hgoes : s.run.world.GoesOn i a) (hstep : s.step i a = some s') :
    ∃ c', Served i c₀ topic partition j last s' c' := by
  obtain ⟨run, hrun, rfl⟩ := Option.map_eq_some_iff.mp hstep
  obtain ⟨hworld, -, -, hdelivered⟩ := Deliveries.step_cases hrun
  obtain ⟨logEnd, hend, hlast, hposition⟩ := h.logEnd
  obtain ⟨logEnd', hend', hle⟩ := World.nextOffset_step hworld hend
  have hj : j < c₀.assignment.length := (List.getElem?_eq_some_iff.mp hslot).1
  have hdelivered' : ∀ o, c₀.position topic partition ≤ o → o < c.position topic partition →
      ⟨c₀.group, c₀.memberId, c₀.generation, topic, partition, o⟩ ∈ run.delivered := by
    intro o hlo hhi
    rw [hdelivered]
    exact List.mem_append_left _ (h.delivered o hlo hhi)
  by_cases ha : a.consumer? = some i
  · obtain ⟨c', out, hturn, hc', hout⟩ :=
      World.turn_of_step hworld ha h.consumer h.quiet hgoes
    obtain ⟨polls, hpolls⟩ : ∃ polls, polls = s.polls +
        if c.call.fetching && c'.call.isIdle then 1 else 0 := ⟨_, rfl⟩
    have hends : s.run.world.endsPoll i run.world = (c.call.fetching && c'.call.isIdle) := by
      rw [World.endsPoll, h.consumer, hc']
      rfl
    rw [hends, ← hpolls]
    have hmine {slot : String × ℕ}
        (hslot' : c.assignment[c.roundRobin % c.assignment.length]? = some slot)
        (heq : c.roundRobin % c₀.assignment.length = j) : slot = (topic, partition) := by
      rw [h.assignment, heq, hslot] at hslot'
      exact (Option.some.inj hslot').symm
    refine ⟨c', ?_⟩
    cases hturn with
    | waits hcall hquiet htries =>
      rw [hcall] at hpolls
      have hsame : polls = s.polls := hpolls
      refine ⟨hc', h.group, h.memberId, h.generation, h.assignment, hquiet, hsame ▸ h.polled, ?_,
        h.served, hdelivered', logEnd', hend', by omega, hposition.trans hle⟩
      intro tries hfetch
      rw [htries tries hfetch, h.assignment, hsame, Nat.sub_self]
      exact ⟨le_rfl, h.polled⟩
    | ended hcall =>
      rw [hcall] at hpolls
      have hone : polls = s.polls + 1 := hpolls
      have hfetching := (h.fetching 0 hcall).2
      refine ⟨hc', h.group, h.memberId, h.generation, h.assignment, rfl, ?_, fun tries hfetch => ?_,
        h.served, hdelivered', logEnd', hend', by omega, hposition.trans hle⟩
      · dsimp only
        omega
      · cases hfetch
    | missed hcall hslot' hnone =>
      rw [hcall] at hpolls
      have hone : polls = s.polls + 1 := hpolls
      have hpolled := h.polled
      refine ⟨hc', h.group, h.memberId, h.generation, h.assignment, rfl, ?_, fun tries hfetch => ?_,
        h.turned hj le_rfl fun heq => ?_, hdelivered', logEnd', hend', by omega,
        hposition.trans hle⟩
      · dsimp only
        omega
      · cases hfetch
      · cases hmine hslot' heq
        exact absurd (hnone logEnd hend) (by omega)
    | empty hcall hslot' hfull =>
      rw [hcall] at hpolls
      have hsame : polls = s.polls := hpolls
      obtain ⟨htries, hfetching⟩ := h.fetching _ hcall
      refine ⟨hc', h.group, h.memberId, h.generation, h.assignment, rfl, ?_, fun tries hfetch => ?_,
        h.turned hj le_rfl fun heq => ?_, hdelivered', logEnd', hend', by omega,
        hposition.trans hle⟩
      · dsimp only
        omega
      · cases hfetch
        dsimp only
        omega
      · cases hmine hslot' heq
        cases hend.symm.trans hfull
        exact .inl hlast
    | @read tries n logEnd'' topic' partition' hcall hslot' hend'' hn hle' =>
      rw [hcall] at hpolls
      have hone : polls = s.polls + 1 := hpolls
      have hpolled := h.polled
      have hafter := position_insert c (topic', partition') (c.position topic' partition' + n)
        (c.roundRobin + 1) .idle topic partition
      refine ⟨hc', h.group, h.memberId, h.generation, h.assignment, rfl, ?_, fun tries hfetch => ?_,
        h.turned hj ?_ fun heq => ?_, fun o hlo hhi => ?_, logEnd', hend', by omega, ?_⟩
      · dsimp only
        omega
      · cases hfetch
      · rw [hafter]
        split
        · rename_i heq
          cases heq
          omega
        · exact le_rfl
      · cases hmine hslot' heq
        rw [hafter, if_pos rfl]
        exact .inr (by omega)
      · rw [hafter] at hhi
        by_cases hold : o < c.position topic partition
        · exact hdelivered' o hlo hold
        · split at hhi
          · rename_i heq
            cases heq
            dsimp only
            rw [hdelivered, hout, h.group, h.memberId, h.generation]
            refine List.mem_append_right _ (List.mem_map.mpr ⟨(topic, partition, o), ?_, rfl⟩)
            exact List.mem_map_of_mem (List.mem_range'_1.mpr ⟨by omega, hhi⟩)
          · exact absurd hhi hold
      · rw [hafter]
        split
        · rename_i heq
          cases heq
          cases hend.symm.trans hend''
          omega
        · exact hposition.trans hle
  · exact ⟨c, h.elsewhere ha hrun⟩

/-- While a consumer goes on, no partition of its assignment starves, whatever is produced and
whoever joins meanwhile: after `k` polls for each of its partitions, each has returned the next `k`
of the records that it held when the consumer set out, or all of them. -/
theorem no_partition_starves {s₀ : Deliveries} (hc : s₀.world.consumers i = some c)
    (hidle : c.call = .idle) (hmem : (topic, partition) ∈ c.assignment)
    (hlast : s₀.world.nextOffset topic partition = some last)
    (h : Reach (step i) (fun s a => s.run.world.GoesOn i a) ⟨s₀, 0⟩ s) {k : ℕ}
    (hpolls : c.assignment.length * k ≤ s.polls) :
    ∀ o, c.position topic partition ≤ o → o < last → o < c.position topic partition + k →
      ⟨c.group, c.memberId, c.generation, topic, partition, o⟩ ∈ s.run.delivered := by
  intro o hlo hhi hk
  obtain ⟨j, hj, hslot⟩ := List.mem_iff_getElem.mp hmem
  have hslot : c.assignment[j]? = some (topic, partition) :=
    List.getElem?_eq_some_iff.mpr ⟨hj, hslot⟩
  have hinit : Served i c topic partition j last ⟨s₀, 0⟩ c := by
    refine ⟨hc, rfl, rfl, rfl, rfl, by rw [hidle]; rfl, le_rfl, fun tries hfetch => ?_, ?_,
      fun o hlo hhi => absurd hlo (Nat.not_le.mpr hhi), last, hlast, le_rfl, by omega⟩
    · cases hidle.symm.trans hfetch
    · rw [turns_self]
      exact min_le_left _ _
  obtain ⟨c', hserved⟩ := h.invariant (P := fun s => ∃ c', Served i c topic partition j last s c')
    ⟨c, hinit⟩ fun _ _ _ hs hgoes hstep =>
      Exists.elim hs fun _ hserved => hserved.step hslot hgoes hstep
  have hturns : k ≤ turns c.assignment.length j c.roundRobin c'.roundRobin :=
    le_turns hj (by have := hserved.polled; omega)
  refine hserved.delivered o hlo (lt_of_lt_of_le ?_ hserved.served)
  omega

/-- Two partitions, one of which is never short of records. -/
theorem no_partition_starves_busy : ∃ s₀ s c, Reach Deliveries.step (fun _ _ => True) .init s₀ ∧
    s₀.world.consumers 0 = some c ∧
    Reach (step 0) (fun s a => s.run.world.GoesOn 0 a) ⟨s₀, 0⟩ s ∧
    ⟨"g", c.memberId, c.generation, "t", 1, 1⟩ ∈ s.run.delivered := by
  obtain ⟨s₀, hreach, hsome⟩ := Reach.exists_of_runSteps Deliveries.step (fun _ _ => True) .init
    [.createTopic "t" 2, .produce "t" 0, .produce "t" 1, .produce "t" 1,
      .start 0 "g" ["t"] 30 0, .next 0 0 0, .next 0 0 0, .next 0 0 0, .next 0 0 0]
    (fun s₀ => ∃ c ∈ s₀.world.consumers 0, c.call.isIdle = true ∧ c.group = "g" ∧
      c.assignment = [("t", 0), ("t", 1)] ∧ c.position "t" 1 = 0 ∧
      s₀.world.nextOffset "t" 1 = some 2 ∧
      ∃ s ∈ runSteps (step 0) (fun s a => s.run.world.GoesOn 0 a)
        [.poll 0 0, .next 0 0 0, .produce "t" 0, .poll 0 0, .next 0 0 0, .produce "t" 0,
          .poll 0 0, .next 0 0 0, .produce "t" 0, .poll 0 0, .next 0 0 0] ⟨s₀, 0⟩, 4 ≤ s.polls)
    (by decide +kernel)
  obtain ⟨c, hc, hidle, hgroup, hassignment, hposition, hlast, s, hrun, hpolls⟩ := hsome
  have hs : Reach (step 0) (fun s a => s.run.world.GoesOn 0 a) ⟨s₀, 0⟩ s :=
    Reach.init.of_runSteps (fun _ _ h => of_decide_eq_true h) hrun
  have hserved := no_partition_starves hc (Call.eq_idle hidle) (by rw [hassignment]; decide)
    hlast hs (k := 2) (by rw [hassignment]; exact hpolls) 1
    (by omega) (by decide) (by omega)
  rw [hgroup] at hserved
  exact ⟨s₀, s, c, hreach, hc, hs, hserved⟩

end Polls
end Replog.Groups
