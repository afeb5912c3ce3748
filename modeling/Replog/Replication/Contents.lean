import Replog.Replication.Succession

/-!
# What the first leader's log holds

While the first leader stays, its records are those of produces, only it acknowledges a produce, and
what any broker reads for a consumer are records of its log from the offset on that was asked for.
-/

namespace Replog.Replication
open Replog.Library Replog.Storage Broker

/-- The records that a client brings. -/
def Action.produces : Action → List KeyValue
  | .produce _ _ records => records
  | _ => []

/-- All records that a broker has or is about to append are of the kind. -/
structure Broker.Holds (P : KeyValue → Prop) (b : Broker) : Prop where
  log : ∀ e ∈ b.log, P e.keyValue
  tasks : ∀ ticket, .produce ticket ∈ b.tasks → ∀ r ∈ ticket.records, P r
  queue : ∀ ticket, .append ticket ∈ b.queue → ∀ r ∈ ticket.records, P r

private theorem appendRecords_keyValues (config : LogConfig) (epoch : ℕ) (wall : ℕ → Int64)
    (records : List KeyValue) (log : List Entry) :
    ∀ e ∈ (appendRecords config epoch wall records log).1, e ∈ log ∨ e.keyValue ∈ records := by
  induction records generalizing log with
  | nil => exact fun e he => .inl he
  | cons r rest ih =>
    obtain ⟨key, value⟩ := r
    intro e he
    rw [appendRecords] at he
    split at he
    · exact .inl he
    · rcases ih _ e he with hold | hrest
      · rcases List.mem_append.mp hold with hlog | hnew
        · exact .inl hlog
        · rw [List.mem_singleton.mp hnew]
          exact .inr List.mem_cons_self
      · exact .inr (List.mem_cons_of_mem _ hrest)

section Steps

variable {P : KeyValue → Prop} {l : BrokerId} {config : BrokerConfig} {s : Node} {a : Action}
  {b : Broker} {events : List Event}

theorem LeaderInv.holds (h : LeaderInv l s) (hs : s.broker.Holds P) (ha : ∀ r ∈ a.produces, P r)
    (hb : s.broker.step config l a = some (b, events)) : b.Holds P := by
  have hexplained := step_explained hb
  refine ⟨?_, fun ticket hticket => ?_, fun ticket hticket => ?_⟩
  · have hlog := hexplained.log
    dsimp only at hlog
    generalize b.log = log, b.epochs = epochs at hlog ⊢
    have hhead {c : Cmd} {queue : List Cmd} (hqueue : s.broker.queue = c :: queue) :
        c ∈ s.broker.queue := hqueue ▸ List.mem_cons_self
    cases hlog with
    | append hqueue =>
      intro e he
      rcases appendRecords_keyValues config.log _ _ _ _ e he with hold | hnew
      · exact hs.log e hold
      · exact hs.queue _ (hhead hqueue) _ hnew
    | appendReplicated hqueue =>
      exact (h.items (.cmd (.appendReplicated _ _)) (hhead hqueue)).elim
    | truncateTo hqueue => exact (h.items (.cmd (.truncateTo _ _)) (hhead hqueue)).elim
    | recordEpoch => exact hs.log
    | same => exact hs.log
  · rcases hexplained.items (.task (.produce ticket)) hticket with hold | hnew
    · exact hs.tasks ticket hold
    · cases hnew with
      | produce => exact ha
  · rcases hexplained.items (.cmd (.append ticket)) hticket with hold | hnew
    · exact hs.queue ticket hold
    · cases hnew with
      | append htask => exact hs.tasks ticket (List.mem_of_getElem? htask)

private theorem not_completed {self : BrokerId} {b' : Broker} (hfollows : b.repl.isLeader = false)
    (hb : b.step config self a = some (b', events)) (p : Pending) : .completed p ∉ events := by
  intro hp
  cases (step_explained hb).events _ hp with
  | completed htask hmem =>
    rw [ReplState.advanceHwm_not_leader hfollows] at hmem
    cases hmem

end Steps

namespace Cluster

/-- The records that a client brings in a step. -/
def Action.produces : Action → List KeyValue
  | .broker _ a => a.produces
  | _ => []

/-- The answers that a step to `c'` gives to consumers, with the offset that was asked for. -/
def consumerReads (c c' : Cluster) : Action → List (ℕ × List Record)
  | .broker b (.process _ _ _) =>
    match (c.nodes b).broker.queue with
    | .readConsumer offset _ :: _ =>
      ((c'.nodes b).trace.drop (c.nodes b).trace.length).filterMap fun
        | .served records => some (offset, records)
        | _ => none
    | _ => []
  | _ => []

/-- What holds besides while the first leader stays, the records being of a kind. -/
structure ContentsInv (P : KeyValue → Prop) (l : BrokerId) (c : Cluster) : Prop where
  reign : ReignInv l c
  holds : (c.nodes l).broker.Holds P
  silent : ∀ b ≠ l, ∀ p, .completed p ∉ (c.nodes b).trace

variable {P : KeyValue → Prop} {config : BrokerId → BrokerConfig} {l : BrokerId} {c c' : Cluster}
  {a : Action}

theorem ContentsInv.create {replicas : List BrokerId} (hl : replicas.head? = some l) :
    ContentsInv P l (create replicas) where
  reign := .create hl
  holds := ⟨nofun, nofun, nofun⟩
  silent := nofun

theorem ContentsInv.step (h : ContentsInv P l c) (hguard : Stays l c a)
    (ha : ∀ r ∈ a.produces, P r) (hstep : c.step config a = some c') : ContentsInv P l c' := by
  have hreign := h.reign.step hguard hstep
  cases steps_of_step hstep with
  | @acts _ b act net broker events hacts hb =>
    have hact : ∀ r ∈ act.produces, P r := by
      cases hacts with
      | broker => exact ha
      | _ => nofun
    refine ⟨hreign, ?_, fun f hf p => ?_⟩
    · by_cases hbl : l = b
      · subst hbl
        simp only [Function.update_self]
        exact h.reign.leader.holds h.holds hact hb
      · simp only [Function.update_of_ne hbl]
        exact h.holds
    · by_cases hfb : f = b
      · subst hfb
        simp only [Function.update_self]
        intro hp
        rcases List.mem_append.mp hp with hold | hnew
        · exact h.silent f hf p hold
        · exact not_completed (h.reign.follower f hf).follows hb p hnew
      · simp only [Function.update_of_ne hfb]
        exact h.silent f hf p
  | @crash b wall k =>
    have hne : l ≠ b := Ne.symm hguard
    refine ⟨hreign, ?_, fun f hf p => ?_⟩
    · simp only [Function.update_of_ne hne]
      exact h.holds
    · by_cases hfb : f = b
      · subst hfb
        simp only [Function.update_self]
        exact h.silent f hf p
      · simp only [Function.update_of_ne hfb]
        exact h.silent f hf p
  | sweeps => exact ⟨hreign, h.holds, h.silent⟩
  | alterIsr => exact ⟨hreign, h.holds, h.silent⟩
  | lose => exact ⟨hreign, h.holds, h.silent⟩

theorem mem_trace_step (hstep : c.step config a = some c') {b : BrokerId} {e : Event}
    (he : e ∈ (c.nodes b).trace) : e ∈ (c'.nodes b).trace := by
  have hupdate {f : BrokerId} {node : Node} (hf : (c.nodes f).trace ⊆ node.trace) :
      e ∈ (Function.update c.nodes f node b).trace := by
    by_cases hbf : b = f
    · subst hbf
      rw [Function.update_self]
      exact hf he
    · rw [Function.update_of_ne hbf]
      exact he
  cases steps_of_step hstep with
  | acts => exact hupdate (List.subset_append_left _ _)
  | crash => exact hupdate (List.Subset.refl _)
  | sweeps => exact he
  | alterIsr => exact he
  | lose => exact he

/-- A consumer is given records of the leader's log. -/
theorem ReignInv.consumerReads_prefix (h : ReignInv l c) (hstep : c.step config a = some c')
    {offset : ℕ} {records : List Record} (hgiven : (offset, records) ∈ c.consumerReads c' a) :
    records <+: ((c.nodes l).broker.log.map Entry.record).drop offset := by
  unfold consumerReads at hgiven
  split at hgiven
  · rename_i b wall more again
    split at hgiven
    · rename_i asked hwm queue hqueue
      obtain ⟨e, he, hsome⟩ := List.mem_filterMap.mp hgiven
      split at hsome
      · rename_i served
        cases hsome
        cases steps_of_step hstep with
        | sweeps hsweeps => cases hsweeps
        | @acts _ _ _ net broker events hacts hb =>
          cases hacts
          simp only [Function.update_self, List.drop_left] at he
          cases (step_explained hb).events _ he with
          | @served _ _ _ _ _ _ found hqueue' hread =>
            rw [hqueue] at hqueue'
            cases hqueue'
            have hcopy : (c.nodes b).broker.log <+: (c.nodes l).broker.log := by
              by_cases hbl : b = l
              · rw [hbl]
              · exact (h.follower b hbl).copy
            rw [readFrom] at hread
            split_ifs at hread
            cases hread
            rw [List.map_take, List.map_drop]
            exact (List.takeWhile_prefix _).trans ((List.take_prefix _ _).trans
              ((hcopy.map Entry.record).drop offset))
      · cases hsome
    · cases hgiven
  · cases hgiven

end Cluster
end Replog.Replication
