import Replog.Replication.EpochAttribution

/-!
# The leader's copy of the ISR

A leader takes the minimum over a copy of the ISR that came with the metadata or with the answer
to its own `AlterIsr`. Within an epoch the controller's ISR gains members only through `AlterIsr`,
so a copy lacks a member only if that member was added after the copy was taken.
-/

namespace Replog.Replication.Cluster
open Replog.Library Replog.Replication.Broker

variable {config : BrokerId → BrokerConfig} {c c' : Cluster} {a : Action}

/-- A copy of the ISR of an epoch that is in use or on its way, with the version it is of. -/
inductive Copy (c : Cluster) : ℕ → ℕ → List BrokerId → Prop where
  | replica (b : BrokerId) : Copy c (c.nodes b).broker.repl.epoch
    (c.nodes b).broker.repl.isrVersion (c.nodes b).broker.repl.isr
  | pulled {b p} (h : (c.nodes b).broker.runtime = .pulled p) :
    Copy c p.leaderEpoch p.version p.isr
  | reply {req version} (h : .alterIsrReply req (.ok version) ∈ c.net) :
    Copy c req.leaderEpoch version req.isr

/-- A copy is not ahead of the controller, and what it lacks of the ISR of its epoch was added
later. -/
structure Covers (k : Controller) (admitted : List (ℕ × BrokerId)) (epoch version : ℕ)
    (isr : List BrokerId) : Prop where
  epoch_le : epoch ≤ k.leaderEpoch
  version_le : version ≤ k.version
  later : epoch = k.leaderEpoch → ∀ f ∈ k.isr, f ∈ isr ∨ ∃ w, (w, f) ∈ admitted ∧ version < w

structure CopiesInv (c : Cluster) : Prop where
  started : 0 < c.controller.leaderEpoch
  covers : ∀ {epoch version isr}, Copy c epoch version isr →
    Covers c.controller c.admitted epoch version isr

theorem Covers.follows {k k' : Controller} {admitted : List (ℕ × BrokerId)} {epoch version : ℕ}
    {isr : List BrokerId} (h : Covers k admitted epoch version isr) (hk : k.Follows k') :
    Covers k' admitted epoch version isr := by
  have hepoch := h.epoch_le
  have hversion := h.version_le
  have hmono := hk.version_le
  rcases hk.epoch with ⟨hsame, hisr, -⟩ | hnext
  · refine ⟨hsame ▸ hepoch, hversion.trans hmono, fun heq f hf => ?_⟩
    rw [hisr] at hf
    exact h.later (heq.trans hsame) f hf
  · exact ⟨by omega, hversion.trans hmono, fun heq => by omega⟩

theorem Sweeps.follows {k k' : Controller} (h : Sweeps k a k') : k.Follows k' := by
  cases h with
  | register => exact Controller.follows_register _ _ _
  | heartbeat => exact Controller.follows_heartbeat _ _
  | sweepLiveness => exact Controller.follows_sweepLiveness _ _

/-- The pulled metadata is a copy that lacks nothing. -/
theorem Covers.partitionMeta (k : Controller) (admitted : List (ℕ × BrokerId)) :
    Covers k admitted k.partitionMeta.leaderEpoch k.partitionMeta.version k.partitionMeta.isr :=
  ⟨le_rfl, le_rfl, fun _ _ hf => .inl hf⟩

theorem mem_sent {events : List Event} {m : Message} (h : m ∈ events.filterMap Event.sent?) :
    .sent m ∈ events := by
  obtain ⟨e, he, hm⟩ := List.mem_filterMap.mp h
  cases e <;> simp_all [Event.sent?]

theorem Acts.net_subset {b : BrokerId} {act : Replication.Action} {net : List Message}
    (h : Acts c a b act net) : net ⊆ c.net := by
  cases h <;> first | exact List.Subset.refl _ | exact List.eraseIdx_subset

private theorem Acts.copy_repl {b : BrokerId} {act : Replication.Action} {net : List Message}
    (h : Acts c a b act net) {st : ReplState} (hrepl : ReplStep b (c.nodes b).broker act st) :
    Copy c st.epoch st.isrVersion st.isr := by
  cases hrepl with
  | ledger => exact .replica b
  | same => exact .replica b
  | advance =>
    rw [ReplState.advanceHwm]
    split <;> exact .replica b
  | accept htask hok =>
    obtain ⟨-, -, t, rfl⟩ := ReplState.acceptFetch_eq_ok hok
    exact .replica b
  | exit =>
    rw [ReplState.fetcherExit]
    split <;> exact .replica b
  | apply hruntime =>
    obtain ⟨hepoch, -, hisr, hversion⟩ := ReplState.applyMetadata_follows
      (c.nodes b).broker.repl b (c.nodes b).broker.clock _
    rw [hepoch, hisr, hversion]
    exact .pulled hruntime
  | install =>
    rw [ReplState.installIsr]
    split
    · rename_i hsame
      cases h with
      | broker hlocal => cases hlocal
      | alterIsrReply hm =>
        rw [hsame.2]
        exact .reply (List.mem_of_getElem? hm)
    · exact .replica b

/-- The copies after a broker acted were there, or came with the metadata. -/
theorem Acts.copy {b : BrokerId} {act : Replication.Action} {net : List Message}
    (h : Acts c a b act net) {broker : Broker} {events : List Event}
    (hb : (c.nodes b).broker.step (config b) b act = some (broker, events)) {epoch version : ℕ}
    {isr : List BrokerId} (hcopy : Copy { c with
      nodes := Function.update c.nodes b ⟨broker, (c.nodes b).trace ++ events⟩
      net := net ++ events.filterMap Event.sent? } epoch version isr) :
    Copy c epoch version isr ∨ (epoch = c.controller.partitionMeta.leaderEpoch ∧
      version = c.controller.partitionMeta.version ∧ isr = c.controller.partitionMeta.isr) := by
  have hex := step_explained hb
  cases hcopy with
  | replica b' =>
    by_cases hb' : b' = b
    · subst hb'
      simp only [Function.update_self]
      exact .inl (h.copy_repl hex.repl)
    · left
      simpa [hb'] using Copy.replica (c := c) b'
  | @pulled b' p hruntime =>
    by_cases hb' : b' = b
    · subst hb'
      simp only [Function.update_self] at hruntime
      rcases hex.items (.runtime (.pulled p)) hruntime with hold | hcreate
      · exact .inl (.pulled hold)
      · cases hcreate
        cases h with
        | pull => exact .inr ⟨rfl, rfl, rfl⟩
        | broker hlocal => cases hlocal
    · simp only [Function.update_of_ne hb'] at hruntime
      exact .inl (.pulled hruntime)
  | reply hm =>
    rcases List.mem_append.mp hm with hm | hm
    · exact .inl (.reply (h.net_subset hm))
    · cases hex.events _ (mem_sent hm)

theorem Copy.mono {k : Controller} {net : List Message} {admitted : List (ℕ × BrokerId)}
    (hnet : ∀ req version, .alterIsrReply req (.ok version) ∈ net →
      .alterIsrReply req (.ok version) ∈ c.net) {epoch version : ℕ} {isr : List BrokerId}
    (h : Copy ⟨k, c.nodes, net, admitted⟩ epoch version isr) : Copy c epoch version isr := by
  cases h with
  | replica b => exact .replica b
  | pulled hruntime => exact .pulled hruntime
  | reply hm => exact .reply (hnet _ _ hm)

/-- What an accepted `AlterIsr` adds is admitted at a version that no copy has. -/
theorem Covers.alterIsr {k : Controller} {admitted : List (ℕ × BrokerId)} {epoch version : ℕ}
    {isr : List BrokerId} (h : Covers k admitted epoch version isr) {new : List BrokerId}
    {next : ℕ} (hnext : next = k.version ∧ k.isr = new ∨ next = k.version + 1) :
    Covers { k with isr := new, version := next }
      (admitted ++ (new.filter (· ∉ k.isr)).map fun f => (next, f)) epoch version isr := by
  have hversion := h.version_le
  refine ⟨h.epoch_le, ?_, fun heq f hf => ?_⟩
  · dsimp only
    omega
  · by_cases hold : f ∈ k.isr
    · rcases h.later heq f hold with hin | ⟨w, hw, hlt⟩
      · exact .inl hin
      · exact .inr ⟨w, List.mem_append_left _ hw, hlt⟩
    · rcases hnext with ⟨-, hsame⟩ | hnext
      · rw [hsame] at hold
        exact absurd hf hold
      · refine .inr ⟨next, List.mem_append_right _ ?_, by omega⟩
        exact List.mem_map.mpr ⟨f, List.mem_filter.mpr ⟨hf, decide_eq_true hold⟩, rfl⟩

theorem CopiesInv.stepAlterIsr (h : CopiesInv c) (req : AlterIsrRequest) :
    CopiesInv (c.stepAlterIsr req) := by
  rcases c.controller.alterIsr_cases req with ⟨code, hrefused⟩ |
    ⟨hepoch, -, version, hversion, hok⟩
  · rw [Cluster.stepAlterIsr, hrefused]
    refine ⟨h.started, fun {epoch version isr} hcopy => ?_⟩
    have hnone : c.controller.isr.filter (· ∉ c.controller.isr) = [] := by
      rw [List.filter_eq_nil_iff]
      exact fun f hf => by simpa using hf
    dsimp only
    rw [hnone, List.map_nil, List.append_nil]
    refine h.covers (hcopy.mono fun req' version' hm => ?_)
    rcases List.mem_append.mp hm with hm | hm
    · exact hm
    · cases List.mem_singleton.mp hm
  · rw [Cluster.stepAlterIsr, hok]
    refine ⟨h.started, fun {epoch version' isr} hcopy => ?_⟩
    cases hcopy with
    | replica b => exact (h.covers (.replica b)).alterIsr hversion
    | pulled hruntime => exact (h.covers (.pulled hruntime)).alterIsr hversion
    | reply hm =>
      rcases List.mem_append.mp hm with hm | hm
      · exact (h.covers (.reply hm)).alterIsr hversion
      · cases List.mem_singleton.mp hm
        exact ⟨hepoch.le, le_rfl, fun _ f hf => .inl hf⟩

theorem CopiesInv.step (h : CopiesInv c) (hstep : step config c a = some c') : CopiesInv c' := by
  cases steps_of_step hstep with
  | sweeps hsweeps =>
    have hfollows := hsweeps.follows
    refine ⟨?_, fun hcopy => (h.covers (hcopy.mono fun _ _ hm => hm)).follows hfollows⟩
    have hstarted := h.started
    rcases hfollows.epoch with ⟨hsame, -, -⟩ | hnext
    · exact hsame ▸ hstarted
    · dsimp only
      omega
  | acts hacts hb =>
    refine ⟨h.started, fun hcopy => ?_⟩
    rcases hacts.copy hb hcopy with hold | ⟨rfl, rfl, rfl⟩
    · exact h.covers hold
    · exact .partitionMeta _ _
  | @alterIsr i _ req hm =>
    have hrest : CopiesInv { c with net := c.net.eraseIdx i } :=
      ⟨h.started, fun hcopy => h.covers (hcopy.mono fun _ _ hm => List.eraseIdx_subset hm)⟩
    exact hrest.stepAlterIsr req
  | lose =>
    exact ⟨h.started, fun hcopy => h.covers (hcopy.mono fun _ _ hm => List.eraseIdx_subset hm)⟩
  | @crash b wall k =>
    refine ⟨h.started, fun hcopy => ?_⟩
    cases hcopy with
    | replica b' =>
      by_cases hb' : b' = b
      · subst hb'
        simp only [Function.update_self]
        refine ⟨Nat.zero_le _, Nat.zero_le _, fun heq => ?_⟩
        exact absurd heq h.started.ne
      · simpa [hb'] using h.covers (.replica b')
    | @pulled b' p hruntime =>
      by_cases hb' : b' = b
      · subst hb'
        simp only [Function.update_self] at hruntime
        cases hruntime
      · simp only [Function.update_of_ne hb'] at hruntime
        exact h.covers (.pulled hruntime)
    | reply hm => exact h.covers (.reply hm)

theorem CopiesInv.create (replicas : List BrokerId) : CopiesInv (create replicas) where
  started := Nat.one_pos
  covers hcopy := by
    cases hcopy with
    | replica b => exact ⟨Nat.zero_le _, Nat.zero_le _, fun heq => by cases heq⟩
    | pulled hruntime => cases hruntime
    | reply hm => cases hm

/-- Whatever the run, when a leader of the controller's epoch raises its high-water mark, the ISR
it used holds the controller's exactly when it holds every member that was added since. -/
theorem raised_covers_iff {replicas : List BrokerId}
    (h : Reach (step config) (fun _ _ => True) (create replicas) c) {b : BrokerId}
    {act : Replication.Action} {broker : Broker} {events : List Event} {isr : List BrokerId}
    {hwm : ℕ} (hb : (c.nodes b).broker.step (config b) b act = some (broker, events))
    (hraised : .raised c.controller.leaderEpoch isr hwm ∈ events) :
    c.controller.isr ⊆ isr ↔ ∀ w f, (w, f) ∈ c.admitted →
      (c.nodes b).broker.repl.isrVersion < w → f ∈ c.controller.isr → f ∈ isr := by
  have hinv := Reach.invariant (P := CopiesInv) (.create replicas)
    (fun _ _ _ hinv _ hstep => hinv.step hstep) h
  constructor
  · exact fun hsubset w f _ _ hf => hsubset hf
  · intro hadded f hf
    have hcovers := hinv.covers (.replica b)
    have hemits := (step_explained hb).events _ hraised
    generalize hepoch : c.controller.leaderEpoch = epoch at hemits
    cases hemits
    rcases hcovers.later hepoch.symm f hf with hin | ⟨w, hw, hlt⟩
    · exact hin
    · exact hadded w f hw hlt hf

/-- Broker 0 leads epoch 1 and takes the silent follower out of the ISR. -/
def leadAndShrink : List Action :=
  [.pull 0, .broker 0 .applyMetadata, .broker 0 .recordEpoch,
    .broker 0 (.process (fun _ => 0) 0 false), .broker 0 (.tick 1001), .broker 0 .propose,
    .deliver 0 0, .deliver 0 0]

/-- Broker 0 appends a record of a client and reads the log's end. -/
def produceOne (tasks : ℕ) : List Action :=
  [.broker 0 (.produce .written 0 [(none, [7])]), .broker 0 (.task tasks),
    .broker 0 (.process (fun _ => 0) 0 false), .broker 0 (.task 0)]

/-- Broker 1 follows broker 0 and its first fetch is accepted. -/
def followAndCatchUp (tasks : ℕ) : List Action := (followAndFetch tasks).take 16

/-- Broker 1 is back in the ISR and in the leader's copy, and it fetches the next record and asks for
the one after it. -/
def admitAndFetch : List Action :=
  leadAndShrink ++ followAndCatchUp 2 ++
    [.broker 0 .propose, .deliver 0 0, .deliver 0 0,
      .broker 0 (.produce .written 0 [(none, [7])]), .broker 0 (.task 4),
      .broker 0 (.process (fun _ => 0) 0 false), .broker 0 (.task 2), .broker 0 (.task 3),
      .broker 0 (.task 3), .broker 0 (.process (fun _ => 0) 0 false), .deliver 0 1,
      .broker 1 (.fetcher 1), .broker 1 (.fetcher 1), .broker 1 (.fetcher 1),
      .broker 1 (.process (fun _ => 0) 0 false), .broker 1 (.process (fun _ => 0) 0 false),
      .broker 1 (.fetcher 1), .broker 1 (.fetcher 1), .deliver 0 0, .broker 0 (.task 3),
      .broker 0 (.task 3)]

theorem raised_covers_admitted : ∃ c : Cluster, c.admitted = [(3, 1)] ∧
    c.controller.isr = [0, 1] ∧ c.controller.isr ⊆ [0, 1] := by
  obtain ⟨c, hc, hadmitted, hversion, hisr, hraised⟩ := Reach.exists_of_runSteps
    (step fun _ => Node.smallConfig) (fun _ _ => True) (create [0, 1]) admitAndFetch
    (fun c => c.admitted = [(3, 1)] ∧ (c.nodes 0).broker.repl.isrVersion = 3 ∧
      c.controller.isr = [0, 1] ∧
      ∃ r ∈ (c.nodes 0).broker.step Node.smallConfig 0 (.task 3),
        .raised c.controller.leaderEpoch [0, 1] 1 ∈ r.2)
    (by decide +kernel)
  obtain ⟨⟨broker, events⟩, hb, hevent⟩ := hraised
  refine ⟨c, hadmitted, hisr, (raised_covers_iff hc hb hevent).mpr fun w f hw hlt => ?_⟩
  rw [hadmitted, List.mem_singleton, Prod.mk.injEq] at hw
  omega

/-- The follower is back in the controller's ISR, the answer is on its way, and the leader raises
its high-water mark over itself alone. -/
theorem raised_without_added : ¬ ∀ c, Reach (step fun _ => Node.smallConfig) (fun _ _ => True)
    (create [0, 1]) c → ∀ b act broker events isr hwm,
      (c.nodes b).broker.step Node.smallConfig b act = some (broker, events) →
      .raised c.controller.leaderEpoch isr hwm ∈ events → c.controller.isr ⊆ isr := by
  intro hall
  obtain ⟨c, hc, hisr, hraised⟩ := Reach.exists_of_runSteps
    (step fun _ => Node.smallConfig) (fun _ _ => True) (create [0, 1])
    (leadAndShrink ++ followAndCatchUp 2 ++ [.broker 0 .propose, .deliver 0 0] ++ produceOne 3)
    (fun c => 1 ∈ c.controller.isr ∧
      ∃ r ∈ (c.nodes 0).broker.step Node.smallConfig 0 (.task 2),
        .raised c.controller.leaderEpoch [0] 1 ∈ r.2)
    (by decide +kernel)
  obtain ⟨⟨broker, events⟩, hb, hevent⟩ := hraised
  have hin := hall c hc 0 _ broker events _ _ hb hevent hisr
  cases List.mem_singleton.mp hin

end Replog.Replication.Cluster
