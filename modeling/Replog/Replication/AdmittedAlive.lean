import Replog.Replication.Admission

/-!
# Those who are admitted live

The controller checks of an `AlterIsr` neither that the brokers it adds are alive nor that they
have fetched. Where dead brokers are not proposed and those that are proposed do not die on the way,
they live when they are added.
-/

namespace Replog.Replication.Cluster
open Replog.Library Replog.Replication.Broker

variable (config : BrokerId → BrokerConfig)

/-- The controller has every follower alive that a leader proposes and that is not a member. -/
def ProposesAlive (c : Cluster) (b : BrokerId) : Prop :=
  (c.nodes b).broker.repl.epoch = c.controller.leaderEpoch →
    ∀ proposal ∈ (c.nodes b).broker.repl.isrProposal b (config b).replicaLagMs
      (c.nodes b).broker.clock, ∀ f ∈ proposal.2, f ∉ c.controller.isr →
        c.controller.alive f = true

/-- No session runs out of a broker that an `AlterIsr` is about to add, unless the leader's does. -/
def ExpiresNoneAdded (c : Cluster) (expired : List BrokerId) : Prop :=
  ∀ l ∈ c.controller.leader, l ∉ expired → ∀ req ∈ c.inFlight, ∀ f ∈ req.isr,
    f ∉ c.controller.isr → f ∉ expired

/-- A broker that an `AlterIsr` takes out is alive if another one in flight brings it back. -/
def AcceptsAlive (c : Cluster) (req : AlterIsrRequest) : Prop :=
  req.leaderEpoch = c.controller.leaderEpoch →
    ∀ other ∈ c.inFlight, ∀ f ∈ other.isr, f ∈ c.controller.isr → f ∉ req.isr →
      c.controller.alive f = true

instance (c : Cluster) (b : BrokerId) : Decidable (ProposesAlive config c b) :=
  inferInstanceAs (Decidable (_ → ∀ proposal ∈ (c.nodes b).broker.repl.isrProposal b
    (config b).replicaLagMs (c.nodes b).broker.clock, ∀ f ∈ proposal.2, _))

instance (c : Cluster) (expired : List BrokerId) : Decidable (ExpiresNoneAdded c expired) :=
  inferInstanceAs (Decidable (∀ l ∈ c.controller.leader, _ → ∀ req ∈ c.inFlight,
    ∀ f ∈ req.isr, _))

instance (c : Cluster) (req : AlterIsrRequest) : Decidable (AcceptsAlive c req) :=
  inferInstanceAs (Decidable (_ → ∀ other ∈ c.inFlight, ∀ f ∈ other.isr, _))

def AdmitsAlive (c : Cluster) : Action → Prop
  | .broker b .propose => ProposesAlive config c b
  | .sweepLiveness expired => ExpiresNoneAdded c expired
  | .deliver i _ => ∀ m ∈ c.net[i]?, ∀ req ∈ m.alterIsr?, AcceptsAlive c req
  | _ => True

instance (c : Cluster) (a : Action) : Decidable (AdmitsAlive config c a) :=
  match a with
  | .broker b .propose => inferInstanceAs (Decidable (ProposesAlive config c b))
  | .sweepLiveness expired => inferInstanceAs (Decidable (ExpiresNoneAdded c expired))
  | .deliver i _ =>
    inferInstanceAs (Decidable (∀ m ∈ c.net[i]?, ∀ req ∈ m.alterIsr?, AcceptsAlive c req))
  | .broker _ (.task _) | .broker _ (.tick _) | .broker _ (.produce _ _ _)
  | .broker _ (.replicaFetch _) | .broker _ (.epochCheck _) | .broker _ (.consumerFetch _)
  | .broker _ (.process _ _ _) | .broker _ (.metadata _) | .broker _ .applyMetadata
  | .broker _ .recordEpoch | .broker _ (.alterIsrReply _ _) | .broker _ .giveUp
  | .broker _ (.fetcher _) | .broker _ (.epochReply _ _ _) | .broker _ (.fetchReply _ _ _)
  | .broker _ (.callFailed _) | .register _ _ | .heartbeat _ | .pull _ | .lose _
  | .crash _ _ _ => isTrue trivial

/-- The steps that keep admission sound. -/
structure AdmitsSound (c : Cluster) (a : Action) : Prop where
  fetched : AdmitsFetched config c a
  alive : AdmitsAlive config c a

instance (c : Cluster) (a : Action) : Decidable (AdmitsSound config c a) :=
  decidable_of_iff (AdmitsFetched config c a ∧ AdmitsAlive config c a)
    ⟨fun h => ⟨h.1, h.2⟩, fun h => ⟨h.fetched, h.alive⟩⟩

/-- While there is a leader, an `AlterIsr` that would not be fenced adds only live brokers. -/
structure LivesInv (c : Cluster) : Prop where
  admission : AdmissionInv c
  alive : ∀ req ∈ c.inFlight, c.controller.leader.isSome = true → ∀ f ∈ req.isr,
    f ∉ c.controller.isr → c.controller.alive f = true

variable {config} {c c' : Cluster} {a : Action}

private theorem electWhereNeeded_led {k : Controller} {l : BrokerId}
    (hepoch : k.electWhereNeeded.2.leaderEpoch = k.leaderEpoch)
    (hl : k.electWhereNeeded.2.leader = some l) :
    k.electWhereNeeded.2 = k ∧ k.alive l = true := by
  rw [Controller.electWhereNeeded] at hepoch hl ⊢
  by_cases halive : k.leaderAlive = true
  · rw [if_pos halive] at hl ⊢
    rw [Controller.leaderAlive, show k.leader = some l from hl] at halive
    exact ⟨rfl, halive⟩
  · rw [if_neg halive] at hepoch hl
    split at hl
    · rename_i hfind
      rw [hfind] at hepoch
      exact absurd hepoch (Nat.succ_ne_self _)
    · cases hl

private theorem mutate_led {k k' : Controller} (changed : Bool) {alive : BrokerId → Bool}
    (hk' : k' = Controller.mutate (changed, { k with alive }.electWhereNeeded.2))
    (hepoch : k'.leaderEpoch = k.leaderEpoch) {l : BrokerId} (hl : k'.leader = some l) :
    k'.leader = k.leader ∧ k'.isr = k.isr ∧ k'.alive = alive ∧ alive l = true := by
  have hfields : k'.leader = { k with alive }.electWhereNeeded.2.leader ∧
      k'.leaderEpoch = { k with alive }.electWhereNeeded.2.leaderEpoch ∧
      k'.isr = { k with alive }.electWhereNeeded.2.isr ∧
      k'.alive = { k with alive }.electWhereNeeded.2.alive := by
    rw [hk']
    cases changed <;> exact ⟨rfl, rfl, rfl, rfl⟩
  obtain ⟨hleader, hepochs, hisr, hlives⟩ := hfields
  obtain ⟨hsame, halive⟩ := electWhereNeeded_led (k := { k with alive })
    (hepochs.symm.trans hepoch) (hleader.symm.trans hl)
  rw [hsame] at hleader hisr hlives
  exact ⟨hleader, hisr, hlives, halive⟩

/-- Within an epoch and while the leader stays, brokers die only by a sweep that spares it. -/
theorem Sweeps.lives {k k' : Controller} (h : Sweeps k a k')
    (hepoch : k'.leaderEpoch = k.leaderEpoch) {l : BrokerId} (hl : k'.leader = some l) :
    k'.leader = k.leader ∧ k'.isr = k.isr ∧ ∀ f, k.alive f = true → k'.alive f = true ∨
      ∃ expired, a = .sweepLiveness expired ∧ l ∉ expired ∧ f ∈ expired := by
  have hset {b : BrokerId} (f : BrokerId) (hf : k.alive f = true) :
      (k.setAlive b true).alive f = true := by
    simp only [Controller.setAlive]
    split_ifs
    · rfl
    · exact hf
  cases h with
  | @register b addrChanged =>
    obtain ⟨hleader, hisr, hlives, -⟩ := mutate_led _ rfl hepoch hl
    exact ⟨hleader, hisr, fun f hf => .inl (hlives ▸ hset f hf)⟩
  | @heartbeat b =>
    by_cases hb : k.alive b = true
    · rw [Controller.heartbeat, if_pos hb]
      exact ⟨rfl, rfl, fun f hf => .inl hf⟩
    · rw [Controller.heartbeat, if_neg hb] at hepoch hl ⊢
      obtain ⟨hleader, hisr, hlives, -⟩ := mutate_led _ rfl hepoch hl
      exact ⟨hleader, hisr, fun f hf => .inl (hlives ▸ hset f hf)⟩
  | @sweepLiveness expired =>
    by_cases hany : (expired.any fun b => k.alive b) = true
    · rw [Controller.sweepLiveness, if_pos hany] at hepoch hl ⊢
      obtain ⟨hleader, hisr, hlives, halive⟩ := mutate_led _ rfl hepoch hl
      refine ⟨hleader, hisr, fun f hf => ?_⟩
      rw [hlives]
      by_cases hexpired : f ∈ expired
      · exact .inr ⟨expired, rfl, by simpa using (Bool.and_eq_true_iff.mp halive).2, hexpired⟩
      · exact .inl (by simpa [hexpired] using hf)
    · rw [Controller.sweepLiveness, if_neg hany]
      exact ⟨rfl, rfl, fun f hf => .inl hf⟩

theorem LivesInv.create (replicas : List BrokerId) : LivesInv (create replicas) where
  admission := .create replicas
  alive _ h := by cases h

theorem LivesInv.sweeps (h : LivesInv c) {k : Controller} (hk : Sweeps c.controller a k)
    (hguard : AdmitsAlive config c a) {req : AlterIsrRequest}
    (hreq : req ∈ ({ c with controller := k } : Cluster).inFlight) (hl : k.leader.isSome = true)
    {f : BrokerId} (hf : f ∈ req.isr) (hout : f ∉ k.isr) : k.alive f = true := by
  obtain ⟨hm, hepoch⟩ := mem_inFlight.mp hreq
  dsimp only at hm hepoch
  -- a request of the new epoch is of the old one, so there was no election
  have hage := (h.admission.requests req hm).epoch_le
  have hepochs : k.leaderEpoch = c.controller.leaderEpoch := by
    rcases hk.follows.epoch with ⟨hsame, -, -⟩ | hnext
    · exact hsame
    · omega
  obtain ⟨l, hleader⟩ := Option.isSome_iff_exists.mp hl
  obtain ⟨hsame, hisr, hlives⟩ := hk.lives hepochs hleader
  rw [hisr] at hout
  have hold := mem_inFlight.mpr ⟨hm, hepoch.trans hepochs⟩
  have hbefore := h.alive req hold (hsame ▸ hl) f hf hout
  rcases hlives f hbefore with halive | ⟨expired, rfl, hspared, hin⟩
  · exact halive
  · exact absurd hin (hguard l (hsame ▸ hleader) hspared req hold f hf hout)

/-- A leader proposes only brokers that are alive. -/
theorem LivesInv.sent (hguard : AdmitsAlive config c a) {b : BrokerId} {act : Replication.Action}
    {net : List Message} (hacts : Acts c a b act net) {broker : Broker} {events : List Event}
    (hb : (c.nodes b).broker.step (config b) b act = some (broker, events)) {req : AlterIsrRequest}
    (hreq : .sent (.alterIsr req) ∈ events) (hepoch : req.leaderEpoch = c.controller.leaderEpoch)
    {f : BrokerId} (hf : f ∈ req.isr) (hout : f ∉ c.controller.isr) :
    c.controller.alive f = true := by
  cases (step_explained hb).events _ hreq with
  | @alterIsr leaderEpoch isr hproposal =>
    obtain ⟨-, rfl⟩ := ReplState.isrProposal_eq_some hproposal
    cases hacts with
    | broker => exact hguard hepoch _ hproposal f hf hout

/-- An `AlterIsr` that is handled takes out no dead broker that another one brings back. -/
theorem LivesInv.stepAlterIsr (h : LivesInv c) {req : AlterIsrRequest}
    (hguard : AcceptsAlive c req) {other : AlterIsrRequest}
    (hother : other ∈ (c.stepAlterIsr req).inFlight)
    (hl : (c.stepAlterIsr req).controller.leader.isSome = true) {f : BrokerId}
    (hf : f ∈ other.isr) (hout : f ∉ (c.stepAlterIsr req).controller.isr) :
    (c.stepAlterIsr req).controller.alive f = true := by
  obtain ⟨hm, he⟩ := mem_inFlight.mp hother
  have hold : .alterIsr other ∈ c.net := by
    rcases List.mem_append.mp hm with hm | hm
    · exact hm
    · cases List.mem_singleton.mp hm
  rcases c.controller.alterIsr_cases req with ⟨code, hrefused⟩ | ⟨hepoch, -, version, -, hok⟩
  · rw [Cluster.stepAlterIsr, hrefused] at he hl hout ⊢
    exact h.alive other (mem_inFlight.mpr ⟨hold, he⟩) hl f hf hout
  · rw [Cluster.stepAlterIsr, hok] at he hl hout ⊢
    have hflight := mem_inFlight.mpr ⟨hold, he⟩
    by_cases hin : f ∈ c.controller.isr
    · exact hguard hepoch other hflight f hf hin hout
    · exact h.alive other hflight hl f hf hin

theorem LivesInv.step (h : LivesInv c) (hguard : AdmitsSound config c a)
    (hstep : step config c a = some c') : LivesInv c' := by
  have hadmission := h.admission.step hguard.fetched hstep
  refine ⟨hadmission, fun req hreq hl f hf hout => ?_⟩
  cases steps_of_step hstep with
  | sweeps hsweeps => exact h.sweeps hsweeps hguard.alive hreq hl hf hout
  | acts hacts hb =>
    obtain ⟨hm, hepoch⟩ := mem_inFlight.mp hreq
    rcases List.mem_append.mp hm with hold | hnew
    · exact h.alive req (mem_inFlight.mpr ⟨hacts.net_subset hold, hepoch⟩) hl f hf hout
    · exact LivesInv.sent hguard.alive hacts hb (mem_sent hnew) hepoch hf hout
  | @alterIsr i g req' hm =>
    have hrest : LivesInv { c with net := c.net.eraseIdx i } :=
      ⟨h.admission.net (fun _ hreq => List.eraseIdx_subset hreq)
        ⟨h.admission.copies.started, fun hcopy => h.admission.copies.covers
          (hcopy.mono fun _ _ hm => List.eraseIdx_subset hm)⟩,
        fun other hother => h.alive other (mem_inFlight_of_eraseIdx hother)⟩
    refine hrest.stepAlterIsr (fun hepoch other hother => ?_) hreq hl hf hout
    exact hguard.alive _ hm req' rfl hepoch other (mem_inFlight_of_eraseIdx hother)
  | lose => exact h.alive req (mem_inFlight_of_eraseIdx hreq) hl f hf hout
  | crash => exact h.alive req hreq hl f hf hout

/-- Along every run whose proposals, advances, sweeps and acceptances meet the guard, a broker that
an `AlterIsr` adds is alive, and the proposing leader has accepted a fetch of it, in the epoch, at
or above its high-water mark. -/
theorem added_fetched {replicas : List BrokerId}
    (h : Reach (step config) (AdmitsSound config) (create replicas) c) {i : ℕ}
    {req : AlterIsrRequest} (hm : c.net[i]? = some (.alterIsr req)) {version : ℕ} {k : Controller}
    (hok : c.controller.alterIsr req = (.ok version, k)) {f : BrokerId} (hf : f ∈ k.isr)
    (hnew : f ∉ c.controller.isr) :
    c.controller.alive f = true ∧ (c.nodes req.proposer).Fetched f req.leaderEpoch := by
  have hinv := Reach.invariant (P := LivesInv) (.create replicas)
    (fun _ _ _ hinv hguard hstep => hinv.step hguard hstep) h
  have hreq := List.mem_of_getElem? hm
  have hrequest := hinv.admission.requests req hreq
  rcases c.controller.alterIsr_cases req with ⟨code, hrefused⟩ |
    ⟨hepoch, ⟨l, hl, -⟩, _, -, haccepted⟩
  · rw [hrefused] at hok
    cases hok
  · rw [haccepted] at hok
    cases hok
    have hflight := mem_inFlight.mpr ⟨hreq, hepoch⟩
    refine ⟨hinv.alive req hflight (Option.isSome_of_mem hl) f hf hnew,
      hrequest.fetched hepoch f hf ?_ hnew⟩
    intro heq
    exact hnew (heq ▸ (hrequest.office hepoch).1)

theorem added_fetched_follower : ∃ c : Cluster,
    c.controller.alive 1 = true ∧ (c.nodes 0).Fetched 1 1 := by
  obtain ⟨c, hc, hm, hisr, hok⟩ := Reach.exists_of_runSteps
    (step fun _ => Node.smallConfig) (AdmitsSound fun _ => Node.smallConfig) (create [0, 1])
    (leadAndShrink ++ followAndCatchUp 2 ++ [.broker 0 .propose])
    (fun c => c.net[0]? = some (.alterIsr ⟨1, 0, 1, [0, 1]⟩) ∧ c.controller.isr = [0] ∧
      (c.controller.alterIsr ⟨1, 0, 1, [0, 1]⟩).1 = .ok 3 ∧
      (c.controller.alterIsr ⟨1, 0, 1, [0, 1]⟩).2.isr = [0, 1])
    (by decide +kernel)
  have hadded := added_fetched hc hm (Prod.ext hok.1 rfl)
    (show 1 ∈ (c.controller.alterIsr ⟨1, 0, 1, [0, 1]⟩).2.isr by rw [hok.2]; decide)
    (by rw [hisr]; decide)
  exact ⟨c, hadded⟩

/-- The old leader dies, and its successor appends a record, raises the high-water mark alone and
takes the dead broker, which never fetched, back within the grace window. -/
def takeBackTheDead : List Action :=
  [.sweepLiveness [0], .pull 1, .broker 1 .applyMetadata, .broker 1 .recordEpoch,
    .broker 1 (.process (fun _ => 0) 0 false), .broker 1 (.produce .written 0 [(none, [7])]),
    .broker 1 (.task 1), .broker 1 (.process (fun _ => 0) 0 false), .broker 1 (.task 0),
    .broker 1 (.task 0), .broker 1 .propose]

theorem added_not_fetched : ¬ ∀ c, Reach (step fun _ => Node.smallConfig) (fun _ _ => True)
    (create [0, 1]) c → ∀ (i : ℕ) req, c.net[i]? = some (.alterIsr req) →
      ∀ version k, c.controller.alterIsr req = (.ok version, k) → ∀ f ∈ k.isr,
        f ∉ c.controller.isr →
        c.controller.alive f = true ∧ (c.nodes req.proposer).Fetched f req.leaderEpoch := by
  intro hall
  obtain ⟨c, hc, hm, hisr, hdead, hok⟩ := Reach.exists_of_runSteps
    (step fun _ => Node.smallConfig) (fun _ _ => True) (create [0, 1]) takeBackTheDead
    (fun c => c.net[0]? = some (.alterIsr ⟨0, 1, 2, [0, 1]⟩) ∧ c.controller.isr = [1] ∧
      c.controller.alive 0 = false ∧
      (c.controller.alterIsr ⟨0, 1, 2, [0, 1]⟩).1 = .ok 3 ∧
      (c.controller.alterIsr ⟨0, 1, 2, [0, 1]⟩).2.isr = [0, 1])
    (by decide +kernel)
  have halive := (hall c hc 0 _ hm 3 _ (Prod.ext hok.1 rfl) 0 (by rw [hok.2]; decide)
    (by rw [hisr]; decide)).1
  rw [hdead] at halive
  cases halive

end Replog.Replication.Cluster
