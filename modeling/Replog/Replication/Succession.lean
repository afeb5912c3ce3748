import Replog.Replication.Admission
import Replog.Replication.Reign

/-!
# Who can succeed the first leader

A leader is elected from the ISR as the controller has it, and the high-water mark is raised over
the copy that the leader has. Where the copy holds the ISR and only fetched followers are admitted,
every broker that can be elected has everything that was answered.
-/

namespace Replog.Replication.Cluster
open Replog.Library Replog.Replication.Broker

variable (config : BrokerId → BrokerConfig) (l : BrokerId)

/-- The leader raises its high-water mark over a copy that holds the ISR of the controller. -/
def RaisesOverIsr (c : Cluster) : Action → Prop
  | .broker b (.task i) => b = l → ∀ t ∈ (c.nodes l).broker.tasks[i]?, ∀ logEnd ∈ t.advanceTo?,
    (c.nodes l).broker.hwm <
      ((c.nodes l).broker.repl.advanceHwm l logEnd (c.nodes l).broker.hwm).1 →
    c.controller.isr ⊆ (c.nodes l).broker.repl.isr
  | _ => True

instance (c : Cluster) (a : Action) : Decidable (RaisesOverIsr l c a) :=
  match a with
  | .broker b (.task i) =>
    inferInstanceAs (Decidable (b = l → ∀ t ∈ (c.nodes l).broker.tasks[i]?, _))
  | .broker _ (.tick _) | .broker _ (.produce _ _ _) | .broker _ (.replicaFetch _)
  | .broker _ (.epochCheck _) | .broker _ (.consumerFetch _) | .broker _ (.process _ _ _)
  | .broker _ (.metadata _) | .broker _ .applyMetadata | .broker _ .recordEpoch
  | .broker _ .propose | .broker _ (.alterIsrReply _ _) | .broker _ .giveUp
  | .broker _ (.fetcher _) | .broker _ (.epochReply _ _ _) | .broker _ (.fetchReply _ _ _)
  | .broker _ (.callFailed _) | .register _ _ | .heartbeat _ | .sweepLiveness _ | .pull _
  | .deliver _ _ | .lose _ | .crash _ _ _ => isTrue trivial

/-- The leader stays, and its ISR is the controller's where it counts. -/
structure StaysFetched (c : Cluster) (a : Action) : Prop where
  stays : Stays l c a
  admits : AdmitsFetched config c a
  raises : RaisesOverIsr l c a

instance (c : Cluster) (a : Action) : Decidable (StaysFetched config l c a) :=
  decidable_of_iff (Stays l c a ∧ AdmitsFetched config c a ∧ RaisesOverIsr l c a)
    ⟨fun h => ⟨h.1, h.2.1, h.2.2⟩, fun h => ⟨h.stays, h.admits, h.raises⟩⟩

/-- The members of the ISR hold the log up to the high-water mark. -/
structure SuccessionInv (c : Cluster) : Prop where
  reign : ReignInv l c
  admission : AdmissionInv c
  held : ∀ f ∈ c.controller.isr, (c.nodes l).broker.hwm ≤ (c.nodes f).broker.log.length

variable {config l} {c c' : Cluster} {a : Action}

theorem ReignInv.logs_grow (h : ReignInv l c) (hguard : Stays l c a)
    (hstep : Cluster.step config c a = some c') (f : BrokerId) :
    (c.nodes f).broker.log <+: (c'.nodes f).broker.log := by
  have hupdate {b : BrokerId} {node : Node} (hb : (c.nodes b).broker.log <+: node.broker.log) :
      (c.nodes f).broker.log <+: (Function.update c.nodes b node f).broker.log := by
    by_cases hf : f = b
    · subst hf
      simpa using hb
    · simp only [Function.update_of_ne hf]
      exact List.prefix_rfl
  cases steps_of_step hstep with
  | @acts _ b act net broker events hacts hb =>
    by_cases hbl : b = l
    · subst hbl
      exact hupdate (h.leader.log_grows hb)
    · exact hupdate ((h.follower b hbl).step hbl (h.told hacts) hb).log_grows
  | crash => exact hupdate ((h.follower _ hguard).crash _ _).2
  | sweeps => exact List.prefix_rfl
  | alterIsr => exact List.prefix_rfl
  | lose => exact List.prefix_rfl

/-- A follower whose fetch was accepted holds the log up to there. -/
theorem ReignInv.fetched (h : ReignInv l c) {f : BrokerId} {offset : ℕ}
    (hf : ∃ req, .accepted req ∈ (c.nodes l).trace ∧ req.follower = f ∧ offset ≤ req.offset) :
    offset ≤ (c.nodes f).broker.log.length := by
  obtain ⟨req, hreq, rfl, hle⟩ := hf
  exact hle.trans (h.fetches req (.accepted hreq)).2

/-- The high-water mark stays, or everybody of the ISR has fetched up to the new one. -/
theorem SuccessionInv.raised (h : SuccessionInv l c) (hguard : RaisesOverIsr l c a)
    {act : Replication.Action} {net : List Message} (hacts : Acts c a l act net) {broker : Broker}
    {events : List Event}
    (hb : (c.nodes l).broker.step (config l) l act = some (broker, events)) {f : BrokerId}
    (hf : f ∈ c.controller.isr) (hne : f ≠ l) :
    broker.hwm ≤ (c.nodes f).broker.log.length := by
  have hold := h.held f hf
  rcases (step_explained hb).hwm with hsame | ⟨i, logEnd, serve, rfl, ht, hhwm⟩
  · dsimp only at hsame
    omega
  · dsimp only at hhwm
    by_cases hlt : (c.nodes l).broker.hwm <
        ((c.nodes l).broker.repl.advanceHwm l logEnd (c.nodes l).broker.hwm).1
    · cases hacts
      have hcopy := hguard rfl (.advanceTo logEnd serve) ht logEnd rfl hlt hf
      cases hleader : (c.nodes l).broker.repl.isLeader with
      | false =>
        rw [ReplState.advanceHwm_not_leader hleader] at hlt
        exact absurd hlt (Nat.lt_irrefl _)
      | true =>
        have hmin := ReplState.isrMin_le_matched hcopy hne logEnd
        rw [ReplState.advanceHwm_leader hleader] at hhwm hlt
        dsimp only at hhwm hlt
        obtain ⟨t, hmatched⟩ := (c.nodes l).broker.repl.matched_pos (f := f) (by omega)
        obtain ⟨req, hreq, hfollower, -, hoffset⟩ := h.admission.matched l hleader f _ t hmatched
        exact h.reign.fetched ⟨req, hreq, hfollower, by omega⟩
    · omega

/-- A new member has fetched up to the high-water mark of the leader that adds it. -/
theorem SuccessionInv.admitted (h : SuccessionInv l c) {req : AlterIsrRequest}
    (hreq : .alterIsr req ∈ c.net) (hepoch : req.leaderEpoch = c.controller.leaderEpoch)
    {f : BrokerId} (hf : f ∈ req.isr) :
    (c.nodes l).broker.hwm ≤ (c.nodes f).broker.log.length := by
  have hrequest := h.admission.requests req hreq
  have hproposer : req.proposer = l := by
    rcases (hrequest.office hepoch).2 with hleader | hnone
    · rw [h.reign.office.1] at hleader
      exact (Option.some.inj hleader).symm
    · rw [h.reign.office.1] at hnone
      cases hnone
  by_cases hfl : f = l
  · rw [hfl]
    exact h.reign.leader.mark
  · by_cases hin : f ∈ c.controller.isr
    · exact h.held f hin
    · obtain ⟨fetch, hfetch, hfollower, -, hle⟩ :=
        hrequest.fetched hepoch f hf (by rwa [hproposer]) hin
      rw [hproposer] at hfetch hle
      exact h.reign.fetched ⟨fetch, hfetch, hfollower, hle⟩

theorem SuccessionInv.create {replicas : List BrokerId} (hl : replicas.head? = some l) :
    SuccessionInv l (create replicas) := ⟨.create hl, .create replicas, fun _ _ => Nat.zero_le _⟩

theorem SuccessionInv.step (h : SuccessionInv l c) (hguard : StaysFetched config l c a)
    (hstep : step config c a = some c') : SuccessionInv l c' := by
  have hreign := h.reign.step hguard.stays hstep
  refine ⟨hreign, h.admission.step hguard.admits hstep, fun f hf => ?_⟩
  have hgrow := (h.reign.logs_grow hguard.stays hstep f).length_le
  -- the high-water mark is the leader's, so it moves only when the leader acts
  have hheld (hmem : f ∈ c.controller.isr)
      (hsame : (c'.nodes l).broker.hwm = (c.nodes l).broker.hwm) :
      (c'.nodes l).broker.hwm ≤ (c'.nodes f).broker.log.length := by
    rw [hsame]
    exact (h.held f hmem).trans hgrow
  cases steps_of_step hstep with
  | sweeps hsweeps =>
    obtain ⟨-, -, -, hisr⟩ := hsweeps.office hguard.stays h.reign.office.1 h.reign.alive
    exact hheld (hisr ▸ hf) rfl
  | @acts _ b act net broker events hacts hb =>
    by_cases hbl : b = l
    · subst hbl
      by_cases hfl : f = b
      · rw [hfl]
        exact hreign.leader.mark
      · simp only [Function.update_self, Function.update_of_ne hfl]
        exact h.raised hguard.raises hacts hb hf hfl
    · have hother : l ≠ b := fun heq => hbl heq.symm
      exact hheld hf (by simp [hother])
  | @alterIsr i g req hm =>
    rcases c.controller.alterIsr_cases req with ⟨code, hrefused⟩ | ⟨hepoch, -, version, -, hok⟩
    · rw [Cluster.stepAlterIsr, hrefused] at hf
      exact h.held f hf
    · rw [Cluster.stepAlterIsr, hok] at hf
      exact h.admitted (List.mem_of_getElem? hm) hepoch hf
  | lose => exact hheld hf rfl
  | @crash b wall k =>
    have hother : l ≠ b := fun heq => hguard.stays heq.symm
    exact hheld hf (by simp [hother])

private theorem electWhereNeeded_isr (k : Controller) : k.electWhereNeeded.2.isr ⊆ k.isr := by
  rw [Controller.electWhereNeeded]
  split
  · exact List.Subset.refl _
  · split
    · exact fun f hf => List.mem_of_mem_filter hf
    · exact List.Subset.refl _

private theorem sweepLiveness_leader {k : Controller} (hoffice : ∀ b ∈ k.leader, b ∈ k.isr)
    {expired : List BrokerId} {f : BrokerId}
    (hf : (k.sweepLiveness expired).leader = some f) : f ∈ k.isr := by
  have hin := (Controller.follows_sweepLiveness k expired).office hoffice f hf
  rw [Controller.sweepLiveness] at hin
  split_ifs at hin
  · exact electWhereNeeded_isr { k with alive := fun b => k.alive b && decide (b ∉ expired) } hin
  · exact hin

/-- While the first leader stays, admits only fetched followers and raises its high-water mark over
no less than the ISR, every member of the ISR, and so whoever is elected when sessions run out,
holds the leader's log as far as anything in it was answered. -/
theorem elected_has_answered {replicas : List BrokerId} (hl : replicas.head? = some l)
    (h : Reach (step config) (StaysFetched config l) (create replicas) c) :
    (∀ f ∈ c.controller.isr, HasAnswered (c.nodes l).trace (c.nodes f).broker.log) ∧
      ∀ expired, ∀ f ∈ (c.controller.sweepLiveness expired).leader,
        HasAnswered (c.nodes l).trace (c.nodes f).broker.log ∧
          (c.nodes f).broker.log <+: (c.nodes l).broker.log := by
  have hinv := Reach.invariant (P := SuccessionInv l) (.create hl)
    (fun _ _ _ hinv hguard hstep => hinv.step hguard hstep) h
  have hcopy (f : BrokerId) : (c.nodes f).broker.log <+: (c.nodes l).broker.log := by
    by_cases hf : f = l
    · rw [hf]
    · exact (hinv.reign.follower f hf).copy
  have hmember (f : BrokerId) (hf : f ∈ c.controller.isr) :
      HasAnswered (c.nodes l).trace (c.nodes f).broker.log :=
    hinv.reign.leader.hasAnswered (hcopy f) (hinv.held f hf)
  refine ⟨hmember, fun expired f hf => ⟨hmember f ?_, hcopy f⟩⟩
  exact sweepLiveness_leader hinv.admission.office hf

theorem elected_has_answered_follower : ∃ c : Cluster,
    .completed ⟨0, 0, 1, ⟨⟨true, 1, 1⟩, .all, [(none, [7])]⟩⟩ ∈ (c.nodes 0).trace ∧
      (c.controller.sweepLiveness [0]).leader = some 1 ∧
      HasAnswered (c.nodes 0).trace (c.nodes 1).broker.log := by
  obtain ⟨c, hc, hcompleted, hleader⟩ := Reach.exists_of_runSteps
    (step fun _ => Node.smallConfig) (StaysFetched (fun _ => Node.smallConfig) 0) (create [0, 1])
    (produceAll ++ followAndFetch 2 ++ fetchAgain 2)
    (fun c => .completed ⟨0, 0, 1, ⟨⟨true, 1, 1⟩, .all, [(none, [7])]⟩⟩ ∈ (c.nodes 0).trace ∧
      (c.controller.sweepLiveness [0]).leader = some 1)
    (by decide +kernel)
  exact ⟨c, hcompleted, hleader, ((elected_has_answered rfl hc).2 [0] 1 hleader).1⟩

end Replog.Replication.Cluster
