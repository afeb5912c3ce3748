import Replog.Replication.AckLedger
import Replog.Replication.IsrCopies

/-!
# Admission to the ISR

A follower is let into the ISR by the time at which it was last caught up. What admission is for is
that it has fetched past the leader's high-water mark; between the proposal and its acceptance the
high-water mark may move on, and another `AlterIsr` may come first.
-/

namespace Replog.Replication
open Replog.Library Replog.Replication.Broker

/-- A leader's `match_offsets` has the follower at or above an offset. -/
def Broker.FetchedTo (b : Broker) (f : BrokerId) (offset : ℕ) : Prop :=
  b.repl.isLeader = true ∧ ∃ m ∈ b.repl.matchOffsets f, offset ≤ m.1

instance (b : Broker) (f : BrokerId) (offset : ℕ) : Decidable (b.FetchedTo f offset) :=
  inferInstanceAs (Decidable (_ ∧ _))

/-- Of the epoch, the broker has accepted a fetch of the follower at or above its high-water
mark. -/
def Node.Fetched (s : Node) (f : BrokerId) (epoch : ℕ) : Prop :=
  ∃ req, .accepted req ∈ s.trace ∧ req.follower = f ∧ req.leaderEpoch = epoch ∧
    s.broker.hwm ≤ req.offset

/-- The broker is the one that was elected for the current epoch. -/
def Controller.InOffice (k : Controller) (b : BrokerId) : Prop :=
  b ∈ k.isr ∧ (k.leader = some b ∨ k.leader = none)

theorem Controller.InOffice.follows {k k' : Controller} {b : BrokerId} (h : k.InOffice b)
    (hk : k.Follows k') (hepoch : k'.leaderEpoch = k.leaderEpoch) : k'.InOffice b := by
  rcases hk.epoch with ⟨-, hisr, hleader⟩ | hnext
  · refine ⟨hisr ▸ h.1, ?_⟩
    rcases hleader with hsame | hnone
    · exact hsame ▸ h.2
    · exact .inr hnone
  · omega

/-- The leader's progress table is backed by fetches of its epoch. -/
theorem Node.Matched.fetched {s : Node} (h : s.Matched) {f offset : ℕ}
    (hto : s.broker.FetchedTo f offset) :
    ∃ req, .accepted req ∈ s.trace ∧ req.follower = f ∧
      req.leaderEpoch = s.broker.repl.epoch ∧ offset ≤ req.offset := by
  obtain ⟨hleader, ⟨n, t⟩, hm, hle⟩ := hto
  obtain ⟨req, hreq, hfollower, hepoch, hoffset⟩ := h hleader f n t hm
  exact ⟨req, hreq, hfollower, hepoch, hoffset.symm ▸ hle⟩

def Task.advanceTo? : Task → Option ℕ
  | .advanceTo logEnd _ => some logEnd
  | _ => none

def Message.alterIsr? : Message → Option AlterIsrRequest
  | .alterIsr req => some req
  | _ => none

namespace Cluster

variable (config : BrokerId → BrokerConfig)

/-- The `AlterIsr`s on their way that the controller would not fence. -/
def inFlight (c : Cluster) : List AlterIsrRequest :=
  (c.net.filterMap Message.alterIsr?).filter fun req => req.leaderEpoch = c.controller.leaderEpoch

/-- The leader has a fetch at or above its high-water mark of every follower that it proposes and
that is not a member. -/
def ProposesFetched (c : Cluster) (b : BrokerId) : Prop :=
  (c.nodes b).broker.repl.epoch = c.controller.leaderEpoch →
    ∀ proposal ∈ (c.nodes b).broker.repl.isrProposal b (config b).replicaLagMs
      (c.nodes b).broker.clock, ∀ f ∈ proposal.2, f ≠ b → f ∉ c.controller.isr →
        (c.nodes b).broker.FetchedTo f (c.nodes b).broker.hwm

/-- The high-water mark is not raised past a follower that an `AlterIsr` is about to add. -/
def RaisesBelowAdded (c : Cluster) (b : BrokerId) (logEnd : ℕ) : Prop :=
  let hwm := ((c.nodes b).broker.repl.advanceHwm b logEnd (c.nodes b).broker.hwm).1
  (c.nodes b).broker.hwm < hwm → ∀ req ∈ c.inFlight, req.proposer = b →
    ∀ f ∈ req.isr, f ≠ b → f ∉ c.controller.isr → (c.nodes b).broker.FetchedTo f hwm

/-- A broker that an `AlterIsr` takes out is not brought back by another one in flight without such
a fetch. -/
def AcceptsFetched (c : Cluster) (req : AlterIsrRequest) : Prop :=
  req.leaderEpoch = c.controller.leaderEpoch →
    ∀ other ∈ c.inFlight, ∀ f ∈ other.isr, f ∈ c.controller.isr → f ∉ req.isr →
      (c.nodes other.proposer).broker.FetchedTo f (c.nodes other.proposer).broker.hwm

instance (c : Cluster) (b : BrokerId) : Decidable (ProposesFetched config c b) :=
  inferInstanceAs (Decidable (_ → ∀ proposal ∈ (c.nodes b).broker.repl.isrProposal b
    (config b).replicaLagMs (c.nodes b).broker.clock, ∀ f ∈ proposal.2, _))

instance (c : Cluster) (b : BrokerId) (logEnd : ℕ) : Decidable (RaisesBelowAdded c b logEnd) :=
  inferInstanceAs (Decidable (_ < _ → ∀ req ∈ c.inFlight, _ → ∀ f ∈ req.isr, _))

instance (c : Cluster) (req : AlterIsrRequest) : Decidable (AcceptsFetched c req) :=
  inferInstanceAs (Decidable (_ → ∀ other ∈ c.inFlight, ∀ f ∈ other.isr, _))

/-- The steps that admit only followers that have fetched. -/
def AdmitsFetched (c : Cluster) : Action → Prop
  | .broker b .propose => ProposesFetched config c b
  | .broker b (.task i) =>
    ∀ t ∈ (c.nodes b).broker.tasks[i]?, ∀ logEnd ∈ t.advanceTo?, RaisesBelowAdded c b logEnd
  | .deliver i _ => ∀ m ∈ c.net[i]?, ∀ req ∈ m.alterIsr?, AcceptsFetched c req
  | _ => True

instance (c : Cluster) (a : Action) : Decidable (AdmitsFetched config c a) := by
  unfold AdmitsFetched
  split <;> infer_instance

/-- What holds of an `AlterIsr` on its way: its proposer has led no later epoch since, and if it is
not fenced it adds only followers that have fetched. -/
structure Request (c : Cluster) (req : AlterIsrRequest) : Prop where
  epoch_le : req.leaderEpoch ≤ c.controller.leaderEpoch
  leads : (c.nodes req.proposer).broker.repl.isLeader = true →
    req.leaderEpoch ≤ (c.nodes req.proposer).broker.repl.epoch
  pulled : ∀ p, (c.nodes req.proposer).broker.runtime = .pulled p → req.leaderEpoch ≤ p.leaderEpoch
  office : req.leaderEpoch = c.controller.leaderEpoch → c.controller.InOffice req.proposer
  fetched : req.leaderEpoch = c.controller.leaderEpoch → ∀ f ∈ req.isr, f ≠ req.proposer →
    f ∉ c.controller.isr → (c.nodes req.proposer).Fetched f req.leaderEpoch

structure AdmissionInv (c : Cluster) : Prop where
  copies : CopiesInv c
  matched : ∀ b, (c.nodes b).Matched
  office : ∀ l ∈ c.controller.leader, l ∈ c.controller.isr
  leads : ∀ b, (c.nodes b).broker.repl.isLeader = true →
    (c.nodes b).broker.repl.epoch = c.controller.leaderEpoch → c.controller.InOffice b
  pulled : ∀ b p, (c.nodes b).broker.runtime = .pulled p → p.leader = some b →
    p.leaderEpoch = c.controller.leaderEpoch → c.controller.InOffice b
  requests : ∀ req, .alterIsr req ∈ c.net → Request c req

variable {config} {c c' : Cluster} {a : Action}

theorem mem_inFlight {req : AlterIsrRequest} :
    req ∈ c.inFlight ↔ .alterIsr req ∈ c.net ∧ req.leaderEpoch = c.controller.leaderEpoch := by
  rw [inFlight, List.mem_filter, List.mem_filterMap]
  constructor
  · rintro ⟨⟨m, hm, hreq⟩, hepoch⟩
    cases m <;> simp_all [Message.alterIsr?]
  · rintro ⟨hm, hepoch⟩
    exact ⟨⟨_, hm, rfl⟩, decide_eq_true hepoch⟩

theorem mem_inFlight_of_eraseIdx {i : ℕ} {req : AlterIsrRequest}
    (h : req ∈ ({ c with net := c.net.eraseIdx i } : Cluster).inFlight) : req ∈ c.inFlight := by
  obtain ⟨hm, hepoch⟩ := mem_inFlight.mp h
  exact mem_inFlight.mpr ⟨List.eraseIdx_subset hm, hepoch⟩

theorem AdmissionInv.create (replicas : List BrokerId) : AdmissionInv (create replicas) where
  copies := .create replicas
  matched _ h := by cases h
  office l hl := List.mem_of_head? hl
  leads _ h := by cases h
  pulled _ _ h := by cases h
  requests _ h := by cases h

/-! ## One broker acts -/

section Acting

variable {b : BrokerId} {act : Replication.Action} {net : List Message} {broker : Broker}
  {events : List Event}

private theorem AdmissionInv.leads_step (h : AdmissionInv c)
    (hb : (c.nodes b).broker.step (config b) b act = some (broker, events))
    (hleader : broker.repl.isLeader = true)
    (hepoch : broker.repl.epoch = c.controller.leaderEpoch) : c.controller.InOffice b := by
  rcases (step_explained hb).repl.authority with hauth | ⟨p, -, hruntime, hst⟩
  · exact h.leads b ((congrArg Authority.leader hauth).symm.trans hleader)
      ((congrArg Authority.epoch hauth).symm.trans hepoch)
  · dsimp only at hst
    obtain ⟨he, hl, -, -⟩ := ReplState.applyMetadata_follows (c.nodes b).broker.repl b
      (c.nodes b).broker.clock p
    rw [hst, hl] at hleader
    rw [hst, he] at hepoch
    exact h.pulled b p hruntime (of_decide_eq_true hleader) hepoch

theorem Acts.pulled_step (hacts : Acts c a b act net)
    (hb : (c.nodes b).broker.step (config b) b act = some (broker, events)) {p : PartitionMeta}
    (hruntime : broker.runtime = .pulled p) :
    (c.nodes b).broker.runtime = .pulled p ∨ p = c.controller.partitionMeta := by
  rcases (step_explained hb).items (.runtime (.pulled p)) hruntime with hold | hcreate
  · exact .inl hold
  · cases hcreate
    cases hacts with
    | pull => exact .inr rfl
    | broker hlocal => cases hlocal

private theorem AdmissionInv.fetched_step (h : AdmissionInv c) (hguard : AdmitsFetched config c a)
    (hacts : Acts c a b act net)
    (hb : (c.nodes b).broker.step (config b) b act = some (broker, events))
    {req : AlterIsrRequest} (hreq : .alterIsr req ∈ c.net) (hproposer : req.proposer = b)
    (hepoch : req.leaderEpoch = c.controller.leaderEpoch) {f : BrokerId} (hf : f ∈ req.isr)
    (hne : f ≠ b) (hout : f ∉ c.controller.isr) :
    (Node.mk broker ((c.nodes b).trace ++ events)).Fetched f req.leaderEpoch := by
  have hrequest := h.requests req hreq
  have hkeep : broker.hwm = (c.nodes b).broker.hwm →
      (Node.mk broker ((c.nodes b).trace ++ events)).Fetched f req.leaderEpoch := by
    intro hsame
    obtain ⟨fetch, hfetch, hfollower, hof, hle⟩ :=
      hrequest.fetched hepoch f hf (by rwa [hproposer]) hout
    rw [hproposer] at hfetch hle
    exact ⟨fetch, List.mem_append_left _ hfetch, hfollower, hof, hsame ▸ hle⟩
  rcases (step_explained hb).hwm with hsame | ⟨i, logEnd, serve, rfl, ht, hhwm⟩
  · exact hkeep hsame
  · dsimp only at hhwm
    have hle := (c.nodes b).broker.repl.le_advanceHwm b logEnd (c.nodes b).broker.hwm
    by_cases hlt : (c.nodes b).broker.hwm < broker.hwm
    · cases hacts
      have hto := hguard (.advanceTo logEnd serve) ht logEnd rfl (hhwm ▸ hlt) req
        (mem_inFlight.mpr ⟨hreq, hepoch⟩) hproposer f hf hne hout
      obtain ⟨fetch, hfetch, hfollower, hof, hoffset⟩ := (h.matched b).fetched hto
      have hlead := hrequest.leads
      rw [hproposer] at hlead
      have hage := hlead hto.1
      have hbound := (h.copies.covers (.replica b)).epoch_le
      refine ⟨fetch, List.mem_append_left _ hfetch, hfollower, by omega, ?_⟩
      rw [hhwm]
      exact hoffset
    · exact hkeep (by omega)

private theorem AdmissionInv.request_step (h : AdmissionInv c) (hguard : AdmitsFetched config c a)
    (hacts : Acts c a b act net)
    (hb : (c.nodes b).broker.step (config b) b act = some (broker, events))
    {req : AlterIsrRequest} (hreq : .alterIsr req ∈ c.net) {rest : List Message} :
    Request { c with
      nodes := Function.update c.nodes b ⟨broker, (c.nodes b).trace ++ events⟩
      net := rest } req := by
  have hrequest := h.requests req hreq
  by_cases hproposer : req.proposer = b
  · refine ⟨hrequest.epoch_le, fun hleader => ?_, fun p hp => ?_, hrequest.office,
      fun hepoch f hf hne hout => ?_⟩
    · rw [hproposer] at hleader ⊢
      simp only [Function.update_self] at hleader ⊢
      rcases (step_explained hb).repl.authority with hauth | ⟨p, -, hruntime, hst⟩
      · rw [show broker.repl.epoch = (c.nodes b).broker.repl.epoch from
          congrArg Authority.epoch hauth]
        have hold := hrequest.leads
        rw [hproposer] at hold
        exact hold ((congrArg Authority.leader hauth).symm.trans hleader)
      · dsimp only at hst
        rw [hst, (ReplState.applyMetadata_follows _ _ _ _).1]
        exact hrequest.pulled p (by rw [hproposer, hruntime])
    · rw [hproposer] at hp
      simp only [Function.update_self] at hp
      rcases hacts.pulled_step hb hp with hold | rfl
      · exact hrequest.pulled p (by rw [hproposer, hold])
      · exact hrequest.epoch_le
    · rw [hproposer] at hne ⊢
      simp only [Function.update_self]
      exact h.fetched_step hguard hacts hb hreq hproposer hepoch hf hne hout
  · refine ⟨hrequest.epoch_le, ?_, ?_, hrequest.office, ?_⟩
    · simpa [hproposer] using hrequest.leads
    · simpa [hproposer] using hrequest.pulled
    · simpa [hproposer] using hrequest.fetched

private theorem AdmissionInv.request_sent (h : AdmissionInv c) (hguard : AdmitsFetched config c a)
    (hacts : Acts c a b act net)
    (hb : (c.nodes b).broker.step (config b) b act = some (broker, events))
    {req : AlterIsrRequest} (hreq : .sent (.alterIsr req) ∈ events) {rest : List Message} :
    Request { c with
      nodes := Function.update c.nodes b ⟨broker, (c.nodes b).trace ++ events⟩
      net := rest } req := by
  cases (step_explained hb).events _ hreq with
  | @alterIsr leaderEpoch isr hproposal =>
    obtain ⟨-, _, _, hsame, hr⟩ := step_propose hb
    rw [hproposal] at hsame
    cases hsame
    cases hr
    obtain ⟨hleader, rfl⟩ := ReplState.isrProposal_eq_some hproposal
    refine ⟨(h.copies.covers (.replica b)).epoch_le, fun _ => ?_, fun p hp => ?_,
      fun hepoch => h.leads b hleader hepoch, fun hepoch f hf hne hout => ?_⟩
    · simp only [Function.update_self]
      exact le_rfl
    · simp only [Function.update_self] at hp
      cases hp
    · cases hacts with
      | broker =>
        simp only [Function.update_self]
        obtain ⟨fetch, hfetch, hfollower, hof, hle⟩ :=
          (h.matched b).fetched (hguard hepoch _ hproposal f hf hne hout)
        exact ⟨fetch, List.mem_append_left _ hfetch, hfollower, hof, hle⟩

theorem AdmissionInv.acts (h : AdmissionInv c) (hguard : AdmitsFetched config c a)
    (hacts : Acts c a b act net)
    (hb : (c.nodes b).broker.step (config b) b act = some (broker, events))
    (hcopies : CopiesInv { c with
      nodes := Function.update c.nodes b ⟨broker, (c.nodes b).trace ++ events⟩
      net := net ++ events.filterMap Event.sent? }) :
    AdmissionInv { c with
      nodes := Function.update c.nodes b ⟨broker, (c.nodes b).trace ++ events⟩
      net := net ++ events.filterMap Event.sent? } := by
  refine ⟨hcopies, fun b' => ?_, h.office, fun b' => ?_, fun b' p => ?_, fun req hreq => ?_⟩
  · by_cases hb' : b' = b
    · subst hb'
      simp only [Function.update_self]
      exact (h.matched b').step hb
    · simpa [hb'] using h.matched b'
  · by_cases hb' : b' = b
    · subst hb'
      simp only [Function.update_self]
      exact h.leads_step hb
    · simpa [hb'] using h.leads b'
  · by_cases hb' : b' = b
    · subst hb'
      simp only [Function.update_self]
      intro hruntime hleader hepoch
      rcases hacts.pulled_step hb hruntime with hold | rfl
      · exact h.pulled b' p hold hleader hepoch
      · exact ⟨h.office b' hleader, .inl hleader⟩
    · simpa [hb'] using h.pulled b' p
  · rcases List.mem_append.mp hreq with hold | hnew
    · exact h.request_step hguard hacts hb (hacts.net_subset hold)
    · exact h.request_sent hguard hacts hb (mem_sent hnew)

end Acting

/-! ## The controller acts -/

theorem AdmissionInv.sweeps (h : AdmissionInv c) {k : Controller} (hk : c.controller.Follows k)
    (hcopies : CopiesInv { c with controller := k }) :
    AdmissionInv { c with controller := k } := by
  -- what is of the new epoch was of the old one, which has not passed
  have hsame : ∀ {epoch}, epoch ≤ c.controller.leaderEpoch → epoch = k.leaderEpoch →
      k.leaderEpoch = c.controller.leaderEpoch := by
    intro epoch hle heq
    rcases hk.epoch with ⟨hepoch, -, -⟩ | hnext
    · exact hepoch
    · omega
  refine ⟨hcopies, h.matched, hk.office h.office, fun b hleader hepoch => ?_,
    fun b p hruntime hleader hepoch => ?_, fun req hreq => ?_⟩
  · have hepochs := hsame (h.copies.covers (.replica b)).epoch_le hepoch
    exact (h.leads b hleader (hepoch.trans hepochs)).follows hk hepochs
  · have hepochs := hsame (h.copies.covers (.pulled hruntime)).epoch_le hepoch
    exact (h.pulled b p hruntime hleader (hepoch.trans hepochs)).follows hk hepochs
  · have hrequest := h.requests req hreq
    refine ⟨?_, hrequest.leads, hrequest.pulled, fun hepoch => ?_, fun hepoch f hf hne hout => ?_⟩
    · have hle := hrequest.epoch_le
      rcases hk.epoch with ⟨hepoch, -, -⟩ | hnext
      · exact hle.trans hepoch.ge
      · dsimp only
        omega
    · have hepochs := hsame hrequest.epoch_le hepoch
      exact (hrequest.office (hepoch.trans hepochs)).follows hk hepochs
    · rcases hk.epoch with ⟨hepochs, hisr, -⟩ | hnext
      · rw [hisr] at hout
        exact hrequest.fetched (hepoch.trans hepochs) f hf hne hout
      · have hle := hrequest.epoch_le
        dsimp only at hepoch
        omega

/-- Messages that are no requests may come and go. -/
theorem AdmissionInv.net (h : AdmissionInv c) {net : List Message}
    (hnet : ∀ req, .alterIsr req ∈ net → .alterIsr req ∈ c.net)
    (hcopies : CopiesInv { c with net }) : AdmissionInv { c with net } where
  copies := hcopies
  matched := h.matched
  office := h.office
  leads := h.leads
  pulled := h.pulled
  requests req hreq := by
    have hrequest := h.requests req (hnet req hreq)
    exact ⟨hrequest.epoch_le, hrequest.leads, hrequest.pulled, hrequest.office, hrequest.fetched⟩

/-- An `AlterIsr` is handled that takes out no broker that another one brings back unfetched. -/
theorem AdmissionInv.stepAlterIsr (h : AdmissionInv c) {req : AlterIsrRequest}
    (hguard : AcceptsFetched c req) (hcopies : CopiesInv (c.stepAlterIsr req)) :
    AdmissionInv (c.stepAlterIsr req) := by
  rcases c.controller.alterIsr_cases req with ⟨code, hrefused⟩ |
    ⟨hepoch, ⟨l, hl, hmem⟩, version, hversion, hok⟩
  · have hsame : c.stepAlterIsr req =
        { c with net := c.net ++ [.alterIsrReply req (.error code)] } := by
      have hnone : c.controller.isr.filter (· ∉ c.controller.isr) = [] := by
        rw [List.filter_eq_nil_iff]
        exact fun f hf => by simpa using hf
      rw [Cluster.stepAlterIsr, hrefused]
      dsimp only
      rw [hnone, List.map_nil, List.append_nil]
    rw [hsame] at hcopies ⊢
    refine h.net (fun other hother => ?_) hcopies
    rcases List.mem_append.mp hother with hother | hother
    · exact hother
    · cases List.mem_singleton.mp hother
  · have hoffice : ∀ {b}, c.controller.InOffice b →
        ({ c.controller with isr := req.isr, version } : Controller).InOffice b := by
      intro b hb
      refine ⟨?_, hb.2⟩
      rcases hb.2 with hleader | hnone
      · rw [hl] at hleader
        cases hleader
        exact hmem
      · rw [hl] at hnone
        cases hnone
    rw [Cluster.stepAlterIsr, hok] at hcopies ⊢
    refine ⟨hcopies, h.matched, fun l' hl' => ?_,
      fun b hleader he => hoffice (h.leads b hleader he),
      fun b p hruntime hleader he => hoffice (h.pulled b p hruntime hleader he),
      fun other hother => ?_⟩
    · rw [show c.controller.leader = some l' from hl'] at hl
      cases hl
      exact hmem
    · have hold : .alterIsr other ∈ c.net := by
        rcases List.mem_append.mp hother with hother | hother
        · exact hother
        · cases List.mem_singleton.mp hother
      have hrequest := h.requests other hold
      refine ⟨hrequest.epoch_le, hrequest.leads, hrequest.pulled,
        fun he => hoffice (hrequest.office he), fun he f hf hne hout => ?_⟩
      by_cases hin : f ∈ c.controller.isr
      · have hto := hguard hepoch other (mem_inFlight.mpr ⟨hold, he⟩) f hf hin hout
        obtain ⟨fetch, hfetch, hfollower, hof, hle⟩ := (h.matched other.proposer).fetched hto
        have hage := hrequest.leads hto.1
        have hbound := (h.copies.covers (.replica other.proposer)).epoch_le
        have hnow : other.leaderEpoch = c.controller.leaderEpoch := he
        exact ⟨fetch, hfetch, hfollower, by omega, hle⟩
      · exact hrequest.fetched he f hf hne hin

/-- A broker that starts again has no role, and what it has accepted stays accepted. -/
theorem AdmissionInv.crash (h : AdmissionInv c) (b : BrokerId) (broker : Broker)
    (hcopies : CopiesInv { c with
      nodes := Function.update c.nodes b { c.nodes b with broker := broker.restart } }) :
    AdmissionInv { c with
      nodes := Function.update c.nodes b { c.nodes b with broker := broker.restart } } := by
  refine ⟨hcopies, fun b' => ?_, h.office, fun b' => ?_, fun b' p => ?_, fun req hreq => ?_⟩
  · by_cases hb' : b' = b
    · subst hb'
      simp only [Function.update_self]
      exact fun hleader => by cases hleader
    · simpa [hb'] using h.matched b'
  · by_cases hb' : b' = b
    · subst hb'
      simp only [Function.update_self]
      exact fun hleader => by cases hleader
    · simpa [hb'] using h.leads b'
  · by_cases hb' : b' = b
    · subst hb'
      simp only [Function.update_self]
      exact fun hruntime => by cases hruntime
    · simpa [hb'] using h.pulled b' p
  · have hrequest := h.requests req hreq
    by_cases hproposer : req.proposer = b
    · refine ⟨hrequest.epoch_le, fun hleader => ?_, fun p hp => ?_, hrequest.office,
        fun hepoch f hf hne hout => ?_⟩
      · rw [hproposer] at hleader
        simp only [Function.update_self] at hleader
        cases hleader
      · rw [hproposer] at hp
        simp only [Function.update_self] at hp
        cases hp
      · obtain ⟨fetch, hfetch, hfollower, hof, -⟩ := hrequest.fetched hepoch f hf hne hout
        rw [hproposer] at hfetch ⊢
        simp only [Function.update_self]
        exact ⟨fetch, hfetch, hfollower, hof, Nat.zero_le _⟩
    · refine ⟨hrequest.epoch_le, ?_, ?_, hrequest.office, ?_⟩
      · simpa [hproposer] using hrequest.leads
      · simpa [hproposer] using hrequest.pulled
      · simpa [hproposer] using hrequest.fetched

theorem AdmissionInv.step (h : AdmissionInv c) (hguard : AdmitsFetched config c a)
    (hstep : step config c a = some c') : AdmissionInv c' := by
  have hcopies := h.copies.step hstep
  cases steps_of_step hstep with
  | sweeps hsweeps => exact h.sweeps hsweeps.follows hcopies
  | acts hacts hb => exact h.acts hguard hacts hb hcopies
  | @alterIsr i g req hm =>
    have hrest : AdmissionInv { c with net := c.net.eraseIdx i } :=
      h.net (fun _ hreq => List.eraseIdx_subset hreq)
        ⟨h.copies.started, fun hcopy => h.copies.covers
          (hcopy.mono fun _ _ hm => List.eraseIdx_subset hm)⟩
    refine hrest.stepAlterIsr (fun hepoch other hother => ?_) hcopies
    exact hguard _ hm req rfl hepoch other (mem_inFlight_of_eraseIdx hother)
  | lose => exact h.net (fun _ hreq => List.eraseIdx_subset hreq) hcopies
  | crash => exact h.crash _ _ hcopies

end Cluster
end Replog.Replication
