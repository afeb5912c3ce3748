import Replog.Replication.AckLedger
import Replog.Replication.Following
import Replog.Replication.IsrCopies

/-!
# The reign of the first leader

As long as the broker that a partition is created with neither dies nor loses its session, it leads
epoch 1. Its followers hold what it holds up to where they are, through their own crashes and
whatever happens to the messages, and whoever it takes the minimum over has everything that was
acknowledged or given to a consumer.
-/

namespace Replog.Replication
open Replog.Library Replog.Storage Broker

/-! ## The leader -/

/-- What waits to be used at a leader that is told of no other. -/
def LeaderItem (l : BrokerId) (b : Broker) : Item → Prop
  | .task (.produce ticket) | .task (.ledger ticket _ _) | .cmd (.append ticket) =>
    ticket.authority = ⟨true, 1, 1⟩ ∧ b.repl.authority = ⟨true, 1, 1⟩
  | .task (.advanceTo logEnd _) => logEnd ≤ b.log.length
  | .task (.consume _ hwm) | .cmd (.readConsumer _ hwm) => hwm ≤ b.hwm
  | .cmd (.appendReplicated _ _) | .cmd (.truncateTo _ _) | .fetcher _ _ => False
  | .cmd (.recordEpoch _ epoch) => epoch = 1
  | .runtime (.pulled p) => p.leader = some l ∧ p.leaderEpoch = 1
  | .runtime (.leading authority) => authority.epoch = 1
  | _ => True

structure LeaderInv (l : BrokerId) (s : Node) : Prop where
  role : s.broker.repl.authority = ⟨false, 0, 0⟩ ∨ s.broker.repl.authority = ⟨true, 1, 1⟩
  place : InPlace s.broker.log
  checkpoint : s.broker.epochs = ⟨[]⟩ ∨ ∃ start, s.broker.epochs = ⟨[(1, start)]⟩
  items : ∀ x, s.broker.Has x → LeaderItem l s.broker x
  ledger : Node.LedgerInv l s
  mark : s.broker.hwm ≤ s.broker.log.length
  completed : ∀ p, .completed p ∈ s.trace →
    InLog s.broker.log p.ticket p.base p.count ∧ p.base + p.count ≤ s.broker.hwm
  served : ∀ records, .served records ∈ s.trace → ∀ r ∈ records, r.offset < s.broker.hwm ∧
    (s.broker.log[r.offset]?).map Entry.record = some r
  raised : 0 < s.broker.hwm → ∃ isr, .raised 1 isr s.broker.hwm ∈ s.trace ∧
    ∀ f ∈ isr, f ≠ l → ∃ req, .accepted req ∈ s.trace ∧ req.follower = f ∧
      s.broker.hwm ≤ req.offset

namespace LeaderInv

variable {l : BrokerId} {config : BrokerConfig} {s : Node} {a : Action} {b : Broker}
  {events : List Event}

theorem authority (h : LeaderInv l s) (hleader : s.broker.repl.isLeader = true) :
    s.broker.repl.authority = ⟨true, 1, 1⟩ := by
  refine h.role.resolve_left fun hrole => ?_
  rw [show s.broker.repl.isLeader = false from congrArg Authority.leader hrole] at hleader
  cases hleader

theorem no_fetcher (h : LeaderInv l s) {g : ℕ} {f : Fetcher} : s.broker.fetchers g ≠ some f :=
  fun hf => h.items (.fetcher g f) hf

/-- Nothing that the leader does comes too late for the ledger. -/
theorem timely (h : LeaderInv l s) : Node.Timely l s a := by
  have hleads (heq : s.broker.repl.authority = ⟨true, 1, 1⟩) : s.broker.repl.isLeader = true :=
    congrArg Authority.leader heq
  refine ⟨fun i _ t ht => ?_, fun _ c hc => ?_, fun _ p hp hepoch hleader _ => ?_⟩
  · have hitem := h.items (.task t) (List.mem_of_getElem? ht)
    cases t with
    | ledger ticket base count => exact ⟨hleads hitem.2, hitem.1.trans hitem.2.symm⟩
    | advanceTo logEnd serve => exact fun _ => hitem
    | _ => trivial
  · have hitem := h.items (.cmd c) (List.mem_of_mem_head? hc)
    cases c with
    | truncateTo authority offset => exact hitem.elim
    | _ => trivial
  · cases hruntime : s.broker.runtime with
    | pulled p' =>
      rw [hruntime] at hp
      cases hp
      have hitem := h.items (.runtime (.pulled p)) hruntime
      exact absurd (hitem.2.trans (congrArg Authority.epoch (h.authority hleader)).symm) hepoch
    | idle | leading | proposing =>
      rw [hruntime] at hp
      cases hp

theorem log_grows (h : LeaderInv l s) (hb : s.broker.step config l a = some (b, events)) :
    s.broker.log <+: b.log := by
  rcases (step_explained hb).log.isPrefix with hlog | ⟨_, _, _, authority, offset, queue, -, hqueue,
    -⟩
  · exact hlog
  · exact (h.items (.cmd (.truncateTo authority offset))
      (show _ ∈ s.broker.queue from hqueue ▸ List.mem_cons_self)).elim

theorem hwm_grows (hb : s.broker.step config l a = some (b, events)) :
    s.broker.hwm ≤ b.hwm := by
  rcases (step_explained hb).hwm with hsame | ⟨i, logEnd, serve, -, -, hhwm⟩
  · exact hsame.ge
  · dsimp only at hhwm
    rw [hhwm]
    exact s.broker.repl.le_advanceHwm l logEnd s.broker.hwm

private theorem mark_step (h : LeaderInv l s) (hb : s.broker.step config l a = some (b, events)) :
    b.hwm ≤ b.log.length := by
  have hlog := (h.log_grows hb).length_le
  have hmark := h.mark
  rcases (step_explained hb).hwm with hsame | ⟨i, logEnd, serve, -, ht, hhwm⟩
  · dsimp only at hsame
    omega
  · have hend : logEnd ≤ s.broker.log.length :=
      h.items (.task (.advanceTo logEnd serve)) (List.mem_of_getElem? ht)
    dsimp only at hhwm
    cases hleader : s.broker.repl.isLeader with
    | false =>
      rw [ReplState.advanceHwm_not_leader hleader] at hhwm
      dsimp only at hhwm
      omega
    | true =>
      have hmin := s.broker.repl.isrMin_le_logEnd l logEnd
      rw [ReplState.advanceHwm_leader hleader] at hhwm
      dsimp only at hhwm
      omega

theorem role_step (h : LeaderInv l s) (hb : s.broker.step config l a = some (b, events)) :
    (b.repl.authority = ⟨false, 0, 0⟩ ∨ b.repl.authority = ⟨true, 1, 1⟩) ∧
      (s.broker.repl.authority = ⟨true, 1, 1⟩ → b.repl.authority = ⟨true, 1, 1⟩) := by
  rcases (step_explained hb).repl.authority with hsame | ⟨p, -, hruntime, hst⟩
  · dsimp only at hsame
    rw [hsame]
    exact ⟨h.role, id⟩
  · dsimp only at hst
    obtain ⟨hleader, hepoch⟩ := h.items (.runtime (.pulled p)) hruntime
    suffices hnow : b.repl.authority = ⟨true, 1, 1⟩ from ⟨.inr hnow, fun _ => hnow⟩
    rw [hst]
    rcases h.role with hrole | hrole
    · have hold : s.broker.repl.epoch = 0 := congrArg Authority.epoch hrole
      have hgeneration : s.broker.repl.fetcherGeneration = 0 := congrArg Authority.generation hrole
      simp [ReplState.applyMetadata, ReplState.authority, hleader, hepoch, hold, hgeneration]
    · have hold : s.broker.repl.epoch = 1 := congrArg Authority.epoch hrole
      have hleads : s.broker.repl.isLeader = true := congrArg Authority.leader hrole
      have hgeneration : s.broker.repl.fetcherGeneration = 1 := congrArg Authority.generation hrole
      simp [ReplState.applyMetadata, ReplState.authority, hleader, hepoch, hold, hleads,
        hgeneration]

theorem items_step (h : LeaderInv l s)
    (htold : ∀ p ∈ a.metadata?, p.leader = some l ∧ p.leaderEpoch = 1)
    (hb : s.broker.step config l a = some (b, events)) {x : Item} (hx : b.Has x) :
    LeaderItem l b x := by
  have hlog := (h.log_grows hb).length_le
  have hhwm := hwm_grows hb
  have hrole := (h.role_step hb).2
  have hmono : ∀ x, LeaderItem l s.broker x → LeaderItem l b x := by
    intro x hx
    cases x with
    | task t =>
      cases t with
      | produce ticket => exact ⟨hx.1, hrole hx.2⟩
      | ledger ticket base count => exact ⟨hx.1, hrole hx.2⟩
      | advanceTo logEnd serve => exact Nat.le_trans hx hlog
      | consume offset hwm => exact Nat.le_trans hx hhwm
      | _ => trivial
    | cmd c =>
      cases c with
      | append ticket => exact ⟨hx.1, hrole hx.2⟩
      | readConsumer offset hwm => exact Nat.le_trans hx hhwm
      | appendReplicated => exact hx.elim
      | truncateTo => exact hx.elim
      | _ => exact hx
    | fetcher g f => exact hx.elim
    | runtime r => cases r <;> exact hx
  have htask {i : ℕ} {t : Task} (ht : s.broker.tasks[i]? = some t) : LeaderItem l b (.task t) :=
    hmono _ (h.items (.task t) (List.mem_of_getElem? ht))
  have hhead {c : Cmd} {queue : List Cmd} (hqueue : s.broker.queue = c :: queue) :
      LeaderItem l b (.cmd c) :=
    hmono _ (h.items (.cmd c) (show c ∈ s.broker.queue from hqueue ▸ List.mem_cons_self))
  rcases (step_explained hb).items x hx with hold | hcreate
  · exact hmono x (h.items x hold)
  · cases hcreate with
    | produce hcheck =>
      obtain ⟨hleader, rfl, -⟩ := ReplState.precheck_eq_ok hcheck
      exact ⟨h.authority hleader, hrole (h.authority hleader)⟩
    | consume => exact hhwm
    | advanceTo ht => exact hlog
    | append ht => exact htask ht
    | readConsumer ht => exact htask ht
    | ledger hqueue hok hne => exact hhead hqueue
    | appended hqueue => exact (hhead hqueue).elim
    | truncated hqueue => exact (hhead hqueue).elim
    | status _ hf => exact absurd hf h.no_fetcher
    | pulled => exact htold _ rfl
    | leading hruntime =>
      have hitem := h.items (.runtime (.pulled _)) hruntime
      exact (ReplState.applyMetadata_follows _ _ _ _).1.trans hitem.2
    | following hruntime _ htransition =>
      have hitem := h.items (.runtime (.pulled _)) hruntime
      exact absurd hitem.1 (ReplState.applyMetadata_following htransition).1
    | recordEpoch hruntime => exact h.items (.runtime (.leading _)) hruntime
    | fetcher hf => exact absurd hf h.no_fetcher
    | truncateTo hf => exact absurd hf h.no_fetcher
    | fetcherEpoch hf => exact absurd hf h.no_fetcher
    | appendReplicated hf => exact absurd hf h.no_fetcher
    | checked hf => exact absurd hf h.no_fetcher
    | received hf => exact absurd hf h.no_fetcher
    | exiting hf => exact absurd hf h.no_fetcher
    | _ => trivial

theorem place_step (h : LeaderInv l s) (hb : s.broker.step config l a = some (b, events)) :
    InPlace b.log ∧ (b.epochs = ⟨[]⟩ ∨ ∃ start, b.epochs = ⟨[(1, start)]⟩) := by
  have hlog := (step_explained hb).log
  dsimp only at hlog
  generalize b.log = log, b.epochs = epochs at hlog ⊢
  have hhead {c : Cmd} {queue : List Cmd} (hqueue : s.broker.queue = c :: queue) :
      LeaderItem l s.broker (.cmd c) :=
    h.items (.cmd c) (show c ∈ s.broker.queue from hqueue ▸ List.mem_cons_self)
  cases hlog with
  | append hqueue =>
    refine ⟨?_, h.checkpoint⟩
    obtain ⟨new, hlog, -, hoffset, -⟩ := appendRecords_spec config.log _ _ _ s.broker.log
    rw [hlog]
    intro i e he
    rcases Nat.lt_or_ge i s.broker.log.length with hlt | hge
    · rw [List.getElem?_append_left hlt] at he
      exact h.place i e he
    · rw [List.getElem?_append_right hge] at he
      rw [hoffset _ e he, Nat.add_sub_cancel' hge]
  | appendReplicated hqueue => exact (hhead hqueue).elim
  | truncateTo hqueue => exact (hhead hqueue).elim
  | recordEpoch hqueue hepoch =>
    refine ⟨h.place, ?_⟩
    have hone := hhead hqueue
    dsimp only [LeaderItem] at hone
    subst hone
    rcases checkpoint_epoch h.checkpoint with ⟨-, hnil⟩ | hone
    · rw [hnil]
      exact .inr ⟨s.broker.log.length, rfl⟩
    · exact absurd hepoch (by rw [hone]; exact Nat.lt_irrefl 1)
  | same => exact ⟨h.place, h.checkpoint⟩

private theorem completed_step (h : LeaderInv l s) (hb : s.broker.step config l a = some (b, events))
    {p : Pending} (hp : .completed p ∈ events) :
    InLog b.log p.ticket p.base p.count ∧ p.base + p.count ≤ b.hwm := by
  cases (step_explained hb).events _ hp with
  | @completed i logEnd serve _ ht hmem =>
    have hhwm := step_advance ht hb
    cases hleader : s.broker.repl.isLeader with
    | false =>
      rw [ReplState.advanceHwm_not_leader hleader] at hmem
      cases hmem
    | true =>
      rw [ReplState.advanceHwm_leader hleader] at hmem hhwm
      obtain ⟨hpending, hcovered⟩ := List.mem_filter.mp hmem
      obtain ⟨-, -, hlast, hrecorded⟩ := h.ledger.pending p hpending
      have hpos := hrecorded.inLog.pos
      have hlt := of_decide_eq_true hcovered
      refine ⟨hrecorded.inLog.mono (h.log_grows hb), ?_⟩
      dsimp only at hhwm
      omega

private theorem served_step (h : LeaderInv l s) (hb : s.broker.step config l a = some (b, events))
    {records : List Record} (hserved : .served records ∈ events) {r : Record} (hr : r ∈ records) :
    r.offset < b.hwm ∧ (b.log[r.offset]?).map Entry.record = some r := by
  cases (step_explained hb).events _ hserved with
  | @served offset hwm queue wall more again read hqueue hread =>
    have hitem : hwm ≤ s.broker.hwm :=
      h.items (.cmd (.readConsumer offset hwm)) (show _ ∈ s.broker.queue from
        hqueue ▸ List.mem_cons_self)
    have hlt : decide (r.offset < hwm) = true :=
      List.mem_takeWhile_imp (p := fun r : Record => decide (r.offset < hwm)) hr
    obtain ⟨e, he, rfl⟩ := List.mem_map.mp ((List.takeWhile_prefix _).subset hr)
    have hcopies := (copies_readFrom h.place List.prefix_rfl hread).mono (h.log_grows hb)
    refine ⟨(of_decide_eq_true hlt).trans_le (hitem.trans (hwm_grows hb)), ?_⟩
    rw [hcopies e he]
    rfl

private theorem raised_step (h : LeaderInv l s) (hb : s.broker.step config l a = some (b, events))
    (hpos : 0 < b.hwm) : ∃ isr, .raised 1 isr b.hwm ∈ s.trace ++ events ∧
      ∀ f ∈ isr, f ≠ l → ∃ req, .accepted req ∈ s.trace ∧ req.follower = f ∧
        b.hwm ≤ req.offset := by
  have hold (hsame : b.hwm = s.broker.hwm) : ∃ isr, .raised 1 isr b.hwm ∈ s.trace ++ events ∧
      ∀ f ∈ isr, f ≠ l → ∃ req, .accepted req ∈ s.trace ∧ req.follower = f ∧
        b.hwm ≤ req.offset := by
    rw [hsame] at hpos ⊢
    obtain ⟨isr, hraised, hfetched⟩ := h.raised hpos
    exact ⟨isr, List.mem_append_left _ hraised, hfetched⟩
  rcases (step_explained hb).hwm with hsame | ⟨i, logEnd, serve, rfl, ht, hhwm⟩
  · exact hold hsame
  · dsimp only at hhwm
    cases hleader : s.broker.repl.isLeader with
    | false =>
      rw [ReplState.advanceHwm_not_leader hleader] at hhwm
      exact hold hhwm
    | true =>
      by_cases hlt : s.broker.hwm < (s.broker.repl.advanceHwm l logEnd s.broker.hwm).1
      · have hevents := step_raise ht hb hlt
        have hepoch : s.broker.repl.epoch = 1 := congrArg Authority.epoch (h.authority hleader)
        dsimp only at hevents
        rw [hevents, ← hhwm, hepoch]
        refine ⟨s.broker.repl.isr, List.mem_append_right _ List.mem_cons_self, fun f hf hne => ?_⟩
        have hmin := ReplState.isrMin_le_matched hf hne logEnd
        rw [ReplState.advanceHwm_leader hleader] at hhwm hlt
        dsimp only at hhwm hlt
        obtain ⟨t, hmatched⟩ := s.broker.repl.matched_pos (f := f) (by omega)
        obtain ⟨req, hreq, hfollower, -, hoffset⟩ := h.ledger.matched hleader f _ t hmatched
        exact ⟨req, hreq, hfollower, by omega⟩
      · refine hold (hhwm.trans (Nat.le_antisymm (Nat.not_lt.mp hlt) ?_))
        exact s.broker.repl.le_advanceHwm l logEnd s.broker.hwm

theorem step (h : LeaderInv l s) (htold : ∀ p ∈ a.metadata?, p.leader = some l ∧ p.leaderEpoch = 1)
    (hb : s.broker.step config l a = some (b, events)) : LeaderInv l ⟨b, s.trace ++ events⟩ := by
  have hledger := h.ledger.step h.timely
    (show s.step config l a = some ⟨b, s.trace ++ events⟩ from by rw [Node.step, hb]; rfl)
  refine ⟨(h.role_step hb).1, (h.place_step hb).1, (h.place_step hb).2,
    fun x hx => h.items_step htold hb hx, hledger, h.mark_step hb, fun p hp => ?_,
    fun records hserved r hr => ?_, fun hpos => ?_⟩
  · rcases List.mem_append.mp hp with hp | hp
    · obtain ⟨hin, hle⟩ := h.completed p hp
      exact ⟨hin.mono (h.log_grows hb), hle.trans (hwm_grows hb)⟩
    · exact h.completed_step hb hp
  · rcases List.mem_append.mp hserved with hserved | hserved
    · obtain ⟨hlt, hat⟩ := h.served records hserved r hr
      refine ⟨hlt.trans_le (hwm_grows hb), ?_⟩
      obtain ⟨e, he, heq⟩ := Option.map_eq_some_iff.mp hat
      obtain ⟨rest, hrest⟩ := h.log_grows hb
      dsimp only
      rw [← hrest, List.getElem?_append_left (List.getElem?_eq_some_iff.mp he).1, he]
      exact congrArg some heq
    · exact h.served_step hb hserved hr
  · obtain ⟨isr, hraised, hfetched⟩ := h.raised_step hb hpos
    refine ⟨isr, hraised, fun f hf hne => ?_⟩
    obtain ⟨req, hreq, hfollower, hle⟩ := hfetched f hf hne
    exact ⟨req, List.mem_append_left _ hreq, hfollower, hle⟩

theorem init : LeaderInv l {} := by
  refine ⟨.inl rfl, fun i e he => ?_, .inl rfl, fun x hx => ?_, .init, le_rfl, fun p hp => ?_,
    fun records hserved => ?_, fun hpos => ?_⟩
  · cases he
  · cases x with
    | task t => cases hx
    | cmd c => cases hx
    | fetcher g f => cases hx
    | runtime r =>
      cases hx
      trivial
  · cases hp
  · cases hserved
  · cases hpos

end LeaderInv

/-- A log has what was acknowledged to the producers of acks=all and given to consumers. -/
structure HasAnswered (trace : List Event) (log : List Entry) : Prop where
  completed : ∀ p, .completed p ∈ trace → InLog log p.ticket p.base p.count
  served : ∀ records, .served records ∈ trace → ∀ r ∈ records,
    (log[r.offset]?).map Entry.record = some r

private theorem InLog.of_covered {log log' : List Entry} {ticket : Ticket} {base count : ℕ}
    (h : InLog log' ticket base count) (hlog : log <+: log') (hle : base + count ≤ log.length) :
    InLog log ticket base count := by
  obtain ⟨rest, rfl⟩ := hlog
  have hrecords := h.records
  rw [List.drop_append_of_le_length (by omega),
    List.take_append_of_le_length (by rw [List.length_drop]; omega)] at hrecords
  exact ⟨h.pos, hle, h.length, hrecords⟩

/-- Who holds the leader's log up to its high-water mark has all that it has answered. -/
theorem LeaderInv.hasAnswered {l : BrokerId} {s : Node} (h : LeaderInv l s) {log : List Entry}
    (hlog : log <+: s.broker.log) (hle : s.broker.hwm ≤ log.length) :
    HasAnswered s.trace log := by
  refine ⟨fun p hp => ?_, fun records hserved r hr => ?_⟩
  · obtain ⟨hin, hcovered⟩ := h.completed p hp
    exact hin.of_covered hlog (hcovered.trans hle)
  · obtain ⟨hlt, hat⟩ := h.served records hserved r hr
    obtain ⟨rest, hrest⟩ := hlog
    rwa [← hrest, List.getElem?_append_left (hlt.trans_le hle)] at hat

/-! ## The leader among its followers -/

def Cmd.check? : Cmd → Option EpochCheckRequest
  | .epochEndFor _ req => some req
  | _ => none

namespace Cluster

/-- The leader neither dies nor loses its session, and it has recorded its epoch when it answers
the epoch check of a follower that has. -/
def Stays (l : BrokerId) (c : Cluster) : Action → Prop
  | .sweepLiveness expired => l ∉ expired
  | .crash b _ _ => b ≠ l
  | .broker b (.process _ _ _) => b = l → ∀ cmd ∈ (c.nodes l).broker.queue.head?,
    ∀ req ∈ cmd.check?, req.epoch ≤ (c.nodes l).broker.epochs.currentEpoch
  | _ => True

instance (l : BrokerId) (c : Cluster) (a : Action) : Decidable (Stays l c a) := by
  unfold Stays
  split <;> infer_instance

/-- A follower's fetch is on its way to the leader, or was accepted. -/
inductive Fetching (l : BrokerId) (c : Cluster) (req : FetchRequest) : Prop
  | sent {target : BrokerId} (h : .replicaFetch target req ∈ c.net)
  | task {logEnd : ℕ} (h : .acceptFetch req logEnd ∈ (c.nodes l).broker.tasks)
  | accepted (h : .accepted req ∈ (c.nodes l).trace)

/-- A follower's epoch check is on its way to the leader, or its answer is on its way back. -/
inductive Checking (l : BrokerId) (c : Cluster) (req : EpochCheckRequest) : Prop
  | sent {target : BrokerId} (h : .epochCheck target req ∈ c.net)
  | task {authority : Authority} (h : .answerEpoch authority req ∈ (c.nodes l).broker.tasks)
  | cmd {authority : Authority} (h : .epochEndFor authority req ∈ (c.nodes l).broker.queue)
  | answered {result : Except ErrorCode ℕ} (h : .epochReply req result ∈ c.net)

structure ReignInv (l : BrokerId) (c : Cluster) : Prop where
  office : c.controller.leader = some l ∧ c.controller.leaderEpoch = 1
  alive : c.controller.alive l = true
  leader : LeaderInv l (c.nodes l)
  follower : ∀ b ≠ l, FollowerInv l (c.nodes l).broker.log (c.nodes b).broker
  fetches : ∀ req, Fetching l c req → req.follower ≠ l ∧
    req.offset ≤ (c.nodes req.follower).broker.log.length
  checks : ∀ req, Checking l c req → req.follower ≠ l ∧
    req.call < (c.nodes req.follower).broker.calls
  answers : ∀ req endOffset, .epochReply req (.ok endOffset) ∈ c.net →
    (c.nodes req.follower).broker.Awaits req →
    (c.nodes req.follower).broker.log.length ≤ endOffset
  copies : ∀ req records, .fetchReply req (.ok records) ∈ c.net →
    Copies (c.nodes l).broker.log records

variable {config : BrokerId → BrokerConfig} {l : BrokerId} {c c' : Cluster} {a : Action}

theorem ReignInv.create {replicas : List BrokerId} (hl : replicas.head? = some l) :
    ReignInv l (create replicas) := by
  refine ⟨⟨hl, rfl⟩, decide_eq_true (List.mem_of_head? hl), .init, fun b _ => .init l,
    fun req h => ?_, fun req h => ?_, fun req endOffset h => ?_, fun req records h => ?_⟩
  · cases h with
    | sent h => cases h
    | task h => cases h
    | accepted h => cases h
  · cases h with
    | sent h => cases h
    | task h => cases h
    | cmd h => cases h
    | answered h => cases h
  · cases h
  · cases h

/-- Nothing but the controller, which keeps the leader, and the messages changes. -/
theorem ReignInv.rest (h : ReignInv l c) {controller : Controller} {net : List Message}
    {admitted : List (ℕ × BrokerId)}
    (hoffice : controller.leader = c.controller.leader ∧
      controller.leaderEpoch = c.controller.leaderEpoch) (halive : controller.alive l = true)
    (hnet : ∀ m ∈ net, m ∈ c.net ∨ ∃ req result, m = .alterIsrReply req result) :
    ReignInv l { c with controller, net, admitted } := by
  have hold : ∀ m ∈ net, (∀ req result, m ≠ .alterIsrReply req result) → m ∈ c.net := by
    intro m hm hno
    refine (hnet m hm).resolve_right fun hreply => ?_
    obtain ⟨req, result, heq⟩ := hreply
    exact hno req result heq
  refine ⟨⟨hoffice.1.trans h.office.1, hoffice.2.trans h.office.2⟩, halive, h.leader, h.follower,
    fun req hfetch => h.fetches req ?_, fun req hcheck => h.checks req ?_,
    fun req endOffset hm => h.answers req endOffset (hold _ hm fun _ _ heq => by cases heq),
    fun req records hm => h.copies req records (hold _ hm fun _ _ heq => by cases heq)⟩
  · cases hfetch with
    | sent hm => exact .sent (hold _ hm fun _ _ heq => by cases heq)
    | task ht => exact .task ht
    | accepted hevent => exact .accepted hevent
  · cases hcheck with
    | sent hm => exact .sent (hold _ hm fun _ _ heq => by cases heq)
    | task ht => exact .task ht
    | cmd hc => exact .cmd hc
    | answered hm => exact .answered (hold _ hm fun _ _ heq => by cases heq)

/-! ### One broker acts -/

section Acting

variable {b : BrokerId} {act : Replication.Action} {net : List Message} {broker : Broker}
  {events : List Event}

theorem Acts.fetching (hacts : Acts c a b act net)
    (hb : (c.nodes b).broker.step (config b) b act = some (broker, events)) {req : FetchRequest}
    (h : Fetching l { c with
      nodes := Function.update c.nodes b ⟨broker, (c.nodes b).trace ++ events⟩
      net := net ++ events.filterMap Event.sent? } req) :
    Fetching l c req ∨ ∃ target, .sent (.replicaFetch target req) ∈ events := by
  cases h with
  | sent hm =>
    rcases List.mem_append.mp hm with hm | hm
    · exact .inl (.sent (hacts.net_subset hm))
    · exact .inr ⟨_, mem_sent hm⟩
  | @task logEnd ht =>
    left
    by_cases hbl : l = b
    · subst hbl
      simp only [Function.update_self] at ht
      rcases (step_explained hb).items (.task (.acceptFetch req logEnd)) ht with hold | hcreate
      · exact .task hold
      · cases hcreate
        cases hacts with
        | broker hlocal => cases hlocal
        | replicaFetch hm => exact .sent (List.mem_of_getElem? hm)
    · simp only [Function.update_of_ne hbl] at ht
      exact .task ht
  | accepted hevent =>
    left
    by_cases hbl : l = b
    · subst hbl
      simp only [Function.update_self] at hevent
      rcases List.mem_append.mp hevent with hold | hnew
      · exact .accepted hold
      · cases (step_explained hb).events _ hnew with
        | accepted ht => exact .task (List.mem_of_getElem? ht)
    · simp only [Function.update_of_ne hbl] at hevent
      exact .accepted hevent

/-- A broker answers an epoch check only if it has one in its queue. -/
theorem Acts.checking (hacts : Acts c a b act net)
    (hb : (c.nodes b).broker.step (config b) b act = some (broker, events))
    (hqueue : b ≠ l → ∀ authority req, .epochEndFor authority req ∉ (c.nodes b).broker.queue)
    {req : EpochCheckRequest} (h : Checking l { c with
      nodes := Function.update c.nodes b ⟨broker, (c.nodes b).trace ++ events⟩
      net := net ++ events.filterMap Event.sent? } req) :
    Checking l c req ∨ ∃ target, .sent (.epochCheck target req) ∈ events := by
  cases h with
  | sent hm =>
    rcases List.mem_append.mp hm with hm | hm
    · exact .inl (.sent (hacts.net_subset hm))
    · exact .inr ⟨_, mem_sent hm⟩
  | @task authority ht =>
    left
    by_cases hbl : l = b
    · subst hbl
      simp only [Function.update_self] at ht
      rcases (step_explained hb).items (.task (.answerEpoch authority req)) ht with hold | hcreate
      · exact .task hold
      · cases hcreate
        cases hacts with
        | broker hlocal => cases hlocal
        | epochCheck hm => exact .sent (List.mem_of_getElem? hm)
    · simp only [Function.update_of_ne hbl] at ht
      exact .task ht
  | @cmd authority hc =>
    left
    by_cases hbl : l = b
    · subst hbl
      simp only [Function.update_self] at hc
      rcases (step_explained hb).items (.cmd (.epochEndFor authority req)) hc with hold | hcreate
      · exact .cmd hold
      · cases hcreate with
        | epochEndFor ht => exact .task (List.mem_of_getElem? ht)
    · simp only [Function.update_of_ne hbl] at hc
      exact .cmd hc
  | answered hm =>
    left
    rcases List.mem_append.mp hm with hm | hm
    · exact .answered (hacts.net_subset hm)
    · cases (step_explained hb).events _ (mem_sent hm) with
      | @epochEnd authority req queue wall more again hq =>
        have hin : .epochEndFor authority req ∈ (c.nodes b).broker.queue :=
          hq ▸ List.mem_cons_self
        by_cases hbl : b = l
        · subst hbl
          exact .cmd hin
        · exact absurd hin (hqueue hbl authority req)
      | notLeader =>
        cases hacts with
        | broker hlocal => cases hlocal
        | epochCheck hsent => exact .sent (List.mem_of_getElem? hsent)

/-- Who sends a fetch has everything below the offset. -/
theorem sent_replicaFetch {target : BrokerId} {req : FetchRequest}
    (hb : (c.nodes b).broker.step (config b) b act = some (broker, events))
    (h : .sent (.replicaFetch target req) ∈ events) :
    (∃ g f, (c.nodes b).broker.fetchers g = some f) ∧ req.follower = b ∧
      req.offset = (c.nodes b).broker.log.length := by
  cases (step_explained hb).events _ h with
  | replicaFetch hf => exact ⟨⟨_, _, hf⟩, rfl, rfl⟩

theorem sent_epochCheck {target : BrokerId} {req : EpochCheckRequest}
    (hb : (c.nodes b).broker.step (config b) b act = some (broker, events))
    (h : .sent (.epochCheck target req) ∈ events) :
    (∃ g f, (c.nodes b).broker.fetchers g = some f) ∧ req.follower = b ∧
      req.call < broker.calls := by
  cases (step_explained hb).events _ h with
  | @epochCheck g f hf hphase =>
    have hstep : (c.nodes b).broker.step (config b) b (.fetcher g) =
        (c.nodes b).broker.runFetcher b g f := by
      rw [Broker.step, hf]
      rfl
    rw [hstep, Broker.runFetcher, hphase] at hb
    cases hb
    exact ⟨⟨g, f, hf⟩, rfl, Nat.lt_succ_self _⟩

/-- What a broker is told while the leader stays. -/
theorem ReignInv.told (h : ReignInv l c) (hacts : Acts c a b act net) :
    FollowerTold l (c.nodes l).broker.log (c.nodes b).broker act := by
  cases hacts with
  | pull => exact h.office
  | broker hlocal => cases act <;> trivial
  | replicaFetch hm => trivial
  | epochCheck hm => trivial
  | alterIsrReply hm => trivial
  | @fetchReply i g req result hm =>
    cases result with
    | ok records => exact h.copies req records (List.mem_of_getElem? hm)
    | error code => trivial
  | @epochReply i g req result hm =>
    cases result with
    | ok endOffset => exact h.answers req endOffset (List.mem_of_getElem? hm)
    | error code => trivial

private theorem told_metadata {log : List Entry} {follower : Broker}
    (h : FollowerTold l log follower act) :
    ∀ p ∈ act.metadata?, p.leader = some l ∧ p.leaderEpoch = 1 := by
  intro p hp
  cases act with
  | metadata p' =>
    cases hp
    exact h
  | _ => cases hp

/-- The leader finds nothing to cut: the follower is empty, or its epoch goes on. -/
theorem ReignInv.answered (h : ReignInv l c) (hguard : Stays l c a) (hacts : Acts c a l act net)
    (hb : (c.nodes l).broker.step (config l) l act = some (broker, events))
    {req : EpochCheckRequest} {endOffset : ℕ}
    (hsent : .sent (.epochReply req (.ok endOffset)) ∈ events) (hne : req.follower ≠ l)
    (hawaits : (c.nodes req.follower).broker.Awaits req) :
    (c.nodes req.follower).broker.log.length ≤ endOffset := by
  have hfollower := h.follower req.follower hne
  cases (step_explained hb).events _ hsent with
  | @epochEnd authority _ queue wall more again hqueue =>
    obtain ⟨g, f, hf, hphase⟩ := hawaits
    have hok := (hfollower.fetchers g f hf).2.2.2.phase
    rw [hphase] at hok
    by_cases hzero : req.epoch = 0
    · rw [hok hzero]
      exact Nat.zero_le _
    · cases hacts
      have hle := hguard rfl (.epochEndFor authority req) (by rw [hqueue]; rfl) req rfl
      rcases h.leader.checkpoint with hnil | ⟨start, hstart⟩
      · rw [hnil] at hle
        exact absurd (Nat.le_zero.mp hle) hzero
      · rw [hstart] at hle ⊢
        have hone : req.epoch = 1 := by
          have hcurrent : (⟨[(1, start)]⟩ : EpochCheckpoint).currentEpoch = 1 := rfl
          omega
        rw [hone]
        exact hfollower.copy.length_le

/-- What a replica fetch is answered with are copies. -/
theorem ReignInv.replied (h : ReignInv l c)
    (hlog : (c.nodes b).broker.log <+: (c.nodes l).broker.log)
    (hb : (c.nodes b).broker.step (config b) b act = some (broker, events)) {req : FetchRequest}
    {records : List Entry} (hsent : .sent (.fetchReply req (.ok records)) ∈ events) :
    Copies (c.nodes l).broker.log records := by
  have hemits := (step_explained hb).events _ hsent
  generalize hresult : Except.ok records = result at hemits
  cases hemits with
  | rejected => cases hresult
  | fetchReply hqueue => exact copies_readFrom h.leader.place hlog hresult.symm

theorem ReignInv.leads (h : ReignInv l c) (hguard : Stays l c a) (hacts : Acts c a l act net)
    (hb : (c.nodes l).broker.step (config l) l act = some (broker, events)) :
    ReignInv l { c with
      nodes := Function.update c.nodes l ⟨broker, (c.nodes l).trace ++ events⟩
      net := net ++ events.filterMap Event.sent? } := by
  have hleader := h.leader.step (told_metadata (h.told hacts)) hb
  have hlog := h.leader.log_grows hb
  refine ⟨h.office, h.alive, ?_, fun b hne => ?_, fun req hfetch => ?_, fun req hcheck => ?_,
    fun req endOffset hm => ?_, fun req records hm => ?_⟩
  · simpa using hleader
  · simpa [hne] using (h.follower b hne).mono hlog
  · rcases hacts.fetching hb hfetch with hold | ⟨target, hsent⟩
    · obtain ⟨hne, hle⟩ := h.fetches req hold
      simpa [hne] using hle
    · obtain ⟨⟨g, f, hf⟩, -⟩ := sent_replicaFetch hb hsent
      exact absurd hf h.leader.no_fetcher
  · rcases hacts.checking hb (fun hne => absurd rfl hne) hcheck with hold | ⟨target, hsent⟩
    · obtain ⟨hne, hlt⟩ := h.checks req hold
      simpa [hne] using hlt
    · obtain ⟨⟨g, f, hf⟩, -⟩ := sent_epochCheck hb hsent
      exact absurd hf h.leader.no_fetcher
  · have hne : req.follower ≠ l := by
      rcases hacts.checking hb (fun hne => absurd rfl hne) (.answered hm) with
        hold | ⟨target, hsent⟩
      · exact (h.checks req hold).1
      · obtain ⟨⟨g, f, hf⟩, -⟩ := sent_epochCheck hb hsent
        exact absurd hf h.leader.no_fetcher
    simp only [Function.update_of_ne hne]
    intro hawaits
    rcases List.mem_append.mp hm with hm | hm
    · exact h.answers req endOffset (hacts.net_subset hm) hawaits
    · exact h.answered hguard hacts hb (mem_sent hm) hne hawaits
  · simp only [Function.update_self]
    rcases List.mem_append.mp hm with hm | hm
    · exact (h.copies req records (hacts.net_subset hm)).mono hlog
    · exact (h.replied List.prefix_rfl hb (mem_sent hm)).mono hlog

theorem ReignInv.follows (h : ReignInv l c) (hne : b ≠ l) (hacts : Acts c a b act net)
    (hb : (c.nodes b).broker.step (config b) b act = some (broker, events)) :
    ReignInv l { c with
      nodes := Function.update c.nodes b ⟨broker, (c.nodes b).trace ++ events⟩
      net := net ++ events.filterMap Event.sent? } := by
  have hstep := (h.follower b hne).step hne (h.told hacts) hb
  have hother : l ≠ b := hne.symm
  have hqueue : ∀ authority req, .epochEndFor authority req ∉ (c.nodes b).broker.queue :=
    fun authority req hmem => (h.follower b hne).cmds (.epochEndFor authority req) hmem
  have hgrown (f : BrokerId) : (c.nodes f).broker.log <+:
      (Function.update c.nodes b ⟨broker, (c.nodes b).trace ++ events⟩ f).broker.log ∧
      (c.nodes f).broker.calls ≤
        (Function.update c.nodes b ⟨broker, (c.nodes b).trace ++ events⟩ f).broker.calls := by
    by_cases hf : f = b
    · subst hf
      simp only [Function.update_self]
      exact ⟨hstep.log_grows, hstep.calls⟩
    · simp only [Function.update_of_ne hf]
      exact ⟨List.prefix_rfl, le_rfl⟩
  refine ⟨h.office, h.alive, ?_, fun b' hne' => ?_, fun req hfetch => ?_, fun req hcheck => ?_,
    fun req endOffset hm => ?_, fun req records hm => ?_⟩
  · simpa [hother] using h.leader
  · simp only [Function.update_of_ne hother]
    by_cases hb' : b' = b
    · subst hb'
      simpa using hstep.inv
    · simpa [hb'] using h.follower b' hne'
  · rcases hacts.fetching hb hfetch with hold | ⟨target, hsent⟩
    · obtain ⟨hf, hle⟩ := h.fetches req hold
      exact ⟨hf, hle.trans (hgrown req.follower).1.length_le⟩
    · obtain ⟨-, rfl, hoffset⟩ := sent_replicaFetch hb hsent
      exact ⟨hne, hoffset.le.trans (hgrown req.follower).1.length_le⟩
  · rcases hacts.checking hb (fun _ => hqueue) hcheck with hold | ⟨target, hsent⟩
    · obtain ⟨hf, hlt⟩ := h.checks req hold
      exact ⟨hf, hlt.trans_le (hgrown req.follower).2⟩
    · obtain ⟨-, rfl, hlt⟩ := sent_epochCheck hb hsent
      simp only [Function.update_self]
      exact ⟨hne, hlt⟩
  · have hold : .epochReply req (.ok endOffset) ∈ c.net := by
      rcases List.mem_append.mp hm with hm | hm
      · exact hacts.net_subset hm
      · cases (step_explained hb).events _ (mem_sent hm) with
        | epochEnd hq => exact absurd (hq ▸ List.mem_cons_self) (hqueue _ _)
    by_cases hf : req.follower = b
    · rw [hf]
      simp only [Function.update_self]
      intro hawaits
      rcases hstep.awaits req hawaits with ⟨hbefore, hlog⟩ | hcall
      · rw [hlog]
        have hanswer := h.answers req endOffset hold
        rw [hf] at hanswer
        exact hanswer hbefore
      · have hlt := (h.checks req (.answered hold)).2
        rw [hf, hcall] at hlt
        exact absurd hlt (Nat.lt_irrefl _)
    · simp only [Function.update_of_ne hf]
      exact h.answers req endOffset hold
  · simp only [Function.update_of_ne hother]
    rcases List.mem_append.mp hm with hm | hm
    · exact h.copies req records (hacts.net_subset hm)
    · exact h.replied (h.follower b hne).copy hb (mem_sent hm)

end Acting

/-! ### Whatever happens -/

/-- As long as the leader is alive nobody is elected. -/
theorem electWhereNeeded_alive {k : Controller} (hleader : k.leader = some l)
    (halive : k.alive l = true) : k.electWhereNeeded = (false, k) := by
  rw [Controller.electWhereNeeded, Controller.leaderAlive, hleader, Option.elim_some, if_pos halive]

theorem mutate_office {k : Controller} (changed : Bool) :
    (Controller.mutate (changed, k)).leader = k.leader ∧
      (Controller.mutate (changed, k)).leaderEpoch = k.leaderEpoch ∧
      (Controller.mutate (changed, k)).alive = k.alive ∧
      (Controller.mutate (changed, k)).isr = k.isr := by
  cases changed <;> exact ⟨rfl, rfl, rfl, rfl⟩

/-- The leader stays in office while its session does. -/
theorem Sweeps.office {k k' : Controller} (h : Sweeps k a k') (hguard : Stays l c a)
    (hleader : k.leader = some l) (halive : k.alive l = true) :
    k'.leader = k.leader ∧ k'.leaderEpoch = k.leaderEpoch ∧ k'.alive l = true ∧ k'.isr = k.isr := by
  have hset (b : BrokerId) : (k.setAlive b true).alive l = true := by
    simp only [Controller.setAlive]
    split_ifs
    · rfl
    · exact halive
  cases h with
  | @register b addrChanged =>
    have helect := electWhereNeeded_alive (k := k.setAlive b true) hleader (hset b)
    obtain ⟨hsame, hepoch, hkept, hisr⟩ :=
      mutate_office (k := k.setAlive b true) (!k.alive b || addrChanged || false)
    rw [Controller.register, helect]
    exact ⟨hsame, hepoch, hkept ▸ hset b, hisr⟩
  | @heartbeat b =>
    rw [Controller.heartbeat]
    split_ifs
    · exact ⟨rfl, rfl, halive, rfl⟩
    · obtain ⟨hsame, hepoch, hkept, hisr⟩ := mutate_office (k := k.setAlive b true) false
      rw [electWhereNeeded_alive (k := k.setAlive b true) hleader (hset b)]
      exact ⟨hsame, hepoch, hkept ▸ hset b, hisr⟩
  | @sweepLiveness expired =>
    rw [Controller.sweepLiveness]
    split_ifs
    · have hkeeps : (k.alive l && decide (l ∉ expired)) = true := by
        rw [halive, Bool.true_and]
        exact decide_eq_true hguard
      have helect := electWhereNeeded_alive
        (k := { k with alive := fun b => k.alive b && decide (b ∉ expired) }) hleader hkeeps
      obtain ⟨hsame, hepoch, hkept, hisr⟩ :=
        mutate_office (k := { k with alive := fun b => k.alive b && decide (b ∉ expired) }) true
      rw [helect]
      exact ⟨hsame, hepoch, hkept ▸ hkeeps, hisr⟩
    · exact ⟨rfl, rfl, halive, rfl⟩

theorem ReignInv.stepAlterIsr (h : ReignInv l c) {net : List Message} (hnet : net ⊆ c.net)
    (req : AlterIsrRequest) : ReignInv l (stepAlterIsr { c with net } req) := by
  have hreply (result : Except ErrorCode ℕ) : ∀ m ∈ net ++ [.alterIsrReply req result],
      m ∈ c.net ∨ ∃ req result, m = .alterIsrReply req result := by
    intro m hm
    rcases List.mem_append.mp hm with hm | hm
    · exact .inl (hnet hm)
    · exact .inr ⟨req, result, List.mem_singleton.mp hm⟩
  rcases c.controller.alterIsr_cases req with ⟨code, hrefused⟩ | ⟨-, -, version, -, hok⟩
  · rw [Cluster.stepAlterIsr, hrefused]
    exact h.rest ⟨rfl, rfl⟩ h.alive (hreply _)
  · rw [Cluster.stepAlterIsr, hok]
    exact h.rest ⟨rfl, rfl⟩ h.alive (hreply _)

/-- A follower dies and starts again on what it has written. -/
theorem ReignInv.crash (h : ReignInv l c) {b : BrokerId} (hne : b ≠ l) (wall : ℕ → Int64) (k : ℕ) :
    ReignInv l { c with
      nodes := Function.update c.nodes b { c.nodes b with
        broker := Broker.restart { (c.nodes b).broker with
          log := (c.nodes b).broker.torn (config b) wall k } } } := by
  have hcrash : FollowerInv l (c.nodes l).broker.log (Broker.restart { (c.nodes b).broker with
      log := (c.nodes b).broker.torn (config b) wall k }) ∧
      (c.nodes b).broker.log <+: (c.nodes b).broker.torn (config b) wall k :=
    (h.follower b hne).crash wall k
  obtain ⟨hinv, hlog⟩ := hcrash
  have hother : l ≠ b := hne.symm
  refine ⟨h.office, h.alive, ?_, fun b' hne' => ?_, fun req hfetch => ?_, fun req hcheck => ?_,
    fun req endOffset hm => ?_, fun req records hm => ?_⟩
  · simpa [hother] using h.leader
  · simp only [Function.update_of_ne hother]
    by_cases hb' : b' = b
    · subst hb'
      simpa using hinv
    · simpa [hb'] using h.follower b' hne'
  · have hold : Fetching l c req := by
      cases hfetch with
      | sent hm => exact .sent hm
      | task ht =>
        simp only [Function.update_of_ne hother] at ht
        exact .task ht
      | accepted hevent =>
        simp only [Function.update_of_ne hother] at hevent
        exact .accepted hevent
    obtain ⟨hf, hle⟩ := h.fetches req hold
    refine ⟨hf, ?_⟩
    by_cases hfb : req.follower = b
    · rw [hfb] at hle ⊢
      simp only [Function.update_self]
      exact hle.trans hlog.length_le
    · simpa [hfb] using hle
  · have hold : Checking l c req := by
      cases hcheck with
      | sent hm => exact .sent hm
      | task ht =>
        simp only [Function.update_of_ne hother] at ht
        exact .task ht
      | cmd hc =>
        simp only [Function.update_of_ne hother] at hc
        exact .cmd hc
      | answered hm => exact .answered hm
    obtain ⟨hf, hlt⟩ := h.checks req hold
    refine ⟨hf, ?_⟩
    by_cases hfb : req.follower = b
    · rw [hfb] at hlt ⊢
      simp only [Function.update_self]
      exact hlt
    · simpa [hfb] using hlt
  · by_cases hfb : req.follower = b
    · rw [hfb]
      simp only [Function.update_self]
      intro hawaits
      obtain ⟨g, f, hf, -⟩ := hawaits
      cases hf
    · simp only [Function.update_of_ne hfb]
      exact h.answers req endOffset hm
  · simp only [Function.update_of_ne hother]
    exact h.copies req records hm

theorem ReignInv.step (h : ReignInv l c) (hguard : Stays l c a)
    (hstep : step config c a = some c') : ReignInv l c' := by
  have hnet {m : Message} (hm : m ∈ c.net) :
      m ∈ c.net ∨ ∃ req result, m = .alterIsrReply req result := .inl hm
  cases steps_of_step hstep with
  | sweeps hsweeps =>
    obtain ⟨hleader, hepoch, halive, -⟩ := hsweeps.office hguard h.office.1 h.alive
    exact h.rest ⟨hleader, hepoch⟩ halive fun m hm => hnet hm
  | @acts _ b act net broker events hacts hb =>
    by_cases hbl : b = l
    · subst hbl
      exact h.leads hguard hacts hb
    · exact h.follows hbl hacts hb
  | alterIsr hm => exact h.stepAlterIsr List.eraseIdx_subset _
  | lose => exact h.rest ⟨rfl, rfl⟩ h.alive fun m hm => hnet (List.eraseIdx_subset hm)
  | crash => exact h.crash hguard _ _

/-- Who has fetched up to the high-water mark holds what was answered. -/
theorem ReignInv.hasAnswered (h : ReignInv l c) {f : BrokerId}
    (hf : f ≠ l → ∃ req, .accepted req ∈ (c.nodes l).trace ∧ req.follower = f ∧
      (c.nodes l).broker.hwm ≤ req.offset) :
    HasAnswered (c.nodes l).trace (c.nodes f).broker.log := by
  by_cases hfl : f = l
  · subst hfl
    exact h.leader.hasAnswered List.prefix_rfl h.leader.mark
  · obtain ⟨req, hreq, rfl, hle⟩ := hf hfl
    exact h.leader.hasAnswered (h.follower _ hfl).copy
      (hle.trans (h.fetches req (.accepted hreq)).2)

/-- While the first leader stays, the log of every replica is the leader's up to where the replica
is, and each broker of the ISR over which the high-water mark was last raised has every record that
an acks=all produce was acknowledged for and every record that a consumer was given. -/
theorem one_leader_replicates {replicas : List BrokerId} (hl : replicas.head? = some l)
    (h : Reach (step config) (Stays l) (create replicas) c) :
    (∀ b, (c.nodes b).broker.log <+: (c.nodes l).broker.log) ∧
      HasAnswered (c.nodes l).trace (c.nodes l).broker.log ∧
      (0 < (c.nodes l).broker.hwm → ∃ isr,
        .raised 1 isr (c.nodes l).broker.hwm ∈ (c.nodes l).trace ∧
        ∀ f ∈ isr, HasAnswered (c.nodes l).trace (c.nodes f).broker.log) := by
  have hinv := Reach.invariant (P := ReignInv l) (.create hl)
    (fun _ _ _ hinv hguard hstep => hinv.step hguard hstep) h
  refine ⟨fun b => ?_, hinv.hasAnswered fun hne => absurd rfl hne, fun hpos => ?_⟩
  · by_cases hb : b = l
    · rw [hb]
    · exact (hinv.follower b hb).copy
  · obtain ⟨isr, hraised, hfetched⟩ := hinv.leader.raised hpos
    exact ⟨isr, hraised, fun f hf => hinv.hasAnswered (hfetched f hf)⟩

/-- Broker 0 leads and takes an acks=all produce into its ledger. -/
def produceAll : List Action :=
  [.pull 0, .broker 0 .applyMetadata, .broker 0 .recordEpoch,
    .broker 0 (.process (fun _ => 0) 0 false), .broker 0 (.produce .all 0 [(none, [7])]),
    .broker 0 (.task 1), .broker 0 (.process (fun _ => 0) 0 false), .broker 0 (.task 1)]

/-- Broker 1 fetches once more, and broker 0 advances its high-water mark. -/
def fetchAgain (tasks : ℕ) : List Action :=
  [.broker 1 (.fetcher 1), .broker 1 (.fetcher 1), .deliver 0 0, .broker 0 (.task tasks),
    .broker 0 (.task tasks), .broker 0 (.task tasks)]

theorem one_leader_replicates_crash : ∃ c : Cluster,
    .completed ⟨0, 0, 1, ⟨⟨true, 1, 1⟩, .all, [(none, [7])]⟩⟩ ∈ (c.nodes 0).trace ∧
      ∃ isr, .raised 1 isr 1 ∈ (c.nodes 0).trace ∧
        ∀ f ∈ isr, HasAnswered (c.nodes 0).trace (c.nodes f).broker.log := by
  obtain ⟨c, hc, hcompleted, hhwm⟩ := Reach.exists_of_runSteps (step fun _ => Node.smallConfig)
    (Stays 0) (create [0, 1])
    (produceAll ++ followAndFetch 2 ++ fetchAgain 2 ++ [.crash 1 (fun _ => 0) 0])
    (fun c => .completed ⟨0, 0, 1, ⟨⟨true, 1, 1⟩, .all, [(none, [7])]⟩⟩ ∈ (c.nodes 0).trace ∧
      (c.nodes 0).broker.hwm = 1)
    (by decide +kernel)
  have hraised := (one_leader_replicates rfl hc).2.2
  rw [hhwm] at hraised
  exact ⟨c, hcompleted, hraised Nat.one_pos⟩

end Cluster
end Replog.Replication
