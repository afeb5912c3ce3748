import Replog.Replication.BrokerSteps
import Replog.Replication.Node

/-!
# The command queue as a fence

Whether a command was queued under the role, epoch and generation it was authorised under. The
checks are made under the lock and the commands sent after it is released, so a stale command can
come late; where every send still finds the authority of its check, the queue is fenced.
-/

namespace Replog.Replication
open Replog.Library Broker

/-- The check that let a command through; reads for consumers need none. -/
def Cmd.authority : Cmd → Option Authority
  | .append ticket => some ticket.authority
  | .appendReplicated a _ | .truncateTo a _ | .recordEpoch a _ | .epochStatus a
  | .epochEndFor a _ => some a
  | .readReplica fetch => some fetch.authority
  | .readConsumer _ _ => none

/-- The commands that a fetcher changes the log with. -/
def Cmd.isFetched : Cmd → Bool
  | .appendReplicated _ _ | .truncateTo _ _ => true
  | _ => false

def Cmd.isRecordEpoch : Cmd → Bool
  | .recordEpoch _ _ => true
  | _ => false

/-- A leader's append comes after its epoch is recorded and before what a later epoch brings; a
fetcher's commands come before everything authorised since its generation was superseded. -/
structure QueueFenced (cmds : List Cmd) : Prop where
  recorded : ∀ (n : ℕ) (ticket : Ticket), cmds[n]? = some (Cmd.append ticket) →
    ∃ m < n, ∃ a : Authority, cmds[m]? = some (Cmd.recordEpoch a ticket.authority.epoch) ∧
      a.leader = true
  appendsFirst : cmds.Pairwise fun c d => ∀ ticket, d = Cmd.append ticket →
    (c.isFetched || c.isRecordEpoch) → ∀ a, c.authority = some a → a.epoch ≤ ticket.authority.epoch
  supersededFirst : cmds.Pairwise fun c d => d.isFetched → ∀ a e, c.authority = some a →
    d.authority = some e → a.generation ≤ e.generation

/-- The authority an item was made under. -/
def Item.authority : Item → Option Authority
  | .task (.produce ticket) => some ticket.authority
  | .task (.ledger ticket _ _) => some ticket.authority
  | .task (.advance serve) => serve.map AcceptedFetch.authority
  | .task (.advanceTo _ serve) => serve.map AcceptedFetch.authority
  | .task (.serveFetch fetch) => some fetch.authority
  | .task (.answerEpoch a _) => some a
  | .cmd c => c.authority
  | .fetcher g f => some (f.authority g)
  | .runtime (.leading a) => some a
  | _ => none

def Authority.Within (a : Authority) (st : ReplState) : Prop :=
  a.epoch ≤ st.epoch ∧ a.generation ≤ st.fetcherGeneration

/-- Commands that go out while their authority holds keep the queue fenced. -/
theorem QueueFenced.append {cmds new : List Cmd} {st : ReplState} (h : QueueFenced cmds)
    (hold : ∀ c ∈ cmds, ∀ a, c.authority = some a → a.Within st)
    (hnew : ∀ c ∈ new, ∀ a, c.authority = some a → a.Within st)
    (happend : ∀ ticket, .append ticket ∈ new → ticket.authority = st.authority ∧
      ∃ a, .recordEpoch a st.epoch ∈ cmds ∧ a.leader = true)
    (hfetched : ∀ c ∈ new, c.isFetched → c.authority = some st.authority) :
    QueueFenced (cmds ++ new) := by
  -- an append is under the current epoch and a fetched command under the current generation
  have hfirst : ∀ c : Cmd, (∀ a, c.authority = some a → a.Within st) → ∀ d ∈ new,
      ∀ ticket, d = Cmd.append ticket → (c.isFetched || c.isRecordEpoch) →
        ∀ a, c.authority = some a → a.epoch ≤ ticket.authority.epoch := by
    rintro c hc d hd ticket rfl - a ha
    rw [(happend ticket hd).1]
    exact (hc a ha).1
  have hsuper : ∀ c : Cmd, (∀ a, c.authority = some a → a.Within st) → ∀ d ∈ new,
      d.isFetched → ∀ a e, c.authority = some a → d.authority = some e →
        a.generation ≤ e.generation := by
    intro c hc d hd hfetch a e ha he
    rw [hfetched d hd hfetch] at he
    cases he
    exact (hc a ha).2
  refine ⟨fun n ticket hn => ?_, ?_, ?_⟩
  · rcases Nat.lt_or_ge n cmds.length with hlt | hge
    · rw [List.getElem?_append_left hlt] at hn
      obtain ⟨m, hm, a, hrecord, hleader⟩ := h.recorded n ticket hn
      exact ⟨m, hm, a, by rwa [List.getElem?_append_left (by omega)], hleader⟩
    · rw [List.getElem?_append_right hge] at hn
      obtain ⟨hauth, a, hrecord, hleader⟩ := happend ticket (List.mem_of_getElem? hn)
      obtain ⟨m, hm, hat⟩ := List.getElem_of_mem hrecord
      refine ⟨m, by omega, a, ?_, hleader⟩
      rw [List.getElem?_append_left hm, List.getElem?_eq_getElem hm, hat, hauth]
      rfl
  · refine List.pairwise_append.mpr ⟨h.appendsFirst, ?_, fun c hc d hd =>
      hfirst c (hold c hc) d hd⟩
    exact List.pairwise_of_forall_mem_list fun c hc d hd => hfirst c (hnew c hc) d hd
  · refine List.pairwise_append.mpr ⟨h.supersededFirst, ?_, fun c hc d hd =>
      hsuper c (hold c hc) d hd⟩
    exact List.pairwise_of_forall_mem_list fun c hc d hd => hsuper c (hnew c hc) d hd

namespace Broker

variable {config : BrokerConfig} {self : BrokerId} {b : Broker} {a : Action}

theorem ReplStep.authority {st : ReplState} (h : ReplStep self b a st) :
    st.authority = b.repl.authority ∨ ∃ p, a = .applyMetadata ∧ b.runtime = .pulled p ∧
      st = (b.repl.applyMetadata self b.clock p).2.2 := by
  cases h with
  | apply hruntime hself => exact .inr ⟨_, rfl, hruntime, rfl⟩
  | ledger => exact .inl rfl
  | advance => exact .inl (ReplState.advanceHwm_authority _ _)
  | accept htask hok => exact .inl (ReplState.acceptFetch_authority hok)
  | install => exact .inl (ReplState.installIsr_authority _ _ _)
  | exit => exact .inl (ReplState.fetcherExit_authority _)
  | same => exact .inl rfl

/-- An authority is handed on, is the current one, or is that of the metadata applied. -/
theorem Creates.authority {x : Item} (h : Creates config self b a x) {authority : Authority}
    (hx : x.authority = some authority) :
    (∃ y, b.Has y ∧ y.authority = some authority) ∨ authority = b.repl.authority ∨
      ∃ p, a = .applyMetadata ∧ b.runtime = .pulled p ∧ self ∈ p.replicas ∧
        authority = (b.repl.applyMetadata self b.clock p).2.2.authority := by
  have htask : ∀ {i t}, b.tasks[i]? = some t → b.Has (.task t) := List.mem_of_getElem?
  have hhead : ∀ {c queue}, b.queue = c :: queue → b.Has (.cmd c) := fun hq => by simp [Has, hq]
  cases h with
  | produce hcheck =>
    cases hx
    exact .inr (.inl (ReplState.precheck_eq_ok hcheck).2.1)
  | answerEpoch =>
    cases hx
    exact .inr (.inl rfl)
  | advanceTo h => exact .inl ⟨_, htask h, hx⟩
  | serveFetch h => exact .inl ⟨_, htask h, hx⟩
  | accepted h hok =>
    cases hx
    exact .inr (.inl (ReplState.acceptFetch_authority hok))
  | append h => exact .inl ⟨_, htask h, hx⟩
  | readReplica h => exact .inl ⟨_, htask h, hx⟩
  | epochEndFor h => exact .inl ⟨_, htask h, hx⟩
  | ledger h => exact .inl ⟨_, hhead h, hx⟩
  | serveAgain h => exact .inl ⟨_, hhead h, hx⟩
  | appended _ hf => exact .inl ⟨.fetcher _ _, hf, hx⟩
  | truncated _ hf => exact .inl ⟨.fetcher _ _, hf, hx⟩
  | status _ hf => exact .inl ⟨.fetcher _ _, hf, hx⟩
  | leading hruntime hself =>
    cases hx
    exact .inr (.inr ⟨_, rfl, hruntime, hself, rfl⟩)
  | following hruntime hself htransition =>
    cases hx
    refine .inr (.inr ⟨_, rfl, hruntime, hself, ?_⟩)
    have hne := (ReplState.applyMetadata_following htransition).1
    obtain ⟨hepoch, hleader, -, -⟩ := ReplState.applyMetadata_follows b.repl self b.clock _
    rw [ReplState.authority, hepoch, hleader, decide_eq_false hne]
    rfl
  | recordEpoch h => exact .inl ⟨.runtime _, h, hx⟩
  | fetcher hf hstep =>
    refine .inl ⟨.fetcher _ _, hf, ?_⟩
    cases hstep <;> exact hx
  | epochStatus hf => exact .inl ⟨.fetcher _ _, hf, hx⟩
  | truncateTo hf => exact .inl ⟨.fetcher _ _, hf, hx⟩
  | fetcherEpoch hf => exact .inl ⟨.fetcher _ _, hf, hx⟩
  | appendReplicated hf => exact .inl ⟨.fetcher _ _, hf, hx⟩
  | checked hf => exact .inl ⟨.fetcher _ _, hf, hx⟩
  | received hf => exact .inl ⟨.fetcher _ _, hf, hx⟩
  | exiting hf => exact .inl ⟨.fetcher _ _, hf, hx⟩
  | _ => cases hx

end Broker

/-- The produce whose append a task is about to queue. -/
def Task.ticket? : Task → Option Ticket
  | .produce ticket => some ticket
  | _ => none

def Runtime.isLeading : Runtime → Bool
  | .leading _ => true
  | _ => false

/-- The fetcher is about to queue a command that changes the log. -/
def Phase.changesLog : Phase → Bool
  | .truncate _ | .append _ => true
  | _ => false

namespace Node

variable {config : BrokerConfig} {self : BrokerId}

/-- A command that is fenced goes out while its check still holds: an append while the broker
leads the epoch of its precheck and has queued the takeover's `RecordEpoch`, a fetcher's
command while the fetcher is current. -/
def SendsCurrent (s : Node) (a : Action) : Prop :=
  (∀ i ∈ a.task?, ∀ t ∈ s.broker.tasks[i]?, ∀ ticket ∈ t.ticket?,
    s.broker.repl.isLeader = true ∧ ticket.authority = s.broker.repl.authority ∧
      s.broker.runtime.isLeading = false) ∧
  ∀ g ∈ a.fetcher?, ∀ f ∈ s.broker.fetchers g, f.phase.changesLog = true →
    f.authority g = s.broker.repl.authority

instance (s : Node) (a : Action) : Decidable (s.SendsCurrent a) :=
  inferInstanceAs (Decidable (_ ∧ _))

/-- What ties the commands and the places where commands come from to the current role. -/
structure FenceInv (s : Node) : Prop where
  items : ∀ x, s.broker.Has x → ∀ a, x.authority = some a → a.Within s.broker.repl
  pulled : ∀ p, s.broker.runtime = .pulled p → s.broker.repl.epoch ≤ p.leaderEpoch
  leading : ∀ a, s.broker.runtime = .leading a → a.leader = true
  cmds : ∀ c ∈ s.queued, ∀ a, c.authority = some a → a.Within s.broker.repl
  recorded : s.broker.repl.isLeader = true →
    (∃ a, s.broker.runtime = .leading a ∧ a.epoch = s.broker.repl.epoch) ∨
      ∃ a, .recordEpoch a s.broker.repl.epoch ∈ s.queued ∧ a.leader = true
  fenced : QueueFenced s.queued

theorem step_eq_some {s s' : Node} {a : Action} (h : s.step config self a = some s') :
    ∃ b events, s.broker.step config self a = some (b, events) ∧
      s' = ⟨b, s.trace ++ events⟩ := by
  obtain ⟨⟨b, events⟩, hstep, rfl⟩ := Option.map_eq_some_iff.mp h
  exact ⟨b, events, hstep, rfl⟩

theorem queued_append (s : Node) (b : Broker) (events : List Event) :
    (Node.mk b (s.trace ++ events)).queued = s.queued ++ (Node.mk b events).queued :=
  List.filterMap_append

theorem mem_queued {b : Broker} {events : List Event} {c : Cmd} :
    c ∈ (Node.mk b events).queued ↔ .queued c ∈ events := by
  rw [queued, List.mem_filterMap]
  constructor
  · rintro ⟨e, he, hc⟩
    cases e <;> simp_all
  · exact fun h => ⟨_, h, rfl⟩

private theorem FenceInv.role_le {s : Node} (h : FenceInv s) {a : Action} {st : ReplState}
    (hrepl : ReplStep self s.broker a st) :
    s.broker.repl.epoch ≤ st.epoch ∧ s.broker.repl.fetcherGeneration ≤ st.fetcherGeneration := by
  rcases hrepl.authority with hauth | ⟨p, -, hruntime, rfl⟩
  · exact ⟨(congrArg Authority.epoch hauth).ge, (congrArg Authority.generation hauth).ge⟩
  · refine ⟨?_, ?_⟩
    · rw [(ReplState.applyMetadata_follows _ _ _ _).1]
      exact h.pulled p hruntime
    · rcases ReplState.applyMetadata_generation _ _ _ _ with hlt | hauth
      · exact hlt.le
      · exact (congrArg Authority.generation hauth).ge

private theorem sends_current {s : Node} {a : Action} (hsend : SendsCurrent s a) {c : Cmd}
    (hcreate : Creates config self s.broker a (.cmd c)) :
    (∀ ticket, c = .append ticket → s.broker.repl.isLeader = true ∧
      ticket.authority = s.broker.repl.authority ∧ s.broker.runtime.isLeading = false) ∧
    (c.isFetched → c.authority = some s.broker.repl.authority) := by
  cases hcreate with
  | append htask =>
    refine ⟨fun ticket heq => ?_, nofun⟩
    cases heq
    exact hsend.1 _ rfl _ htask _ rfl
  | truncateTo hf hphase =>
    refine ⟨nofun, fun _ => ?_⟩
    rw [← hsend.2 _ rfl _ hf (by rw [hphase]; rfl)]
    rfl
  | appendReplicated hf hphase =>
    refine ⟨nofun, fun _ => ?_⟩
    rw [← hsend.2 _ rfl _ hf (by rw [hphase]; rfl)]
    rfl
  | _ => exact ⟨nofun, nofun⟩

/-- A step that sends while the checks hold keeps the queue fenced. -/
theorem FenceInv.step {s s' : Node} {a : Action} (h : FenceInv s)
    (hmeta : MetadataInOrder self s a) (hsend : SendsCurrent s a)
    (hstep : s.step config self a = some s') : FenceInv s' := by
  obtain ⟨b, events, hb, rfl⟩ := step_eq_some hstep
  have hex := step_explained hb
  obtain ⟨hepoch, hgeneration⟩ := h.role_le hex.repl
  have hmono : ∀ e : Authority, e.Within s.broker.repl → e.Within b.repl :=
    fun e he => ⟨he.1.trans hepoch, he.2.trans hgeneration⟩
  -- a command is made from what was there under the old role
  have hcmd : ∀ c, .queued c ∈ events → Creates config self s.broker a (.cmd c) := by
    intro c hc
    cases hex.events _ hc with
    | queued hcreate => exact hcreate
  have hnew : ∀ c ∈ (Node.mk b events).queued, ∀ e, c.authority = some e →
      e.Within s.broker.repl := by
    intro c hc e he
    have hcreate := hcmd c (mem_queued.mp hc)
    rcases hcreate.authority (x := .cmd c) he with ⟨y, hy, hye⟩ | rfl | ⟨p, rfl, -, -⟩
    · exact h.items y hy e hye
    · exact ⟨le_rfl, le_rfl⟩
    · cases hcreate
  refine ⟨fun x hx e he => ?_, fun p hp => ?_, fun e he => ?_, fun c hc e he => ?_,
    fun hleader => ?_, ?_⟩
  · rcases hex.items x hx with hold | hcreate
    · exact hmono e (h.items x hold e he)
    · rcases hcreate.authority he with ⟨y, hy, hye⟩ | rfl | ⟨p, rfl, hruntime, hself, rfl⟩
      · exact hmono e (h.items y hy e hye)
      · exact ⟨hepoch, hgeneration⟩
      · cases step_applyMetadata hruntime hb
        rw [(applyMetadata_hosted hself).1]
        exact ⟨le_rfl, le_rfl⟩
  · have hold := hex.items (.runtime (.pulled p)) hp
    rcases hold with hold | hcreate
    · rcases hex.repl.authority with hauth | ⟨q, rfl, hruntime, -⟩
      · exact (congrArg Authority.epoch hauth).le.trans (h.pulled p hold)
      · cases step_applyMetadata hruntime hb
        by_cases hself : self ∈ q.replicas
        · rw [(applyMetadata_hosted hself).2] at hp
          split at hp <;> cases hp
        · rw [applyMetadata_foreign hself] at hp
          cases hp
    · cases hcreate
      rcases hex.repl.authority with hauth | ⟨q, hq, -, -⟩
      · exact (congrArg Authority.epoch hauth).le.trans (hmeta _ rfl).1
      · cases hq
  · rcases hex.items (.runtime (.leading e)) he with hold | hcreate
    · exact h.leading e hold
    · cases hcreate with
      | leading hruntime hself htransition =>
        have hleader := ReplState.applyMetadata_leading htransition
        obtain ⟨-, hfollow, -, -⟩ := ReplState.applyMetadata_follows s.broker.repl self
          s.broker.clock _
        rw [ReplState.authority, hfollow, decide_eq_true hleader]
  · rw [queued_append, List.mem_append] at hc
    rcases hc with hc | hc
    · exact hmono e (h.cmds c hc e he)
    · exact hmono e (hnew c hc e he)
  · by_cases hsame : b.repl.authority = s.broker.repl.authority
    · rw [show b.repl.epoch = s.broker.repl.epoch from congrArg Authority.epoch hsame]
      rw [show b.repl.isLeader = s.broker.repl.isLeader from
        congrArg Authority.leader hsame] at hleader
      rcases h.recorded hleader with ⟨e, hruntime, he⟩ | ⟨e, he, hlead⟩
      · rcases hex.items (.runtime b.runtime) rfl with hold | hcreate
        · exact .inl ⟨e, hold.symm.trans hruntime, he⟩
        · generalize hr : b.runtime = r at hcreate
          cases hcreate with
          | idle hleading =>
            cases hleading e hruntime
            rw [Broker.step, hruntime] at hb
            cases hb
            refine .inr ⟨e, ?_, h.leading e hruntime⟩
            rw [queued_append, ← he, List.mem_append]
            exact .inr (by simp [queued])
          | pulled hidle => simp [hruntime] at hidle
          | leading hpulled => simp [hruntime] at hpulled
          | proposing hidle => simp [hruntime] at hidle
      · refine .inr ⟨e, ?_, hlead⟩
        rw [queued_append]
        exact List.mem_append_left _ he
    · rcases hex.repl.authority with hauth | ⟨p, rfl, hruntime, hst⟩
      · exact absurd hauth hsame
      · left
        cases step_applyMetadata hruntime hb
        have hself : self ∈ p.replicas := by
          by_contra hself
          rw [applyMetadata_foreign hself] at hsame
          exact hsame rfl
        obtain ⟨hrepl, hgo⟩ := applyMetadata_hosted (b := s.broker) hself
        rw [hrepl] at hsame hleader ⊢
        have hto : (s.broker.repl.applyMetadata self s.broker.clock p).1 = .leading := by
          cases htransition : (s.broker.repl.applyMetadata self s.broker.clock p).1 with
          | leading => rfl
          | unchanged => exact absurd (ReplState.applyMetadata_unchanged htransition) hsame
          | following leader =>
            rw [(ReplState.applyMetadata_follows _ _ _ _).2.1] at hleader
            exact absurd (of_decide_eq_true hleader)
              (ReplState.applyMetadata_following htransition).1
        rw [if_pos hto] at hgo
        exact ⟨_, hgo, rfl⟩
  · rw [queued_append]
    refine h.fenced.append h.cmds hnew (fun ticket ht => ?_) (fun c hc hfetch => ?_)
    · obtain ⟨happend, -⟩ := sends_current hsend (hcmd _ (mem_queued.mp ht))
      obtain ⟨hleader, hauth, hidle⟩ := happend ticket rfl
      rcases h.recorded hleader with ⟨e, hruntime, -⟩ | hrecorded
      · simp [hruntime, Runtime.isLeading] at hidle
      · exact ⟨hauth, hrecorded⟩
    · exact (sends_current hsend (hcmd c (mem_queued.mp hc))).2 hfetch

theorem FenceInv.init : FenceInv {} where
  items x hx a ha := by
    cases x with
    | task t => simp [Broker.Has] at hx
    | cmd c => simp [Broker.Has] at hx
    | fetcher g f => simp [Broker.Has] at hx
    | runtime r =>
      cases hx
      cases ha
  pulled p hp := by cases hp
  leading a ha := by cases ha
  cmds c hc := by simp [queued] at hc
  recorded h := by cases h
  fenced := ⟨by simp [queued], .nil, .nil⟩

/-- Along every run whose sends find their checks still true, the command queue is fenced. -/
theorem queue_fenced {s : Node}
    (h : Reach (Node.step config self) (fun s a => s.MetadataInOrder self a ∧ s.SendsCurrent a)
      {} s) : QueueFenced s.queued :=
  (Reach.invariant (P := FenceInv) .init
    (fun _ _ _ hinv hguard hstep => hinv.step hguard.1 hguard.2 hstep) h).fenced

def smallConfig : BrokerConfig where
  log := ⟨1024, 64, 1024, .os⟩
  minInsyncReplicas := 1
  replicaLagMs := 1000

/-- Metadata that makes broker 0 the only in-sync replica and the leader of an epoch. -/
def leadAlone (epoch : ℕ) : PartitionMeta where
  version := epoch
  leader := some 0
  leaderEpoch := epoch
  replicas := [0, 1]
  isr := [0]

def takeOver (epoch : ℕ) : List Action :=
  [.metadata (leadAlone epoch), .applyMetadata, .recordEpoch]

/-- Metadata that makes broker 1 the leader of epoch 2. -/
def followOne : PartitionMeta where
  version := 2
  leader := some 1
  leaderEpoch := 2
  replicas := [0, 1]
  isr := [1]

/-- Broker 0 appends a record of a client in epoch 1 and follows broker 1 in epoch 2, where it cuts
its record off and appends the one it fetched. -/
def leadAndFollow : List Action :=
  takeOver 1 ++ [.produce .all 0 [(none, [7])], .task 1, .process (fun _ => 0) 0 false,
    .process (fun _ => 0) 0 false, .metadata followOne, .applyMetadata, .fetcher 2, .fetcher 2,
    .process (fun _ => 0) 0 false, .fetcher 2, .epochReply 2 ⟨0, 0, 1⟩ (.ok 0), .fetcher 2,
    .fetcher 2, .fetcher 2, .process (fun _ => 0) 0 false, .fetcher 2, .fetcher 2,
    .fetchReply 2 ⟨1, 0, 2, 0⟩ (.ok [⟨2, 0, 0, none, [8]⟩]), .fetcher 2, .fetcher 2, .fetcher 2]

theorem queue_fenced_deposed : ∃ s : Node,
    s.queued = [.recordEpoch ⟨true, 1, 1⟩ 1, .append ⟨⟨true, 1, 1⟩, .all, [(none, [7])]⟩,
      .epochStatus ⟨false, 2, 2⟩, .truncateTo ⟨false, 2, 2⟩ 0, .recordEpoch ⟨false, 2, 2⟩ 2,
      .appendReplicated ⟨false, 2, 2⟩ [⟨2, 0, 0, none, [8]⟩]] ∧ QueueFenced s.queued := by
  obtain ⟨s, hs, hqueued⟩ := Reach.exists_of_runSteps (step smallConfig 0)
    (fun s a => s.MetadataInOrder 0 a ∧ s.SendsCurrent a) {} leadAndFollow
    (fun s => s.queued = [.recordEpoch ⟨true, 1, 1⟩ 1,
      .append ⟨⟨true, 1, 1⟩, .all, [(none, [7])]⟩, .epochStatus ⟨false, 2, 2⟩,
      .truncateTo ⟨false, 2, 2⟩ 0, .recordEpoch ⟨false, 2, 2⟩ 2,
      .appendReplicated ⟨false, 2, 2⟩ [⟨2, 0, 0, none, [8]⟩]])
    (by decide +kernel)
  exact ⟨s, hqueued, queue_fenced hs⟩

/-- A produce is prechecked in epoch 1, and its append is sent when epoch 2 was taken over. -/
theorem queue_not_fenced : ¬ ∀ s, Reach (step smallConfig 0) (fun s a => s.MetadataInOrder 0 a)
    {} s → QueueFenced s.queued := by
  intro hall
  obtain ⟨s, hs, hqueued⟩ := Reach.exists_of_runSteps (step smallConfig 0)
    (fun s a => s.MetadataInOrder 0 a) {}
    (takeOver 1 ++ .produce .all 0 [(none, [7])] :: takeOver 2 ++ [.task 1])
    (fun s => s.queued = [.recordEpoch ⟨true, 1, 1⟩ 1, .recordEpoch ⟨true, 2, 2⟩ 2,
      .append ⟨⟨true, 1, 1⟩, .all, [(none, [7])]⟩])
    (by decide)
  have hfenced := (hall s hs).appendsFirst
  rw [hqueued] at hfenced
  have hlate := (List.pairwise_cons.mp (List.pairwise_cons.mp hfenced).2).1 _
    (List.mem_singleton_self _) _ rfl rfl _ rfl
  exact absurd hlate (by decide)

end Node
end Replog.Replication
