import Replog.Replication.QueueFencing

/-!
# The ledger of acks=all produces

When a broker answers an acks=all produce, the records should be in its log and with every member
of the ISR. The ledger entry carries no role or epoch and is pushed by a task of its own, the log
end is read before the lock is taken, and a truncation may go below the high-water mark; where
none of these goes wrong, every answer is sound.
-/

namespace Replog.Replication
open Replog.Library Broker

/-- The records of a produce are in the log. -/
structure InLog (log : List Entry) (ticket : Ticket) (base count : ℕ) : Prop where
  pos : 0 < count
  fits : base + count ≤ log.length
  length : ticket.records.length = count
  records : ((log.drop base).take count).map Entry.keyValue = ticket.records

theorem InLog.mono {log log' : List Entry} {ticket : Ticket} {base count : ℕ}
    (h : InLog log ticket base count) (hlog : log <+: log') :
    InLog log' ticket base count := by
  obtain ⟨rest, rfl⟩ := hlog
  refine ⟨h.pos, ?_, h.length, ?_⟩
  · have := h.fits
    rw [List.length_append]
    omega
  · rw [List.drop_append_of_le_length (by have := h.fits; omega),
      List.take_append_of_le_length (by have := h.fits; rw [List.length_drop]; omega)]
    exact h.records

/-- At some moment since the append, in its epoch, every other member of the ISR had fetched past
the records. -/
def FetchedByIsr (self : BrokerId) (trace : List Event) (ticket : Ticket) (base count : ℕ) : Prop :=
  ∃ before isr hwm after,
    trace = before ++ .raised ticket.authority.epoch isr hwm :: after ∧
    .appended ticket base ∈ before ∧
    ∀ f ∈ isr, f ≠ self → ∃ req, .accepted req ∈ before ∧ req.follower = f ∧
      req.leaderEpoch = ticket.authority.epoch ∧ base + count ≤ req.offset

theorem FetchedByIsr.mono {self : BrokerId} {trace events : List Event} {ticket : Ticket}
    {base count : ℕ} (h : FetchedByIsr self trace ticket base count) :
    FetchedByIsr self (trace ++ events) ticket base count := by
  obtain ⟨before, isr, hwm, after, rfl, happended, hfetched⟩ := h
  exact ⟨before, isr, hwm, after ++ events, by simp, happended, hfetched⟩

namespace Node

variable {config : BrokerConfig} {self : BrokerId}

/-- What a sound answer to an acks=all produce means. -/
structure AckSound (id : BrokerId) (s : Node) (events : List Event) (p : Pending) : Prop where
  leads : s.broker.repl.isLeader = true ∧ s.broker.repl.epoch = p.ticket.authority.epoch
  inLog : InLog s.broker.log p.ticket p.base p.count
  fetched : FetchedByIsr id (s.trace ++ events) p.ticket p.base p.count

/-- The task finds the role it was made under, or a log end that is still there. -/
def TaskTimely (b : Broker) : Task → Prop
  | .ledger ticket _ _ => b.repl.isLeader = true ∧ ticket.authority = b.repl.authority
  | .advanceTo logEnd _ => b.repl.isLeader = true → logEnd ≤ b.log.length
  | _ => True

/-- Truncations are a follower's and stay at or above the high-water mark. -/
def CmdTimely (b : Broker) : Cmd → Prop
  | .truncateTo _ offset => b.repl.isLeader = false ∧ b.hwm ≤ offset
  | _ => True

instance (b : Broker) (t : Task) : Decidable (TaskTimely b t) :=
  match t with
  | .ledger _ _ _ => inferInstanceAs (Decidable (_ ∧ _))
  | .advanceTo _ _ => inferInstanceAs (Decidable (_ → _))
  | .produce _ | .advance _ | .acceptFetch _ _ | .serveFetch _ | .answerEpoch _ _
  | .consume _ _ => isTrue trivial

instance (b : Broker) (c : Cmd) : Decidable (CmdTimely b c) :=
  match c with
  | .truncateTo _ _ => inferInstanceAs (Decidable (_ ∧ _))
  | .append _ | .appendReplicated _ _ | .recordEpoch _ _ | .epochStatus _ | .epochEndFor _ _
  | .readReplica _ | .readConsumer _ _ => isTrue trivial

/-- The steps that keep the ledger sound; a broker that stays leader in a new epoch has no produce
in its ledger. -/
structure Timely (id : BrokerId) (s : Node) (a : Action) : Prop where
  task : ∀ i ∈ a.task?, ∀ t ∈ s.broker.tasks[i]?, TaskTimely s.broker t
  process : a.isProcess = true → ∀ c ∈ s.broker.queue.head?, CmdTimely s.broker c
  apply : a.isApply = true → ∀ p ∈ s.broker.runtime.pulled?,
    p.leaderEpoch ≠ s.broker.repl.epoch → s.broker.repl.isLeader = true → p.leader = some id →
    s.broker.repl.pendingAll = []

instance (s : Node) (a : Action) : Decidable (Timely self s a) :=
  decidable_of_iff ((∀ i ∈ a.task?, ∀ t ∈ s.broker.tasks[i]?, TaskTimely s.broker t) ∧
    (a.isProcess = true → ∀ c ∈ s.broker.queue.head?, CmdTimely s.broker c) ∧
    (a.isApply = true → ∀ p ∈ s.broker.runtime.pulled?,
      p.leaderEpoch ≠ s.broker.repl.epoch → s.broker.repl.isLeader = true → p.leader = some self →
      s.broker.repl.pendingAll = []))
    ⟨fun h => ⟨h.1, h.2.1, h.2.2⟩, fun h => ⟨h.task, h.process, h.apply⟩⟩

/-- The records of a produce, and how the high-water mark came to cover them. -/
structure Recorded (id : BrokerId) (s : Node) (ticket : Ticket) (base count : ℕ) : Prop where
  inLog : InLog s.broker.log ticket base count
  appended : .appended ticket base ∈ s.trace
  covered : base + count ≤ s.broker.hwm → FetchedByIsr id s.trace ticket base count

/-- The progress of the followers is what they asked for in the leader's epoch. -/
def Matched (s : Node) : Prop :=
  s.broker.repl.isLeader = true → ∀ f n t, s.broker.repl.matchOffsets f = some (n, t) →
    ∃ req, .accepted req ∈ s.trace ∧ req.follower = f ∧
      req.leaderEpoch = s.broker.repl.epoch ∧ req.offset = n

theorem Matched.step {s : Node} (h : Matched s) {a : Action} {b : Broker}
    {events : List Event} (hb : s.broker.step config self a = some (b, events)) :
    Matched ⟨b, s.trace ++ events⟩ := by
  intro hleader f n t hmatch
  dsimp only at hleader hmatch ⊢
  have hold : s.broker.repl.authority = b.repl.authority →
      s.broker.repl.matchOffsets f = some (n, t) → ∃ req, .accepted req ∈ s.trace ++ events ∧
        req.follower = f ∧ req.leaderEpoch = b.repl.epoch ∧ req.offset = n := by
    intro hauth hm
    obtain ⟨req, hreq, hfollower, hepoch, hoffset⟩ :=
      h ((congrArg Authority.leader hauth).trans hleader) f n t hm
    exact ⟨req, List.mem_append_left _ hreq, hfollower,
      hepoch.trans (congrArg Authority.epoch hauth), hoffset⟩
  have hrepl := (step_explained hb).repl
  dsimp only at hrepl
  generalize hst : b.repl = st at hrepl hold hleader hmatch ⊢
  cases hrepl with
  | ledger => exact hold rfl hmatch
  | same => exact hold rfl hmatch
  | exit =>
    refine hold (ReplState.fetcherExit_authority _).symm ?_
    rw [ReplState.fetcherExit] at hmatch
    split at hmatch <;> exact hmatch
  | install =>
    refine hold (ReplState.installIsr_authority _ _ _).symm ?_
    rw [ReplState.installIsr] at hmatch
    split at hmatch <;> exact hmatch
  | advance =>
    refine hold (ReplState.advanceHwm_authority _ _).symm ?_
    rw [ReplState.advanceHwm] at hmatch
    split at hmatch <;> exact hmatch
  | apply hruntime hself =>
    rcases ReplState.applyMetadata_matched hleader with ⟨hauth, hm⟩ | hm
    · exact hold hauth.symm (hm ▸ hmatch)
    · rw [hm] at hmatch
      cases hmatch
  | @accept i req logEnd _ ht hok =>
    have hauth := ReplState.acceptFetch_authority hok
    obtain ⟨-, hepoch, time, rfl⟩ := ReplState.acceptFetch_eq_ok hok
    by_cases hf : f = req.follower
    · subst hf
      simp only [if_true, Option.some.injEq, Prod.mk.injEq] at hmatch
      refine ⟨req, List.mem_append_right _ ?_, rfl, hepoch, hmatch.1⟩
      have hevents := congrArg Prod.snd (step_task ht hb)
      simp only [runTask, hok] at hevents
      rw [hevents]
      exact List.mem_singleton_self _
    · simp only [if_neg hf] at hmatch
      exact hold rfl hmatch

structure LedgerInv (id : BrokerId) (s : Node) : Prop where
  hwm_le : s.broker.hwm ≤ s.broker.log.length
  matched : s.broker.repl.isLeader = true → ∀ f n t, s.broker.repl.matchOffsets f = some (n, t) →
    ∃ req, .accepted req ∈ s.trace ∧ req.follower = f ∧
      req.leaderEpoch = s.broker.repl.epoch ∧ req.offset = n
  pending : ∀ p ∈ s.broker.repl.pendingAll, s.broker.repl.isLeader = true ∧
    p.ticket.authority = s.broker.repl.authority ∧ p.lastOffset = p.base + p.count - 1 ∧
    Recorded id s p.ticket p.base p.count
  ledger : ∀ ticket base count, .ledger ticket base count ∈ s.broker.tasks →
    s.broker.repl.isLeader = true → ticket.authority = s.broker.repl.authority →
    Recorded id s ticket base count
  /-- An authority that is no longer current never becomes current again. -/
  items : ∀ x, s.broker.Has x → ∀ a, x.authority = some a →
    a.generation < s.broker.repl.fetcherGeneration ∨ a = s.broker.repl.authority

theorem LedgerInv.init : LedgerInv self {} where
  hwm_le := le_rfl
  matched h := by cases h
  pending p hp := by cases hp
  ledger ticket base count h := by cases h
  items x hx a ha := by
    cases x with
    | task t => simp [Broker.Has] at hx
    | cmd c => simp [Broker.Has] at hx
    | fetcher g f => simp [Broker.Has] at hx
    | runtime r =>
      cases hx
      cases ha

theorem Recorded.mono {s : Node} {b : Broker} {events : List Event} {ticket : Ticket}
    {base count : ℕ} (h : Recorded self s ticket base count) (hlog : s.broker.log <+: b.log)
    (hcovered : base + count ≤ b.hwm → base + count ≤ s.broker.hwm ∨
      FetchedByIsr self (s.trace ++ events) ticket base count) :
    Recorded self ⟨b, s.trace ++ events⟩ ticket base count where
  inLog := h.inLog.mono hlog
  appended := List.mem_append_left _ h.appended
  covered hle := (hcovered hle).elim (fun hold => (h.covered hold).mono) id

/-- The high-water mark passes a produce of the current role only once the ISR has fetched it. -/
theorem LedgerInv.raise {s : Node} (h : LedgerInv self s) {a : Action} {b : Broker}
    {events : List Event} (hb : s.broker.step config self a = some (b, events))
    {ticket : Ticket} {base count : ℕ} (hleader : s.broker.repl.isLeader = true)
    (hauth : ticket.authority = s.broker.repl.authority)
    (happended : .appended ticket base ∈ s.trace) (hpos : 0 < count)
    (hle : base + count ≤ b.hwm) : base + count ≤ s.broker.hwm ∨
      FetchedByIsr self (s.trace ++ events) ticket base count := by
  rcases (step_explained hb).hwm with hsame | ⟨i, logEnd, serve, rfl, ht, hhwm⟩
  · exact .inl (hsame ▸ hle)
  · by_cases hold : base + count ≤ s.broker.hwm
    · exact .inl hold
    · right
      dsimp only at hhwm
      have hlt : s.broker.hwm < (s.broker.repl.advanceHwm self logEnd s.broker.hwm).1 := by
        omega
      have hevents := step_raise ht hb hlt
      dsimp only at hevents
      rw [ReplState.advanceHwm_leader hleader] at hhwm hlt
      dsimp only at hhwm hlt
      -- the mark rises, to the minimum over the ISR
      have hepoch : s.broker.repl.epoch = ticket.authority.epoch := by
        rw [hauth]
        rfl
      rw [hepoch] at hevents
      refine ⟨s.trace, _, _, _, congrArg _ hevents, happended, fun f hf hne => ?_⟩
      have hmin := ReplState.isrMin_le_matched hf hne logEnd
      obtain ⟨t, hmatched⟩ := s.broker.repl.matched_pos (f := f) (by omega)
      obtain ⟨req, hreq, hfollower, hreqEpoch, hoffset⟩ := h.matched hleader f _ t hmatched
      exact ⟨req, hreq, hfollower, hreqEpoch.trans hepoch, by omega⟩

private theorem LedgerInv.hwm_step {s : Node} (h : LedgerInv self s) {a : Action} {b : Broker}
    {events : List Event} (htimely : Timely self s a)
    (hb : s.broker.step config self a = some (b, events)) : b.hwm ≤ b.log.length := by
  have hex := step_explained hb
  have hle := h.hwm_le
  rcases hex.log.isPrefix with hlog | ⟨wall, more, again, authority, offset, queue, rfl, hqueue,
    hlog⟩
  · have hlen := hlog.length_le
    dsimp only at hlen
    rcases hex.hwm with hsame | ⟨i, logEnd, serve, rfl, ht, hhwm⟩
    · dsimp only at hsame
      omega
    · dsimp only at hhwm
      cases hleader : s.broker.repl.isLeader with
      | true =>
        have hend := htimely.task i rfl _ ht hleader
        have hmin := s.broker.repl.isrMin_le_logEnd self logEnd
        rw [ReplState.advanceHwm_leader hleader] at hhwm
        dsimp only at hhwm
        omega
      | false =>
        rw [ReplState.advanceHwm_not_leader hleader] at hhwm
        dsimp only at hhwm
        omega
  · have hoffset := (htimely.process rfl (.truncateTo authority offset) (by rw [hqueue]; rfl)).2
    rcases hex.hwm with hsame | ⟨i, logEnd, serve, heq, -⟩
    · dsimp only at hlog hsame
      rw [hsame, hlog, List.length_take]
      omega
    · cases heq

private theorem Timely.log_isPrefix {s : Node} {a : Action} (h : Timely self s a)
    (hleader : s.broker.repl.isLeader = true) {b : Broker} {events : List Event}
    (hb : s.broker.step config self a = some (b, events)) : s.broker.log <+: b.log := by
  rcases (step_explained hb).log.isPrefix with hlog | ⟨wall, more, again, authority, offset, queue,
    rfl, hqueue, -⟩
  · exact hlog
  · have hfollower := (h.process rfl (.truncateTo authority offset) (by rw [hqueue]; rfl)).1
    simp [hleader] at hfollower

theorem LedgerInv.items_step {s : Node} (h : LedgerInv self s) {a : Action} {b : Broker}
    {events : List Event} (hb : s.broker.step config self a = some (b, events)) {x : Item}
    (hx : b.Has x) {e : Authority} (he : x.authority = some e) :
    e.generation < b.repl.fetcherGeneration ∨ e = b.repl.authority := by
  have hex := step_explained hb
  have hmono : e.generation < s.broker.repl.fetcherGeneration ∨ e = s.broker.repl.authority →
      e.generation < b.repl.fetcherGeneration ∨ e = b.repl.authority := by
    intro he
    rcases hex.repl.authority with hauth | ⟨p, -, -, hst⟩
    · have hgen : b.repl.fetcherGeneration = s.broker.repl.fetcherGeneration :=
        congrArg Authority.generation hauth
      rw [hgen, show b.repl.authority = s.broker.repl.authority from hauth]
      exact he
    · dsimp only at hst
      rw [hst]
      rcases ReplState.applyMetadata_generation s.broker.repl self s.broker.clock p with hlt | hauth
      · left
        rcases he with he | rfl
        · omega
        · exact hlt
      · have hgen := congrArg Authority.generation hauth
        simp only [ReplState.authority] at hgen
        rw [hgen, hauth]
        exact he
  rcases hex.items x hx with hold | hcreate
  · exact hmono (h.items x hold e he)
  · rcases hcreate.authority he with ⟨y, hy, hye⟩ | rfl | ⟨p, rfl, hruntime, hself, rfl⟩
    · exact hmono (h.items y hy e hye)
    · exact hmono (.inr rfl)
    · cases step_applyMetadata hruntime hb
      rw [(applyMetadata_hosted hself).1]
      exact .inr rfl

/-- A recorded produce of the current role stays recorded. -/
theorem LedgerInv.recorded_step {s : Node} (h : LedgerInv self s) {a : Action}
    (htimely : Timely self s a) {b : Broker} {events : List Event}
    (hb : s.broker.step config self a = some (b, events)) {ticket : Ticket} {base count : ℕ}
    (hleader : s.broker.repl.isLeader = true) (hauth : ticket.authority = s.broker.repl.authority)
    (hrecorded : Recorded self s ticket base count) :
    Recorded self ⟨b, s.trace ++ events⟩ ticket base count :=
  hrecorded.mono (htimely.log_isPrefix hleader hb)
    (h.raise hb hleader hauth hrecorded.appended hrecorded.inLog.pos)

private theorem LedgerInv.append_recorded {s : Node} (h : LedgerInv self s) {ticket : Ticket}
    {queue : List Cmd} (hqueue : s.broker.queue = .append ticket :: queue) {wall : ℕ → Int64}
    {more : ℕ} {again : Bool} (hok : (appendRecords config.log ticket.authority.epoch wall
      ticket.records s.broker.log).2 = none) (hne : ticket.records ≠ []) {b : Broker}
    {events : List Event} (hb : s.broker.step config self (.process wall more again) =
      some (b, events)) :
    Recorded self ⟨b, s.trace ++ events⟩ ticket s.broker.log.length ticket.records.length := by
  obtain ⟨new, hlog, -, -, hall⟩ := appendRecords_spec config.log ticket.authority.epoch wall
    ticket.records s.broker.log
  have hnew := hall hok
  have hlen : new.length = ticket.records.length := by rw [← hnew, List.length_map]
  have hpos : 0 < ticket.records.length := List.length_pos_iff.mpr hne
  have hstep := step_process hqueue hb
  simp only [handle, hok] at hstep
  have hb' : b.log = s.broker.log ++ new ∧ b.hwm = s.broker.hwm ∧
      events = [.appended ticket s.broker.log.length] := by
    split at hstep <;> cases hstep <;> exact ⟨hlog, rfl, rfl⟩
  obtain ⟨hblog, hbhwm, rfl⟩ := hb'
  refine ⟨⟨hpos, ?_, rfl, ?_⟩, List.mem_append_right _ (List.mem_singleton_self _), fun hle => ?_⟩
  · dsimp only
    rw [hblog, List.length_append]
    omega
  · dsimp only
    rw [hblog, List.drop_left, ← hlen, List.take_length, hnew]
  · -- the high-water mark is within the log the records were appended to
    have hhwm := h.hwm_le
    dsimp only at hle
    omega

theorem LedgerInv.step {s s' : Node} {a : Action} (h : LedgerInv self s)
    (htimely : Timely self s a) (hstep : s.step config self a = some s') : LedgerInv self s' := by
  obtain ⟨b, events, hb, rfl⟩ := step_eq_some hstep
  have hex := step_explained hb
  refine ⟨h.hwm_step htimely hb, Matched.step h.matched hb,
    fun p hp => ?_, fun ticket base count ht hleader hauth => ?_,
    fun x hx e he => h.items_step hb hx he⟩
  · have hold : b.repl.authority = s.broker.repl.authority → p ∈ s.broker.repl.pendingAll →
        b.repl.isLeader = true ∧ p.ticket.authority = b.repl.authority ∧
          p.lastOffset = p.base + p.count - 1 ∧
          Recorded self ⟨b, s.trace ++ events⟩ p.ticket p.base p.count := by
      intro hauth hp
      obtain ⟨hleader, hticket, hlast, hrecorded⟩ := h.pending p hp
      exact ⟨(congrArg Authority.leader hauth).trans hleader, hticket.trans hauth.symm, hlast,
        h.recorded_step htimely hb hleader hticket hrecorded⟩
    have hrepl := hex.repl
    dsimp only at hrepl hp ⊢
    generalize hst : b.repl = st at hrepl hold hp ⊢
    cases hrepl with
    | @ledger i ticket base count ht =>
      rcases List.mem_append.mp hp with hp | hp
      · exact hold rfl hp
      · cases List.mem_singleton.mp hp
        obtain ⟨hleader, hauth⟩ := htimely.task i rfl _ ht
        exact ⟨hleader, hauth, rfl, h.recorded_step htimely hb hleader hauth
          (h.ledger ticket base count (List.mem_of_getElem? ht) hleader hauth)⟩
    | advance =>
      refine hold (ReplState.advanceHwm_authority _ _) ?_
      rw [ReplState.advanceHwm] at hp
      split at hp
      · exact hp
      · exact (List.mem_filter.mp hp).1
    | accept ht hok =>
      obtain ⟨-, -, t, rfl⟩ := ReplState.acceptFetch_eq_ok hok
      exact hold rfl hp
    | install =>
      refine hold (ReplState.installIsr_authority _ _ _) ?_
      rw [ReplState.installIsr] at hp
      split at hp <;> exact hp
    | exit =>
      refine hold (ReplState.fetcherExit_authority _) ?_
      rw [ReplState.fetcherExit] at hp
      split at hp <;> exact hp
    | same => exact hold rfl hp
    | @apply p' hruntime hself =>
      obtain ⟨hp, hauth | hfollower | ⟨hepoch, hleader⟩⟩ := ReplState.applyMetadata_pending hp
      · exact hold hauth hp
      · rw [(h.pending p hp).1] at hfollower
        cases hfollower
      · rw [htimely.apply rfl p' (by rw [hruntime]; rfl) hepoch (h.pending p hp).1 hleader] at hp
        cases hp
  · -- a task that waits was there, or comes from the append just handled
    dsimp only at ht hleader hauth
    rcases hex.items (.task (.ledger ticket base count)) ht with hold | hcreate
    · have hsame : ticket.authority = s.broker.repl.authority := by
        rcases h.items _ hold _ rfl with hlt | heq
        · rw [hauth] at hlt
          rcases hex.repl.authority with hrole | ⟨p, rfl, hruntime, hst⟩
          · rw [show b.repl.authority = s.broker.repl.authority from hrole] at hlt
            exact absurd hlt (Nat.lt_irrefl _)
          · have hle : s.broker.repl.fetcherGeneration ≤ b.repl.fetcherGeneration := by
              dsimp only at hst
              rw [hst]
              rcases ReplState.applyMetadata_generation s.broker.repl self s.broker.clock p with
                hgt | heq
              · exact hgt.le
              · exact (congrArg Authority.generation heq).ge
            exact absurd hlt (Nat.not_lt.mpr hle)
        · exact heq
      have hrole : s.broker.repl.isLeader = true := by
        have := hsame.symm.trans hauth
        exact (congrArg Authority.leader this).trans hleader
      exact h.recorded_step htimely hb hrole hsame (h.ledger _ _ _ hold hrole hsame)
    · cases hcreate with
      | ledger hqueue hok hne => exact h.append_recorded hqueue hok hne hb

/-- Along every timely run each answer to an acks=all produce is sound. -/
theorem completed_sound {s : Node} {a : Action} {b : Broker} {events : List Event} {p : Pending}
    (h : Reach (Node.step config self) (Timely self) {} s) (htimely : Timely self s a)
    (hb : s.broker.step config self a = some (b, events)) (hp : .completed p ∈ events) :
    AckSound self s events p := by
  have hinv := Reach.invariant (P := LedgerInv self) .init
    (fun _ _ _ hinv hguard hstep => hinv.step hguard hstep) h
  cases (step_explained hb).events _ hp with
  | @completed i logEnd serve _ ht hmem =>
    cases hleader : s.broker.repl.isLeader with
    | false =>
      rw [ReplState.advanceHwm_not_leader hleader] at hmem
      cases hmem
    | true =>
      rw [ReplState.advanceHwm_leader hleader] at hmem
      obtain ⟨hpending, hcovered⟩ := List.mem_filter.mp hmem
      obtain ⟨-, hauth, hlast, hrecorded⟩ := hinv.pending p hpending
      have hhwm : p.base + p.count ≤ b.hwm := by
        have hraised : b.hwm = max (s.broker.repl.isrMin self logEnd) s.broker.hwm := by
          have hset := step_advance ht hb
          rwa [ReplState.advanceHwm_leader hleader] at hset
        have hpos := hrecorded.inLog.pos
        simp only [decide_eq_true_eq] at hcovered
        omega
      refine ⟨⟨hleader, ?_⟩, hrecorded.inLog, ?_⟩
      · rw [hauth]
        rfl
      · rcases hinv.raise hb hleader hauth hrecorded.appended hrecorded.inLog.pos hhwm
          with hold | hnew
        · exact (hrecorded.covered hold).mono
        · exact hnew

/-- Broker 0 leads epoch 1 alone and its append of an acks=all produce is answered. -/
def appendAnswered : List Action :=
  takeOver 1 ++ [.produce .all 0 [(none, [7])], .task 1, .process (fun _ => 0) 0 false,
    .process (fun _ => 0) 0 false]

/-- Broker 0 leads epoch 1 with a follower in the ISR, and the follower fetches beyond the record. -/
def fetchAnswered : List Action :=
  [.metadata { leadAlone 1 with isr := [0, 1] }, .applyMetadata, .recordEpoch,
    .produce .all 0 [(none, [7])], .task 1, .process (fun _ => 0) 0 false,
    .process (fun _ => 0) 0 false, .task 1, .replicaFetch ⟨0, 1, 1, 1⟩, .task 2, .task 2]

theorem completed_sound_follower : ∃ s events p, s.broker.repl.isr = [0, 1] ∧
    Event.completed p ∈ events ∧ AckSound 0 s events p := by
  obtain ⟨s, hs, hisr, htimely, hcompleted⟩ := Reach.exists_of_runSteps (step smallConfig 0)
    (Timely 0) {} fetchAnswered
    (fun s => s.broker.repl.isr = [0, 1] ∧ Timely 0 s (.task 2) ∧
      ∃ r ∈ s.broker.step smallConfig 0 (.task 2),
        .completed ⟨0, 0, 1, ⟨⟨true, 1, 1⟩, .all, [(none, [7])]⟩⟩ ∈ r.2)
    (by decide +kernel)
  obtain ⟨⟨b, events⟩, hb, hp⟩ := hcompleted
  exact ⟨s, events, _, hisr, hp, completed_sound hs htimely hb hp⟩

/-- The append of epoch 1 is answered, epoch 2 is taken over, and only then is the entry pushed:
the produce is answered by the leader of epoch 2. -/
theorem completed_unsound : ¬ ∀ s, Reach (step smallConfig 0) (fun s a => s.MetadataInOrder 0 a)
    {} s → ∀ a b events p, s.broker.step smallConfig 0 a = some (b, events) →
      .completed p ∈ events → AckSound 0 s events p := by
  intro hall
  obtain ⟨s, hs, hepoch, hcompleted⟩ := Reach.exists_of_runSteps (step smallConfig 0)
    (fun s a => s.MetadataInOrder 0 a) {} (appendAnswered ++ takeOver 2 ++ [.task 1, .task 2])
    (fun s => s.broker.repl.epoch = 2 ∧ ∃ r ∈ s.broker.step smallConfig 0 (.task 2),
      .completed ⟨0, 0, 1, ⟨⟨true, 1, 1⟩, .all, [(none, [7])]⟩⟩ ∈ r.2)
    (by decide)
  obtain ⟨⟨b, events⟩, hb, hp⟩ := hcompleted
  have hsound := hall s hs _ b events _ hb hp
  have hsame := hsound.leads.2
  rw [hepoch] at hsame
  cases hsame

end Node
end Replog.Replication
