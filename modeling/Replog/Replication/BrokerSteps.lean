import Replog.Replication.Broker

/-!
# What a step of a broker can do

The inversion lemmas of `Broker.step`: how the log, the replication state and the high-water mark
change, which tasks, commands, fetcher and runtime states appear, and what is emitted. Every
invariant of the replication protocol is derived from these.
-/

namespace Replog.Replication
open Replog.Storage

/-- A place of a broker where data waits to be used. -/
inductive Item where
  | task (t : Task)
  | cmd (c : Cmd)
  | fetcher (generation : ℕ) (f : Fetcher)
  | runtime (r : Runtime)

/-- What a record of the log carries for a client. -/
def Entry.keyValue (e : Entry) : KeyValue := (e.record.key, e.record.value)

/-- A batch is appended up to its first record that is too large, and wholly if there is none. -/
theorem appendRecords_spec (config : LogConfig) (epoch : ℕ) (wall : ℕ → Int64)
    (records : List KeyValue) (log : List Entry) :
    ∃ new, (appendRecords config epoch wall records log).1 = log ++ new ∧
      (∀ e ∈ new, e.epoch = epoch) ∧
      (∀ i e, new[i]? = some e → e.record.offset = log.length + i) ∧
      ((appendRecords config epoch wall records log).2 = none →
        new.map Entry.keyValue = records) := by
  induction records generalizing log with
  | nil => exact ⟨[], by simp [appendRecords], by simp, by simp, by simp⟩
  | cons r rest ih =>
    obtain ⟨key, value⟩ := r
    rw [appendRecords]
    split
    · exact ⟨[], by simp, by simp, by simp, by simp⟩
    · obtain ⟨new, hlog, hepoch, hoffset, hall⟩ :=
        ih (log ++ [⟨epoch, log.length, wall log.length, key, value⟩])
      refine ⟨⟨epoch, log.length, wall log.length, key, value⟩ :: new, ?_, ?_, ?_, ?_⟩
      · rw [hlog, List.append_assoc]
        rfl
      · intro e he
        rcases List.mem_cons.mp he with rfl | he
        · rfl
        · exact hepoch e he
      · intro i e he
        cases i with
        | zero =>
          cases he
          rfl
        | succ i =>
          rw [hoffset i e he, List.length_append, List.length_singleton]
          omega
      · intro hnone
        rw [List.map_cons, hall hnone]
        rfl

/-- Fetched records are appended up to the first that does not continue the log or is too
large. -/
theorem appendFetched_spec (config : LogConfig) (records log : List Entry) :
    ∃ new, new <+: records ∧ (appendFetched config records log).1 = log ++ new ∧
      ∀ i e, new[i]? = some e → e.record.offset = log.length + i := by
  induction records generalizing log with
  | nil => exact ⟨[], List.nil_prefix, by simp [appendFetched], by simp⟩
  | cons r rest ih =>
    rw [appendFetched]
    split
    · exact ⟨[], List.nil_prefix, by simp, by simp⟩
    · split
      · exact ⟨[], List.nil_prefix, by simp, by simp⟩
      · obtain ⟨new, hnew, hlog, hoffset⟩ := ih (log ++ [r])
        refine ⟨r :: new, List.cons_prefix_cons.mpr ⟨rfl, hnew⟩, ?_, ?_⟩
        · rw [hlog, List.append_assoc]
          rfl
        · intro i e he
          cases i with
          | zero =>
            cases he
            rw [Nat.add_zero]
            exact not_not.mp ‹_›
          | succ i =>
            rw [hoffset i e he, List.length_append, List.length_singleton]
            omega

namespace Broker

variable {config : BrokerConfig} {self : BrokerId} {b b' : Broker} {a : Action}
  {events : List Event}

def Has (b : Broker) : Item → Prop
  | .task t => t ∈ b.tasks
  | .cmd c => c ∈ b.queue
  | .fetcher g f => b.fetchers g = some f
  | .runtime r => b.runtime = r

/-- The changes of the log and the checkpoint. -/
inductive LogStep (config : BrokerConfig) (b : Broker) :
    Action → List Entry → EpochCheckpoint → Prop where
  | append {ticket queue wall more again} (hqueue : b.queue = .append ticket :: queue) :
    LogStep config b (.process wall more again)
      (appendRecords config.log ticket.authority.epoch wall ticket.records b.log).1 b.epochs
  | appendReplicated {authority records queue wall more again}
    (hqueue : b.queue = .appendReplicated authority records :: queue) :
    LogStep config b (.process wall more again) (appendFetched config.log records b.log).1 b.epochs
  | truncateTo {authority offset queue wall more again}
    (hqueue : b.queue = .truncateTo authority offset :: queue) :
    LogStep config b (.process wall more again) (b.log.take offset) (b.epochs.truncateTo offset)
  | recordEpoch {authority epoch queue wall more again}
    (hqueue : b.queue = .recordEpoch authority epoch :: queue)
    (hepoch : b.epochs.currentEpoch < epoch) :
    LogStep config b (.process wall more again) b.log
      ((b.epochs.append epoch b.log.length).getD b.epochs)
  | same {a : Action} : LogStep config b a b.log b.epochs

/-- The changes of the replication state. -/
inductive ReplStep (self : BrokerId) (b : Broker) : Action → ReplState → Prop where
  | ledger {i ticket base count} (htask : b.tasks[i]? = some (.ledger ticket base count)) :
    ReplStep self b (.task i) { b.repl with
      pendingAll := b.repl.pendingAll ++ [⟨base + count - 1, base, count, ticket⟩] }
  | advance {i logEnd serve} (htask : b.tasks[i]? = some (.advanceTo logEnd serve)) :
    ReplStep self b (.task i) (b.repl.advanceHwm self logEnd b.hwm).2.2
  | accept {i req logEnd st} (htask : b.tasks[i]? = some (.acceptFetch req logEnd))
    (hok : b.repl.acceptFetch b.clock logEnd req = .ok st) : ReplStep self b (.task i) st
  | apply {p} (hruntime : b.runtime = .pulled p) (hself : self ∈ p.replicas) :
    ReplStep self b .applyMetadata (b.repl.applyMetadata self b.clock p).2.2
  | install {req version} (hruntime : b.runtime = .proposing req) :
    ReplStep self b (.alterIsrReply req (.ok version))
      (b.repl.installIsr req.leaderEpoch req.isr version)
  | exit {g} : ReplStep self b (.fetcher g) (b.repl.fetcherExit g)
  | same {a : Action} : ReplStep self b a b.repl

inductive FetcherStep (self : BrokerId) (b : Broker) (g : ℕ) (f : Fetcher) : Fetcher → Prop where
  | leave {phase} (hphase : phase = .exiting ∨ phase = .connected) :
    FetcherStep self b g f { f with phase }
  | status : FetcherStep self b g f { f with phase := .awaitStatus }
  | check {req} : FetcherStep self b g f { f with phase := .awaitCheck req }
  | reconcile {endOffset} (hphase : f.phase = .checked endOffset) (hcurrent : b.isCurrent g) :
    FetcherStep self b g f { f with phase := .reconcile endOffset }
  | truncate {endOffset} (hphase : f.phase = .reconcile endOffset)
    (hlt : min endOffset b.log.length < b.log.length) :
    FetcherStep self b g f { f with phase := .truncate (min endOffset b.log.length) }
  | agreed {endOffset} (hphase : f.phase = .reconcile endOffset) (hle : b.log.length ≤ endOffset) :
    FetcherStep self b g f { f with phase := .loop }
  | awaitTruncate {target} (hphase : f.phase = .truncate target) :
    FetcherStep self b g f { f with phase := .awaitTruncate }
  | fetch (hphase : f.phase = .loop) (hcurrent : b.isCurrent g) :
    FetcherStep self b g f { f with phase := .fetch }
  | awaitFetch (hphase : f.phase = .fetch) :
    FetcherStep self b g f { f with phase := .awaitFetch ⟨b.calls, self, f.epoch, b.log.length⟩ }
  | apply {epoch records} (hphase : f.phase = .received epoch records)
    (hcurrent : b.isCurrent g) : FetcherStep self b g f { f with phase := .apply epoch records }
  | append {epoch records localEpoch} (hphase : f.phase = .apply epoch records) :
    FetcherStep self b g f { f with localEpoch, phase := .append records }
  | again (hphase : f.phase = .append []) : FetcherStep self b g f { f with phase := .loop }
  | awaitAppend {records} (hphase : f.phase = .append records) :
    FetcherStep self b g f { f with phase := .awaitAppend }

/-- The items that a step can bring up. -/
inductive Creates (config : BrokerConfig) (self : BrokerId) (b : Broker) :
    Action → Item → Prop where
  | produce {acks leaderEpoch records authority}
    (hcheck : b.repl.precheck config.minInsyncReplicas acks leaderEpoch = .ok authority) :
    Creates config self b (.produce acks leaderEpoch records)
      (.task (.produce ⟨authority, acks, records⟩))
  | acceptFetch {req} :
    Creates config self b (.replicaFetch req) (.task (.acceptFetch req b.log.length))
  | answerEpoch {req} (hleader : b.repl.isLeader = true) :
    Creates config self b (.epochCheck req) (.task (.answerEpoch b.repl.authority req))
  | consume {offset} :
    Creates config self b (.consumerFetch offset) (.task (.consume offset b.hwm))
  | advance {a : Action} : Creates config self b a (.task (.advance none))
  | advanceTo {i serve} (htask : b.tasks[i]? = some (.advance serve)) :
    Creates config self b (.task i) (.task (.advanceTo b.log.length serve))
  | serveFetch {i logEnd fetch} (htask : b.tasks[i]? = some (.advanceTo logEnd (some fetch))) :
    Creates config self b (.task i) (.task (.serveFetch fetch))
  | accepted {i req logEnd st} (htask : b.tasks[i]? = some (.acceptFetch req logEnd))
    (hok : b.repl.acceptFetch b.clock logEnd req = .ok st) :
    Creates config self b (.task i) (.task (.advance (some ⟨st.authority, req⟩)))
  | append {i ticket} (htask : b.tasks[i]? = some (.produce ticket)) :
    Creates config self b (.task i) (.cmd (.append ticket))
  | readReplica {i fetch} (htask : b.tasks[i]? = some (.serveFetch fetch)) :
    Creates config self b (.task i) (.cmd (.readReplica fetch))
  | epochEndFor {i authority req} (htask : b.tasks[i]? = some (.answerEpoch authority req)) :
    Creates config self b (.task i) (.cmd (.epochEndFor authority req))
  | readConsumer {i offset hwm} (htask : b.tasks[i]? = some (.consume offset hwm)) :
    Creates config self b (.task i) (.cmd (.readConsumer offset hwm))
  | ledger {ticket queue wall more again} (hqueue : b.queue = .append ticket :: queue)
    (hok : (appendRecords config.log ticket.authority.epoch wall ticket.records b.log).2 = none)
    (hne : ticket.records ≠ []) :
    Creates config self b (.process wall more again)
      (.task (.ledger ticket b.log.length ticket.records.length))
  | serveAgain {fetch queue wall more again} (hqueue : b.queue = .readReplica fetch :: queue) :
    Creates config self b (.process wall more again) (.task (.serveFetch fetch))
  | appended {authority records queue wall more again f phase}
    (hqueue : b.queue = .appendReplicated authority records :: queue)
    (hfetcher : b.fetchers authority.generation = some f)
    (hphase : phase = .loop ∨ phase = .exiting) :
    Creates config self b (.process wall more again)
      (.fetcher authority.generation { f with phase })
  | truncated {authority offset queue wall more again f}
    (hqueue : b.queue = .truncateTo authority offset :: queue)
    (hfetcher : b.fetchers authority.generation = some f) :
    Creates config self b (.process wall more again)
      (.fetcher authority.generation { f with phase := .loop })
  | status {authority queue wall more again f}
    (hqueue : b.queue = .epochStatus authority :: queue)
    (hfetcher : b.fetchers authority.generation = some f) :
    Creates config self b (.process wall more again) (.fetcher authority.generation
      { f with localEpoch := b.epochs.currentEpoch, phase := .check })
  | pulled {p} (hidle : b.runtime = .idle) :
    Creates config self b (.metadata p) (.runtime (.pulled p))
  | idle {a : Action} (hleading : ∀ authority, b.runtime = .leading authority → a = .recordEpoch) :
    Creates config self b a (.runtime .idle)
  | leading {p} (hruntime : b.runtime = .pulled p) (hself : self ∈ p.replicas)
    (htransition : (b.repl.applyMetadata self b.clock p).1 = .leading) :
    Creates config self b .applyMetadata
      (.runtime (.leading (b.repl.applyMetadata self b.clock p).2.2.authority))
  | following {p leader} (hruntime : b.runtime = .pulled p) (hself : self ∈ p.replicas)
    (htransition : (b.repl.applyMetadata self b.clock p).1 = .following (some leader)) :
    Creates config self b .applyMetadata
      (.fetcher (b.repl.applyMetadata self b.clock p).2.2.fetcherGeneration
        { leader, epoch := p.leaderEpoch })
  | recordEpoch {authority} (hruntime : b.runtime = .leading authority) :
    Creates config self b .recordEpoch (.cmd (.recordEpoch authority authority.epoch))
  | proposing {leaderEpoch isr} (hidle : b.runtime = .idle)
    (hproposal : b.repl.isrProposal self config.replicaLagMs b.clock = some (leaderEpoch, isr)) :
    Creates config self b .propose (.runtime (.proposing ⟨b.calls, self, leaderEpoch, isr⟩))
  | fetcher {g f f'} (hfetcher : b.fetchers g = some f) (hstep : FetcherStep self b g f f') :
    Creates config self b (.fetcher g) (.fetcher g f')
  | epochStatus {g f} (hfetcher : b.fetchers g = some f) :
    Creates config self b (.fetcher g) (.cmd (.epochStatus (f.authority g)))
  | truncateTo {g f target} (hfetcher : b.fetchers g = some f)
      (hphase : f.phase = .truncate target) :
    Creates config self b (.fetcher g) (.cmd (.truncateTo (f.authority g) target))
  | fetcherEpoch {g f epoch records} (hfetcher : b.fetchers g = some f)
    (hphase : f.phase = .apply epoch records) :
    Creates config self b (.fetcher g) (.cmd (.recordEpoch (f.authority g) epoch))
  | appendReplicated {g f records} (hfetcher : b.fetchers g = some f)
    (hphase : f.phase = .append records) (hne : records ≠ []) :
    Creates config self b (.fetcher g) (.cmd (.appendReplicated (f.authority g) records))
  | checked {g f req endOffset} (hfetcher : b.fetchers g = some f)
    (hphase : f.phase = .awaitCheck req) :
    Creates config self b (.epochReply g req (.ok endOffset))
      (.fetcher g { f with phase := .checked endOffset })
  | received {g f req records} (hfetcher : b.fetchers g = some f)
    (hphase : f.phase = .awaitFetch req) :
    Creates config self b (.fetchReply g req (.ok records))
      (.fetcher g { f with phase := .received req.leaderEpoch records })
  | exiting {a : Action} {g f} (hfetcher : b.fetchers g = some f) :
    Creates config self b a (.fetcher g { f with phase := .exiting })

inductive Emits (config : BrokerConfig) (self : BrokerId) (b : Broker) :
    Action → Event → Prop where
  | queued {a : Action} {c} (hcreate : Creates config self b a (.cmd c)) :
      Emits config self b a (.queued c)
  | raised {i logEnd serve} (htask : b.tasks[i]? = some (.advanceTo logEnd serve))
    (hlt : b.hwm < (b.repl.advanceHwm self logEnd b.hwm).1) :
    Emits config self b (.task i)
      (.raised b.repl.epoch b.repl.isr (b.repl.advanceHwm self logEnd b.hwm).1)
  | completed {i logEnd serve p} (htask : b.tasks[i]? = some (.advanceTo logEnd serve))
    (hp : p ∈ (b.repl.advanceHwm self logEnd b.hwm).2.1) :
    Emits config self b (.task i) (.completed p)
  | accepted {i req logEnd st} (htask : b.tasks[i]? = some (.acceptFetch req logEnd))
    (hok : b.repl.acceptFetch b.clock logEnd req = .ok st) :
    Emits config self b (.task i) (.accepted req)
  | rejected {i req logEnd code} (htask : b.tasks[i]? = some (.acceptFetch req logEnd)) :
    Emits config self b (.task i) (.sent (.fetchReply req (.error code)))
  | appended {ticket queue wall more again} (hqueue : b.queue = .append ticket :: queue)
    (hok : (appendRecords config.log ticket.authority.epoch wall ticket.records b.log).2 = none) :
    Emits config self b (.process wall more again) (.appended ticket b.log.length)
  | epochEnd {authority req queue wall more again}
    (hqueue : b.queue = .epochEndFor authority req :: queue) :
    Emits config self b (.process wall more again)
      (.sent (.epochReply req (.ok (b.epochs.endOffsetFor req.epoch b.log.length))))
  | fetchReply {fetch queue wall more again}
    (hqueue : b.queue = .readReplica fetch :: queue) :
    Emits config self b (.process wall more again)
      (.sent (.fetchReply fetch.req (readFrom b.log fetch.req.offset more)))
  | served {offset hwm queue wall more again records}
    (hqueue : b.queue = .readConsumer offset hwm :: queue)
    (hread : readFrom b.log offset more = .ok records) :
    Emits config self b (.process wall more again)
      (.served ((records.map Entry.record).takeWhile fun r => r.offset < hwm))
  | notLeader {req} :
    Emits config self b (.epochCheck req) (.sent (.epochReply req (.error .notLeader)))
  | epochCheck {g f} (hfetcher : b.fetchers g = some f) (hphase : f.phase = .check) :
    Emits config self b (.fetcher g) (.sent (.epochCheck f.leader ⟨b.calls, self, f.localEpoch⟩))
  | replicaFetch {g f} (hfetcher : b.fetchers g = some f) (hphase : f.phase = .fetch) :
    Emits config self b (.fetcher g)
      (.sent (.replicaFetch f.leader ⟨b.calls, self, f.epoch, b.log.length⟩))
  | alterIsr {leaderEpoch isr}
    (hproposal : b.repl.isrProposal self config.replicaLagMs b.clock = some (leaderEpoch, isr)) :
    Emits config self b .propose (.sent (.alterIsr ⟨b.calls, self, leaderEpoch, isr⟩))

/-- All there is to say about a step. -/
structure Explains (config : BrokerConfig) (id : BrokerId) (b : Broker) (a : Action)
    (r : Broker × List Event) : Prop where
  log : LogStep config b a r.1.log r.1.epochs
  repl : ReplStep id b a r.1.repl
  hwm : r.1.hwm = b.hwm ∨ ∃ i logEnd serve, a = .task i ∧
    b.tasks[i]? = some (.advanceTo logEnd serve) ∧
    r.1.hwm = (b.repl.advanceHwm id logEnd b.hwm).1
  items : ∀ x, r.1.Has x → b.Has x ∨ Creates config id b a x
  events : ∀ e ∈ r.2, Emits config id b a e

theorem has_spawn {t : Task} {x : Item} (h : (b.spawn t).Has x) : b.Has x ∨ x = .task t := by
  cases x with
  | task t' =>
    rcases List.mem_append.mp h with h | h
    · exact .inl h
    · exact .inr (by rw [List.mem_singleton.mp h])
  | _ => exact .inl h

theorem has_enqueue {c : Cmd} {x : Item} (h : (b.enqueue c).1.Has x) :
    b.Has x ∨ x = .cmd c := by
  cases x with
  | cmd c' =>
    rcases List.mem_append.mp h with h | h
    · exact .inl h
    · exact .inr (by rw [List.mem_singleton.mp h])
  | _ => exact .inl h

theorem has_setFetcher {g : ℕ} {f : Fetcher} {x : Item} (h : (b.setFetcher g f).Has x) :
    b.Has x ∨ x = .fetcher g f := by
  cases x with
  | fetcher g' f' =>
    by_cases hg : g' = g
    · subst hg
      right
      have hf : some f = some f' := by simpa [Has, setFetcher] using h
      rw [Option.some.inj hf]
    · left
      simpa [Has, setFetcher, hg] using h
  | _ => exact .inl h

theorem has_resume {g : ℕ} {update : Fetcher → Fetcher} {x : Item}
    (h : (b.resume g update).Has x) :
    b.Has x ∨ ∃ f, b.fetchers g = some f ∧ x = .fetcher g (update f) := by
  cases x with
  | fetcher g' f' =>
    by_cases hg : g' = g
    · subst hg
      right
      have hf : (b.fetchers g').map update = some f' := by simpa [Has, resume] using h
      obtain ⟨f, hold, rfl⟩ := Option.map_eq_some_iff.mp hf
      exact ⟨f, hold, rfl⟩
    · left
      simpa [Has, resume, hg] using h
  | _ => exact .inl h

theorem has_eraseTask {i : ℕ} {x : Item} (h : { b with tasks := b.tasks.eraseIdx i }.Has x) :
    b.Has x := by
  cases x with
  | task t => exact List.mem_of_mem_eraseIdx h
  | _ => exact h

private theorem has_popQueue {c : Cmd} {queue : List Cmd} (hqueue : b.queue = c :: queue) {x : Item}
    (h : { b with queue }.Has x) : b.Has x := by
  cases x with
  | cmd d =>
    rw [Has, hqueue]
    exact List.mem_cons_of_mem c h
  | _ => exact h

theorem has_setRuntime {r : Runtime} {x : Item} (h : { b with runtime := r }.Has x) :
    b.Has x ∨ x = .runtime r := by
  cases x with
  | runtime r' => exact .inr (congrArg Item.runtime h.symm)
  | _ => exact .inl h

private theorem explains_task {i : ℕ} {t : Task} (ht : b.tasks[i]? = some t) :
    Explains config self b (.task i)
      ({ b with tasks := b.tasks.eraseIdx i }.runTask self t) := by
  cases t with
  | produce ticket =>
    refine ⟨.same, .same, .inl rfl, fun x hx => ?_, fun e he => ?_⟩
    · rcases has_enqueue hx with hx | rfl
      · exact .inl (has_eraseTask hx)
      · exact .inr (.append ht)
    · rw [List.mem_singleton.mp he]
      exact .queued (.append ht)
  | ledger ticket base count =>
    refine ⟨.same, .ledger ht, .inl rfl, fun x hx => ?_, by simp [runTask]⟩
    rcases has_spawn hx with hx | rfl
    · exact .inl (has_eraseTask hx)
    · exact .inr .advance
  | advance serve =>
    refine ⟨.same, .same, .inl rfl, fun x hx => ?_, by simp [runTask]⟩
    rcases has_spawn hx with hx | rfl
    · exact .inl (has_eraseTask hx)
    · exact .inr (.advanceTo ht)
  | advanceTo logEnd serve =>
    have hevents : ∀ e ∈ (runTask self { b with tasks := b.tasks.eraseIdx i }
        (.advanceTo logEnd serve)).2, Emits config self b (.task i) e := by
      intro e he
      rcases List.mem_append.mp he with he | he
      · split at he
        · rw [List.mem_singleton.mp he]
          exact .raised ht ‹_›
        · cases he
      · obtain ⟨p, hp, rfl⟩ := List.mem_map.mp he
        exact .completed ht hp
    cases serve with
    | none =>
      exact ⟨.same, .advance ht, .inr ⟨i, logEnd, none, rfl, ht, rfl⟩,
        fun x hx => .inl (has_eraseTask (b := b) (by cases x <;> exact hx)), hevents⟩
    | some fetch =>
      refine ⟨.same, .advance ht, .inr ⟨i, logEnd, some fetch, rfl, ht, rfl⟩, fun x hx => ?_,
        hevents⟩
      rcases has_spawn hx with hx | rfl
      · exact .inl (has_eraseTask (b := b) (by cases x <;> exact hx))
      · exact .inr (.serveFetch ht)
  | acceptFetch req logEnd =>
    cases hok : b.repl.acceptFetch b.clock logEnd req with
    | error code =>
      simp only [runTask, hok]
      refine ⟨.same, .same, .inl rfl, fun x hx => .inl (has_eraseTask hx), fun e he => ?_⟩
      rw [List.mem_singleton.mp he]
      exact .rejected ht
    | ok st =>
      simp only [runTask, hok]
      refine ⟨.same, .accept ht hok, .inl rfl, fun x hx => ?_, fun e he => ?_⟩
      · rcases has_spawn hx with hx | rfl
        · exact .inl (has_eraseTask (b := b) (by cases x <;> exact hx))
        · exact .inr (.accepted ht hok)
      · rw [List.mem_singleton.mp he]
        exact .accepted ht hok
  | serveFetch fetch =>
    refine ⟨.same, .same, .inl rfl, fun x hx => ?_, fun e he => ?_⟩
    · rcases has_enqueue hx with hx | rfl
      · exact .inl (has_eraseTask hx)
      · exact .inr (.readReplica ht)
    · rw [List.mem_singleton.mp he]
      exact .queued (.readReplica ht)
  | answerEpoch authority req =>
    refine ⟨.same, .same, .inl rfl, fun x hx => ?_, fun e he => ?_⟩
    · rcases has_enqueue hx with hx | rfl
      · exact .inl (has_eraseTask hx)
      · exact .inr (.epochEndFor ht)
    · rw [List.mem_singleton.mp he]
      exact .queued (.epochEndFor ht)
  | consume offset hwm =>
    simp only [runTask]
    split
    · exact ⟨.same, .same, .inl rfl, fun x hx => .inl (has_eraseTask hx), by simp⟩
    · split
      · refine ⟨.same, .same, .inl rfl, fun x hx => ?_, fun e he => ?_⟩
        · rcases has_enqueue hx with hx | rfl
          · exact .inl (has_eraseTask hx)
          · exact .inr (.readConsumer ht)
        · rw [List.mem_singleton.mp he]
          exact .queued (.readConsumer ht)
      · exact ⟨.same, .same, .inl rfl, fun x hx => .inl (has_eraseTask hx), by simp⟩

private theorem explains_process {c : Cmd} {queue : List Cmd} (hqueue : b.queue = c :: queue)
    (wall : ℕ → Int64) (more : ℕ) (again : Bool) :
    Explains config self b (.process wall more again)
      ({ b with queue }.handle config wall more again c) := by
  have hpop : ∀ x, { b with queue }.Has x → b.Has x := fun x hx => has_popQueue hqueue hx
  cases c with
  | append ticket =>
    cases herror : (appendRecords config.log ticket.authority.epoch wall ticket.records b.log).2 with
    | some code =>
      simp only [handle, herror]
      exact ⟨.append hqueue, .same, .inl rfl, fun x hx => .inl (hpop x (by cases x <;> exact hx)),
        by simp⟩
    | none =>
      simp only [handle, herror]
      split
      · rename_i hall
        refine ⟨.append hqueue, .same, .inl rfl, fun x hx => ?_, fun e he => ?_⟩
        · rcases has_spawn hx with hx | rfl
          · exact .inl (hpop x (by cases x <;> exact hx))
          · exact .inr (.ledger hqueue herror hall.2)
        · rw [List.mem_singleton.mp he]
          exact .appended hqueue herror
      · refine ⟨.append hqueue, .same, .inl rfl,
          fun x hx => .inl (hpop x (by cases x <;> exact hx)), fun e he => ?_⟩
        rw [List.mem_singleton.mp he]
        exact .appended hqueue herror
  | appendReplicated authority records =>
    refine ⟨.appendReplicated hqueue, .same, .inl rfl, fun x hx => ?_, by simp [handle]⟩
    rcases has_resume hx with hx | ⟨f, hf, rfl⟩
    · exact .inl (hpop x (by cases x <;> exact hx))
    · refine .inr (.appended hqueue hf ?_)
      split
      · exact .inl rfl
      · exact .inr rfl
  | truncateTo authority offset =>
    refine ⟨.truncateTo hqueue, .same, .inl rfl, fun x hx => ?_, by simp [handle]⟩
    rcases has_resume hx with hx | ⟨f, hf, rfl⟩
    · exact .inl (hpop x (by cases x <;> exact hx))
    · exact .inr (.truncated hqueue hf)
  | recordEpoch authority epoch =>
    simp only [handle]
    split
    · exact ⟨.recordEpoch hqueue ‹_›, .same, .inl rfl,
        fun x hx => .inl (hpop x (by cases x <;> exact hx)), by simp⟩
    · exact ⟨.same, .same, .inl rfl, fun x hx => .inl (hpop x hx), by simp⟩
  | epochStatus authority =>
    refine ⟨.same, .same, .inl rfl, fun x hx => ?_, by simp [handle]⟩
    rcases has_resume hx with hx | ⟨f, hf, rfl⟩
    · exact .inl (hpop x hx)
    · exact .inr (.status hqueue hf)
  | epochEndFor authority req =>
    refine ⟨.same, .same, .inl rfl, fun x hx => .inl (hpop x hx), fun e he => ?_⟩
    rw [List.mem_singleton.mp he]
    exact .epochEnd hqueue
  | readReplica fetch =>
    have hreply : ∀ e ∈ [Event.sent (.fetchReply fetch.req (readFrom b.log fetch.req.offset more))],
        Emits config self b (.process wall more again) e := by
      intro e he
      rw [List.mem_singleton.mp he]
      exact .fetchReply hqueue
    simp only [handle]
    split
    · rename_i hread
      split
      · refine ⟨.same, .same, .inl rfl, fun x hx => ?_, by simp⟩
        rcases has_spawn hx with hx | rfl
        · exact .inl (hpop x hx)
        · exact .inr (.serveAgain hqueue)
      · rw [hread] at hreply
        exact ⟨.same, .same, .inl rfl, fun x hx => .inl (hpop x hx), hreply⟩
    · exact ⟨.same, .same, .inl rfl, fun x hx => .inl (hpop x hx), hreply⟩
  | readConsumer offset hwm =>
    simp only [handle]
    split
    · refine ⟨.same, .same, .inl rfl, fun x hx => .inl (hpop x hx), fun e he => ?_⟩
      rw [List.mem_singleton.mp he]
      exact .served hqueue ‹_›
    · exact ⟨.same, .same, .inl rfl, fun x hx => .inl (hpop x hx), by simp⟩

private theorem explains_moved {a : Action} {g : ℕ} {f : Fetcher}
    (hcreate : Creates config self b a (.fetcher g f)) (calls : ℕ) (es : List Event)
    (hes : ∀ e ∈ es, Emits config self b a e) :
    Explains config self b a ({ b.setFetcher g f with calls }, es) := by
  refine ⟨.same, .same, .inl rfl, fun x hx => ?_, hes⟩
  have hx : (b.setFetcher g f).Has x := by cases x <;> exact hx
  rcases has_setFetcher hx with hx | rfl
  · exact .inl hx
  · exact .inr hcreate

private theorem explains_queued {a : Action} {g : ℕ} {f : Fetcher} {c : Cmd}
    (hfetcher : Creates config self b a (.fetcher g f)) (hcmd : Creates config self b a (.cmd c)) :
    Explains config self b a ((b.setFetcher g f).enqueue c) := by
  refine ⟨.same, .same, .inl rfl, fun x hx => ?_, fun e he => ?_⟩
  · rcases has_enqueue hx with hx | rfl
    · rcases has_setFetcher hx with hx | rfl
      · exact .inl hx
      · exact .inr hfetcher
    · exact .inr hcmd
  · rw [List.mem_singleton.mp he]
    exact .queued hcmd

private theorem explains_fetcher {g : ℕ} {f : Fetcher} (hf : b.fetchers g = some f)
    {r : Broker × List Event} (h : b.runFetcher self g f = some r) :
    Explains config self b (.fetcher g) r := by
  have hmoved : ∀ {f'}, FetcherStep self b g f f' →
      Explains config self b (.fetcher g) (b.setFetcher g f', []) :=
    fun hstep => explains_moved (.fetcher hf hstep) b.calls [] (by simp)
  rw [runFetcher] at h
  cases hphase : f.phase <;> rw [hphase] at h <;> simp only [Option.some.injEq, reduceCtorEq] at h
  case connect =>
    subst h
    split
    · exact hmoved (.leave (.inr rfl))
    · exact hmoved (.leave (.inl rfl))
  case connected =>
    subst h
    exact explains_queued (.fetcher hf .status) (.epochStatus hf)
  case check =>
    subst h
    refine explains_moved (.fetcher hf .check) _ _ fun e he => ?_
    rw [List.mem_singleton.mp he]
    exact .epochCheck hf hphase
  case checked endOffset =>
    subst h
    split
    · exact hmoved (.reconcile hphase ‹_›)
    · exact hmoved (.leave (.inl rfl))
  case reconcile endOffset =>
    subst h
    split
    · exact hmoved (.truncate hphase ‹_›)
    · exact hmoved (.agreed hphase (by omega))
  case truncate target =>
    subst h
    exact explains_queued (.fetcher hf (.awaitTruncate hphase)) (.truncateTo hf hphase)
  case loop =>
    subst h
    split
    · exact hmoved (.fetch hphase ‹_›)
    · exact hmoved (.leave (.inl rfl))
  case fetch =>
    subst h
    refine explains_moved (.fetcher hf (.awaitFetch hphase)) _ _ fun e he => ?_
    rw [List.mem_singleton.mp he]
    exact .replicaFetch hf hphase
  case received epoch records =>
    subst h
    split
    · exact hmoved (.apply hphase ‹_›)
    · exact hmoved (.leave (.inl rfl))
  case apply epoch records =>
    split at h
    · cases h
      exact explains_queued (.fetcher hf (.append hphase)) (.fetcherEpoch hf hphase)
    · cases h
      exact hmoved (.append hphase)
  case append records =>
    split at h
    · rename_i hnil
      cases h
      exact hmoved (.again (hnil ▸ hphase))
    · cases h
      exact explains_queued (.fetcher hf (.awaitAppend hphase))
        (.appendReplicated hf hphase ‹_›)
  case exiting =>
    subst h
    refine ⟨.same, .exit, .inl rfl, fun x hx => .inl ?_, by simp⟩
    cases x with
    | fetcher g' f' =>
      by_cases hg : g' = g
      · subst hg
        simp [Has] at hx
      · simpa [Has, hg] using hx
    | _ => exact hx

private theorem explains_applyMetadata {p : PartitionMeta} (hruntime : b.runtime = .pulled p) :
    Explains config self b .applyMetadata (b.applyMetadata self p, []) := by
  rw [applyMetadata]
  split
  · refine ⟨.same, .same, .inl rfl, fun x hx => ?_, by simp⟩
    rcases has_setRuntime hx with hx | rfl
    · exact .inl hx
    · exact .inr (.idle (by simp_all))
  · have hself : self ∈ p.replicas := not_not.mp ‹_›
    have hrepl : ReplStep self b .applyMetadata (b.repl.applyMetadata self b.clock p).2.2 :=
      .apply hruntime hself
    have hidle : ∀ x, { b with
          repl := (b.repl.applyMetadata self b.clock p).2.2, runtime := .idle }.Has x →
        b.Has x ∨ Creates config self b .applyMetadata x := by
      intro x hx
      rcases has_setRuntime (b := b) (r := .idle) (x := x) (by cases x <;> exact hx) with hx | rfl
      · exact .inl hx
      · exact .inr (.idle (by simp_all))
    cases htransition : (b.repl.applyMetadata self b.clock p).1 with
    | unchanged =>
      simp only [htransition]
      refine ⟨.same, hrepl, .inl rfl, fun x hx => ?_, by simp⟩
      rcases has_spawn hx with hx | rfl
      · exact hidle x hx
      · exact .inr .advance
    | leading =>
      simp only [htransition]
      refine ⟨.same, hrepl, .inl rfl, fun x hx => ?_, by simp⟩
      rcases has_setRuntime (b := b)
        (r := .leading (b.repl.applyMetadata self b.clock p).2.2.authority) (x := x)
        (by cases x <;> exact hx) with hx | rfl
      · exact .inl hx
      · exact .inr (.leading hruntime hself htransition)
    | following leader =>
      cases leader with
      | none =>
        simp only [htransition]
        exact ⟨.same, hrepl, .inl rfl, hidle, by simp⟩
      | some leader =>
        simp only [htransition]
        refine ⟨.same, hrepl, .inl rfl, fun x hx => ?_, by simp⟩
        rcases has_setFetcher hx with hx | rfl
        · exact hidle x hx
        · exact .inr (.following hruntime hself htransition)

theorem step_explained {r : Broker × List Event} (h : b.step config self a = some r) :
    Explains config self b a r := by
  cases a with
  | tick ms =>
    cases h
    exact ⟨.same, .same, .inl rfl, fun x hx => .inl (by cases x <;> exact hx), by simp⟩
  | produce acks leaderEpoch records =>
    rw [step] at h
    split at h
    · cases h
    · cases h
      refine ⟨.same, .same, .inl rfl, fun x hx => ?_, by simp⟩
      rcases has_spawn hx with hx | rfl
      · exact .inl hx
      · exact .inr (.produce ‹_›)
  | replicaFetch req =>
    cases h
    refine ⟨.same, .same, .inl rfl, fun x hx => ?_, by simp⟩
    rcases has_spawn hx with hx | rfl
    · exact .inl hx
    · exact .inr .acceptFetch
  | epochCheck req =>
    rw [step] at h
    split at h
    · cases h
      refine ⟨.same, .same, .inl rfl, fun x hx => ?_, by simp⟩
      rcases has_spawn hx with hx | rfl
      · exact .inl hx
      · exact .inr (.answerEpoch ‹_›)
    · cases h
      refine ⟨.same, .same, .inl rfl, fun x hx => .inl hx, fun e he => ?_⟩
      rw [List.mem_singleton.mp he]
      exact .notLeader
  | consumerFetch offset =>
    cases h
    refine ⟨.same, .same, .inl rfl, fun x hx => ?_, by simp⟩
    rcases has_spawn hx with hx | rfl
    · exact .inl hx
    · exact .inr .consume
  | task i =>
    obtain ⟨t, ht, rfl⟩ := Option.map_eq_some_iff.mp h
    exact explains_task ht
  | process wall more again =>
    rw [step] at h
    split at h
    · cases h
    · cases h
      exact explains_process ‹_› wall more again
  | metadata p =>
    rw [step] at h
    split at h
    · cases h
      refine ⟨.same, .same, .inl rfl, fun x hx => ?_, by simp⟩
      rcases has_setRuntime hx with hx | rfl
      · exact .inl hx
      · exact .inr (.pulled ‹_›)
    · cases h
  | applyMetadata =>
    rw [step] at h
    split at h
    · cases h
      exact explains_applyMetadata ‹_›
    · cases h
  | recordEpoch =>
    rw [step] at h
    split at h
    · rename_i authority hruntime
      cases h
      refine ⟨.same, .same, .inl rfl, fun x hx => ?_, fun e he => ?_⟩
      · rcases has_enqueue hx with hx | rfl
        · rcases has_spawn hx with hx | rfl
          · rcases has_setRuntime hx with hx | rfl
            · exact .inl hx
            · exact .inr (.idle (by simp_all))
          · exact .inr .advance
        · exact .inr (.recordEpoch hruntime)
      · rw [List.mem_singleton.mp he]
        exact .queued (.recordEpoch hruntime)
    · cases h
  | propose =>
    rw [step] at h
    split at h
    · obtain ⟨⟨leaderEpoch, isr⟩, hproposal, rfl⟩ := Option.map_eq_some_iff.mp h
      refine ⟨.same, .same, .inl rfl, fun x hx => ?_, fun e he => ?_⟩
      · rcases has_setRuntime (b := b) (r := .proposing ⟨b.calls, self, leaderEpoch, isr⟩)
          (x := x) (by cases x <;> exact hx) with hx | rfl
        · exact .inl hx
        · exact .inr (.proposing ‹_› hproposal)
      · rw [List.mem_singleton.mp he]
        exact .alterIsr hproposal
    · cases h
  | alterIsrReply req result =>
    simp only [step] at h
    split at h
    · cases result with
      | ok version =>
        cases h
        refine ⟨.same, .install ‹_›, .inl rfl, fun x hx => ?_, by simp⟩
        rcases has_spawn hx with hx | rfl
        · rcases has_setRuntime (b := b) (r := .idle) (x := x) (by cases x <;> exact hx)
            with hx | rfl
          · exact .inl hx
          · exact .inr (.idle (by simp_all))
        · exact .inr .advance
      | error code =>
        cases h
        refine ⟨.same, .same, .inl rfl, fun x hx => ?_, by simp⟩
        rcases has_setRuntime hx with hx | rfl
        · exact .inl hx
        · exact .inr (.idle (by simp_all))
    · cases h
  | giveUp =>
    simp only [step] at h
    split at h
    any_goals
      cases h
      refine ⟨.same, .same, .inl rfl, fun x hx => ?_, by simp⟩
      rcases has_setRuntime hx with hx | rfl
      · exact .inl hx
      · exact .inr (.idle (by simp_all))
    cases h
  | fetcher g =>
    obtain ⟨f, hf, hrun⟩ := Option.bind_eq_some_iff.mp h
    exact explains_fetcher hf hrun
  | epochReply g req result =>
    obtain ⟨f, hf, hrun⟩ := Option.bind_eq_some_iff.mp h
    split at hrun
    · cases hrun
      cases result with
      | ok endOffset => exact explains_moved (.checked hf ‹_›) b.calls [] (by simp)
      | error code => exact explains_moved (.exiting hf) b.calls [] (by simp)
    · cases hrun
  | fetchReply g req result =>
    obtain ⟨f, hf, hrun⟩ := Option.bind_eq_some_iff.mp h
    split at hrun
    · cases hrun
      cases result with
      | ok records => exact explains_moved (.received hf ‹_›) b.calls [] (by simp)
      | error code => exact explains_moved (.exiting hf) b.calls [] (by simp)
    · cases hrun
  | callFailed g =>
    obtain ⟨f, hf, hrun⟩ := Option.bind_eq_some_iff.mp h
    split at hrun
    any_goals
      cases hrun
      exact explains_moved (.exiting hf) b.calls [] (by simp)
    cases hrun

theorem LogStep.isPrefix {log : List Entry} {epochs : EpochCheckpoint}
    (h : LogStep config b a log epochs) : b.log <+: log ∨
      ∃ wall more again authority offset queue, a = .process wall more again ∧
        b.queue = .truncateTo authority offset :: queue ∧ log = b.log.take offset := by
  cases h with
  | append =>
    obtain ⟨new, hlog, -⟩ := appendRecords_spec config.log _ _ _ b.log
    exact .inl (hlog ▸ List.prefix_append _ _)
  | appendReplicated =>
    obtain ⟨new, -, hlog, -⟩ := appendFetched_spec config.log _ b.log
    exact .inl (hlog ▸ List.prefix_append _ _)
  | truncateTo hqueue => exact .inr ⟨_, _, _, _, _, _, rfl, hqueue, rfl⟩
  | recordEpoch => exact .inl List.prefix_rfl
  | same => exact .inl List.prefix_rfl

theorem step_task {i : ℕ} {t : Task} (ht : b.tasks[i]? = some t) {r : Broker × List Event}
    (h : b.step config self (.task i) = some r) :
    r = { b with tasks := b.tasks.eraseIdx i }.runTask self t := by
  rw [step, ht] at h
  exact (Option.some.inj h).symm

theorem step_process {c : Cmd} {queue : List Cmd} (hqueue : b.queue = c :: queue)
    {wall : ℕ → Int64} {more : ℕ} {again : Bool} {r : Broker × List Event}
    (h : b.step config self (.process wall more again) = some r) :
    r = { b with queue }.handle config wall more again c := by
  rw [step, hqueue] at h
  exact (Option.some.inj h).symm

theorem step_advance {i logEnd : ℕ} {serve : Option AcceptedFetch}
    (ht : b.tasks[i]? = some (.advanceTo logEnd serve)) {r : Broker × List Event}
    (h : b.step config self (.task i) = some r) :
    r.1.hwm = (b.repl.advanceHwm self logEnd b.hwm).1 := by
  rw [step_task ht h]
  cases serve <;> rfl

/-- The events of an advance that raises the high-water mark. -/
theorem step_raise {i logEnd : ℕ} {serve : Option AcceptedFetch}
    (ht : b.tasks[i]? = some (.advanceTo logEnd serve)) {r : Broker × List Event}
    (h : b.step config self (.task i) = some r)
    (hlt : b.hwm < (b.repl.advanceHwm self logEnd b.hwm).1) :
    r.2 = .raised b.repl.epoch b.repl.isr (b.repl.advanceHwm self logEnd b.hwm).1 ::
      (b.repl.advanceHwm self logEnd b.hwm).2.1.map .completed := by
  rw [step_task ht h]
  simp only [runTask, advanceTo, if_pos hlt]
  rfl

theorem step_propose {r : Broker × List Event} (h : b.step config self .propose = some r) :
    b.runtime = .idle ∧ ∃ leaderEpoch isr,
      b.repl.isrProposal self config.replicaLagMs b.clock = some (leaderEpoch, isr) ∧
      r = ({ b with runtime := .proposing ⟨b.calls, self, leaderEpoch, isr⟩,
                    calls := b.calls + 1 },
        [.sent (.alterIsr ⟨b.calls, self, leaderEpoch, isr⟩)]) := by
  rw [step] at h
  split at h
  · obtain ⟨⟨leaderEpoch, isr⟩, hproposal, rfl⟩ := Option.map_eq_some_iff.mp h
    exact ⟨‹_›, leaderEpoch, isr, hproposal, rfl⟩
  · cases h

theorem step_applyMetadata {p : PartitionMeta} (hruntime : b.runtime = .pulled p)
    {r : Broker × List Event} (h : b.step config self .applyMetadata = some r) :
    r = (b.applyMetadata self p, []) := by
  rw [step, hruntime] at h
  exact (Option.some.inj h).symm

/-- The state after `apply_metadata` of a hosted partition, and where the runtime goes on. -/
theorem applyMetadata_hosted {p : PartitionMeta} (hself : self ∈ p.replicas) :
    (b.applyMetadata self p).repl = (b.repl.applyMetadata self b.clock p).2.2 ∧
      (b.applyMetadata self p).runtime =
        if (b.repl.applyMetadata self b.clock p).1 = .leading then
          .leading (b.repl.applyMetadata self b.clock p).2.2.authority
        else .idle := by
  rw [applyMetadata, if_neg (not_not.mpr hself)]
  cases htransition : (b.repl.applyMetadata self b.clock p).1 with
  | unchanged =>
    simp only [htransition, reduceCtorEq, if_false]
    exact ⟨rfl, rfl⟩
  | leading =>
    simp only [htransition, if_true]
    exact ⟨trivial, trivial⟩
  | following leader =>
    cases leader <;> simp only [htransition, reduceCtorEq, if_false]
    · exact ⟨trivial, trivial⟩
    · exact ⟨rfl, rfl⟩

theorem applyMetadata_foreign {p : PartitionMeta} (hself : self ∉ p.replicas) :
    b.applyMetadata self p = { b with runtime := .idle } := by
  rw [applyMetadata, if_pos hself]

end Broker
end Replog.Replication
