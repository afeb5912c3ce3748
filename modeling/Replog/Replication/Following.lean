import Replog.Replication.QueueFencing

/-!
# A follower of one leader

While a partition keeps its leader, a follower extends its log only by what the leader's has there.
Each fetcher first asks where the follower's epoch ended, and is told an end at which there is
nothing to cut.
-/

namespace Replog.Replication
open Replog.Storage Broker

/-! ## Copies of a log -/

/-- Every entry stands at its offset. -/
def InPlace (log : List Entry) : Prop := ∀ (i : ℕ) e, log[i]? = some e → e.record.offset = i

/-- The entries stand in the log at their offsets. -/
def Copies (log records : List Entry) : Prop := ∀ e ∈ records, log[e.record.offset]? = some e

theorem Copies.mono {log log' records : List Entry} (h : Copies log records)
    (hlog : log <+: log') : Copies log' records := by
  intro e he
  obtain ⟨rest, rfl⟩ := hlog
  have hat := h e he
  rw [List.getElem?_append_left (List.getElem?_eq_some_iff.mp hat).1]
  exact hat

theorem copies_readFrom {log log' : List Entry} (hplace : InPlace log) (hlog : log' <+: log)
    {offset more : ℕ} {records : List Entry} (hread : readFrom log' offset more = .ok records) :
    Copies log records := by
  intro e he
  rw [readFrom] at hread
  split_ifs at hread
  cases hread
  obtain ⟨i, hi⟩ := List.mem_iff_getElem?.mp (List.mem_of_mem_drop (List.mem_of_mem_take he))
  obtain ⟨rest, rfl⟩ := hlog
  have hat : (log' ++ rest)[i]? = some e := by
    rw [List.getElem?_append_left (List.getElem?_eq_some_iff.mp hi).1]
    exact hi
  rwa [hplace i e hat]

/-- Records are appended at their offsets or not at all. -/
theorem appendFetched_isPrefix (config : LogConfig) {log log' records : List Entry}
    (h : Copies log records) (hlog : log' <+: log) :
    (appendFetched config records log').1 <+: log := by
  obtain ⟨new, hnew, heq, hoffset⟩ := appendFetched_spec config records log'
  rw [heq, List.prefix_iff_getElem?]
  intro i hi
  rcases Nat.lt_or_ge i log'.length with hlt | hge
  · rw [List.getElem_append_left hlt]
    exact List.prefix_iff_getElem?.mp hlog i hlt
  · rw [List.getElem_append_right hge]
    rw [List.length_append] at hi
    have hlt : i - log'.length < new.length := by omega
    have hat := h _ (hnew.subset (List.getElem_mem hlt))
    have hplace := hoffset (i - log'.length) _ (List.getElem?_eq_getElem hlt)
    rwa [hplace, Nat.add_sub_cancel' hge] at hat

/-! ## The fetcher and its commands -/

/-- A fetcher waits until the command is handled. -/
def Cmd.isAwaited : Cmd → Bool
  | .epochStatus _ | .truncateTo _ _ | .appendReplicated _ _ => true
  | _ => false

inductive Fetcher.WaitsFor (g : ℕ) (f : Fetcher) : Cmd → Prop
  | status (h : f.phase = .awaitStatus) : WaitsFor g f (.epochStatus (f.authority g))
  | append {records : List Entry} (h : f.phase = .awaitAppend) :
    WaitsFor g f (.appendReplicated (f.authority g) records)

namespace Broker

/-- The first epoch is in the checkpoint, or will be once the commands are handled. -/
def Marked (b : Broker) (cmds : List Cmd) : Prop :=
  b.epochs.currentEpoch = 1 ∨ ∃ a, .recordEpoch a 1 ∈ cmds

theorem Marked.mono {b : Broker} {cmds cmds' : List Cmd} (h : b.Marked cmds)
    (hcmds : cmds ⊆ cmds') : b.Marked cmds' :=
  h.imp_right (Exists.imp fun _ ha => hcmds ha)

/-- At most one command is awaited, and by the fetcher it came from. -/
inductive Waiting (b : Broker) : Prop
  | none (h : ∀ c ∈ b.queue, c.isAwaited = false)
  | one {g : ℕ} {f : Fetcher} {before : List Cmd} {c : Cmd} {after : List Cmd}
    (hqueue : b.queue = before ++ c :: after) (hrest : ∀ d ∈ before ++ after, d.isAwaited = false)
    (hf : b.fetchers g = some f) (hwaits : f.WaitsFor g c) (hmarked : c.isFetched → b.Marked before)

/-- Some fetcher waits for the answer to its epoch check. -/
def Awaits (b : Broker) (req : EpochCheckRequest) : Prop :=
  ∃ g f, b.fetchers g = some f ∧ f.phase = .awaitCheck req

end Broker

theorem Fetcher.WaitsFor.isAwaited {g : ℕ} {f : Fetcher} {c : Cmd} (h : f.WaitsFor g c) :
    c.isAwaited = true := by
  cases h <;> rfl

theorem Fetcher.WaitsFor.runFetcher {g : ℕ} {f : Fetcher} {c : Cmd} (h : f.WaitsFor g c)
    (b : Broker) (id : BrokerId) : b.runFetcher id g f = none := by
  cases h with
  | status h => rw [Broker.runFetcher, h]
  | append h => rw [Broker.runFetcher, h]

section Waits

variable {b b' : Broker} {c d : Cmd} {queue new : List Cmd}

theorem Broker.Waiting.enqueue (h : b.Waiting) (hqueue : b'.queue = b.queue ++ new)
    (hnew : ∀ c ∈ new, c.isAwaited = false) (hfetchers : b'.fetchers = b.fetchers)
    (hepochs : b'.epochs = b.epochs) : b'.Waiting := by
  cases h with
  | none h =>
    refine .none fun c hc => ?_
    rw [hqueue] at hc
    exact (List.mem_append.mp hc).elim (h c) (hnew c)
  | @one g f before c after hold hrest hf hwaits hmarked =>
    have hqueue' : b'.queue = before ++ c :: (after ++ new) := by
      rw [hqueue, hold, List.append_assoc, List.cons_append]
    refine .one hqueue' (fun d hd => ?_) (hfetchers ▸ hf) hwaits fun hc => ?_
    · rw [← List.append_assoc] at hd
      exact (List.mem_append.mp hd).elim (hrest d) (hnew d)
    · rw [Marked, hepochs]
      exact hmarked hc

private theorem Broker.Waiting.pop (h : b.Waiting) (hqueue : b.queue = d :: b'.queue)
    (hd : d.isAwaited = false) (hfetchers : b'.fetchers = b.fetchers)
    (hmark : ∀ cmds, b.Marked (d :: cmds) → b'.Marked cmds) : b'.Waiting := by
  cases h with
  | none h => exact .none fun c hc => h c (hqueue ▸ List.mem_cons_of_mem d hc)
  | @one g f before c after hold hrest hf hwaits hmarked =>
    rw [hqueue] at hold
    cases before with
    | nil =>
      rw [List.nil_append] at hold
      rw [(List.cons.inj hold).1, hwaits.isAwaited] at hd
      cases hd
    | cons first before =>
      obtain ⟨rfl, htail⟩ := List.cons.inj hold
      exact .one htail (fun e he => hrest e (List.mem_cons_of_mem d he)) (hfetchers ▸ hf) hwaits
        fun hc => hmark before (hmarked hc)

/-- The first command is handled and somebody waits for it. -/
theorem Broker.Waiting.head (h : b.Waiting) (hqueue : b.queue = c :: queue)
    (hc : c.isAwaited = true) : (∀ d ∈ queue, d.isAwaited = false) ∧
      ∃ g f, b.fetchers g = some f ∧ f.WaitsFor g c ∧
        (c.isFetched → b.epochs.currentEpoch = 1) := by
  cases h with
  | none h =>
    rw [h c (hqueue ▸ List.mem_cons_self)] at hc
    cases hc
  | @one g f before c' after hold hrest hf hwaits hmarked =>
    rw [hqueue] at hold
    cases before with
    | nil =>
      obtain ⟨rfl, rfl⟩ := List.cons.inj hold
      refine ⟨hrest, g, f, hf, hwaits, fun hfetched => ?_⟩
      rcases hmarked hfetched with hepoch | ⟨a, ha⟩
      · exact hepoch
      · cases ha
    | cons first before =>
      obtain ⟨rfl, -⟩ := List.cons.inj hold
      rw [hrest c List.mem_cons_self] at hc
      cases hc

end Waits

/-! ## What holds at a follower -/

/-- A follower neither appends for clients nor answers epoch checks. -/
def FollowerTask : Task → Prop
  | .produce _ | .answerEpoch _ _ => False
  | _ => True

def FollowerCmd (log : List Entry) : Cmd → Prop
  | .append _ | .truncateTo _ _ | .epochEndFor _ _ => False
  | .appendReplicated _ records => Copies log records
  | .recordEpoch _ epoch => epoch = 1
  | _ => True

/-- A fetcher of the leader: what it holds are copies, and what it was told is no reason to cut. -/
structure FetcherOk (l : BrokerId) (log : List Entry) (b : Broker) (f : Fetcher) : Prop where
  leader : f.leader = l
  epoch : f.epoch = 1
  marked : 1 ≤ f.localEpoch → b.Marked b.queue
  phase : match f.phase with
    | .check => f.localEpoch = 0 → b.log = []
    | .awaitCheck req => req.epoch = 0 → b.log = []
    | .checked endOffset | .reconcile endOffset => b.log.length ≤ endOffset
    | .truncate _ | .awaitTruncate => False
    | .awaitFetch req => req.leaderEpoch = 1
    | .received epoch records | .apply epoch records => epoch = 1 ∧ Copies log records
    | .append records => 1 ≤ f.localEpoch ∧ Copies log records
    | _ => True

structure FollowerInv (l : BrokerId) (log : List Entry) (b : Broker) : Prop where
  follows : b.repl.isLeader = false
  copy : b.log <+: log
  checkpoint : b.epochs = ⟨[]⟩ ∨ ∃ start, b.epochs = ⟨[(1, start)]⟩
  marked : b.log ≠ [] → b.epochs.currentEpoch = 1
  tasks : ∀ t ∈ b.tasks, FollowerTask t
  cmds : ∀ c ∈ b.queue, FollowerCmd log c
  fetchers : ∀ g f, b.fetchers g = some f → g = b.repl.fetcherGeneration ∧
    b.repl.fetcherAlive = true ∧ b.repl.epoch = 1 ∧ FetcherOk l log b f
  pulled : ∀ p, b.runtime = .pulled p → p.leader = some l ∧ p.leaderEpoch = 1
  leading : ∀ a, b.runtime ≠ .leading a
  waiting : b.Waiting

/-- What a follower is told while its leader stays. -/
def FollowerTold (l : BrokerId) (log : List Entry) (b : Broker) : Action → Prop
  | .metadata p => p.leader = some l ∧ p.leaderEpoch = 1
  | .epochReply _ req (.ok endOffset) => b.Awaits req → b.log.length ≤ endOffset
  | .fetchReply _ _ (.ok records) => Copies log records
  | _ => True

/-- Where a step takes a follower: it keeps what it has, and an epoch check that is under way finds
the log as it was when it was sent. -/
structure FollowerStep (l : BrokerId) (log : List Entry) (b b' : Broker) : Prop where
  inv : FollowerInv l log b'
  log_grows : b.log <+: b'.log
  calls : b.calls ≤ b'.calls
  awaits : ∀ req, b'.Awaits req → b.Awaits req ∧ b'.log = b.log ∨ req.call = b.calls

/-! ## One step of a follower -/

section Step

variable {l self : BrokerId} {config : BrokerConfig} {log log' : List Entry} {b b' : Broker}
  {a : Action}

theorem checkpoint_epoch (h : b.epochs = ⟨[]⟩ ∨ ∃ start, b.epochs = ⟨[(1, start)]⟩) :
    b.epochs.currentEpoch = 0 ∧ b.epochs = ⟨[]⟩ ∨ b.epochs.currentEpoch = 1 := by
  rcases h with heq | ⟨start, heq⟩
  · exact .inl ⟨by rw [heq]; rfl, heq⟩
  · exact .inr (by rw [heq]; rfl)

theorem FetcherOk.mono {f : Fetcher} (h : FetcherOk l log b f) (hlog : log <+: log') :
    FetcherOk l log' b f := by
  refine ⟨h.leader, h.epoch, h.marked, ?_⟩
  have hphase := h.phase
  cases hf : f.phase <;> rw [hf] at hphase <;> dsimp only at hphase ⊢
  case received => exact ⟨hphase.1, hphase.2.mono hlog⟩
  case apply => exact ⟨hphase.1, hphase.2.mono hlog⟩
  case append => exact ⟨hphase.1, hphase.2.mono hlog⟩
  all_goals exact hphase

theorem FollowerInv.mono (h : FollowerInv l log b) (hlog : log <+: log') :
    FollowerInv l log' b := by
  refine ⟨h.follows, h.copy.trans hlog, h.checkpoint, h.marked, h.tasks, fun c hc => ?_,
    fun g f hf => ?_, h.pulled, h.leading, h.waiting⟩
  · have hold := h.cmds c hc
    cases c with
    | appendReplicated => exact Copies.mono hold hlog
    | _ => exact hold
  · obtain ⟨hg, halive, hepoch, hok⟩ := h.fetchers g f hf
    exact ⟨hg, halive, hepoch, hok.mono hlog⟩

/-- A fetcher's state is as good where nothing but the queue has grown. -/
theorem FetcherOk.enqueued {f : Fetcher} (h : FetcherOk l log b f) (hlog : b'.log = b.log)
    (hmarked : b.Marked b.queue → b'.Marked b'.queue) : FetcherOk l log b' f := by
  refine ⟨h.leader, h.epoch, fun hle => hmarked (h.marked hle), ?_⟩
  rw [hlog]
  exact h.phase

/-- A step that leaves the log and the fetchers alone, and may queue a read. -/
theorem FollowerInv.quiet (h : FollowerInv l log b) {new : List Cmd} (hlog : b'.log = b.log)
    (hepochs : b'.epochs = b.epochs) (hfetchers : b'.fetchers = b.fetchers)
    (hqueue : b'.queue = b.queue ++ new)
    (hnew : ∀ c ∈ new, FollowerCmd log c ∧ c.isAwaited = false)
    (hauth : b'.repl.authority = b.repl.authority)
    (halive : b'.repl.fetcherAlive = b.repl.fetcherAlive) (hcalls : b.calls ≤ b'.calls)
    (htasks : ∀ t ∈ b'.tasks, FollowerTask t)
    (hpulled : ∀ p, b'.runtime = .pulled p → p.leader = some l ∧ p.leaderEpoch = 1)
    (hleading : ∀ a, b'.runtime ≠ .leading a) : FollowerStep l log b b' := by
  have hmarked : b.Marked b.queue → b'.Marked b'.queue := by
    rw [Marked, Marked, hepochs, hqueue]
    exact Or.imp_right (Exists.imp fun _ ha => List.mem_append_left _ ha)
  refine ⟨⟨?_, hlog ▸ h.copy, hepochs ▸ h.checkpoint, ?_, htasks, fun c hc => ?_,
    fun g f hf => ?_, hpulled, hleading, ?_⟩, hlog ▸ List.prefix_rfl, hcalls, fun req hreq => ?_⟩
  · exact (congrArg Authority.leader hauth).trans h.follows
  · rw [hlog, hepochs]
    exact h.marked
  · rw [hqueue] at hc
    exact (List.mem_append.mp hc).elim (h.cmds c) fun hc => (hnew c hc).1
  · rw [hfetchers] at hf
    obtain ⟨hg, hold, hepoch, hok⟩ := h.fetchers g f hf
    exact ⟨hg.trans (congrArg Authority.generation hauth).symm, halive.trans hold,
      (congrArg Authority.epoch hauth).trans hepoch, hok.enqueued hlog hmarked⟩
  · exact h.waiting.enqueue hqueue (fun c hc => (hnew c hc).2) hfetchers hepochs
  · obtain ⟨g, f, hf, hphase⟩ := hreq
    exact .inl ⟨⟨g, f, hfetchers ▸ hf, hphase⟩, hlog⟩

/-- The first command is handled, which changes neither the log nor a fetcher. -/
theorem FollowerInv.handled (h : FollowerInv l log b) {c : Cmd} (hqueue : b.queue = c :: b'.queue)
    (hc : c.isAwaited = false) (hlog : b'.log = b.log)
    (hepochs : b'.epochs = b.epochs ∨ b'.epochs.currentEpoch = 1)
    (hcheckpoint : b'.epochs = ⟨[]⟩ ∨ ∃ start, b'.epochs = ⟨[(1, start)]⟩)
    (hmark : ∀ cmds, b.Marked (c :: cmds) → b'.Marked cmds) (hfetchers : b'.fetchers = b.fetchers)
    (hrepl : b'.repl = b.repl) (hcalls : b'.calls = b.calls) (hruntime : b'.runtime = b.runtime)
    (htasks : ∀ t ∈ b'.tasks, FollowerTask t) : FollowerStep l log b b' := by
  refine ⟨⟨hrepl ▸ h.follows, hlog ▸ h.copy, hcheckpoint, fun hne => ?_, htasks, fun d hd => ?_,
    fun g f hf => ?_, hruntime ▸ h.pulled, hruntime ▸ h.leading,
    h.waiting.pop hqueue hc hfetchers hmark⟩, hlog ▸ List.prefix_rfl, hcalls.ge, fun req hreq => ?_⟩
  · rcases hepochs with hsame | hone
    · rw [hsame]
      exact h.marked (hlog ▸ hne)
    · exact hone
  · exact h.cmds d (hqueue ▸ List.mem_cons_of_mem c hd)
  · rw [hfetchers] at hf
    rw [hrepl]
    obtain ⟨hg, halive, hepoch, hok⟩ := h.fetchers g f hf
    exact ⟨hg, halive, hepoch, hok.enqueued hlog (hqueue ▸ hmark b'.queue)⟩
  · obtain ⟨g, f, hf, hphase⟩ := hreq
    exact .inl ⟨⟨g, f, hfetchers ▸ hf, hphase⟩, hlog⟩

/-- The first command is handled and its fetcher goes on. -/
theorem FollowerInv.resumed (h : FollowerInv l log b) {c : Cmd} {queue : List Cmd}
    (hqueue : b.queue = c :: queue) (hc : c.isAwaited = true) {g : ℕ} {f f' : Fetcher}
    (hf : b.fetchers g = some f) {rest : List Entry} (hcopy : b.log ++ rest <+: log)
    (hepoch : rest ≠ [] → b.epochs.currentEpoch = 1)
    (hok : FetcherOk l log { b with log := b.log ++ rest, queue } f')
    (hphase : ∀ req, f'.phase ≠ .awaitCheck req) :
    FollowerStep l log b { b with
      log := b.log ++ rest, queue, fetchers := Function.update b.fetchers g (some f') } := by
  obtain ⟨hidle, -⟩ := h.waiting.head hqueue hc
  obtain ⟨hg, halive, hrole, -⟩ := h.fetchers g f hf
  -- there is only the one fetcher
  have honly : ∀ g' f'', Function.update b.fetchers g (some f') g' = some f'' →
      g' = g ∧ f'' = f' := by
    intro g' f'' hf''
    by_cases hsame : g' = g
    · rw [hsame, Function.update_self] at hf''
      exact ⟨hsame, (Option.some.inj hf'').symm⟩
    · rw [Function.update_of_ne hsame] at hf''
      exact absurd ((h.fetchers g' f'' hf'').1.trans hg.symm) hsame
  refine ⟨⟨h.follows, hcopy, h.checkpoint, fun hne => ?_, h.tasks,
    fun d hd => h.cmds d (hqueue ▸ List.mem_cons_of_mem c hd), fun g' f'' hf'' => ?_, h.pulled,
    h.leading, .none hidle⟩, List.prefix_append _ _, le_rfl, fun req hreq => ?_⟩
  · by_cases hrest : rest = []
    · rw [hrest, List.append_nil] at hne
      exact h.marked hne
    · exact hepoch hrest
  · obtain ⟨rfl, rfl⟩ := honly g' f'' hf''
    exact ⟨hg, halive, hrole, hok.leader, hok.epoch, hok.marked, hok.phase⟩
  · obtain ⟨g', f'', hf'', hawait⟩ := hreq
    obtain ⟨rfl, rfl⟩ := honly g' f'' hf''
    exact absurd hawait (hphase req)

/-- The writer thread of a follower handles a command. -/
theorem FollowerInv.process (h : FollowerInv l log b) {c : Cmd} {queue : List Cmd}
    (hqueue : b.queue = c :: queue) (wall : ℕ → Int64) (more : ℕ) (again : Bool) :
    FollowerStep l log b (({ b with queue }.handle config wall more again c).1) := by
  have hcmd := h.cmds c (hqueue ▸ List.mem_cons_self)
  -- a command that marks nothing leaves the mark to the others
  have hrest (hno : ∀ a, c ≠ .recordEpoch a 1) (cmds : List Cmd) (hm : b.Marked (c :: cmds)) :
      b.Marked cmds :=
    hm.imp_right (Exists.imp fun a ha => (List.mem_cons.mp ha).resolve_left fun heq =>
      hno a heq.symm)
  cases c with
  | append ticket => exact hcmd.elim
  | truncateTo authority offset => exact hcmd.elim
  | epochEndFor authority req => exact hcmd.elim
  | recordEpoch authority epoch =>
    obtain rfl : epoch = 1 := hcmd
    rcases checkpoint_epoch h.checkpoint with ⟨hzero, hnil⟩ | hone
    · have hstep : ({ b with queue }.handle config wall more again (.recordEpoch authority 1)).1 =
          { b with queue, epochs := ⟨[(1, b.log.length)]⟩ } := by
        simp only [handle, hzero, Nat.zero_lt_one, if_true]
        rw [hnil]
        rfl
      rw [hstep]
      exact h.handled hqueue rfl rfl (.inr rfl) (.inr ⟨_, rfl⟩) (fun _ _ => .inl rfl) rfl rfl rfl
        rfl h.tasks
    · have hstep : ({ b with queue }.handle config wall more again (.recordEpoch authority 1)).1 =
          { b with queue } := by
        simp only [handle, hone, Nat.lt_irrefl, if_false]
      rw [hstep]
      exact h.handled hqueue rfl rfl (.inl rfl) h.checkpoint (fun _ _ => .inl hone) rfl rfl rfl rfl
        h.tasks
  | readReplica fetch =>
    have hnone : ∀ a, Cmd.readReplica fetch ≠ .recordEpoch a 1 := fun a heq => by cases heq
    have hkept : FollowerStep l log b { b with queue } :=
      h.handled hqueue rfl rfl (.inl rfl) h.checkpoint (hrest hnone) rfl rfl rfl rfl h.tasks
    have hagain : FollowerStep l log b ({ b with queue }.spawn (.serveFetch fetch)) := by
      refine h.handled hqueue rfl rfl (.inl rfl) h.checkpoint (hrest hnone) rfl rfl rfl rfl ?_
      intro t ht
      rcases List.mem_append.mp ht with ht | ht
      · exact h.tasks t ht
      · rw [List.mem_singleton.mp ht]
        trivial
    simp only [handle]
    split
    · split_ifs
      · exact hagain
      · exact hkept
    · exact hkept
  | readConsumer offset hwm =>
    have hnone : ∀ a, Cmd.readConsumer offset hwm ≠ .recordEpoch a 1 := fun a heq => by cases heq
    have hkept : FollowerStep l log b { b with queue } :=
      h.handled hqueue rfl rfl (.inl rfl) h.checkpoint (hrest hnone) rfl rfl rfl rfl h.tasks
    simp only [handle]
    split <;> exact hkept
  | epochStatus authority =>
    obtain ⟨-, g, f, hf, hwaits, -⟩ := h.waiting.head hqueue rfl
    obtain ⟨-, -, -, hok⟩ := h.fetchers g f hf
    cases hwaits
    have hstatus : FetcherOk l log { b with log := b.log ++ [], queue }
        { f with localEpoch := b.epochs.currentEpoch, phase := .check } := by
      refine ⟨hok.leader, hok.epoch, fun hle => ?_, fun hzero => ?_⟩
      · rcases checkpoint_epoch h.checkpoint with ⟨hzero, -⟩ | hone
        · exact absurd hle (by rw [hzero]; exact Nat.not_succ_le_zero 0)
        · exact .inl hone
      · dsimp only at hzero ⊢
        rw [List.append_nil]
        by_contra hne
        exact absurd ((h.marked hne).symm.trans hzero) Nat.one_ne_zero
    have hresumed := h.resumed hqueue rfl hf ((List.append_nil b.log).symm ▸ h.copy)
      (fun hne => absurd rfl hne) hstatus (fun req heq => by cases heq)
    rw [List.append_nil] at hresumed
    simp only [handle, resume, Fetcher.authority, hf, Option.map_some]
    exact hresumed
  | appendReplicated authority records =>
    obtain ⟨-, g, f, hf, hwaits, hepoch⟩ := h.waiting.head hqueue rfl
    obtain ⟨-, -, -, hok⟩ := h.fetchers g f hf
    have hcopy := appendFetched_isPrefix config.log (show Copies log records from hcmd) h.copy
    obtain ⟨new, -, hlog, -⟩ := appendFetched_spec config.log records b.log
    cases hwaits
    generalize hresult : appendFetched config.log records b.log = result at hcopy hlog
    obtain ⟨appended, error⟩ := result
    dsimp only at hcopy hlog
    subst hlog
    have hphase : ∀ req, (if error.isNone then Phase.loop else .exiting) ≠ .awaitCheck req := by
      intro req
      split_ifs <;> exact fun heq => by cases heq
    have hdone : FetcherOk l log { b with log := b.log ++ new, queue }
        { f with phase := if error.isNone then .loop else .exiting } := by
      refine ⟨hok.leader, hok.epoch, fun _ => .inl (hepoch rfl), ?_⟩
      dsimp only
      split_ifs <;> trivial
    have hresumed := h.resumed hqueue rfl hf hcopy (fun _ => hepoch rfl) hdone hphase
    simp only [handle, resume, Fetcher.authority, hresult, hf, Option.map_some]
    exact hresumed

/-- Nothing is awaited while the fetcher is at something else. -/
theorem FollowerInv.idle (h : FollowerInv l log b) {g : ℕ} {f : Fetcher}
    (hf : b.fetchers g = some f) (hno : ∀ c, ¬ f.WaitsFor g c) :
    ∀ c ∈ b.queue, c.isAwaited = false := by
  cases h.waiting with
  | none hidle => exact hidle
  | @one g' f' before c after hqueue hrest hf' hwaits hmarked =>
    obtain rfl : g' = g := (h.fetchers g' f' hf').1.trans (h.fetchers g f hf).1.symm
    obtain rfl := Option.some.inj (hf'.symm.trans hf)
    exact absurd hwaits (hno c)

theorem FollowerInv.only (h : FollowerInv l log b) {g : ℕ} {f f' : Fetcher}
    (hf : b.fetchers g = some f) {g' : ℕ} {f'' : Fetcher}
    (hf'' : Function.update b.fetchers g (some f') g' = some f'') : g' = g ∧ f'' = f' := by
  by_cases hsame : g' = g
  · rw [hsame, Function.update_self] at hf''
    exact ⟨hsame, (Option.some.inj hf'').symm⟩
  · rw [Function.update_of_ne hsame] at hf''
    exact absurd ((h.fetchers g' f'' hf'').1.trans (h.fetchers g f hf).1.symm) hsame

theorem FollowerInv.moved (h : FollowerInv l log b) {g : ℕ} {f f' : Fetcher}
    (hf : b.fetchers g = some f) (hno : ∀ c, ¬ f.WaitsFor g c) (hok : FetcherOk l log b f')
    (hawait : ∀ req, f'.phase = .awaitCheck req → req.call = b.calls) :
    FollowerStep l log b (b.setFetcher g f') := by
  obtain ⟨hg, halive, hrole, -⟩ := h.fetchers g f hf
  refine ⟨⟨h.follows, h.copy, h.checkpoint, h.marked, h.tasks, h.cmds, fun g' f'' hf'' => ?_,
    h.pulled, h.leading, .none (h.idle hf hno)⟩, List.prefix_rfl, le_rfl, fun req hreq => ?_⟩
  · obtain ⟨rfl, rfl⟩ := h.only hf hf''
    exact ⟨hg, halive, hrole, hok.leader, hok.epoch, hok.marked, hok.phase⟩
  · obtain ⟨g', f'', hf'', hphase⟩ := hreq
    obtain ⟨rfl, rfl⟩ := h.only hf hf''
    exact .inr (hawait req hphase)

theorem FollowerStep.calling (h : FollowerStep l log b b') {calls : ℕ} (hle : b'.calls ≤ calls) :
    FollowerStep l log b { b' with calls } := by
  have hinv := h.inv
  refine ⟨⟨hinv.follows, hinv.copy, hinv.checkpoint, hinv.marked, hinv.tasks, hinv.cmds,
    fun g f hf => ?_, hinv.pulled, hinv.leading, ?_⟩, h.log_grows, h.calls.trans hle, h.awaits⟩
  · obtain ⟨hg, halive, hepoch, hok⟩ := hinv.fetchers g f hf
    exact ⟨hg, halive, hepoch, hok.leader, hok.epoch, hok.marked, hok.phase⟩
  · cases hinv.waiting with
    | none hidle => exact .none hidle
    | one hqueue hrest hf hwaits hmarked => exact .one hqueue hrest hf hwaits hmarked

/-- The fetcher sends a command to the writer thread. -/
theorem FollowerInv.sends (h : FollowerInv l log b) {g : ℕ} {f f' : Fetcher}
    (hf : b.fetchers g = some f) (hno : ∀ c, ¬ f.WaitsFor g c) {c : Cmd}
    (hcmd : FollowerCmd log c) (hwaits : c.isAwaited = true → f'.WaitsFor g c)
    (hmarked : c.isFetched → b.Marked b.queue) (hok : FetcherOk l log (b.enqueue c).1 f')
    (hawait : ∀ req, f'.phase ≠ .awaitCheck req) :
    FollowerStep l log b ((b.setFetcher g f').enqueue c).1 := by
  obtain ⟨hg, halive, hrole, -⟩ := h.fetchers g f hf
  have hidle := h.idle hf hno
  refine ⟨⟨h.follows, h.copy, h.checkpoint, h.marked, h.tasks, fun d hd => ?_,
    fun g' f'' hf'' => ?_, h.pulled, h.leading, ?_⟩, List.prefix_rfl, le_rfl, fun req hreq => ?_⟩
  · rcases List.mem_append.mp hd with hd | hd
    · exact h.cmds d hd
    · rwa [List.mem_singleton.mp hd]
  · obtain ⟨rfl, rfl⟩ := h.only hf hf''
    exact ⟨hg, halive, hrole, hok.leader, hok.epoch, hok.marked, hok.phase⟩
  · cases hc : c.isAwaited with
    | false =>
      refine .none fun d hd => ?_
      rcases List.mem_append.mp hd with hd | hd
      · exact hidle d hd
      · rwa [List.mem_singleton.mp hd]
    | true =>
      refine .one rfl (fun d hd => hidle d ?_) (Function.update_self ..) (hwaits hc) hmarked
      rwa [List.append_nil] at hd
  · obtain ⟨g', f'', hf'', hphase⟩ := hreq
    obtain ⟨rfl, rfl⟩ := h.only hf hf''
    exact absurd hphase (hawait req)

theorem FollowerInv.exits (h : FollowerInv l log b) {g : ℕ} {f : Fetcher}
    (hf : b.fetchers g = some f) (hno : ∀ c, ¬ f.WaitsFor g c) :
    FollowerStep l log b { b with
      repl := b.repl.fetcherExit g, fetchers := Function.update b.fetchers g none } := by
  have hgone : ∀ g' f', Function.update b.fetchers g none g' ≠ some f' := by
    intro g' f' hf'
    by_cases hsame : g' = g
    · rw [hsame, Function.update_self] at hf'
      cases hf'
    · rw [Function.update_of_ne hsame] at hf'
      exact hsame ((h.fetchers g' f' hf').1.trans (h.fetchers g f hf).1.symm)
  refine ⟨⟨?_, h.copy, h.checkpoint, h.marked, h.tasks, h.cmds,
    fun g' f' hf' => absurd hf' (hgone g' f'), h.pulled, h.leading, .none (h.idle hf hno)⟩,
    List.prefix_rfl, le_rfl, fun req hreq => ?_⟩
  · exact (congrArg Authority.leader (ReplState.fetcherExit_authority g)).trans h.follows
  · obtain ⟨g', f', hf', -⟩ := hreq
    exact absurd hf' (hgone g' f')

/-- A fetcher of a follower takes its next step. -/
theorem FollowerInv.fetcher (h : FollowerInv l log b) {g : ℕ} {f : Fetcher}
    (hf : b.fetchers g = some f) {r : Broker × List Event}
    (hrun : b.runFetcher self g f = some r) : FollowerStep l log b r.1 := by
  obtain ⟨-, -, -, hok⟩ := h.fetchers g f hf
  have hno : ∀ c, ¬ f.WaitsFor g c := by
    intro c hwaits
    rw [hwaits.runFetcher b self] at hrun
    cases hrun
  have hcase := hok.phase
  have hlater (c : Cmd) (hle : 1 ≤ f.localEpoch) : b.Marked (b.queue ++ [c]) :=
    (hok.marked hle).mono (List.subset_append_left _ _)
  -- a phase that promises nothing
  have hplain {phase : Phase} (hphase : match phase with
      | .connected | .awaitStatus | .loop | .fetch | .exiting => True
      | _ => False) : FollowerStep l log b (b.setFetcher g { f with phase }) := by
    refine h.moved hf hno ⟨hok.leader, hok.epoch, hok.marked, ?_⟩ fun req heq => ?_
    · cases phase <;> trivial
    · subst heq
      exact hphase.elim
  rw [runFetcher] at hrun
  cases hphase : f.phase <;> rw [hphase] at hrun hcase <;>
    simp only [Option.some.injEq, reduceCtorEq] at hrun hcase
  case connect =>
    subst hrun
    dsimp only
    split_ifs <;> exact hplain trivial
  case loop =>
    subst hrun
    dsimp only
    split_ifs <;> exact hplain trivial
  case exiting =>
    subst hrun
    exact h.exits hf hno
  case connected =>
    subst hrun
    refine h.sends hf hno trivial (fun _ => .status rfl) (fun hfetched => by cases hfetched)
      ⟨hok.leader, hok.epoch, hlater _, trivial⟩ fun req heq => by cases heq
  case check =>
    subst hrun
    have hsent : FetcherOk l log b
        { f with phase := .awaitCheck ⟨b.calls, self, f.localEpoch⟩ } :=
      ⟨hok.leader, hok.epoch, hok.marked, hcase⟩
    refine (h.moved hf hno hsent fun req heq => ?_).calling (Nat.le_succ _)
    cases heq
    rfl
  case checked endOffset =>
    subst hrun
    dsimp only
    split_ifs
    · exact h.moved hf hno ⟨hok.leader, hok.epoch, hok.marked, hcase⟩ fun req heq => by cases heq
    · exact hplain trivial
  case reconcile endOffset =>
    subst hrun
    dsimp only
    rw [if_neg (by omega)]
    exact hplain trivial
  case fetch =>
    subst hrun
    have hsent : FetcherOk l log b
        { f with phase := .awaitFetch ⟨b.calls, self, f.epoch, b.log.length⟩ } :=
      ⟨hok.leader, hok.epoch, hok.marked, hok.epoch⟩
    exact (h.moved hf hno hsent fun req heq => by cases heq).calling (Nat.le_succ _)
  case received epoch records =>
    subst hrun
    dsimp only
    split_ifs
    · exact h.moved hf hno ⟨hok.leader, hok.epoch, hok.marked, hcase⟩ fun req heq => by cases heq
    · exact hplain trivial
  case apply epoch records =>
    obtain ⟨rfl, hcopies⟩ := hcase
    split_ifs at hrun with hlate
    · cases hrun
      exact h.sends hf hno rfl (fun hawaited => by cases hawaited)
        (fun hfetched => by cases hfetched) ⟨hok.leader, hok.epoch,
        fun _ => .inr ⟨_, List.mem_append_right _ (List.mem_singleton_self _)⟩,
          le_rfl, hcopies⟩ fun req heq => by cases heq
    · cases hrun
      exact h.moved hf hno ⟨hok.leader, hok.epoch, hok.marked, Nat.not_lt.mp hlate, hcopies⟩
        fun req heq => by cases heq
  case append records =>
    obtain ⟨hlocal, hcopies⟩ := hcase
    split_ifs at hrun with hnil
    · cases hrun
      exact hplain trivial
    · cases hrun
      exact h.sends hf hno hcopies (fun _ => .append rfl) (fun _ => hok.marked hlocal)
        ⟨hok.leader, hok.epoch, hlater _, trivial⟩ fun req heq => by cases heq

/-- A first fetcher, or one in the place of one that is gone. -/
theorem FollowerInv.starts (h : FollowerInv l log b) (hnone : ∀ g f, b.fetchers g ≠ some f)
    {st : ReplState} (hfollows : st.isLeader = false) (hepoch : st.epoch = 1)
    (halive : st.fetcherAlive = true) : FollowerStep l log b
      ({ b with repl := st, runtime := .idle }.setFetcher st.fetcherGeneration
        { leader := l, epoch := 1 }) := by
  have hidle : ∀ c ∈ b.queue, c.isAwaited = false := by
    cases h.waiting with
    | none hidle => exact hidle
    | one hqueue hrest hf hwaits hmarked => exact absurd hf (hnone _ _)
  have honly : ∀ g f, Function.update b.fetchers st.fetcherGeneration
      (some { leader := l, epoch := 1 }) g = some f →
        g = st.fetcherGeneration ∧ f = { leader := l, epoch := 1 } := by
    intro g f hf
    by_cases hsame : g = st.fetcherGeneration
    · rw [hsame, Function.update_self] at hf
      exact ⟨hsame, (Option.some.inj hf).symm⟩
    · rw [Function.update_of_ne hsame] at hf
      exact absurd hf (hnone g f)
  refine ⟨⟨hfollows, h.copy, h.checkpoint, h.marked, h.tasks, h.cmds, fun g f hf => ?_,
    (fun p hp => by cases hp), (fun a ha => by cases ha), .none hidle⟩, List.prefix_rfl, le_rfl,
    fun req hreq => ?_⟩
  · obtain ⟨rfl, rfl⟩ := honly g f hf
    exact ⟨rfl, halive, hepoch, rfl, rfl, fun hle => absurd hle (Nat.not_succ_le_zero 0), trivial⟩
  · obtain ⟨g, f, hf, hphase⟩ := hreq
    obtain ⟨-, rfl⟩ := honly g f hf
    cases hphase

private theorem applyMetadata_follower {st : ReplState} (hfollows : st.isLeader = false)
    {p : PartitionMeta} (hleader : p.leader = some l) (hne : self ≠ l) (now : ℕ) :
    (st.fetcherAlive = true ∧ ∃ st', st.applyMetadata self now p = (.unchanged, [], st') ∧
      st'.authority = st.authority ∧ st'.fetcherAlive = st.fetcherAlive) ∨
    ((st.epoch = p.leaderEpoch → st.fetcherAlive = false) ∧ ∃ failed st',
      st.applyMetadata self now p = (.following (some l), failed, st') ∧ st'.isLeader = false ∧
        st'.epoch = p.leaderEpoch ∧ st'.fetcherAlive = true) := by
  have hother : l ≠ self := hne.symm
  by_cases hsame : st.epoch = p.leaderEpoch
  · cases halive : st.fetcherAlive with
    | false =>
      refine .inr ⟨fun _ => rfl, [], { st with
        isr := p.isr, isrVersion := p.version, fetcherGeneration := st.fetcherGeneration + 1
        fetcherAlive := true }, ?_, hfollows, hsame, rfl⟩
      simp [ReplState.applyMetadata, hsame, hleader, hother, hfollows, halive]
    | true =>
      refine .inl ⟨rfl, { st with isr := p.isr, isrVersion := p.version }, ?_, rfl, halive⟩
      simp [ReplState.applyMetadata, hsame, hleader, hother, hfollows, halive]
  · refine .inr ⟨fun heq => absurd heq hsame, st.pendingAll, { st with
      epoch := p.leaderEpoch, replicas := p.replicas, isr := p.isr, isrVersion := p.version
      isLeader := false, fetcherGeneration := st.fetcherGeneration + 1, pendingAll := []
      fetcherAlive := true }, ?_, rfl, rfl, rfl⟩
    simp [ReplState.applyMetadata, hsame, hleader, hother]

/-- A follower applies the metadata of its leader. -/
theorem FollowerInv.applyMetadata (h : FollowerInv l log b) (hne : self ≠ l) {p : PartitionMeta}
    (hruntime : b.runtime = .pulled p) : FollowerStep l log b (b.applyMetadata self p) := by
  obtain ⟨hleader, hepoch⟩ := h.pulled p hruntime
  by_cases hself : self ∉ p.replicas
  · rw [applyMetadata_foreign hself]
    exact h.quiet rfl rfl rfl (List.append_nil _).symm (fun _ hc => absurd hc List.not_mem_nil) rfl
      rfl le_rfl h.tasks (fun p hp => by cases hp) fun a ha => by cases ha
  · rw [Broker.applyMetadata, if_neg hself]
    rcases applyMetadata_follower h.follows hleader hne b.clock with
      ⟨-, st, heq, hauth, halive⟩ | ⟨hdead, failed, st, heq, hfollows, hst, halive⟩
    · rw [heq]
      refine h.quiet rfl rfl rfl (List.append_nil _).symm (fun _ hc => absurd hc List.not_mem_nil)
        hauth halive le_rfl (fun t ht => ?_) (fun p hp => by cases hp) fun a ha => by cases ha
      rcases List.mem_append.mp ht with ht | ht
      · exact h.tasks t ht
      · rw [List.mem_singleton.mp ht]
        trivial
    · rw [heq, hepoch]
      refine h.starts (fun g f hf => ?_) hfollows (hst.trans hepoch) halive
      obtain ⟨-, hrunning, hrole, -⟩ := h.fetchers g f hf
      rw [hdead (hrole.trans hepoch.symm)] at hrunning
      cases hrunning

/-- A step that leaves the log, the fetchers and the queue alone. -/
theorem FollowerInv.still (h : FollowerInv l log b) (hlog : b'.log = b.log)
    (hepochs : b'.epochs = b.epochs) (hfetchers : b'.fetchers = b.fetchers)
    (hqueue : b'.queue = b.queue) (hauth : b'.repl.authority = b.repl.authority)
    (halive : b'.repl.fetcherAlive = b.repl.fetcherAlive) (hcalls : b.calls ≤ b'.calls)
    (htasks : ∀ t ∈ b'.tasks, FollowerTask t)
    (hpulled : ∀ p, b'.runtime = .pulled p → p.leader = some l ∧ p.leaderEpoch = 1)
    (hleading : ∀ a, b'.runtime ≠ .leading a) : FollowerStep l log b b' :=
  h.quiet hlog hepochs hfetchers (hqueue.trans (List.append_nil _).symm)
    (fun _ hc => absurd hc List.not_mem_nil) hauth halive hcalls htasks hpulled hleading

theorem FollowerInv.spawned (h : FollowerInv l log b) {t : Task} (ht : FollowerTask t) :
    ∀ t' ∈ b.tasks ++ [t], FollowerTask t' := by
  intro t' ht'
  rcases List.mem_append.mp ht' with ht' | ht'
  · exact h.tasks t' ht'
  · rwa [List.mem_singleton.mp ht']

theorem FollowerInv.task (h : FollowerInv l log b) {i : ℕ} {t : Task} (ht : b.tasks[i]? = some t) :
    FollowerStep l log b ({ b with tasks := b.tasks.eraseIdx i }.runTask self t).1 := by
  have htask := h.tasks t (List.mem_of_getElem? ht)
  have herased : ∀ t' ∈ b.tasks.eraseIdx i, FollowerTask t' :=
    fun t' ht' => h.tasks t' (List.mem_of_mem_eraseIdx ht')
  have hspawned {t' : Task} (ht' : FollowerTask t') :
      ∀ t'' ∈ b.tasks.eraseIdx i ++ [t'], FollowerTask t'' := by
    intro t'' ht''
    rcases List.mem_append.mp ht'' with ht'' | ht''
    · exact herased t'' ht''
    · rwa [List.mem_singleton.mp ht'']
  have hread {c : Cmd} (hc : FollowerCmd log c ∧ c.isAwaited = false) :
      FollowerStep l log b ({ b with tasks := b.tasks.eraseIdx i }.enqueue c).1 := by
    refine h.quiet rfl rfl rfl rfl (fun d hd => ?_) rfl rfl le_rfl herased h.pulled h.leading
    rwa [List.mem_singleton.mp hd]
  cases t with
  | produce ticket => exact htask.elim
  | answerEpoch authority req => exact htask.elim
  | ledger ticket base count =>
    exact h.still rfl rfl rfl rfl rfl rfl le_rfl (hspawned trivial) h.pulled h.leading
  | advance serve =>
    exact h.still rfl rfl rfl rfl rfl rfl le_rfl (hspawned trivial) h.pulled h.leading
  | advanceTo logEnd serve =>
    have hauth : b.repl.advanceHwm self logEnd b.hwm = (b.hwm, [], b.repl) :=
      ReplState.advanceHwm_not_leader h.follows logEnd b.hwm
    cases serve with
    | none =>
      simp only [runTask, Broker.advanceTo, hauth, Option.elim_none]
      exact h.still rfl rfl rfl rfl rfl rfl le_rfl herased h.pulled h.leading
    | some fetch =>
      simp only [runTask, Broker.advanceTo, hauth, Option.elim_some]
      exact h.still rfl rfl rfl rfl rfl rfl le_rfl (hspawned trivial) h.pulled h.leading
  | acceptFetch req logEnd =>
    have hrefused : b.repl.acceptFetch b.clock logEnd req = .error .notLeader := by
      rw [ReplState.acceptFetch, h.follows]
      rfl
    simp only [runTask, hrefused]
    exact h.still rfl rfl rfl rfl rfl rfl le_rfl herased h.pulled h.leading
  | serveFetch fetch => exact hread ⟨trivial, rfl⟩
  | consume offset hwm =>
    simp only [runTask]
    split_ifs
    · exact h.still rfl rfl rfl rfl rfl rfl le_rfl herased h.pulled h.leading
    · exact hread ⟨trivial, rfl⟩
    · exact h.still rfl rfl rfl rfl rfl rfl le_rfl herased h.pulled h.leading

/-- Whatever a follower does while its leader stays. -/
theorem FollowerInv.step (h : FollowerInv l log b) (hne : self ≠ l)
    (htold : FollowerTold l log b a) {events : List Event}
    (hb : b.step config self a = some (b', events)) : FollowerStep l log b b' := by
  have hidle : ∀ p, Runtime.idle = .pulled p → p.leader = some l ∧ p.leaderEpoch = 1 :=
    fun p hp => by cases hp
  cases a with
  | tick ms =>
    cases hb
    exact h.still rfl rfl rfl rfl rfl rfl le_rfl h.tasks h.pulled h.leading
  | produce acks leaderEpoch records =>
    simp [Broker.step, ReplState.precheck, h.follows] at hb
  | replicaFetch req =>
    cases hb
    exact h.still rfl rfl rfl rfl rfl rfl le_rfl (h.spawned trivial) h.pulled h.leading
  | epochCheck req =>
    rw [Broker.step, h.follows] at hb
    cases hb
    exact h.still rfl rfl rfl rfl rfl rfl le_rfl h.tasks h.pulled h.leading
  | consumerFetch offset =>
    cases hb
    exact h.still rfl rfl rfl rfl rfl rfl le_rfl (h.spawned trivial) h.pulled h.leading
  | task i =>
    obtain ⟨t, ht, hrun⟩ := Option.map_eq_some_iff.mp hb
    have htask : FollowerStep l log b
        ({ b with tasks := b.tasks.eraseIdx i }.runTask self t).1 := h.task ht
    rwa [hrun] at htask
  | process wall more again =>
    cases hqueue : b.queue with
    | nil =>
      rw [Broker.step, hqueue] at hb
      cases hb
    | cons c queue =>
      have hhandled : FollowerStep l log b ({ b with queue }.handle config wall more again c).1 :=
        h.process hqueue wall more again
      rwa [← step_process hqueue hb] at hhandled
  | metadata p =>
    rw [Broker.step] at hb
    split_ifs at hb
    cases hb
    refine h.still rfl rfl rfl rfl rfl rfl le_rfl h.tasks (fun p' hp' => ?_) fun a ha => by cases ha
    cases hp'
    exact htold
  | applyMetadata =>
    cases hruntime : b.runtime with
    | pulled p =>
      have happlied := h.applyMetadata hne hruntime
      have hsame := congrArg Prod.fst (step_applyMetadata hruntime hb)
      rwa [show b' = b.applyMetadata self p from hsame]
    | idle | leading | proposing =>
      rw [Broker.step, hruntime] at hb
      cases hb
  | recordEpoch =>
    cases hruntime : b.runtime with
    | leading authority => exact absurd hruntime (h.leading authority)
    | idle | pulled | proposing =>
      rw [Broker.step, hruntime] at hb
      cases hb
  | propose =>
    simp [Broker.step, ReplState.isrProposal, h.follows] at hb
  | alterIsrReply req result =>
    simp only [Broker.step] at hb
    split_ifs at hb
    cases result with
    | ok version =>
      cases hb
      refine h.still rfl rfl rfl rfl (ReplState.installIsr_authority _ _ _) ?_ le_rfl
        (h.spawned trivial) hidle fun a ha => by cases ha
      simp [ReplState.installIsr, h.follows, spawn]
    | error code =>
      cases hb
      exact h.still rfl rfl rfl rfl rfl rfl le_rfl h.tasks hidle fun a ha => by cases ha
  | giveUp =>
    cases hruntime : b.runtime with
    | pulled | proposing =>
      rw [Broker.step, hruntime] at hb
      cases hb
      exact h.still rfl rfl rfl rfl rfl rfl le_rfl h.tasks hidle fun a ha => by cases ha
    | idle | leading =>
      rw [Broker.step, hruntime] at hb
      cases hb
  | fetcher g =>
    obtain ⟨f, hf, hrun⟩ := Option.bind_eq_some_iff.mp hb
    exact h.fetcher hf hrun
  | epochReply g req result =>
    obtain ⟨f, hf, hrun⟩ := Option.bind_eq_some_iff.mp hb
    split_ifs at hrun with hphase
    cases hrun
    obtain ⟨-, -, -, hok⟩ := h.fetchers g f hf
    have hno : ∀ c, ¬ f.WaitsFor g c := fun c hwaits => by cases hwaits <;> simp_all
    cases result with
    | ok endOffset =>
      exact h.moved hf hno ⟨hok.leader, hok.epoch, hok.marked, htold ⟨g, f, hf, hphase⟩⟩
        fun req heq => by cases heq
    | error code =>
      exact h.moved hf hno ⟨hok.leader, hok.epoch, hok.marked, trivial⟩ fun req heq => by cases heq
  | fetchReply g req result =>
    obtain ⟨f, hf, hrun⟩ := Option.bind_eq_some_iff.mp hb
    split_ifs at hrun with hphase
    cases hrun
    obtain ⟨-, -, -, hok⟩ := h.fetchers g f hf
    have hno : ∀ c, ¬ f.WaitsFor g c := fun c hwaits => by cases hwaits <;> simp_all
    have hepoch := hok.phase
    rw [hphase] at hepoch
    cases result with
    | ok records =>
      exact h.moved hf hno ⟨hok.leader, hok.epoch, hok.marked, hepoch, htold⟩
        fun req heq => by cases heq
    | error code =>
      exact h.moved hf hno ⟨hok.leader, hok.epoch, hok.marked, trivial⟩ fun req heq => by cases heq
  | callFailed g =>
    obtain ⟨f, hf, hrun⟩ := Option.bind_eq_some_iff.mp hb
    obtain ⟨-, -, -, hok⟩ := h.fetchers g f hf
    cases hphase : f.phase <;> rw [hphase] at hrun <;> cases hrun
    all_goals
      refine h.moved hf (fun c hwaits => ?_) ⟨hok.leader, hok.epoch, hok.marked, trivial⟩
        fun req heq => by cases heq
      cases hwaits <;> simp_all

/-- A follower dies in the middle of a command and starts again. -/
theorem FollowerInv.crash (h : FollowerInv l log b) (wall : ℕ → Int64) (k : ℕ) :
    FollowerInv l log (Broker.restart { b with log := b.torn config wall k }) ∧
      b.log <+: b.torn config wall k := by
  obtain ⟨hgrown, hcopy, hmarked⟩ : b.log <+: b.torn config wall k ∧ b.torn config wall k <+: log ∧
      (b.torn config wall k ≠ [] → b.epochs.currentEpoch = 1) := by
    have hsame := And.intro (List.prefix_rfl (l := b.log)) (And.intro h.copy h.marked)
    rw [torn]
    split
    · rename_i ticket queue hqueue
      exact (h.cmds (.append ticket) (hqueue ▸ List.mem_cons_self)).elim
    · rename_i authority records queue hqueue
      obtain ⟨-, g, f, -, -, hepoch⟩ := h.waiting.head hqueue rfl
      have hcopies : Copies log (records.take k) := fun e he =>
        (show Copies log records from h.cmds (.appendReplicated authority records)
          (hqueue ▸ List.mem_cons_self)) e (List.mem_of_mem_take he)
      obtain ⟨new, -, heq, -⟩ := appendFetched_spec config.log (records.take k) b.log
      refine ⟨?_, appendFetched_isPrefix config.log hcopies h.copy, fun _ => hepoch rfl⟩
      rw [heq]
      exact List.prefix_append _ _
    · rename_i authority offset queue hqueue
      exact (h.cmds (.truncateTo authority offset) (hqueue ▸ List.mem_cons_self)).elim
    · exact hsame
  refine ⟨⟨rfl, hcopy, h.checkpoint, hmarked, fun t ht => ?_, fun c hc => ?_, fun g f hf => ?_,
    (fun p hp => ?_), (fun a ha => ?_), .none fun c hc => ?_⟩, hgrown⟩
  · cases ht
  · cases hc
  · cases hf
  · cases hp
  · cases ha
  · cases hc

theorem FollowerInv.init (l : BrokerId) : FollowerInv l log {} := by
  refine ⟨rfl, List.nil_prefix, .inl rfl, fun hne => absurd rfl hne, fun t ht => ?_,
    fun c hc => ?_, fun g f hf => ?_, fun p hp => ?_, fun a ha => ?_, .none fun c hc => ?_⟩
  · cases ht
  · cases hc
  · cases hf
  · cases hp
  · cases ha
  · cases hc

end Step

end Replog.Replication
