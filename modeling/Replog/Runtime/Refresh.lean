import Replog.Runtime.Loop

/-!
# Whether a dead fetcher is missed

A follower without a fetcher gets one when metadata is applied again. A fetcher can go without a
ping, a ping can be taken in vain, and a round can come to a replica whose fetcher has sent its
ping and is not yet marked dead. Where none of this happens, there is always a round to come.
-/

namespace Replog.Runtime
open Replog.Library
open Replog.Controller (ClusterMeta Shared)
open Replog.Replication (BrokerId ReplState)

/-- Whether a ping started the round, and its metadata is not applied yet. -/
def Round.forced : Round → Bool
  | .idle => false
  | .connect forced => forced
  | .call forced _ => forced
  | .answered forced _ _ => forced
  | .applying forced _ _ => forced
  | .maintain => false

/-- The metadata whose application is under way, and what is left of it. -/
def Round.inHand : Round → Option (ClusterMeta × List Key)
  | .applying _ cluster todo => some (cluster, todo.map Prod.fst)
  | _ => none

/-- The exits without a ping of a fetcher that still has its claim. -/
def Phase.silent : Phase → Outcome → Bool
  | .status, .failed => true
  | .truncating, .failed => true
  | .fetching, .unexpected => true
  | .appending, .failed => true
  | _, _ => false

namespace Broker

/-- A follower of a partition with a leader, as far as the replica knows. -/
def Follows (r : Replica) : Prop := r.st.isLeader = false ∧ r.leader.isSome = true

instance (r : Replica) : Decidable (Follows r) := inferInstanceAs (Decidable (_ ∧ _))

/-- A refresh ping is queued or taken and not yet served, or the controller has another version. -/
def Pending (b : Broker) : Prop :=
  0 < b.pings ∨ b.round.forced = true ∨ b.localVersion ≠ b.controller.mem.version

/-- Where a follower has no live fetcher of its generation, metadata is going to be applied. -/
def Refreshing (b : Broker) : Prop :=
  ∀ key r, b.replicas.lookup key = some r → Follows r →
    b.fetchers key r.st.fetcherGeneration = none → b.Pending

/-- The replica waits for a new fetcher: it has none, or its fetcher has left its loop. -/
def Waits (b : Broker) (key : Key) (r : Replica) : Prop :=
  Follows r ∧ ∀ f ∈ b.fetchers key r.st.fetcherGeneration, f.phase = .exiting

instance (b : Broker) (key : Key) (r : Replica) : Decidable (b.Waits key r) :=
  inferInstanceAs (Decidable (_ ∧ _))

def Waiting (b : Broker) : Prop := ∃ e ∈ b.replicas.entries, b.Waits e.1 e.2

instance (b : Broker) : Decidable b.Waiting := by
  unfold Waiting
  infer_instance

/-- A round is to come, or has still to come, to the replica of a partition. -/
def Due (b : Broker) (key : Key) : Prop :=
  0 < b.pings ∨
    (b.round.forced = true ∨ b.localVersion ≠ b.controller.mem.version) ∧
      ∀ inHand ∈ b.round.inHand, key ∈ inHand.2 ∨ inHand.1.version ≠ b.controller.mem.version

instance (b : Broker) (key : Key) : Decidable (b.Due key) := by
  unfold Due
  infer_instance

/-- The versions that the broker has, or is about to have. -/
def versions (b : Broker) : List ℕ :=
  b.localVersion :: (b.round.inHand.map fun inHand => inHand.1.version).toList

/-- The action ends a round without metadata. -/
def Abandons (b : Broker) (a : Action) : Prop :=
  match b.round, a with
  | .connect _, .connectFailed => True
  | .call _ _, .callFailed => True
  | .answered _ _ _, .callFailed => True
  | .answered _ c resp, .received => c.accepts resp = false
  | _, _ => False

instance (b : Broker) (a : Action) : Decidable (b.Abandons a) := by
  unfold Abandons
  split <;> infer_instance

/-- The round comes to a replica that goes on following, and whose fetcher has left its loop
without being marked dead. -/
def Overlooks (self : UInt32) (b : Broker) (a : Action) : Prop :=
  match b.round, a with
  | .applying _ cluster ((key, p) :: _), .apply _ _ =>
    let p := partitionMeta self cluster p
    ∃ r ∈ b.replicas.lookup key, ∃ f ∈ b.fetchers key r.st.fetcherGeneration,
      f.phase = .exiting ∧ r.st.isLeader = false ∧ r.st.epoch = p.leaderEpoch ∧
        p.leader.isSome = true ∧ p.leader ≠ some self.toNat
  | _, _ => False

instance (self : UInt32) (b : Broker) (a : Action) : Decidable (b.Overlooks self a) := by
  unfold Overlooks
  split <;> infer_instance

/-- The fetcher of a follower leaves its loop without a ping. -/
def Deserts (b : Broker) (a : Action) (key : Key) : Prop :=
  match a with
  | .fetcher key' generation o => key' = key ∧ ∃ r ∈ b.replicas.lookup key,
    ∃ f ∈ b.fetchers key generation,
      Follows r ∧ r.st.fetcherGeneration = generation ∧ f.phase.silent o = true
  | _ => False

instance (b : Broker) (a : Action) (key : Key) : Decidable (b.Deserts a key) := by
  unfold Deserts
  split <;> infer_instance

/-- What the controller has become after an action. -/
def controllerAfter (config : Config) (b : Broker) : Action → Shared
  | .served now persisted => match b.round with
    | .call _ c => (b.controller.handle (c.request config) now persisted).2
    | _ => b.controller
  | .controller a => b.controller.act a
  | _ => b.controller

/-- A step does not do away with what a replica waits for: a ping is not taken by a round that is
given up, or that comes to the replica before its fetcher is marked dead; a fetcher goes without a
ping only where a round is due; and the controller does not come back to a version that the broker
has. -/
structure Careful (config : Config) (b : Broker) (a : Action) : Prop where
  abandons : b.round.forced = true → b.Abandons a → b.Waiting →
    0 < b.pings ∨ b.localVersion ≠ b.controller.mem.version
  overlooks : b.Overlooks config.brokerId a → 0 < b.pings ∨
    (b.round.forced = true ∨ b.localVersion ≠ b.controller.mem.version) ∧
      ∀ inHand ∈ b.round.inHand, inHand.1.version ≠ b.controller.mem.version
  deserts : ∀ e ∈ b.replicas.entries, b.Deserts a e.1 → b.Due e.1
  returns : b.Waiting → 0 < b.pings ∨ ∀ v ∈ b.versions,
    v ≠ b.controller.mem.version → v ≠ (b.controllerAfter config a).mem.version

instance (config : Config) (b : Broker) (a : Action) : Decidable (b.Careful config a) :=
  decidable_of_iff
    ((b.round.forced = true → b.Abandons a → b.Waiting →
        0 < b.pings ∨ b.localVersion ≠ b.controller.mem.version) ∧
      (b.Overlooks config.brokerId a → 0 < b.pings ∨
        (b.round.forced = true ∨ b.localVersion ≠ b.controller.mem.version) ∧
          ∀ inHand ∈ b.round.inHand, inHand.1.version ≠ b.controller.mem.version) ∧
      (∀ e ∈ b.replicas.entries, b.Deserts a e.1 → b.Due e.1) ∧
      (b.Waiting → 0 < b.pings ∨ ∀ v ∈ b.versions,
        v ≠ b.controller.mem.version → v ≠ (b.controllerAfter config a).mem.version))
    ⟨fun h => ⟨h.1, h.2.1, h.2.2.1, h.2.2.2⟩,
      fun h => ⟨h.abandons, h.overlooks, h.deserts, h.returns⟩⟩

end Broker

/-! ## The addresses in the metadata -/

/-- There is an address to reach the leader at. -/
def Reachable (cluster : ClusterMeta) (p : Controller.PartitionMeta) : Prop :=
  0 ≤ p.leader → (leaderAddr cluster p.leader.toUInt32.toNat).isSome = true

private theorem reachable_of_registered {s : Controller.State} (h : s.Registered) {self : UInt32}
    {e : Key × Controller.PartitionMeta} (he : e ∈ hosted self s.clusterMeta) :
    Reachable s.clusterMeta e.2 := by
  intro hleader
  obtain ⟨t, ht, he⟩ := List.mem_flatMap.mp he
  obtain ⟨p, hp, rfl⟩ := List.mem_map.mp he
  obtain ⟨⟨topic, parts⟩, htopic, rfl⟩ := List.mem_map.mp ht
  obtain ⟨k, hk, rfl⟩ := List.mem_mapIdx.mp (List.mem_filter.mp hp).1
  have hpartition : s.partition topic k = some parts[k] := by
    rw [Controller.State.partition, Assoc.mem_sorted.mp htopic, Option.bind_some,
      List.getElem?_eq_getElem hk]
  obtain ⟨hwf, hknown⟩ := h topic k _ hpartition
  have hmem := hwf.leader_mem.resolve_left fun hnone => by
    dsimp only at hleader
    rw [hnone] at hleader
    exact absurd hleader (by decide)
  obtain ⟨b, hb⟩ := Option.isSome_iff_exists.mp
    (AList.lookup_isSome.mpr (hknown _ (hwf.isr_subset hmem)))
  rw [leaderAddr, Option.isSome_map, List.find?_isSome]
  refine ⟨(parts[k].leader.toUInt32, b.peerAddr), List.mem_append_left _ ?_, by simp⟩
  exact List.mem_map.mpr ⟨_, Assoc.mem_sorted.mpr hb, rfl⟩

/-- The metadata of the round has the addresses that are needed. -/
def Round.Addressed (self : UInt32) : Round → Prop
  | .answered _ _ (.controllerMetadata _ cluster) =>
    ∀ e ∈ hosted self cluster, Reachable cluster e.2
  | .applying _ cluster todo => ∀ e ∈ todo, Reachable cluster e.2
  | _ => True

private theorem addressed_answered {c : Shared} (h : c.mem.Registered) (config : Config) (self : UInt32)
    (forced : Bool) (call : Call) (now : ℕ) (persisted : Bool) :
    (Round.answered forced call (c.handle (call.request config) now persisted).1).Addressed
      self := by
  cases call with
  | register => trivial
  | heartbeat => trivial
  | metadata => exact fun e he => reachable_of_registered h he

/-- The responses that a round goes on with. -/
inductive Call.Accepted : Call → Controller.Response → Prop where
  | register (version : ℕ) : Accepted .register (.registerBroker .none version)
  | heartbeat (version : ℕ) : Accepted .heartbeat (.brokerHeartbeat .none version)
  | metadata (cluster : ClusterMeta) : Accepted .metadata (.controllerMetadata .none cluster)

private theorem Call.accepted_of_accepts {c : Call} {resp : Controller.Response}
    (h : c.accepts resp = true) : c.Accepted resp := by
  unfold accepts at h
  split at h
  · cases of_decide_eq_true h
    exact .register _
  · cases of_decide_eq_true h
    exact .heartbeat _
  · cases of_decide_eq_true h
    exact .metadata _
  · cases h

namespace Broker

variable {config : Config} {b b' : Broker}

/-! ## What holds in every run -/

structure Inv (config : Config) (b : Broker) : Prop where
  registered : b.controller.Kept Controller.State.Registered
  addressed : b.round.Addressed config.brokerId
  /-- A replica that counts its fetcher as alive has one. -/
  alive : ∀ key r, b.replicas.lookup key = some r → r.st.isLeader = false →
    r.st.fetcherAlive = true → (b.fetchers key r.st.fetcherGeneration).isSome = true
  due : ∀ key r, b.replicas.lookup key = some r → b.Waits key r → b.Due key

private theorem waiting_of_lookup {key : Key} {r : Replica} (hr : b.replicas.lookup key = some r)
    (h : b.Waits key r) : b.Waiting :=
  ⟨⟨key, r⟩, AList.mem_lookup_iff.mp hr, h⟩

theorem Inv.refreshing (h : b.Inv config) : b.Refreshing := by
  intro key r hr hfollows hnone
  have hdue := h.due key r hr ⟨hfollows, fun f hf => by rw [hnone] at hf; cases hf⟩
  exact hdue.imp_right And.left

theorem inv_init (config : Config) (controller : Controller.ControllerConfig) :
    (init controller).Inv config where
  registered := ⟨nofun, fun _ => nofun⟩
  addressed := trivial
  alive := nofun
  due := nofun

/-- Steps that leave the replicas and the fetchers alone. -/
theorem Inv.of_same (h : b.Inv config) (hreplicas : b'.replicas = b.replicas)
    (hfetchers : b'.fetchers = b.fetchers)
    (hregistered : b'.controller.Kept Controller.State.Registered)
    (haddressed : b'.round.Addressed config.brokerId)
    (hdue : b.Waiting → ∀ key, b.Due key → b'.Due key) : b'.Inv config where
  registered := hregistered
  addressed := haddressed
  alive := by
    rw [hreplicas, hfetchers]
    exact h.alive
  due := by
    intro key r hr hwaits
    rw [hreplicas] at hr
    rw [Waits, hfetchers] at hwaits
    exact hdue (waiting_of_lookup hr hwaits) key (h.due key r hr hwaits)

/-- Outside the application of metadata what is due is due for everybody. -/
theorem due_iff {key : Key} (h : b.round.inHand = none) : b.Due key ↔
    0 < b.pings ∨ b.round.forced = true ∨ b.localVersion ≠ b.controller.mem.version := by
  rw [Due, h]
  simp

/-- A change of the round that brings no metadata closer. -/
theorem Inv.of_round (h : b.Inv config) {round : Round} {controllerConn registered : Bool}
    (hround : b' = { b with round, controllerConn, registered })
    (hinHand : b.round.inHand = none) (hinHand' : round.inHand = none)
    (haddressed : round.Addressed config.brokerId)
    (hforced : b.Waiting → b.round.forced = true → round.forced = true ∨ 0 < b.pings ∨
      b.localVersion ≠ b.controller.mem.version) : b'.Inv config := by
  subst hround
  refine h.of_same rfl rfl h.registered haddressed fun hwaiting key hdue => ?_
  rw [due_iff hinHand] at hdue
  rw [due_iff hinHand']
  rcases hdue with hpings | hround | hversion
  · exact .inl hpings
  · rcases hforced hwaiting hround with hround | hpings | hversion
    · exact .inr (.inl hround)
    · exact .inl hpings
    · exact .inr (.inr hversion)
  · exact .inr (.inr hversion)

/-- A round begins by connecting, or by its first call. -/
theorem begin_cases (b : Broker) (forced : Bool) : ∃ round, b.begin forced = { b with round } ∧
    round.forced = forced ∧ round.inHand = none ∧ ∀ self, round.Addressed self := by
  rw [begin]
  split
  · exact ⟨_, rfl, rfl, rfl, fun _ => trivial⟩
  · exact ⟨_, rfl, rfl, rfl, fun _ => trivial⟩

theorem Inv.tick (h : b.Inv config) (hidle : b.round = .idle) : (b.begin false).Inv config := by
  obtain ⟨round, hbegin, -, hinHand, haddressed⟩ := b.begin_cases false
  refine h.of_round hbegin (by rw [hidle]; rfl) hinHand (haddressed _) fun _ hforced => ?_
  rw [hidle] at hforced
  cases hforced

theorem Inv.refresh (h : b.Inv config) :
    ({ b with pings := b.pings - 1 }.begin true).Inv config := by
  obtain ⟨round, hbegin, hforced, hinHand, haddressed⟩ :=
    { b with pings := b.pings - 1 }.begin_cases true
  rw [hbegin]
  refine h.of_same rfl rfl h.registered (haddressed _) fun _ key _ => ?_
  exact (due_iff hinHand).mpr (.inr (.inl hforced))

/-- The controller does something, whatever it makes of a call. -/
theorem Inv.of_controller (h : b.Inv config) {controller : Shared} {round : Round}
    (hround : b' = { b with controller, round })
    (hregistered : controller.Kept Controller.State.Registered)
    (haddressed : round.Addressed config.brokerId)
    (hforced : round.forced = b.round.forced) (hinHand : round.inHand = b.round.inHand)
    (hreturns : b.Waiting → 0 < b.pings ∨ ∀ v ∈ b.versions,
      v ≠ b.controller.mem.version → v ≠ controller.mem.version) : b'.Inv config := by
  subst hround
  refine h.of_same rfl rfl hregistered haddressed fun hwaiting key hdue => ?_
  rcases hdue with hpings | ⟨hcalled, hreaches⟩
  · exact .inl hpings
  rcases hreturns hwaiting with hpings | hversions
  · exact .inl hpings
  refine .inr ⟨?_, fun inHand hmem => ?_⟩
  · rw [hforced]
    exact hcalled.imp_right (hversions _ List.mem_cons_self)
  · rw [hinHand] at hmem
    refine (hreaches inHand hmem).imp_right (hversions _ (List.mem_cons_of_mem _ ?_))
    rw [Option.mem_def.mp hmem]
    exact List.mem_singleton.mpr rfl

theorem Inv.abandoned (h : b.Inv config) {a : Action} (ha : b.Abandons a)
    (hinHand : b.round.inHand = none)
    (habandons : b.round.forced = true → b.Abandons a → b.Waiting →
      0 < b.pings ∨ b.localVersion ≠ b.controller.mem.version)
    (controllerConn registered : Bool) :
    { b with round := .idle, controllerConn, registered : Broker }.Inv config :=
  h.of_round rfl hinHand rfl trivial fun hwaiting hforced => .inr (habandons hforced ha hwaiting)

/-- The answer to a call is taken up, or the round is given up. -/
theorem Inv.received (h : b.Inv config) {forced : Bool} {c : Call} {resp : Controller.Response}
    (hround : b.round = .answered forced c resp)
    (habandons : b.round.forced = true → b.Abandons .received → b.Waiting →
      0 < b.pings ∨ b.localVersion ≠ b.controller.mem.version) :
    (b.receive config.brokerId forced c resp).Inv config := by
  have hinHand : b.round.inHand = none := by rw [hround]; rfl
  have hgives : c.accepts resp = false → ∀ controllerConn registered,
      { b with round := .idle, controllerConn, registered : Broker }.Inv config := by
    intro hrefused
    refine h.abandoned (a := .received) ?_ hinHand habandons
    unfold Abandons
    rw [hround]
    exact hrefused
  have hgoes : ∀ c' registered,
      { b with round := .call forced c', registered : Broker }.Inv config := by
    intro c' registered
    refine h.of_round rfl hinHand rfl trivial
      fun _ hforced => .inl ?_
    rwa [hround] at hforced
  unfold receive
  split
  · exact hgoes .heartbeat true
  · split
    · exact hgoes .metadata b.registered
    · rename_i hsame
      refine h.of_round rfl hinHand rfl trivial
        fun _ hforced => ?_
      rw [hround] at hforced
      exact absurd (.inr hforced) hsame
  · rename_i error _ hother
    refine hgives (decide_eq_false fun herror => ?_) _ _
    subst herror
    exact hother rfl
  · rename_i cluster
    have hlisted : ∀ key r, (b.replicas.mapVal fun key r =>
        if key ∈ (hosted config.brokerId cluster).map Prod.fst then r
        else { r with leader := none }).lookup key = some r →
        ∃ r', b.replicas.lookup key = some r' ∧ r.st = r'.st ∧ (r.leader.isSome = true →
          key ∈ (hosted config.brokerId cluster).map Prod.fst ∧ r = r') := by
      intro key r hr
      rw [Assoc.lookup_mapVal] at hr
      obtain ⟨r', hr', rfl⟩ := Option.map_eq_some_iff.mp hr
      refine ⟨r', hr', ?_, fun hleader => ?_⟩
      · split <;> rfl
      · split at hleader
        · rename_i hmem
          exact ⟨hmem, if_pos hmem⟩
        · cases hleader
    refine ⟨h.registered, ?_, ?_, ?_⟩
    · have haddressed := h.addressed
      rw [hround] at haddressed
      exact haddressed
    · intro key r hr hleader halive
      obtain ⟨r', hr', hst, -⟩ := hlisted key r hr
      rw [hst] at hleader halive ⊢
      exact h.alive key r' hr' hleader halive
    · intro key r hr hwaits
      obtain ⟨r', hr', hst, hleader⟩ := hlisted key r hr
      obtain ⟨hmem, hsame⟩ := hleader hwaits.1.2
      rw [hsame] at hwaits
      have hdue := (due_iff hinHand).mp (h.due key r' hr' hwaits)
      rw [hround] at hdue
      refine hdue.imp_right fun hcalled => ⟨hcalled, ?_⟩
      rintro inHand ⟨⟩
      exact .inl hmem
  · refine hgives ?_ _ _
    rename_i hregister hheartbeat _ hmetadata
    rw [Bool.eq_false_iff]
    intro haccepts
    cases Call.accepted_of_accepts haccepts with
    | register version => exact hregister version rfl rfl
    | heartbeat version => exact hheartbeat version rfl rfl
    | metadata cluster => exact hmetadata cluster rfl rfl

/-- The end of the metadata is the version of the broker. -/
theorem Inv.applied (h : b.Inv config) {forced : Bool} {cluster : ClusterMeta}
    (hround : b.round = .applying forced cluster []) :
    { b with localVersion := cluster.version, round := .maintain : Broker }.Inv config := by
  refine h.of_same rfl rfl h.registered trivial fun _ key hdue => ?_
  rcases hdue with hpings | ⟨-, hreaches⟩
  · exact .inl hpings
  · refine (due_iff rfl).mpr (.inr (.inr ?_))
    exact (hreaches _ (by rw [hround]; rfl)).resolve_left List.not_mem_nil

/-- What the locked block of `apply_metadata` does to a fetcher. -/
inductive Applies (self : BrokerId) (p : Replication.PartitionMeta) (st : ReplState) :
    ReplState.Transition → ReplState → Prop where
  | kept {st' : ReplState} (hauthority : st'.authority = st.authority)
      (halive : st'.fetcherAlive = st.fetcherAlive) (hepoch : st.epoch = p.leaderEpoch)
      (hrole : st.isLeader = decide (p.leader = some self))
      (hno : st.isLeader = true ∨ st.fetcherAlive = true ∨ p.leader = none) :
      Applies self p st .unchanged st'
  | leading {st' : ReplState} (hleader : st'.isLeader = true) : Applies self p st .leading st'
  | following {st' : ReplState} (hself : p.leader ≠ some self)
      (halive : st'.fetcherAlive = p.leader.isSome) :
      Applies self p st (.following p.leader) st'

private theorem applies_applyMetadata (self : BrokerId) (now : ℕ) (p : Replication.PartitionMeta)
    (st : ReplState) : Applies self p st (st.applyMetadata self now p).1
      (st.applyMetadata self now p).2.2 := by
  unfold ReplState.applyMetadata
  dsimp only
  split
  · rename_i hsame
    split
    · rename_i hdead
      simp only [Bool.and_eq_true, Bool.not_eq_true'] at hdead
      refine .following (fun hself => ?_) hdead.2.symm
      rw [hdead.1.1, hself, decide_eq_true rfl] at hsame
      exact Bool.false_ne_true hsame.2
    · rename_i hno
      refine .kept rfl rfl hsame.1 hsame.2 ?_
      cases hleader : st.isLeader with
      | true => exact .inl rfl
      | false =>
        cases halive : st.fetcherAlive with
        | true => exact .inr (.inl rfl)
        | false =>
          cases hp : p.leader with
          | none => exact .inr (.inr rfl)
          | some leader => simp [hleader, halive, hp] at hno
  · split
    · rename_i hleader
      exact .leading hleader
    · rename_i hleader
      exact .following (by simpa using hleader) rfl

/-- The metadata comes to a replica `r`, and leaves the broker `b'`. -/
structure Applied (brokerId : UInt32) (b b' : Broker) (cluster : ClusterMeta) (key : Key)
    (p : Controller.PartitionMeta) (r : Replica) (t : ReplState.Transition) (st : ReplState) :
    Prop where
  applies : Applies brokerId.toNat (partitionMeta brokerId cluster p) r.st t st
  broker : b' = { b with
    replicas := b.replicas.insert key ⟨st, (partitionMeta brokerId cluster p).leader⟩
    fetchers := b'.fetchers }
  others : ∀ key', key' ≠ key → b'.fetchers key' = b.fetchers key'
  kept : t = .unchanged → b'.fetchers = b.fetchers
  started : ∀ leader, t = .following (some leader) →
    ∃ f, b'.fetchers key st.fetcherGeneration = some f ∧ f.phase = .connect

private theorem leaderAddr_isSome {self : UInt32} {cluster : ClusterMeta} {p : Controller.PartitionMeta}
    (haddress : Reachable cluster p) {leader : BrokerId}
    (hleader : (partitionMeta self cluster p).leader = some leader) (hself : leader ≠ self.toNat) :
    (leaderAddr cluster leader).isSome = true := by
  rw [partitionMeta] at hleader
  dsimp only at hleader
  split at hleader
  · rename_i hled
    cases hleader
    refine haddress (hled.resolve_right fun heq => hself ?_)
    rw [heq]
    rfl
  · cases hleader

private theorem applied_applyReplica (self : UInt32) (b : Broker) (now : ℕ) {cluster : ClusterMeta}
    (key : Key) {p : Controller.PartitionMeta} (r : Replica) (haddress : Reachable cluster p) :
    ∃ t st, Applied self b (b.applyReplica self now cluster key p r) cluster key p r t st := by
  have happlies := applies_applyMetadata self.toNat now (partitionMeta self cluster p) r.st
  unfold applyReplica
  dsimp only at happlies ⊢
  generalize r.st.applyMetadata self.toNat now (partitionMeta self cluster p) = applied
    at happlies ⊢
  obtain ⟨t, pending, st⟩ := applied
  refine ⟨t, st, ?_⟩
  dsimp only at happlies ⊢
  have hquiet : (∀ leader, t ≠ .following (some leader)) →
      Applied self b { b with
        replicas := b.replicas.insert key ⟨st, (partitionMeta self cluster p).leader⟩ }
        cluster key p r t st := fun ht =>
    ⟨happlies, rfl, fun _ _ => rfl, fun _ => rfl, fun leader hleader => absurd hleader (ht leader)⟩
  cases happlies with
  | kept => exact hquiet fun _ => nofun
  | leading => exact hquiet fun _ => nofun
  | following hself halive =>
    cases hleader : (partitionMeta self cluster p).leader with
    | none =>
      rw [hleader] at hquiet
      exact hquiet fun _ => nofun
    | some leader =>
      have happlies : Applies self.toNat (partitionMeta self cluster p) r.st (.following _) st :=
        .following hself halive
      rw [hleader] at hself
      obtain ⟨addr, haddr⟩ := Option.isSome_iff_exists.mp
        (leaderAddr_isSome haddress hleader fun heq => hself (congrArg some heq))
      dsimp only
      rw [haddr]
      refine ⟨by rw [← hleader]; exact happlies, by rw [hleader]; rfl, fun key' hne => ?_, nofun,
        fun _ _ => ⟨_, if_pos ⟨rfl, rfl⟩, rfl⟩⟩
      funext generation
      exact if_neg fun h => hne h.1

theorem Inv.apply (h : b.Inv config) {forced : Bool} {cluster : ClusterMeta} {key : Key}
    {p : Controller.PartitionMeta} {todo : List (Key × Controller.PartitionMeta)}
    (hround : b.round = .applying forced cluster ((key, p) :: todo)) (now : ℕ) (opened : Bool)
    (hoverlooks : b.Overlooks config.brokerId (.apply now opened) → 0 < b.pings ∨
      (b.round.forced = true ∨ b.localVersion ≠ b.controller.mem.version) ∧
        ∀ inHand ∈ b.round.inHand, inHand.1.version ≠ b.controller.mem.version) :
    { b.applyPartition config.brokerId now opened cluster key p with
      round := .applying forced cluster todo : Broker }.Inv config := by
  have haddressed := h.addressed
  rw [hround] at haddressed
  have hrest : ∀ e ∈ todo, Reachable cluster e.2 := fun e he =>
    haddressed e (List.mem_cons_of_mem _ he)
  -- What is due to the others is due to them in what is left.
  have hdue : ∀ key', key' ≠ key → ∀ replicas fetchers, b.Due key' →
      { b with replicas, fetchers, round := .applying forced cluster todo : Broker }.Due key' := by
    rintro key' hne replicas fetchers (hpings | ⟨hcalled, hreaches⟩)
    · exact .inl hpings
    · rw [hround] at hcalled
      refine .inr ⟨hcalled, ?_⟩
      rintro inHand ⟨⟩
      refine (hreaches (cluster, key :: todo.map Prod.fst) (by rw [hround]; rfl)).imp_left ?_
      exact fun hmem => (List.mem_cons.mp hmem).resolve_left hne
  have hreplica : ∀ r, (b.replicas.lookup key = some r ∨ r.st.fetcherAlive = false) →
      { b.applyReplica config.brokerId now cluster key p r with
        round := .applying forced cluster todo : Broker }.Inv config := by
    intro r hold
    obtain ⟨t, st, happlied⟩ := applied_applyReplica config.brokerId b now key r
      (haddressed _ List.mem_cons_self)
    have hgeneration : st.authority = r.st.authority →
        st.fetcherGeneration = r.st.fetcherGeneration ∧ st.isLeader = r.st.isLeader :=
      fun heq => ⟨congrArg Replication.Authority.generation heq,
        congrArg Replication.Authority.leader heq⟩
    rw [happlied.broker]
    refine ⟨h.registered, hrest, fun key' r' hr' hleader halive => ?_,
      fun key' r' hr' hwaits => ?_⟩
    · dsimp only at hr' ⊢
      by_cases heq : key' = key
      · subst heq
        rw [AList.lookup_insert, Option.some.injEq] at hr'
        subst hr'
        cases happlied.applies with
        | kept hauthority halive' =>
          obtain ⟨hsame, hrole⟩ := hgeneration hauthority
          dsimp only at hleader halive ⊢
          rw [halive'] at halive
          rw [happlied.kept rfl, hsame]
          refine h.alive key' r (hold.resolve_right fun hdead => ?_) (hrole ▸ hleader) halive
          rw [hdead] at halive
          cases halive
        | leading hleads =>
          rw [hleads] at hleader
          cases hleader
        | following hself halive' =>
          dsimp only at halive ⊢
          rw [halive'] at halive
          obtain ⟨leader, hsome⟩ := Option.isSome_iff_exists.mp halive
          obtain ⟨f, hf, -⟩ := happlied.started leader (by rw [hsome])
          rw [hf]
          rfl
      · rw [AList.lookup_insert_ne heq] at hr'
        rw [happlied.others key' heq]
        exact h.alive key' r' hr' hleader halive
    · obtain ⟨⟨hfollows, hled⟩, hexiting⟩ := hwaits
      dsimp only at hr' hexiting
      by_cases heq : key' = key
      · subst heq
        rw [AList.lookup_insert, Option.some.injEq] at hr'
        subst hr'
        dsimp only at hfollows hled hexiting
        cases happlied.applies with
        | kept hauthority halive' hepoch hrole hno =>
          obtain ⟨hsame, hleads⟩ := hgeneration hauthority
          rw [hleads] at hfollows
          have halive : r.st.fetcherAlive = true := by
            rcases hno with hleader | halive | hnone
            · rw [hleader] at hfollows
              cases hfollows
            · exact halive
            · rw [hnone] at hled
              cases hled
          have hr := hold.resolve_right fun hdead => by
            rw [hdead] at halive
            cases halive
          obtain ⟨f, hf⟩ := Option.isSome_iff_exists.mp (h.alive _ r hr hfollows halive)
          have hphase := hexiting f (by rw [happlied.kept rfl, hsame]; exact hf)
          rw [hfollows] at hrole
          have hover : b.Overlooks config.brokerId (.apply now opened) := by
            unfold Overlooks
            rw [hround]
            exact ⟨r, hr, f, hf, hphase, hfollows, hepoch, hled, of_decide_eq_false hrole.symm⟩
          rcases hoverlooks hover with hpings | ⟨hcalled, hversions⟩
          · exact .inl hpings
          · rw [hround] at hcalled
            refine .inr ⟨hcalled, ?_⟩
            rintro inHand ⟨⟩
            exact .inr (hversions (cluster, _ :: todo.map Prod.fst) (by rw [hround]; rfl))
        | leading hleads =>
          rw [hleads] at hfollows
          cases hfollows
        | following hself halive' =>
          obtain ⟨leader, hsome⟩ := Option.isSome_iff_exists.mp hled
          obtain ⟨f, hf, hconnect⟩ := happlied.started leader (by rw [hsome])
          have hexit := hexiting f hf
          rw [hconnect] at hexit
          cases hexit
      · rw [AList.lookup_insert_ne heq] at hr'
        rw [happlied.others key' heq] at hexiting
        exact hdue key' heq _ _ (h.due key' r' hr' ⟨⟨hfollows, hled⟩, hexiting⟩)
  rw [applyPartition]
  split
  · rename_i r hr
    exact hreplica r (.inl hr)
  · rename_i hnone
    split
    · exact hreplica ⟨{}, none⟩ (.inr rfl)
    · refine ⟨h.registered, hrest, h.alive, fun key' r hr hwaits => ?_⟩
      refine hdue key' (fun heq => ?_) _ _ (h.due key' r hr hwaits)
      rw [heq, hnone] at hr
      cases hr

private theorem silent_of_next {phase : Phase} {o : Outcome}
    (h : phase.next true o = some (.exiting, false)) : phase.silent o = true := by
  cases phase <;> cases o <;> simp [Phase.next, Phase.silent] at h ⊢

/-- A fetcher takes a step in its loop, or leaves it. -/
theorem Inv.fetcher (h : b.Inv config) {key : Key} {generation : ℕ} {f : Fetcher}
    (hf : b.fetchers key generation = some f) {phase : Phase} {ping : Bool} {o : Outcome}
    (hnext : f.phase.next (b.isCurrent key generation) o = some (phase, ping))
    (hdeserts : ∀ e ∈ b.replicas.entries, b.Deserts (.fetcher key generation o) e.1 → b.Due e.1) :
    { b.setFetcher key generation (some { f with phase }) with
      pings := if ping then b.pings + 1 else b.pings : Broker }.Inv config := by
  refine ⟨h.registered, h.addressed, fun key' r hr hleader halive => ?_,
    fun key' r hr hwaits => ?_⟩
  · dsimp only [setFetcher]
    split
    · rfl
    · exact h.alive key' r hr hleader halive
  · cases ping with
    | true => exact .inl (Nat.succ_pos _)
    | false =>
      have hdue : b.Due key' := by
        by_cases heq : key' = key ∧ r.st.fetcherGeneration = generation
        · obtain ⟨rfl, rfl⟩ := heq
          have hexit := hwaits.2 { f with phase } (if_pos ⟨rfl, rfl⟩)
          have hcurrent : b.isCurrent key' r.st.fetcherGeneration = true := by
            have hlookup : b.replicas.lookup key' = some r := hr
            simp [isCurrent, hlookup, hwaits.1.1]
          dsimp only at hexit
          rw [hcurrent, hexit] at hnext
          exact hdeserts ⟨key', r⟩ (AList.mem_lookup_iff.mp hr)
            ⟨rfl, r, hr, f, hf, hwaits.1, rfl, silent_of_next hnext⟩
        · refine h.due key' r hr ⟨hwaits.1, fun f' hf' => hwaits.2 f' ?_⟩
          exact (if_neg heq).trans hf'
      exact hdue

theorem Inv.exit (h : b.Inv config) {key : Key} {generation : ℕ} {f : Fetcher}
    (hf : b.fetchers key generation = some f) (hexiting : f.phase = .exiting) :
    { b.setFetcher key generation none with
      replicas := b.replicas.mapVal fun key' r =>
        if key' = key then { r with st := r.st.fetcherExit generation } else r : Broker }.Inv
          config := by
  have hold : ∀ key' r', (b.replicas.mapVal fun key' r => if key' = key then
      { r with st := r.st.fetcherExit generation } else r).lookup key' = some r' →
      ∃ r, b.replicas.lookup key' = some r ∧ r'.leader = r.leader ∧
        r'.st.authority = r.st.authority ∧
        r'.st.fetcherAlive = if key' = key ∧ r.st.fetcherGeneration = generation then false
          else r.st.fetcherAlive := by
    intro key' r' hr'
    rw [Assoc.lookup_mapVal] at hr'
    obtain ⟨r, hr, rfl⟩ := Option.map_eq_some_iff.mp hr'
    refine ⟨r, hr, ?_⟩
    by_cases hkey : key' = key
    · rw [if_pos hkey]
      refine ⟨rfl, ReplState.fetcherExit_authority generation, ?_⟩
      rw [ReplState.fetcherExit]
      by_cases hgeneration : r.st.fetcherGeneration = generation
      · simp [hkey, hgeneration]
      · simp [hgeneration]
    · simp [hkey]
  refine ⟨h.registered, h.addressed, fun key' r' hr' hleader halive => ?_,
    fun key' r' hr' hwaits => ?_⟩
  · obtain ⟨r, hr, -, hauthority, halive'⟩ := hold key' r' hr'
    have hgeneration : r'.st.fetcherGeneration = r.st.fetcherGeneration :=
      congrArg Replication.Authority.generation hauthority
    have hrole : r'.st.isLeader = r.st.isLeader := congrArg Replication.Authority.leader hauthority
    rw [halive'] at halive
    split at halive
    · cases halive
    · rename_i hother
      rw [hgeneration]
      refine (congrArg Option.isSome (if_neg hother)).trans ?_
      exact h.alive key' r hr (hrole ▸ hleader) halive
  · obtain ⟨r, hr, hleader, hauthority, -⟩ := hold key' r' hr'
    have hgeneration : r'.st.fetcherGeneration = r.st.fetcherGeneration :=
      congrArg Replication.Authority.generation hauthority
    have hrole : r'.st.isLeader = r.st.isLeader := congrArg Replication.Authority.leader hauthority
    obtain ⟨⟨hfollows, hled⟩, hgone⟩ := hwaits
    rw [hrole] at hfollows
    rw [hleader] at hled
    refine h.due key' r hr ⟨⟨hfollows, hled⟩, fun f' hf' => ?_⟩
    by_cases heq : key' = key ∧ r.st.fetcherGeneration = generation
    · rw [heq.1, heq.2, hf] at hf'
      cases hf'
      exact hexiting
    · refine hgone f' ?_
      rw [hgeneration]
      exact (if_neg heq).trans hf'

theorem Inv.replica (h : b.Inv config) {key : Key} {r : Replica}
    (hr : b.replicas.lookup key = some r) {st : ReplState}
    (hauthority : st.authority = r.st.authority) (halive : st.fetcherAlive = r.st.fetcherAlive) :
    { b with replicas := b.replicas.insert key { r with st } : Broker }.Inv config := by
  have hgeneration : st.fetcherGeneration = r.st.fetcherGeneration :=
    congrArg Replication.Authority.generation hauthority
  have hrole : st.isLeader = r.st.isLeader := congrArg Replication.Authority.leader hauthority
  refine ⟨h.registered, h.addressed, fun key' r' hr' hleader hlive => ?_,
    fun key' r' hr' hwaits => ?_⟩
  · dsimp only at hr' ⊢
    by_cases heq : key' = key
    · rw [heq, AList.lookup_insert, Option.some.injEq] at hr'
      subst hr'
      dsimp only at hleader hlive ⊢
      rw [hgeneration, heq]
      exact h.alive key r hr (hrole ▸ hleader) (halive ▸ hlive)
    · rw [AList.lookup_insert_ne heq] at hr'
      exact h.alive key' r' hr' hleader hlive
  · dsimp only at hr'
    by_cases heq : key' = key
    · rw [heq, AList.lookup_insert, Option.some.injEq] at hr'
      subst hr'
      obtain ⟨⟨hfollows, hled⟩, hgone⟩ := hwaits
      dsimp only at hfollows hgone
      rw [hgeneration, heq] at hgone
      rw [heq]
      exact h.due key r hr ⟨⟨hrole ▸ hfollows, hled⟩, hgone⟩
    · rw [AList.lookup_insert_ne heq] at hr'
      exact h.due key' r' hr' hwaits

theorem Inv.step (h : b.Inv config) {a : Action} (hcareful : b.Careful config a)
    (hstep : b.step config a = some b') : b'.Inv config := by
  have habandons := hcareful.abandons
  cases a with
  | tick =>
    rw [Broker.step] at hstep
    split at hstep
    · rename_i hround
      cases hstep
      exact h.tick hround
    · cases hstep
  | refresh =>
    rw [Broker.step] at hstep
    split at hstep
    · split at hstep
      · cases hstep
      · cases hstep
        exact h.refresh
    · cases hstep
  | connected =>
    rw [Broker.step] at hstep
    split at hstep
    · rename_i forced hround
      cases hstep
      refine h.of_round rfl (by rw [hround]; rfl) rfl trivial fun _ hforced => .inl ?_
      rwa [hround] at hforced
    · cases hstep
  | connectFailed =>
    rw [Broker.step] at hstep
    split at hstep
    · rename_i forced hround
      cases hstep
      refine h.abandoned ?_ (by rw [hround]; rfl) habandons b.controllerConn b.registered
      simp only [Abandons, hround]
    · cases hstep
  | served now persisted =>
    rw [Broker.step] at hstep
    split at hstep
    · rename_i forced c hround
      cases hstep
      have hreturns := hcareful.returns
      simp only [controllerAfter, hround] at hreturns
      refine h.of_controller rfl ?_ ?_ ?_ ?_ hreturns
      · exact h.registered.act (.request (c.request config) now persisted)
      · exact addressed_answered h.registered.mem config _ forced c now persisted
      · rw [hround]
        rfl
      · rw [hround]
        rfl
    · cases hstep
  | received =>
    rw [Broker.step] at hstep
    split at hstep
    · rename_i forced c resp hround
      cases hstep
      exact h.received hround habandons
    · cases hstep
  | callFailed =>
    rw [Broker.step] at hstep
    split at hstep
    · rename_i forced c hround
      cases hstep
      refine h.abandoned ?_ (by rw [hround]; rfl) habandons false b.registered
      simp only [Abandons, hround]
    · rename_i forced c resp hround
      cases hstep
      refine h.abandoned ?_ (by rw [hround]; rfl) habandons false b.registered
      simp only [Abandons, hround]
    · cases hstep
  | apply now opened =>
    rw [Broker.step] at hstep
    split at hstep
    · rename_i forced cluster key p todo hround
      cases hstep
      exact h.apply hround now opened hcareful.overlooks
    · rename_i forced cluster hround
      cases hstep
      exact h.applied hround
    · cases hstep
  | maintained =>
    rw [Broker.step] at hstep
    split at hstep
    · rename_i hround
      cases hstep
      refine h.of_round rfl (by rw [hround]; rfl) rfl trivial
        fun _ hforced => ?_
      rw [hround] at hforced
      cases hforced
    · cases hstep
  | controller a =>
    cases hstep
    exact h.of_controller rfl (h.registered.act a) h.addressed rfl rfl hcareful.returns
  | pingRefresh =>
    cases hstep
    exact h.of_same rfl rfl h.registered h.addressed fun _ _ _ => .inl (Nat.succ_pos _)
  | replica key st =>
    rw [Broker.step] at hstep
    split at hstep
    · rename_i r hr
      split at hstep
      · rename_i hsame
        cases hstep
        exact h.replica hr hsame.1 hsame.2
      · cases hstep
    · cases hstep
  | fetcher key generation o =>
    rw [Broker.step] at hstep
    split at hstep
    · rename_i f hf
      obtain ⟨⟨phase, ping⟩, hnext, rfl⟩ := Option.map_eq_some_iff.mp hstep
      exact h.fetcher hf hnext hcareful.deserts
    · cases hstep
  | exit key generation =>
    rw [Broker.step] at hstep
    split at hstep
    · rename_i f hf
      split at hstep
      · rename_i hexiting
        cases hstep
        exact h.exit hf hexiting
      · cases hstep
    · cases hstep

/-- In every run in which nobody does away with what a replica waits for, a follower without a
fetcher has a round to come. -/
theorem refreshing_of_reach {controller : Controller.ControllerConfig}
    (h : Reach (step config) (Careful config) (init controller) b) : b.Refreshing := by
  have hinv : b.Inv config :=
    h.invariant (inv_init config controller) fun _ _ _ hb hcareful hstep => hb.step hcareful hstep
  exact hinv.refreshing

/-- Broker 2 registers, follows broker 1 and has its fetcher at the call of its leader. -/
def following : List Action :=
  [.controller (.request (.registerBroker 1 "a" "a") 0 true), .tick, .connected, .served 0 true,
    .received, .served 0 true, .received, .served 0 true, .received, .apply 0 true, .maintained,
    .controller (.request (.createTopic "t" 1 2) 0 true), .tick, .served 0 true, .received,
    .served 0 true, .received, .apply 0 true, .apply 0 true, .maintained,
    .fetcher ("t", 0) 1 .ok, .fetcher ("t", 0) 1 .ok]

/-- The leader's connection closes, and the fetcher goes with a ping. -/
theorem refreshing_closed : ∃ b, Reach (step ⟨2, "b", "b"⟩) (Careful ⟨2, "b", "b"⟩)
    (init ⟨10⟩) b ∧ b.Waiting ∧ b.Refreshing := by
  obtain ⟨b, hreach, hwaiting⟩ := Reach.exists_of_runSteps (step ⟨2, "b", "b"⟩)
    (Careful ⟨2, "b", "b"⟩) (init ⟨10⟩)
    (following ++ [.fetcher ("t", 0) 1 .ok, .fetcher ("t", 0) 1 .closed, .exit ("t", 0) 1])
    Waiting (by decide)
  exact ⟨b, hreach, hwaiting, refreshing_of_reach hreach⟩

def Free (_ : Broker) (_ : Action) : Prop := True

instance (b : Broker) (a : Action) : Decidable (Free b a) := inferInstanceAs (Decidable True)

instance (b : Broker) : Decidable b.Pending := by
  unfold Pending
  infer_instance

/-- The partition's thread does not answer, and the fetcher is gone for good. -/
theorem not_refreshing_status : ∃ b, Reach (step ⟨2, "b", "b"⟩) Free (init ⟨10⟩) b ∧
    ¬ b.Refreshing := by
  obtain ⟨b, hreach, hgone, hpending⟩ := Reach.exists_of_runSteps (step ⟨2, "b", "b"⟩) Free
    (init ⟨10⟩) (following ++ [.fetcher ("t", 0) 1 .failed, .exit ("t", 0) 1])
    (fun b => ((b.replicas.lookup ("t", 0)).any fun r =>
      Follows r ∧ (b.fetchers ("t", 0) r.st.fetcherGeneration).isNone = true) = true ∧ ¬ b.Pending)
    (by decide)
  obtain ⟨r, hr, hgone⟩ := Option.any_eq_true _ _ |>.mp hgone
  obtain ⟨hfollows, hnone⟩ := of_decide_eq_true hgone
  exact ⟨b, hreach, fun h =>
    hpending (h ("t", 0) r hr hfollows (Option.isNone_iff_eq_none.mp hnone))⟩

end Broker
end Replog.Runtime
