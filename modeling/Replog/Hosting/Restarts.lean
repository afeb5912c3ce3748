import Mathlib.Logic.Function.Basic
import Replog.Hosting.BrokerStart
import Replog.Hosting.Placement

/-!
# Brokers that come and go with their data directories

The controller answers with its metadata, brokers open what an answer gives them to host, and
every broker can stop at any time and start again on the directory it has.
-/

namespace Replog.Hosting
open Replog.Library
open Replog.Controller
open Replog.Storage (LogConfig Clock)

/-- The partitions of an answer that a broker opens, in this order. -/
def hosted (b : UInt32) (cluster : ClusterMeta) : List (String × ℕ) :=
  cluster.topics.flatMap fun t =>
    (t.2.filter fun p => b ∈ p.replicas).map fun p => (t.1, p.partition)

/-! ## What an answer gives a broker to host -/

theorem mem_partitionMetas {parts : List PartitionState} {m : PartitionMeta} :
    m ∈ partitionMetas parts ↔ ∃ p, parts[m.partition]? = some p ∧
      m = { partition := m.partition, leader := p.leader, leaderEpoch := p.leaderEpoch,
            replicas := p.replicas, isr := p.isr } := by
  rw [partitionMetas, List.mem_mapIdx]
  constructor
  · rintro ⟨i, hi, rfl⟩
    exact ⟨parts[i], List.getElem?_eq_getElem hi, rfl⟩
  · rintro ⟨p, hp, heq⟩
    obtain ⟨hlt, rfl⟩ := List.getElem?_eq_some_iff.mp hp
    exact ⟨m.partition, hlt, heq.symm⟩

theorem mem_hosted {b : UInt32} {s : State} {topic : String} {k : ℕ} :
    (topic, k) ∈ hosted b s.clusterMeta ↔
      ∃ replicas, s.replicasAt topic k = some replicas ∧ b ∈ replicas := by
  have hmem : (topic, k) ∈ hosted b s.clusterMeta ↔
      ∃ parts, s.topics.lookup topic = some parts ∧ ∃ p, parts[k]? = some p ∧ b ∈ p.replicas := by
    simp only [hosted, State.clusterMeta, List.mem_flatMap, List.mem_map, List.mem_filter,
      decide_eq_true_eq]
    constructor
    · rintro ⟨_, ⟨⟨topic', parts⟩, hsorted, rfl⟩, m, ⟨hm, hb⟩, heq⟩
      obtain ⟨p, hp, hm⟩ := mem_partitionMetas.mp hm
      obtain ⟨rfl, rfl⟩ := Prod.mk.inj heq
      rw [hm] at hb
      exact ⟨parts, Assoc.mem_sorted.mp hsorted, p, hp, hb⟩
    · rintro ⟨parts, hparts, p, hp, hb⟩
      exact ⟨_, ⟨(topic, parts), Assoc.mem_sorted.mpr hparts, rfl⟩,
        ⟨k, p.leader, p.leaderEpoch, p.replicas, p.isr⟩,
        ⟨mem_partitionMetas.mpr ⟨p, hp, rfl⟩, hb⟩, rfl⟩
  rw [hmem, State.replicasAt, State.partition]
  cases s.topics.lookup topic <;> simp

private theorem pairwise_hosted (b : UInt32) (s : State) :
    (hosted b s.clusterMeta).Pairwise fun key key' => key.1 = key'.1 → key.2 < key'.2 := by
  rw [hosted, List.pairwise_flatMap]
  constructor
  · intro t ht
    obtain ⟨⟨topic, parts⟩, -, rfl⟩ := List.mem_map.mp ht
    have hascending : (partitionMetas parts).Pairwise fun p p' => p.partition < p'.partition := by
      rw [partitionMetas, List.pairwise_iff_getElem]
      intro i j hi hj hlt
      simpa using hlt
    rw [List.pairwise_map]
    refine (hascending.filter _).imp ?_
    intro p p' hlt _
    exact hlt
  · have hkeys : (s.clusterMeta.topics.map Prod.fst).Nodup := by
      rw [State.clusterMeta, List.map_map]
      exact s.topics.nodup_sorted
    rw [List.nodup_iff_pairwise_ne, List.pairwise_map] at hkeys
    refine hkeys.imp ?_
    intro t t' hne key hkey key' hkey' heq
    obtain ⟨p, hp, rfl⟩ := List.mem_map.mp hkey
    obtain ⟨p', hp', rfl⟩ := List.mem_map.mp hkey'
    exact absurd heq hne

private theorem mem_take_hosted {b : UInt32} {s : State} (h : Dense s.replicasAt) {n : ℕ} {topic : String}
    (hvisible : ¬ Hidden topic) {p : ℕ} (hp : (topic, p) ∈ (hosted b s.clusterMeta).take n)
    {k : ℕ} (hk : k < p) : (topic, k) ∈ (hosted b s.clusterMeta).take n := by
  obtain ⟨d, rfl⟩ : ∃ d, p = k + 1 + d := ⟨p - (k + 1), by omega⟩
  clear hk
  have hbelow : ∀ k, (topic, k + 1) ∈ (hosted b s.clusterMeta).take n →
      (topic, k) ∈ (hosted b s.clusterMeta).take n := by
    intro k hk
    obtain ⟨replicas, hreplicas, hb⟩ := mem_hosted.mp (List.mem_of_mem_take hk)
    have hlower := h.closed topic k replicas hreplicas b hb hvisible
    have hall : (topic, k) ∈ hosted b s.clusterMeta := mem_hosted.mpr hlower
    rw [← List.take_append_drop n (hosted b s.clusterMeta), List.mem_append] at hall
    refine hall.resolve_right fun hlate => ?_
    have hpairwise := pairwise_hosted b s
    rw [← List.take_append_drop n (hosted b s.clusterMeta), List.pairwise_append] at hpairwise
    have := hpairwise.2.2 _ hk _ hlate rfl
    omega
  induction d with
  | zero => exact hbelow k hp
  | succ d ih => exact ih (hbelow (k + 1 + d) hp)

/-! ## Runs -/

structure Cluster where
  controller : Controller.Run
  dirs : UInt32 → List DirEntry
  up : UInt32 → Bool

inductive Action where
  | controller (a : Controller.Action)
  /-- The broker gets past the scan and opens the first `opens` partitions; then it runs, if none
  is left and the replay of the offsets succeeds. -/
  | start (b : UInt32) (opens : ℕ) (replays : Bool)
  | stop (b : UInt32)
  /-- The broker opens the first `opened` partitions it hosts by some answer. -/
  | applyMetadata (b : UInt32) (answer opened : ℕ)

namespace Cluster

def init (config : ControllerConfig) : Cluster where
  controller := .init config
  dirs := fun _ => []
  up := fun _ => false

/-- A start that the scan refuses changes nothing. -/
def step (c : Cluster) : Action → Option Cluster
  | .controller a => (c.controller.step a).map fun controller => { c with controller }
  | .start b opens replays =>
    match openings true (c.dirs b) with
    | .ok keys =>
      some { c with
        dirs := Function.update c.dirs b ((keys.take opens).foldl openPartition (c.dirs b))
        up := Function.update c.up b (decide (keys.length ≤ opens) && replays) }
    | .error _ => some c
  | .stop b => some { c with up := Function.update c.up b false }
  | .applyMetadata b answer opened =>
    if c.up b then
      c.controller.answers[answer]?.map fun cluster =>
        let dir := ((hosted b cluster).take opened).foldl openPartition (c.dirs b)
        { c with dirs := Function.update c.dirs b dir }
    else none

/-- Every topic that is created leaves no broker a gap. -/
def NoGaps (c : Cluster) : Action → Prop
  | .controller (.request (.createTopic topic partitions replicationFactor) _ _) =>
    Gapless topic partitions replicationFactor c.controller.mem
  | _ => True

instance : ∀ c, DecidablePred (NoGaps c)
  | c, .controller (.request (.createTopic topic partitions replicationFactor) _ _) =>
    inferInstanceAs (Decidable (Gapless topic partitions replicationFactor c.controller.mem))
  | _, .controller (.request (.registerBroker ..) _ _) => inferInstanceAs (Decidable True)
  | _, .controller (.request (.brokerHeartbeat _) _ _) => inferInstanceAs (Decidable True)
  | _, .controller (.request .controllerMetadata _ _) => inferInstanceAs (Decidable True)
  | _, .controller (.request (.alterIsr ..) _ _) => inferInstanceAs (Decidable True)
  | _, .controller (.request .other _ _) => inferInstanceAs (Decidable True)
  | _, .controller (.sweepLiveness ..) => inferInstanceAs (Decidable True)
  | _, .controller (.restart _) => inferInstanceAs (Decidable True)
  | _, .start .. => inferInstanceAs (Decidable True)
  | _, .stop _ => inferInstanceAs (Decidable True)
  | _, .applyMetadata .. => inferInstanceAs (Decidable True)

/-- The directory of a broker can be explained, and its offsets log is the one partition of the
offsets topic in it. -/
def Sound (c : Cluster) (b : UInt32) : Prop :=
  ∃ placed, c.dirs b = placed.map partitionEntry ∧ Explained placed ∧
    ∀ k, (offsetsTopic, k) ∈ placed → k = 0

structure Inv (c : Cluster) : Prop where
  controller : c.controller.shared.Dense
  answers : ∀ cluster ∈ c.controller.answers, ∃ s : State, Dense s.replicasAt ∧
    cluster = s.clusterMeta
  dirs : ∀ b, c.Sound b

theorem dense_empty : Dense State.empty.replicasAt := ⟨nofun, nofun, fun _ => rfl⟩

theorem inv_init (config : ControllerConfig) : (init config).Inv where
  controller := ⟨dense_empty, fun _ => dense_empty⟩
  answers := nofun
  dirs _ := ⟨[], rfl, ⟨List.nodup_nil, nofun, nofun⟩, nofun⟩

variable {c c' : Cluster}

private theorem inv_controller (h : c.Inv) {a : Controller.Action} (hguard : c.NoGaps (.controller a))
    {controller : Controller.Run} (hstep : c.controller.step a = some controller) :
    { c with controller }.Inv := by
  have hplaces : c.controller.Places Dense :=
    ⟨Shared.dense_iff_placed.mp h.controller, h.answers⟩
  have hnext : controller.Places Dense := by
    refine hplaces.step dense_empty ?_ hstep
    rintro topic partitions replicationFactor now persisted rfl
    exact State.dense_createTopic hplaces.shared.mem hguard
  exact ⟨Shared.dense_iff_placed.mpr hnext.shared, hnext.answers, h.dirs⟩

/-- The directory of one broker changes to one that can be explained. -/
theorem Inv.update (h : c.Inv) {b : UInt32} {placed : List (String × ℕ)} {up : UInt32 → Bool}
    (hplaced : Explained placed) (honly : ∀ k, (offsetsTopic, k) ∈ placed → k = 0) :
    Inv { c with dirs := Function.update c.dirs b (placed.map partitionEntry), up } := by
  refine ⟨h.controller, h.answers, fun b' => ?_⟩
  by_cases hb : b' = b
  · subst hb
    exact ⟨placed, Function.update_self .., hplaced, honly⟩
  · obtain ⟨placed', hdir, hplaced', honly'⟩ := h.dirs b'
    exact ⟨placed', (Function.update_of_ne hb ..).trans hdir, hplaced', honly'⟩

theorem inv_of_step (h : c.Inv) {a : Action} (hguard : c.NoGaps a)
    (hstep : c.step a = some c') : c'.Inv := by
  cases a with
  | controller a =>
    obtain ⟨controller, hcontroller, rfl⟩ := Option.map_eq_some_iff.mp hstep
    exact inv_controller h hguard hcontroller
  | start b opens replays =>
    obtain ⟨placed, hdir, hplaced, honly⟩ := h.dirs b
    rw [step, hdir, openings_of_explained hplaced honly (.refl _)] at hstep
    simp only [foldl_openPartition] at hstep
    cases hstep
    have honlyOne : ∀ key ∈ [(offsetsTopic, 0)].take opens, key = (offsetsTopic, 0) :=
      fun key hkey => List.mem_singleton.mp (List.mem_of_mem_take hkey)
    refine h.update (hplaced.place ?_ ?_) ?_
    · intro key hkey
      rw [honlyOne key hkey]
      decide
    · intro key hkey hvisible k hk
      rw [honlyOne key hkey] at hk
      exact absurd hk (Nat.not_lt_zero k)
    · intro k hk
      rcases mem_place.mp hk with hk | hk
      · exact honly k hk
      · exact congrArg Prod.snd (honlyOne _ hk)
  | stop b =>
    cases hstep
    exact ⟨h.controller, h.answers, h.dirs⟩
  | applyMetadata b answer opened =>
    rw [step] at hstep
    split at hstep
    · obtain ⟨cluster, hcluster, rfl⟩ := Option.map_eq_some_iff.mp hstep
      obtain ⟨s, hs, rfl⟩ := h.answers cluster (List.mem_of_getElem? hcluster)
      obtain ⟨placed, hdir, hplaced, honly⟩ := h.dirs b
      simp only [hdir, foldl_openPartition]
      refine h.update (hplaced.place ?_ ?_) ?_
      · intro key hkey
        obtain ⟨replicas, hreplicas, -⟩ := mem_hosted.mp (List.mem_of_mem_take hkey)
        exact lt_trans (hs.bounded key.1 key.2 replicas hreplicas) (by decide)
      · intro key hkey hvisible k hk
        exact .inr (mem_take_hosted hs hvisible hkey hk)
      · intro k hk
        rcases mem_place.mp hk with hk | hk
        · exact honly k hk
        · obtain ⟨replicas, hreplicas, -⟩ := mem_hosted.mp (List.mem_of_mem_take hk)
          rw [hs.apart] at hreplicas
          cases hreplicas
    · cases hstep

theorem inv_of_reach {config : ControllerConfig} (h : Reach step NoGaps (init config) c) :
    c.Inv :=
  h.invariant (inv_init config) fun _ _ _ hs hguard hstep => inv_of_step hs hguard hstep

/-- The topic is created over brokers 1 and 2 with the given numbers of partitions and replicas,
and broker 2 takes it over and stops. -/
def hosting (partitions replicationFactor : ℕ) : List Action :=
  [.start 1 1 true, .start 2 1 true, .controller (.request (.registerBroker 1 "a" "a") 0 true),
    .controller (.request (.registerBroker 2 "b" "b") 0 true),
    .controller (.request (.createTopic "t" partitions replicationFactor) 0 true),
    .controller (.request .controllerMetadata 0 true), .applyMetadata 2 0 2, .stop 2]

end Cluster
end Replog.Hosting
