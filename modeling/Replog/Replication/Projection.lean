import Replog.Controller.Settling
import Replog.Controller.Timing
import Replog.Replication.Controller

/-!
# One partition of the controller

The controller keeps the tuples of all partitions under one lock and one version. Seen from one
partition, what it does is what the one-partition controller does, and what happens elsewhere is a
new version.
-/

namespace Replog.Controller
open Replog.Library

variable {p : PartitionState} {topic : String} {k : ℕ}

theorem Shared.version_mutate (c : Shared) (persisted : Bool) (m : Bool × State) :
    (c.mutate persisted m).mem.version =
      if m.1 then m.2.version + 1 else m.2.version := by
  rw [Shared.mutate]
  cases m.1 <;> rfl

namespace State

variable {s : State}

/-- A partition that needs an election is noticed. -/
theorem electWhereNeeded_fst (hp : s.partition topic k = some p)
    (h : (p.elect s.alive).1 = true) : (electWhereNeeded s).1 = true := by
  obtain ⟨parts, hparts, hk⟩ := Option.bind_eq_some_iff.mp hp
  exact List.any_eq_true.mpr ⟨⟨topic, parts⟩, AList.mem_lookup_iff.mp hparts,
    List.any_eq_true.mpr ⟨p, List.mem_of_getElem? hk, h⟩⟩

theorem alive_insert_alive (s : State) (id : UInt32) {b : BrokerState}
    (hb : b.alive = true) : State.alive { s with brokers := s.brokers.insert id b } =
      fun id' => decide (id' = id) || s.alive id' := by
  funext id'
  rw [Shared.alive_insert, hb]
  by_cases heq : id' = id
  · simp [heq]
  · simp [heq]

theorem mem_aliveIds {id : UInt32} : id ∈ s.aliveIds ↔ s.alive id = true := by
  refine ⟨Shared.alive_of_mem_aliveIds, fun halive => ?_⟩
  rw [State.alive] at halive
  cases hb : s.brokers.lookup id with
  | none =>
    rw [hb] at halive
    cases halive
  | some b =>
    rw [hb, Option.elim_some] at halive
    exact List.mem_map.mpr ⟨(id, b), List.mem_filter.mpr ⟨Assoc.mem_sorted.mpr hb, halive⟩, rfl⟩

end State

namespace Run

variable {r r' : Run} {a : Action}

theorem shared_step (h : r.step a = some r') : r'.shared = r.shared.act a := by
  cases a <;> cases h <;> rfl

theorem replicas_of_step (h : r.step a = some r') (ha : a.start = none) {p' : PartitionState}
    (hp : r.mem.partition topic k = some p) (hp' : r'.mem.partition topic k = some p') :
    p'.replicas = p.replicas := by
  cases steps_of_step h with
  | mutated m persisted hm hshared hpersisted hreported hanswers =>
    obtain ⟨q, hq, hev⟩ := hm.evolves.old topic k p hp
    rw [mem, hshared, Shared.partition_mutate, hq, Option.some.injEq] at hp'
    rw [← hp']
    exact hev.replicas_eq
  | described hshared hreported hanswers =>
    rw [mem, hshared] at hp'
    cases hp.symm.trans hp'
    rfl
  | misdirected now persisted hother hshared hreported hanswers =>
    rw [mem, hshared] at hp'
    cases hp.symm.trans hp'
    rfl
  | restarted now hrestart hshared hreported hanswers =>
    rw [hrestart] at ha
    cases ha

end Run
end Replog.Controller

namespace Replog.Replication
open Replog.Library
open Replog.Controller (ControllerConfig BrokerState PartitionState State Shared Run registerBroker
  brokerHeartbeat createTopic newPartition partitionMetas)

/-- The partition as the one-partition controller has it. Ids are those of `u32`. -/
def projected (version : ℕ) (alive : UInt32 → Bool) (p : PartitionState) : Controller where
  version
  alive := fun b => decide (b < 2 ^ 32) && alive (UInt32.ofNat b)
  leader := if p.leader = -1 then none else some p.leader.toUInt32.toNat
  leaderEpoch := p.leaderEpoch
  replicas := p.replicas.map UInt32.toNat
  isr := p.isr.map UInt32.toNat

theorem mem_map_toNat {ids : List UInt32} {b : BrokerId} :
    b ∈ ids.map UInt32.toNat ↔ b < 2 ^ 32 ∧ UInt32.ofNat b ∈ ids := by
  rw [List.mem_map]
  constructor
  · intro h
    obtain ⟨id, hid, rfl⟩ := h
    rw [UInt32.ofNat_toNat]
    exact ⟨id.toNat_lt, hid⟩
  · exact fun h => ⟨_, h.2, UInt32.toNat_ofNat_of_lt' h.1⟩

theorem toNat_mem_map {ids : List UInt32} {id : UInt32} :
    id.toNat ∈ ids.map UInt32.toNat ↔ id ∈ ids := by
  rw [mem_map_toNat, UInt32.ofNat_toNat]
  exact and_iff_right id.toNat_lt

/-- What happens to a partition at the controller, or to something else that it keeps. -/
inductive Mutation where
  | register (b : BrokerId) (addrChanged : Bool)
  | heartbeat (b : BrokerId)
  | sweepLiveness (expired : List BrokerId)
  | alterIsr (req : AlterIsrRequest)
  | elsewhere

def Controller.apply (c : Controller) : Mutation → Option Controller
  | .register b addrChanged => some (c.register b addrChanged)
  | .heartbeat b => some (c.heartbeat b)
  | .sweepLiveness expired => some (c.sweepLiveness expired)
  | .alterIsr req => some (c.alterIsr req).2
  | .elsewhere => some { c with version := c.version + 1 }

def AnyMutation (_ : Controller) (_ : Mutation) : Prop := True

/-- The ids of the replicas are not negative as an `i32`. -/
structure Small (p : PartitionState) : Prop extends p.WellFormed where
  small : ∀ id ∈ p.replicas, id < 2147483648

variable {version : ℕ} {alive : UInt32 → Bool} {p : PartitionState}

@[simp] theorem projected_alive (id : UInt32) :
    (projected version alive p).alive id.toNat = alive id := by
  simp [projected, id.toNat_lt]

theorem projected_setAlive (id : UInt32) :
    (projected version alive p).setAlive id.toNat true =
      projected version (fun id' => decide (id' = id) || alive id') p := by
  simp only [projected, Controller.setAlive, Controller.mk.injEq, true_and, and_true]
  funext b
  by_cases heq : b = id.toNat
  · simp [heq, id.toNat_lt]
  · rw [if_neg heq]
    by_cases hb : b < 2 ^ 32
    · have hne : UInt32.ofNat b ≠ id := by
        intro hid
        rw [← hid, UInt32.toNat_ofNat_of_lt' hb] at heq
        exact heq rfl
      rw [decide_eq_false hne, Bool.false_or]
    · rw [decide_eq_false hb, Bool.false_and, Bool.false_and]

theorem Small.leader (h : Small p) (hleader : p.leader ≠ -1) :
    p.leader.toUInt32 ∈ p.isr ∧ 0 ≤ p.leader := by
  have hmem := h.leader_mem.resolve_left hleader
  refine ⟨hmem, ?_⟩
  have hsmall := h.small _ (h.isr_subset hmem)
  rw [← Replog.Controller.nonneg_toInt32] at hsmall
  simpa using hsmall

theorem toInt32_ne {id : UInt32} (h : id < 2147483648) : id.toInt32 ≠ -1 := by
  intro heq
  rw [← Replog.Controller.nonneg_toInt32, heq] at h
  exact absurd h (by decide)

theorem electWhereNeeded_projected (h : Small p) :
    (projected version alive p).electWhereNeeded =
      ((p.elect alive).1, projected version alive (p.elect alive).2) := by
  have hfind : (projected version alive p).isr.find? (projected version alive p).alive =
      (p.isr.find? alive).map UInt32.toNat := by
    simp only [projected, List.find?_map]
    congr 2
    funext id
    simp [id.toNat_lt]
  have hfilter : (projected version alive p).isr.filter (projected version alive p).alive =
      (p.isr.filter alive).map UInt32.toNat := by
    simp only [projected, List.filter_map]
    congr 2
    funext id
    simp [id.toNat_lt]
  have halive : (projected version alive p).leaderAlive = true ↔
      0 ≤ p.leader ∧ alive p.leader.toUInt32 = true := by
    by_cases hleader : p.leader = -1
    · simp [Controller.leaderAlive, projected, hleader]
    · have hnonneg := (h.leader hleader).2
      rw [Controller.leaderAlive, show (projected version alive p).leader =
        some p.leader.toUInt32.toNat from if_neg hleader, Option.elim_some, projected_alive]
      simp [hnonneg]
  rw [Controller.electWhereNeeded, PartitionState.elect]
  by_cases hlead : 0 ≤ p.leader ∧ alive p.leader.toUInt32 = true
  · rw [if_pos (halive.mpr hlead), if_pos hlead]
  · rw [if_neg (mt halive.mp hlead), if_neg hlead, hfind, hfilter]
    cases hnew : p.isr.find? alive with
    | none =>
      by_cases hleader : p.leader = -1
      · simp [projected, hleader]
      · simp [projected, hleader]
    | some newLeader =>
      have hsmall := h.small _ (h.isr_subset (List.mem_of_find?_eq_some hnew))
      simp [projected, toInt32_ne hsmall]

/-! ## The mutations -/

/-- The runs of the one-partition controller. -/
abbrev Runs (c c' : Controller) : Prop := Reach Controller.apply AnyMutation c c'

theorem Runs.one {c c' : Controller} {m : Mutation} (h : c.apply m = some c') : Runs c c' :=
  .step .init trivial h

/-- A change of something else, if there was one. -/
theorem runs_elsewhere (changed : Bool) :
    Runs (projected version alive p)
      (projected (if changed then version + 1 else version) alive p) := by
  cases changed with
  | false => exact .init
  | true => exact .one (m := .elsewhere) rfl

private theorem runs_register (h : Small p) {id : UInt32} {changed : Bool}
    (hdead : alive id = false → changed = true)
    (helected : (p.elect fun id' => decide (id' = id) || alive id').1 = true → changed = true) :
    Runs (projected version alive p) (projected (if changed then version + 1 else version)
      (fun id' => decide (id' = id) || alive id')
      (p.elect fun id' => decide (id' = id) || alive id').2) := by
  have hregister : (projected version alive p).register id.toNat changed =
      Controller.mutate (changed, projected version (fun id' => decide (id' = id) || alive id')
        (p.elect fun id' => decide (id' = id) || alive id').2) := by
    rw [Controller.register, projected_setAlive, electWhereNeeded_projected h, projected_alive]
    dsimp only
    cases hchanged : changed with
    | true => rw [Bool.or_true, Bool.true_or]
    | false =>
      rw [hchanged] at hdead helected
      rw [Bool.eq_false_iff.mpr fun heq => absurd (helected heq) Bool.false_ne_true]
      cases halive : alive id with
      | true => rfl
      | false => exact absurd (hdead halive) Bool.false_ne_true
  refine .one (m := .register id.toNat changed) ?_
  rw [Controller.apply, hregister]
  cases changed <;> rfl

private theorem runs_heartbeat (h : Small p) {id : UInt32} {elected : Bool} (hdead : alive id = false)
    (helected : (p.elect fun id' => decide (id' = id) || alive id').1 = true → elected = true) :
    Runs (projected version alive p) (projected (if elected then version + 1 else version)
      (fun id' => decide (id' = id) || alive id')
      (p.elect fun id' => decide (id' = id) || alive id').2) := by
  have hheartbeat : (projected version alive p).heartbeat id.toNat =
      Controller.mutate ((p.elect fun id' => decide (id' = id) || alive id').1,
        projected version (fun id' => decide (id' = id) || alive id')
          (p.elect fun id' => decide (id' = id) || alive id').2) := by
    rw [Controller.heartbeat, projected_alive, hdead, projected_setAlive,
      electWhereNeeded_projected h]
    rfl
  have hstep := Runs.one (show (projected version alive p).apply (.heartbeat id.toNat) = _ from
    congrArg some hheartbeat)
  cases hhere : (p.elect fun id' => decide (id' = id) || alive id').1 with
  | true =>
    rw [hhere] at hstep
    rw [helected hhere]
    exact hstep
  | false =>
    rw [hhere] at hstep
    have hquiet : Runs (projected version alive p) (projected version
        (fun id' => decide (id' = id) || alive id')
        (p.elect fun id' => decide (id' = id) || alive id').2) := hstep
    exact hquiet.trans (runs_elsewhere elected)

private theorem runs_sweepLiveness (h : Small p) {expired : List UInt32}
    (hexpired : expired.any alive = true) :
    Runs (projected version alive p) (projected (version + 1)
      (fun id => alive id && decide (id ∉ expired))
      (p.elect fun id => alive id && decide (id ∉ expired)).2) := by
  have hdead : (fun b => (projected version alive p).alive b &&
      decide (b ∉ expired.map UInt32.toNat)) =
        (projected version (fun id => alive id && decide (id ∉ expired)) p).alive := by
    funext b
    simp only [projected, Bool.and_assoc]
    by_cases hb : b < 2 ^ 32
    · have hmem : b ∈ expired.map UInt32.toNat ↔ UInt32.ofNat b ∈ expired :=
        mem_map_toNat.trans (and_iff_right hb)
      rw [decide_eq_decide.mpr (not_congr hmem)]
    · rw [decide_eq_false hb, Bool.false_and, Bool.false_and]
  have hany : (expired.map UInt32.toNat).any (projected version alive p).alive = true := by
    rw [List.any_map]
    simpa [Function.comp_def] using hexpired
  have hsweep : (projected version alive p).sweepLiveness (expired.map UInt32.toNat) =
      projected (version + 1) (fun id => alive id && decide (id ∉ expired))
        (p.elect fun id => alive id && decide (id ∉ expired)).2 := by
    have helect : (projected version
        (fun id => alive id && decide (id ∉ expired)) p).electWhereNeeded =
        ((p.elect fun id => alive id && decide (id ∉ expired)).1,
          projected version (fun id => alive id && decide (id ∉ expired))
            (p.elect fun id => alive id && decide (id ∉ expired)).2) :=
      electWhereNeeded_projected h
    rw [Controller.sweepLiveness, if_pos hany, hdead]
    change Controller.mutate (true, (projected version
      (fun id => alive id && decide (id ∉ expired)) p).electWhereNeeded.2) = _
    rw [helect]
    rfl
  exact .one (m := .sweepLiveness (expired.map UInt32.toNat)) (congrArg some hsweep)

/-- The answer to an `AlterIsr`, with the version it carries. -/
def answered (error : Proto.ErrorCode) (version : ℕ) : Except ErrorCode ℕ :=
  match error with
  | .none => .ok version
  | .fencedEpoch => .error .fencedEpoch
  | _ => .error .malformed

/-- An `AlterIsr` of the partition is answered alike and does the same. -/
theorem alterIsr_projected (h : Small p) (call : ℕ) (proposer : BrokerId) (leaderEpoch : ℕ)
    (isr : List UInt32) :
    (projected version alive p).alterIsr ⟨call, proposer, leaderEpoch, isr.map UInt32.toNat⟩ =
      (answered (p.alterIsr leaderEpoch isr).1
        (if (p.alterIsr leaderEpoch isr).2.1 then version + 1 else version),
      projected (if (p.alterIsr leaderEpoch isr).2.1 then version + 1 else version) alive
        (p.alterIsr leaderEpoch isr).2.2) := by
  have hsub : isr.map UInt32.toNat ⊆ p.replicas.map UInt32.toNat ↔ isr ⊆ p.replicas := by
    constructor
    · exact fun hsub id hid => toNat_mem_map.mp (hsub (toNat_mem_map.mpr hid))
    · exact fun hsub => List.map_subset _ hsub
  have hsame : p.isr.map UInt32.toNat = isr.map UInt32.toNat ↔ p.isr = isr :=
    (List.map_injective_iff.mpr fun _ _ heq => UInt32.toNat_inj.mp heq).eq_iff
  -- without a leader nobody's ISR is valid
  have hleader : (∀ l ∈ (projected version alive p).leader, l ∉ isr.map UInt32.toNat) ∨
      ¬ isr ⊆ p.replicas ↔ p.leader.toUInt32 ∉ isr ∨ ¬ isr ⊆ p.replicas := by
    by_cases hnone : p.leader = -1
    · have hlarge : ¬ (4294967295 : UInt32) < 2147483648 := by decide
      have hout : p.leader.toUInt32 ∉ isr ∨ ¬ isr ⊆ p.replicas := by
        by_contra hin
        rw [not_or, not_not, not_not, hnone] at hin
        exact hlarge (h.small _ (hin.2 hin.1))
      refine iff_of_true (.inl fun l hl => ?_) hout
      simp [projected, hnone] at hl
    · rw [show (projected version alive p).leader = some p.leader.toUInt32.toNat from if_neg hnone]
      simp only [Option.mem_def, Option.some.injEq, forall_eq', toNat_mem_map]
  have hform : (isr.map UInt32.toNat = [] ∨
      (∀ l ∈ (projected version alive p).leader, l ∉ isr.map UInt32.toNat) ∨
        ¬ isr.map UInt32.toNat ⊆ (projected version alive p).replicas) ↔
      isr = [] ∨ p.leader.toUInt32 ∉ isr ∨ ¬ isr ⊆ p.replicas := by
    rw [List.map_eq_nil_iff, show (projected version alive p).replicas =
      p.replicas.map UInt32.toNat from rfl, hsub, hleader]
  rw [Controller.alterIsr, PartitionState.alterIsr]
  dsimp only
  by_cases hepoch : leaderEpoch = p.leaderEpoch
  · have hnow : leaderEpoch = (projected version alive p).leaderEpoch := hepoch
    rw [if_neg (not_not.mpr hepoch), if_neg (not_not.mpr hnow)]
    by_cases hvalid : isr = [] ∨ p.leader.toUInt32 ∉ isr ∨ ¬ isr ⊆ p.replicas
    · rw [if_pos hvalid, if_pos (hform.mpr hvalid)]
      rfl
    · rw [if_neg hvalid, if_neg (mt hform.mp hvalid)]
      by_cases heq : p.isr = isr
      · have hmapped : (projected version alive p).isr = isr.map UInt32.toNat := hsame.mpr heq
        rw [if_pos heq, if_pos hmapped]
        rfl
      · have hmapped : (projected version alive p).isr ≠ isr.map UInt32.toNat := mt hsame.mp heq
        rw [if_neg heq, if_neg hmapped]
        rfl
  · have hnow : leaderEpoch ≠ (projected version alive p).leaderEpoch := hepoch
    rw [if_pos hepoch, if_pos hnow]
    rfl

/-! ## What a step does to the partition -/

variable {c : Shared} {topic : String} {k : ℕ}

/-- The partition is still there, and its controller has run from where it was. -/
def Projects (c c' : Shared) (topic : String) (k : ℕ) (p : PartitionState) : Prop :=
  ∃ p', c'.mem.partition topic k = some p' ∧
    Runs (projected c.mem.version c.mem.alive p) (projected c'.mem.version c'.mem.alive p')

theorem projects_mutate {m : Bool × State} (hm : c.mem.Mutates m)
    (hp : c.mem.partition topic k = some p)
    (hruns : ∀ p', m.2.partition topic k = some p' →
      Runs (projected c.mem.version c.mem.alive p)
        (projected (if m.1 then c.mem.version + 1 else c.mem.version) m.2.alive p'))
    (persisted : Bool) : Projects c (c.mutate persisted m) topic k p := by
  obtain ⟨p', hp', -⟩ := hm.evolves.old topic k p hp
  refine ⟨p', ?_, ?_⟩
  · rw [Shared.partition_mutate, hp']
  · rw [Shared.version_mutate, Shared.alive_mutate, hm.version]
    exact hruns p' hp'

private theorem projects_registerBroker (h : Small p) (hp : c.mem.partition topic k = some p)
    (id : UInt32) (addr peerAddr : String) (now : ℕ) (persisted : Bool) :
    Projects c (c.mutate persisted
      (registerBroker id addr peerAddr now c.mem)) topic k p := by
  refine projects_mutate (State.mutates_registerBroker id addr peerAddr now _) hp
    (fun p' hp' => ?_) persisted
  let s : State := { c.mem with
    brokers := c.mem.brokers.insert id { addr, peerAddr, alive := true, lastHeartbeat := now } }
  have halive : s.alive = fun id' => decide (id' = id) || c.mem.alive id' :=
    State.alive_insert_alive c.mem id rfl
  have hpart : s.partition topic k = some p := hp
  have hstate : (registerBroker id addr peerAddr now c.mem).2 =
      (Replog.Controller.electWhereNeeded s).2 := rfl
  have hafter : (Replog.Controller.electWhereNeeded s).2.alive = s.alive := rfl
  rw [hstate, State.partition_electWhereNeeded, hpart, Option.map_some, Option.some.injEq] at hp'
  rw [hstate, hafter, ← hp', halive]
  refine runs_register h (fun hdead => ?_) fun helected => ?_
  · rw [State.alive] at hdead
    rw [registerBroker]
    cases hb : c.mem.brokers.lookup id with
    | none => simp
    | some b =>
      rw [hb, Option.elim_some] at hdead
      simp [hdead]
  · have hnoticed := State.electWhereNeeded_fst hpart (halive ▸ helected)
    rw [registerBroker]
    exact Bool.or_eq_true_iff.mpr (.inr hnoticed)

private theorem projects_brokerHeartbeat (h : Small p) (hp : c.mem.partition topic k = some p)
    (id : UInt32) (now : ℕ) (persisted : Bool) :
    Projects c (c.mutate persisted (brokerHeartbeat id now c.mem).2)
      topic k p := by
  refine projects_mutate (State.mutates_brokerHeartbeat id now _) hp (fun p' hp' => ?_) persisted
  cases hb : c.mem.brokers.lookup id with
  | none =>
    simp only [brokerHeartbeat, hb, hp, Option.some.injEq] at hp' ⊢
    rw [← hp']
    exact .init
  | some b =>
    let s : State := { c.mem with
      brokers := c.mem.brokers.insert id { b with alive := true, lastHeartbeat := now } }
    have halive : s.alive = fun id' => decide (id' = id) || c.mem.alive id' :=
      State.alive_insert_alive c.mem id rfl
    have hpart : s.partition topic k = some p := hp
    have hold : c.mem.alive id = b.alive := by
      rw [State.alive, hb, Option.elim_some]
    cases hdead : b.alive with
    | false =>
      have hstate : (brokerHeartbeat id now c.mem).2 =
          Replog.Controller.electWhereNeeded s := by
        simp only [brokerHeartbeat, hb, hdead, Bool.not_false, if_true]
        rfl
      have hafter : (Replog.Controller.electWhereNeeded s).2.alive = s.alive := rfl
      rw [hstate, State.partition_electWhereNeeded, hpart, Option.map_some,
        Option.some.injEq] at hp'
      rw [hstate, hafter, ← hp', halive]
      refine runs_heartbeat h (hold.trans hdead) fun helected => ?_
      exact State.electWhereNeeded_fst hpart (halive ▸ helected)
    | true =>
      have hstate : (brokerHeartbeat id now c.mem).2 = (false, s) := by
        simp only [brokerHeartbeat, hb, hdead, Bool.not_true,
          Bool.false_eq_true, if_false]
        rfl
      have hsame : s.alive = c.mem.alive := by
        rw [halive]
        funext id'
        by_cases heq : id' = id
        · rw [heq, hold, hdead, Bool.or_true]
        · rw [decide_eq_false heq, Bool.false_or]
      rw [hstate] at hp' ⊢
      cases hpart.symm.trans hp'
      rw [hsame]
      exact .init

private theorem projects_createTopic (hp : c.mem.partition topic k = some p)
    (topic' : String) (partitions replicationFactor : ℕ) (persisted : Bool) :
    Projects c (c.mutate persisted
      (createTopic topic' partitions replicationFactor c.mem).2) topic k p := by
  refine projects_mutate (State.mutates_createTopic topic' partitions replicationFactor _) hp
    (fun p' hp' => ?_) persisted
  rw [createTopic] at hp' ⊢
  split
  · rename_i hexists
    rw [if_pos hexists] at hp'
    cases hp.symm.trans hp'
    exact .init
  · rename_i hnew
    rw [if_neg hnew] at hp'
    split
    · rename_i hinvalid
      rw [if_pos hinvalid] at hp'
      cases hp.symm.trans hp'
      exact .init
    · rename_i hvalid
      rw [if_neg hvalid] at hp'
      dsimp only at hp'
      have hne : topic ≠ topic' := by
        intro heq
        rw [State.partition, heq, AList.lookup_eq_none.mpr hnew] at hp
        cases hp
      rw [State.partition_insert, if_neg hne] at hp'
      cases hp.symm.trans hp'
      exact runs_elsewhere true

private theorem projects_alterIsr (h : Small p) (hp : c.mem.partition topic k = some p)
    (topic' : String) (k' leaderEpoch : ℕ) (isr : List UInt32) (persisted : Bool) :
    Projects c (c.mutate persisted
      (Replog.Controller.alterIsr topic' k' leaderEpoch isr c.mem).2) topic k p := by
  refine projects_mutate (State.mutates_alterIsr topic' k' leaderEpoch isr _) hp
    (fun p' hp' => ?_) persisted
  obtain ⟨parts, hparts, hk⟩ := Option.bind_eq_some_iff.mp hp
  rw [Replog.Controller.alterIsr] at hp' ⊢
  cases hparts' : c.mem.topics.lookup topic' with
  | none =>
    simp only [hparts', hp, Option.some.injEq] at hp' ⊢
    rw [← hp']
    exact .init
  | some parts' =>
    cases hq : parts'[k']? with
    | none =>
      simp only [hparts', hq, hp, Option.some.injEq] at hp' ⊢
      rw [← hp']
      exact .init
    | some q =>
      simp only [hparts', hq, State.partition_insert] at hp' ⊢
      have hafter : State.alive { c.mem with
          topics := c.mem.topics.insert topic' (parts'.set k' (q.alterIsr leaderEpoch isr).2.2) } =
        c.mem.alive := rfl
      rw [hafter]
      by_cases htopic : topic = topic'
      · subst htopic
        cases hparts.symm.trans hparts'
        rw [if_pos rfl] at hp'
        by_cases hsame : k' = k
        · subst hsame
          cases hk.symm.trans hq
          rw [List.getElem?_set_self (List.getElem?_eq_some_iff.mp hk).1,
            Option.some.injEq] at hp'
          subst hp'
          refine .one (m := .alterIsr ⟨0, 0, leaderEpoch, isr.map UInt32.toNat⟩) ?_
          rw [Controller.apply, alterIsr_projected h]
        · rw [List.getElem?_set_ne hsame, hk, Option.some.injEq] at hp'
          rw [← hp']
          exact runs_elsewhere _
      · rw [if_neg htopic, hp, Option.some.injEq] at hp'
        rw [← hp']
        exact runs_elsewhere _

private theorem projects_sweepLiveness (h : Small p) (hp : c.mem.partition topic k = some p) (now : ℕ)
    (persisted : Bool) :
    Projects c (c.mutate persisted (Replog.Controller.sweepLiveness c.config now c.mem))
      topic k p := by
  refine projects_mutate (State.mutates_sweepLiveness c.config now _) hp (fun p' hp' => ?_)
    persisted
  let expired := (c.mem.brokers.entries.filter fun b => c.expired now b.2).map Sigma.fst
  let s : State := { c.mem with
    brokers := c.mem.brokers.mapVal fun _ b =>
      if c.expired now b then { b with alive := false } else b }
  have hmem {id : UInt32} {b : BrokerState}
      (hb : c.mem.brokers.lookup id = some b) : id ∈ expired ↔ c.expired now b = true := by
    constructor
    · intro hid
      obtain ⟨b', hb', heq⟩ := List.mem_map.mp hid
      obtain ⟨hb', hlate⟩ := List.mem_filter.mp hb'
      have hlookup : c.mem.brokers.lookup b'.1 = some b'.2 := AList.mem_lookup_iff.mpr hb'
      rw [heq] at hlookup
      cases hb.symm.trans hlookup
      exact hlate
    · intro hlate
      exact List.mem_map.mpr ⟨⟨id, b⟩, List.mem_filter.mpr ⟨AList.mem_lookup_iff.mp hb, hlate⟩, rfl⟩
  have halive : s.alive = fun id => c.mem.alive id && decide (id ∉ expired) := by
    funext id
    rw [State.alive, State.alive, Assoc.lookup_mapVal]
    cases hb : c.mem.brokers.lookup id with
    | none => rfl
    | some b =>
      rw [Option.map_some, Option.elim_some, Option.elim_some]
      cases hlate : c.expired now b with
      | true => simp [(hmem hb).mpr hlate]
      | false => simp [mt (hmem hb).mp (by simp [hlate])]
  have hstate : Replog.Controller.sweepLiveness c.config now c.mem =
      if c.mem.brokers.entries.any fun b => c.expired now b.2 then
        (true, (Replog.Controller.electWhereNeeded s).2)
      else (false, s) := rfl
  have hpart : s.partition topic k = some p := hp
  by_cases hany : c.mem.brokers.entries.any fun b => c.expired now b.2
  · rw [if_pos hany] at hstate
    have hafter : (Replog.Controller.electWhereNeeded s).2.alive = s.alive := rfl
    rw [hstate, State.partition_electWhereNeeded, hpart, Option.map_some, Option.some.injEq] at hp'
    rw [hstate, hafter, ← hp', halive]
    refine runs_sweepLiveness h ?_
    obtain ⟨b, hb, hlate⟩ := List.any_eq_true.mp hany
    have hlookup : c.mem.brokers.lookup b.1 = some b.2 := AList.mem_lookup_iff.mpr hb
    refine List.any_eq_true.mpr ⟨b.1, (hmem hlookup).mpr hlate, ?_⟩
    rw [State.alive, hlookup, Option.elim_some]
    exact (Bool.and_eq_true_iff.mp hlate).1
  · rw [if_neg hany] at hstate
    have hsame : s.alive = c.mem.alive := by
      rw [halive]
      funext id
      cases hb : c.mem.brokers.lookup id with
      | none => simp [State.alive, hb]
      | some b =>
        have hrecent : id ∉ expired := by
          intro hid
          exact hany (List.any_eq_true.mpr ⟨⟨id, b⟩, AList.mem_lookup_iff.mp hb,
            (hmem hb).mp hid⟩)
        simp [hrecent]
    rw [hstate] at hp' ⊢
    cases hpart.symm.trans hp'
    rw [hsame]
    exact .init

private theorem projects_act (h : Small p) (hp : c.mem.partition topic k = some p)
    {a : Replog.Controller.Action} (ha : a.start = none) : Projects c (c.act a) topic k p := by
  cases a with
  | request req now persisted =>
    cases req with
    | registerBroker id addr peerAddr =>
      exact projects_registerBroker h hp id addr peerAddr now persisted
    | brokerHeartbeat id => exact projects_brokerHeartbeat h hp id now persisted
    | controllerMetadata => exact ⟨p, hp, .init⟩
    | createTopic topic' partitions replicationFactor =>
      exact projects_createTopic hp topic' partitions replicationFactor persisted
    | alterIsr topic' k' leaderEpoch isr =>
      exact projects_alterIsr h hp topic' k' leaderEpoch isr persisted
    | other => exact ⟨p, hp, .init⟩
  | sweepLiveness now persisted => exact projects_sweepLiveness h hp now persisted
  | restart now => cases ha

/-! ## How the partition begins -/

/-- A partition that was not there is one of a topic created now. -/
theorem created {a : Replog.Controller.Action} (ha : a.start = none)
    (hnone : c.mem.partition topic k = none) {p : PartitionState}
    (hp : (c.act a).mem.partition topic k = some p) :
    (∃ rf ≤ c.mem.aliveIds.length,
      p = newPartition c.mem.aliveIds rf k) ∧
      (c.act a).mem.version = c.mem.version + 1 ∧ (c.act a).mem.alive = c.mem.alive := by
  have hstays {m : Bool × State} {persisted : Bool} (hm : m.2.replicasAt = c.mem.replicasAt)
      (hmutate : c.act a = c.mutate persisted m) : False := by
    have hreplicas := congrFun (congrFun hm topic) k
    rw [hmutate, Shared.partition_mutate] at hp
    rw [State.replicasAt, State.replicasAt, hp, hnone] at hreplicas
    cases hreplicas
  cases a with
  | request req now persisted =>
    cases req with
    | registerBroker id addr peerAddr =>
      exact (hstays (State.replicasAt_registerBroker id addr peerAddr now _) rfl).elim
    | brokerHeartbeat id => exact (hstays (State.replicasAt_brokerHeartbeat id now _) rfl).elim
    | controllerMetadata => cases hnone.symm.trans hp
    | createTopic topic' partitions replicationFactor =>
      change (c.mutate persisted
        (createTopic topic' partitions replicationFactor c.mem).2).mem.partition
          topic k = some p at hp
      change _ ∧ (c.mutate persisted
        (createTopic topic' partitions replicationFactor c.mem).2).mem.version =
          _ ∧ (c.mutate persisted (createTopic topic' partitions
            replicationFactor c.mem).2).mem.alive = _
      rw [Shared.partition_mutate] at hp
      rw [Shared.version_mutate, Shared.alive_mutate]
      rw [createTopic] at hp ⊢
      split at hp
      · cases hnone.symm.trans hp
      · rename_i hnew
        rw [if_neg hnew]
        split at hp
        · cases hnone.symm.trans hp
        · rename_i hvalid
          rw [if_neg hvalid]
          rw [State.partition_insert] at hp
          split at hp
          · rw [List.getElem?_map, Option.map_eq_some_iff] at hp
            obtain ⟨j, hj, rfl⟩ := hp
            obtain ⟨hlt, hjk⟩ := List.getElem?_eq_some_iff.mp hj
            rw [List.getElem_range] at hjk
            subst hjk
            exact ⟨⟨_, by omega, rfl⟩, rfl, rfl⟩
          · cases hnone.symm.trans hp
    | alterIsr topic' k' leaderEpoch isr =>
      exact (hstays (State.replicasAt_alterIsr topic' k' leaderEpoch isr _) rfl).elim
    | other => cases hnone.symm.trans hp
  | sweepLiveness now persisted =>
    exact (hstays (State.replicasAt_sweepLiveness c.config now _) rfl).elim
  | restart now => cases ha

private theorem runs_alive {o : Controller} (hleader : o.leaderAlive = true) (bs : List BrokerId) :
    Runs o { o with alive := fun b => o.alive b || decide (b ∈ bs) } := by
  induction bs generalizing o with
  | nil =>
    have hsame : (fun b => o.alive b || decide (b ∈ ([] : List BrokerId))) = o.alive := by
      funext b
      simp
    rw [hsame]
    exact .init
  | cons b rest ih =>
    have hkept : (o.setAlive b true).leaderAlive = true := by
      rw [Controller.leaderAlive] at hleader ⊢
      cases hl : o.leader with
      | none =>
        rw [hl] at hleader
        cases hleader
      | some l =>
        rw [hl, Option.elim_some] at hleader
        simp [Controller.setAlive, hl, hleader]
    have hstep : o.heartbeat b = o.setAlive b true := by
      rw [Controller.heartbeat]
      cases halive : o.alive b with
      | true =>
        rw [if_pos rfl, Controller.setAlive]
        have hsame : (fun a => if a = b then true else o.alive a) = o.alive := by
          funext a
          by_cases heq : a = b
          · rw [if_pos heq, heq, halive]
          · rw [if_neg heq]
        rw [hsame]
      | false =>
        rw [if_neg (by decide), Controller.electWhereNeeded, if_pos hkept]
        rfl
    have hnext : { o with alive := fun a => o.alive a || decide (a ∈ b :: rest) } =
        { o.setAlive b true with
          alive := fun a => (o.setAlive b true).alive a || decide (a ∈ rest) } := by
      simp only [Controller.setAlive, Controller.mk.injEq, true_and, and_true]
      funext a
      by_cases heq : a = b
      · simp [heq]
      · simp [heq]
    rw [hnext]
    exact (Runs.one (m := .heartbeat b) (congrArg some hstep)).trans (ih hkept)

private theorem runs_version (o : Controller) (n : ℕ) : Runs o { o with version := o.version + n } := by
  induction n with
  | zero => exact .init
  | succ n ih => exact .step ih trivial (i := .elsewhere) rfl

private theorem runs_newPartition {s : State} {rf : ℕ} (hrf : rf ≤ s.aliveIds.length)
    (hsmall : Small (newPartition s.aliveIds rf k)) :
    Runs (.create ((newPartition s.aliveIds rf k).replicas.map UInt32.toNat))
      (projected (version + 1) s.alive (newPartition s.aliveIds rf k)) := by
  generalize hp : newPartition s.aliveIds rf k = p at hsmall ⊢
  have halive : ∀ id ∈ p.replicas, s.alive id = true := by
    intro id hid
    rw [← hp] at hid
    exact Shared.alive_of_mem_aliveIds (State.mem_of_mem_replicasOf hrf hid)
  have hisr : p.isr = p.replicas := by rw [← hp]; rfl
  have hepoch : p.leaderEpoch = 1 := by rw [← hp]; rfl
  obtain ⟨first, rest, hfirst⟩ := List.exists_cons_of_ne_nil hsmall.replicas_ne_nil
  have hleader : p.leader = first.toInt32 := by
    have hhead : p.leader = (p.replicas.headD 0).toInt32 := by rw [← hp]; rfl
    rw [hhead, hfirst]
    rfl
  have hmem : first ∈ p.replicas := hfirst ▸ List.mem_cons_self
  have hled : p.leader ≠ -1 := by
    rw [hleader]
    exact toInt32_ne (hsmall.small first hmem)
  have hstart : (Controller.create (p.replicas.map UInt32.toNat)).leaderAlive = true := by
    simp [Controller.leaderAlive, Controller.create, hfirst]
  have heq : projected (version + 1) s.alive p =
      { Controller.create (p.replicas.map UInt32.toNat) with
        version := 1 + version
        alive := fun b => (Controller.create (p.replicas.map UInt32.toNat)).alive b ||
          decide (b ∈ s.aliveIds.map UInt32.toNat) } := by
    simp only [projected, Controller.create, Controller.mk.injEq]
    refine ⟨Nat.add_comm _ _, ?_, ?_, hepoch, trivial, congrArg _ hisr⟩
    · funext b
      by_cases hb : b < 2 ^ 32
      · have hin (ids : List UInt32) : b ∈ ids.map UInt32.toNat ↔ UInt32.ofNat b ∈ ids :=
          mem_map_toNat.trans (and_iff_right hb)
        simp only [hin, hb, decide_true, Bool.true_and, State.mem_aliveIds, Bool.decide_eq_true]
        cases hup : s.alive (UInt32.ofNat b) with
        | true => rw [Bool.or_true]
        | false =>
          have hout : UInt32.ofNat b ∉ p.replicas := fun hid => by simp [halive _ hid] at hup
          rw [decide_eq_false hout]
          rfl
      · have hout (ids : List UInt32) : b ∉ ids.map UInt32.toNat := fun hin =>
          hb (mem_map_toNat.mp hin).1
        rw [decide_eq_false hb, decide_eq_false (hout _), decide_eq_false (hout _)]
        rfl
    · rw [if_neg hled, hleader, hfirst, List.map_cons, List.head?_cons]
      rfl
  rw [heq]
  exact (runs_alive hstart _).trans (runs_version _ version)

/-! ## Over a run -/

def Running (_ : Run) (a : Replog.Controller.Action) : Prop := a.start = none

instance (r : Run) (a : Replog.Controller.Action) : Decidable (Running r a) :=
  inferInstanceAs (Decidable (a.start = none))

/-- The metadata of a partition as a broker takes it. -/
def pulled (version : ℕ) (m : Replog.Controller.PartitionMeta) : PartitionMeta where
  version
  leader := if m.leader = -1 then none else some m.leader.toUInt32.toNat
  leaderEpoch := m.leaderEpoch
  replicas := m.replicas.map UInt32.toNat
  isr := m.isr.map UInt32.toNat

/-- As far as the partition goes, the brokers cannot tell the two controllers apart: the metadata
and the answers to `AlterIsr` are the same, and so is who is alive. -/
structure Represents (r : Run) (topic : String) (k : ℕ) (o : Controller) : Prop where
  pulled : ∃ metas, (topic, metas) ∈ r.mem.clusterMeta.topics ∧
    metas[k]?.map (pulled r.mem.clusterMeta.version) = some o.partitionMeta
  alterIsr : ∀ leaderEpoch isr now persisted call proposer, ∃ error version,
    (r.shared.handle (.alterIsr topic k leaderEpoch isr) now persisted).1 =
      .alterIsr error version ∧
    (o.alterIsr ⟨call, proposer, leaderEpoch, isr.map UInt32.toNat⟩).1 = answered error version
  alive : ∀ id : UInt32, o.alive id.toNat = r.mem.alive id

private theorem represents_projected {r : Run} (h : Small p) (hp : r.mem.partition topic k = some p) :
    Represents r topic k (projected r.mem.version r.mem.alive p) where
  pulled := by
    obtain ⟨parts, hparts, hk⟩ := Option.bind_eq_some_iff.mp hp
    refine ⟨partitionMetas parts, ?_, ?_⟩
    · exact List.mem_map.mpr ⟨(topic, parts), Assoc.mem_sorted.mpr hparts, rfl⟩
    · rw [partitionMetas, List.getElem?_mapIdx, hk]
      rfl
  alterIsr leaderEpoch isr now persisted call proposer := by
    obtain ⟨parts, hparts, hk⟩ := Option.bind_eq_some_iff.mp hp
    have hparts' : r.shared.mem.topics.lookup topic = some parts := hparts
    refine ⟨_, _, rfl, ?_⟩
    rw [alterIsr_projected h, Shared.version_mutate]
    simp only [hparts', hk]
    rfl
  alive := projected_alive

/-- Until the controller restarts, every partition created meanwhile has gone through a run of
the one-partition controller from its creation, whatever else the controller was asked, and the
two look the same to the brokers. -/
theorem controller_projects {config : ControllerConfig} {r r' : Run}
    (h : Reach Run.step Run.Free (.init config) r) (h' : Reach Run.step Running r r')
    (hnew : r.mem.partition topic k = none) (hp : r'.mem.partition topic k = some p)
    (hsmall : ∀ id ∈ p.replicas, id < 2147483648) :
    ∃ o, Reach Controller.apply AnyMutation (.create (p.replicas.map UInt32.toNat)) o ∧
      Represents r' topic k o := by
  have hsound {s : Run} (hs : Reach Run.step Running r s) : s.mem.Sound :=
    (Run.kept_sound_of_reach (h.trans (hs.mono fun _ _ _ => trivial))).mem
  refine ⟨_, ?_, represents_projected ⟨hsound h' topic k p hp, hsmall⟩ hp⟩
  induction h' generalizing p with
  | init => cases hnew.symm.trans hp
  | @step s s' a hs ha hstep ih =>
    have hshared := Run.shared_step hstep
    have hmem : s'.mem = (s.shared.act a).mem := congrArg Shared.mem hshared
    have hsmall' : Small p := ⟨hsound (.step hs ha hstep) topic k p hp, hsmall⟩
    cases hold : s.mem.partition topic k with
    | none =>
      rw [hmem] at hp ⊢
      obtain ⟨⟨rf, hrf, rfl⟩, hversion, halive⟩ := created ha hold hp
      rw [hversion, halive]
      exact runs_newPartition hrf hsmall'
    | some q =>
      have hreplicas := Run.replicas_of_step hstep ha hold hp
      rw [hreplicas] at hsmall ⊢
      have hq : Small q := ⟨hsound hs topic k q hold, hsmall⟩
      obtain ⟨p', hp', hruns⟩ := projects_act hq hold ha
      rw [hmem] at hp ⊢
      cases hp.symm.trans hp'
      exact (ih hold hsmall).trans hruns

/-- Broker 1 falls silent, another topic is created, and broker 2 takes over. -/
theorem controller_projects_failover : ∃ r : Run,
    r.mem.partition "t" 0 = some ⟨2, 2, [1, 2], [2]⟩ ∧
      ∃ o, Reach Controller.apply AnyMutation (.create [1, 2]) o ∧ Represents r "t" 0 o := by
  obtain ⟨r, hreach, hp⟩ := Reach.exists_of_runSteps Run.step Running (.init ⟨10⟩)
    [.request (.registerBroker 1 "a" "a") 0 true, .request (.registerBroker 2 "b" "b") 0 true,
      .request (.createTopic "t" 1 2) 0 true, .request (.registerBroker 3 "c" "c") 0 true,
      .request (.createTopic "u" 2 1) 1 true, .request (.brokerHeartbeat 2) 8 true,
      .sweepLiveness 12 true]
    (fun r => r.mem.partition "t" 0 = some ⟨2, 2, [1, 2], [2]⟩) (by decide)
  exact ⟨r, hp, controller_projects .init hreach rfl hp (by decide)⟩

end Replog.Replication
