import Replog.Controller.Replicas

/-!
# What an election leaves behind

A partition with an alive broker in its ISR is led by one afterwards, any other is offline, and a
second election finds nothing to do. Leaders are stored as `i32`, so this takes broker ids that
are not negative there.
-/

namespace Replog.Controller
open Replog.Library

theorem nonneg_toInt32 (id : UInt32) : 0 ≤ id.toInt32 ↔ id < 2147483648 := by
  rw [Int32.le_iff_toInt_le, UInt32.lt_iff_toNat_lt]
  change (0 : ℤ) ≤ id.toBitVec.toInt ↔ id.toBitVec.toNat < 2147483648
  rw [BitVec.toInt_eq_toNat_cond]
  have := id.toBitVec.isLt
  split <;> omega

/-! ## One partition -/

namespace PartitionState

variable {alive : UInt32 → Bool} {p : PartitionState}

/-- The code's test for a leader that is left alone. -/
def LeaderAlive (alive : UInt32 → Bool) (p : PartitionState) : Prop :=
  0 ≤ p.leader ∧ alive p.leader.toUInt32 = true

/-- It has a leader, alive and in its ISR. -/
structure Led (alive : UInt32 → Bool) (p : PartitionState) : Prop where
  leader_ne : p.leader ≠ -1
  leader_alive : alive p.leader.toUInt32 = true
  leader_mem : p.leader.toUInt32 ∈ p.isr

/-- The broker that an election would make the leader has an id that is not negative as an
`i32`. -/
def Electable (alive : UInt32 → Bool) (p : PartitionState) : Prop :=
  p.LeaderAlive alive ∨ ∀ id ∈ p.isr.find? alive, id < 2147483648

instance : Decidable (p.LeaderAlive alive) := inferInstanceAs (Decidable (_ ∧ _))

instance : Decidable (p.Electable alive) := inferInstanceAs (Decidable (_ ∨ _))

theorem elect_of_leaderAlive (h : p.LeaderAlive alive) : p.elect alive = (false, p) :=
  if_pos h

theorem elect_of_find_eq_some {newLeader : UInt32} (h : ¬ p.LeaderAlive alive)
    (hfind : p.isr.find? alive = some newLeader) :
    p.elect alive = (true, { p with leader := newLeader.toInt32, leaderEpoch := p.leaderEpoch + 1,
                                    isr := p.isr.filter alive }) := by
  rw [LeaderAlive] at h
  rw [elect, if_neg h, hfind]

theorem elect_of_find_eq_none (h : ¬ p.LeaderAlive alive) (hfind : p.isr.find? alive = none) :
    p.elect alive = (decide (p.leader ≠ -1), { p with leader := -1 }) := by
  rw [LeaderAlive] at h
  rw [elect, if_neg h, hfind]
  by_cases hleader : p.leader = -1
  · rw [← hleader]
    simp
  · simp [hleader]

/-- Whoever is elected from the ISR is still in it and alive. -/
theorem mem_filter_of_find_eq_some {newLeader : UInt32}
    (hfind : p.isr.find? alive = some newLeader) : newLeader ∈ p.isr.filter alive :=
  List.mem_filter.mpr ⟨List.mem_of_find?_eq_some hfind, List.find?_some hfind⟩

theorem find_ne_none_iff : p.isr.find? alive ≠ none ↔ ∃ id ∈ p.isr, alive id = true := by
  simp [List.find?_eq_none]

private theorem led_elect (hwf : p.WellFormed) (helectable : p.Electable alive)
    (h : ∃ id ∈ p.isr, alive id = true) : (p.elect alive).2.Led alive := by
  by_cases hleader : p.LeaderAlive alive
  · rw [elect_of_leaderAlive hleader]
    have hne : p.leader ≠ -1 := fun heq => absurd (heq ▸ hleader.1) (by decide)
    exact ⟨hne, hleader.2, hwf.leader_mem.resolve_left hne⟩
  · obtain ⟨newLeader, hfind⟩ := Option.ne_none_iff_exists'.mp (find_ne_none_iff.mpr h)
    have hnonneg := (nonneg_toInt32 newLeader).mpr (helectable.resolve_left hleader newLeader hfind)
    rw [elect_of_find_eq_some hleader hfind]
    refine ⟨fun heq => ?_, List.find?_some hfind, mem_filter_of_find_eq_some hfind⟩
    replace heq : newLeader.toInt32 = -1 := heq
    exact absurd (heq ▸ hnonneg) (by decide)

private theorem elect_of_all_dead (hwf : p.WellFormed) (h : ¬ ∃ id ∈ p.isr, alive id = true) :
    (p.elect alive).2.leader = -1 ∧ (p.elect alive).2.isr = p.isr := by
  have hdead : ¬ p.LeaderAlive alive := by
    intro hleader
    rcases hwf.leader_mem with heq | hmem
    · exact absurd (heq ▸ hleader.1) (by decide)
    · exact h ⟨_, hmem, hleader.2⟩
  have hfind : p.isr.find? alive = none := by
    by_contra hne
    exact h (find_ne_none_iff.mp hne)
  rw [elect_of_find_eq_none hdead hfind]
  exact ⟨rfl, rfl⟩

/-- A second election leaves the partition alone if and only if the first could. -/
theorem elect_elect_quiet_iff :
    ((p.elect alive).2.elect alive).1 = false ↔ p.Electable alive := by
  by_cases hleader : p.LeaderAlive alive
  · rw [elect_of_leaderAlive hleader, elect_of_leaderAlive hleader]
    exact iff_of_true rfl (.inl hleader)
  · cases hfind : p.isr.find? alive with
    | none =>
      rw [elect_of_find_eq_none hleader hfind]
      have hoffline : ¬ LeaderAlive alive { p with leader := -1 } := fun h =>
        absurd (show (0 : Int32) ≤ -1 from h.1) (by decide)
      rw [elect_of_find_eq_none hoffline hfind]
      refine iff_of_true ?_ (.inr fun id hid => ?_)
      · simp
      cases hfind.symm.trans hid
    | some newLeader =>
      rw [elect_of_find_eq_some hleader hfind]
      have hmem := mem_filter_of_find_eq_some hfind
      have hleads : LeaderAlive alive
          { p with leader := newLeader.toInt32, leaderEpoch := p.leaderEpoch + 1,
                   isr := p.isr.filter alive } ↔ newLeader < 2147483648 :=
        (and_iff_left (List.find?_some hfind)).trans (nonneg_toInt32 newLeader)
      by_cases hsmall : newLeader < 2147483648
      · rw [elect_of_leaderAlive (hleads.mpr hsmall)]
        refine iff_of_true rfl (.inr fun id hid => ?_)
        cases hfind.symm.trans hid
        exact hsmall
      · refine iff_of_false ?_ fun helectable =>
          hsmall (helectable.resolve_left hleader newLeader hfind)
        have hnegative := hsmall ∘ hleads.mp
        have hsome : (p.isr.filter alive).find? alive ≠ none := by
          rw [Ne, List.find?_eq_none]
          exact fun hnone => hnone newLeader hmem (List.find?_some hfind)
        obtain ⟨again, hagain⟩ := Option.ne_none_iff_exists'.mp hsome
        rw [elect_of_find_eq_some hnegative hagain]
        exact Bool.true_eq_false_eq_False

end PartitionState

/-! ## All partitions -/

namespace State

variable {s : State}

/-- Whoever can be led is led by an alive broker of its ISR, everything else is offline with its
ISR as it was, and a second election changes nothing and says so. -/
structure Settles (s : State) : Prop where
  led : ∀ topic k p, s.partition topic k = some p → (∃ id ∈ p.isr, s.alive id = true) →
    ∃ p', (electWhereNeeded s).2.partition topic k = some p' ∧ p'.Led s.alive
  offline : ∀ topic k p, s.partition topic k = some p → (¬ ∃ id ∈ p.isr, s.alive id = true) →
    ∃ p', (electWhereNeeded s).2.partition topic k = some p' ∧ p'.leader = -1 ∧ p'.isr = p.isr
  again : electWhereNeeded (electWhereNeeded s).2 = (false, (electWhereNeeded s).2)

def Electable (s : State) : Prop := ∀ t ∈ s.topics.entries, ∀ p ∈ t.2, p.Electable s.alive

instance : Decidable s.Electable :=
  inferInstanceAs (Decidable (∀ t ∈ s.topics.entries, ∀ p ∈ t.2, p.Electable s.alive))

private theorem Electable.of_partition (h : s.Electable) {topic : String} {k : ℕ} {p : PartitionState}
    (hp : s.partition topic k = some p) : p.Electable s.alive := by
  obtain ⟨parts, hparts, hk⟩ := Option.bind_eq_some_iff.mp hp
  exact h ⟨topic, parts⟩ (AList.mem_lookup_iff.mp hparts) p (List.mem_of_getElem? hk)

private theorem electWhereNeeded_of_quiet
    (h : ∀ t ∈ s.topics.entries, ∀ p ∈ t.2, (p.elect s.alive).1 = false) :
    electWhereNeeded s = (false, s) := by
  rw [electWhereNeeded, Prod.mk.injEq]
  constructor
  · rw [List.any_eq_false]
    intro t ht
    rw [Bool.not_eq_true, List.any_eq_false]
    exact fun p hp => by rw [h t ht p hp]; decide
  · have htopics : s.topics.mapVal (fun _ parts => parts.map fun p => (p.elect s.alive).2) =
        s.topics := by
      refine AList.ext ?_
      refine (List.map_congr_left fun t ht => ?_).trans (List.map_id _)
      have hparts : t.2.map (fun p => (p.elect s.alive).2) = t.2 :=
        (List.map_congr_left fun p hp => PartitionState.elect_quiet (h t ht p hp)).trans
          (List.map_id _)
      exact Sigma.ext rfl (heq_of_eq hparts)
    rw [htopics]

/-- A second election is quiet exactly if the first one fits every partition. -/
theorem electWhereNeeded_again_iff :
    electWhereNeeded (electWhereNeeded s).2 = (false, (electWhereNeeded s).2) ↔ s.Electable := by
  constructor
  · intro hagain t ht p hp
    have hquiet : (electWhereNeeded (electWhereNeeded s).2).1 = false := by rw [hagain]
    rw [electWhereNeeded, List.any_eq_false] at hquiet
    have ht' := hquiet _ (List.mem_map_of_mem ht)
    rw [Bool.not_eq_true, List.any_eq_false] at ht'
    have hp' := ht' _ (List.mem_map_of_mem hp)
    exact PartitionState.elect_elect_quiet_iff.mp (Bool.eq_false_of_not_eq_true hp')
  · intro helectable
    refine electWhereNeeded_of_quiet fun t' ht' p' hp' => ?_
    obtain ⟨t, ht, rfl⟩ := List.mem_map.mp ht'
    obtain ⟨p, hp, rfl⟩ := List.mem_map.mp hp'
    exact PartitionState.elect_elect_quiet_iff.mpr (helectable t ht p hp)

theorem Sound.settles (h : s.Sound) : s.Settles ↔ s.Electable := by
  refine ⟨fun hsettles => electWhereNeeded_again_iff.mp hsettles.again, fun helectable => ?_⟩
  constructor
  · intro topic k p hp halive
    exact ⟨_, by rw [partition_electWhereNeeded, hp, Option.map_some],
      PartitionState.led_elect (h topic k p hp) (helectable.of_partition hp) halive⟩
  · intro topic k p hp hdead
    exact ⟨_, by rw [partition_electWhereNeeded, hp, Option.map_some],
      PartitionState.elect_of_all_dead (h topic k p hp) hdead⟩
  · exact electWhereNeeded_again_iff.mpr helectable

theorem Agrees.sound {s s' : State} (h : s'.Agrees s) (hs : s.Sound) : s'.Sound := by
  intro topic k p hp
  rw [h.partition_eq] at hp
  exact hs topic k p hp

end State

/-! ## Over a run -/

namespace Run

/-- Any action may come at any time, and any snapshot write may fail. -/
def Free (_ : Run) (_ : Action) : Prop := True

instance (r : Run) (a : Action) : Decidable (Free r a) := inferInstanceAs (Decidable True)

private theorem kept_sound_of_step {r r' : Run} {a : Action} (h : r.shared.Kept State.Sound)
    (hstep : step r a = some r') : r'.shared.Kept State.Sound := by
  cases steps_of_step hstep with
  | mutated m persisted hm hshared hpersisted hreported hanswers =>
    rw [hshared]
    exact h.mutate (fun _ _ hagrees hs => hagrees.sound hs) (hm.evolves.sound h.mem) persisted
  | described hshared hreported hanswers =>
    rw [hshared]
    exact h
  | misdirected now persisted ha hshared hreported hanswers =>
    rw [hshared]
    exact h
  | restarted now ha hshared hreported hanswers =>
    rw [hshared]
    exact ⟨h.disk now, h.disk⟩

theorem kept_sound_of_reach {config : ControllerConfig} {r : Run}
    (h : Reach step Free (init config) r) : r.shared.Kept State.Sound :=
  h.invariant ⟨nofun, fun _ => nofun⟩ fun _ _ _ hs _ hstep => kept_sound_of_step hs hstep

/-- In every state of every run, whoever is alive, an election settles the partitions if and only
if each one that needs a leader gets one whose id fits. -/
theorem settles_iff {config : ControllerConfig} {r : Run} (h : Reach step Free (init config) r)
    (brokers : Assoc UInt32 BrokerState) :
    State.Settles { r.mem with brokers } ↔ State.Electable { r.mem with brokers } :=
  State.Sound.settles (kept_sound_of_reach h).mem

/-- Broker 1 leads a partition that only broker 2 is alive to take over. -/
theorem settles_failover : ∃ r : Run, Reach step Free (init ⟨10⟩) r ∧
    r.mem.partition "t" 0 = some ⟨1, 1, [1, 2], [1, 2]⟩ ∧
      State.Settles { r.mem with brokers := AList.singleton 2 ⟨"b", "b", true, 0⟩ } := by
  obtain ⟨r, hreach, hp, helectable⟩ := Reach.exists_of_runSteps step Free (init ⟨10⟩)
    [.request (.registerBroker 1 "a" "a") 0 true, .request (.registerBroker 2 "b" "b") 0 true,
      .request (.createTopic "t" 1 2) 0 true]
    (fun r => r.mem.partition "t" 0 = some ⟨1, 1, [1, 2], [1, 2]⟩ ∧
      State.Electable { r.mem with brokers := AList.singleton 2 ⟨"b", "b", true, 0⟩ }) (by decide)
  exact ⟨r, hreach, hp, (settles_iff hreach _).mpr helectable⟩

/-- A broker whose id is negative as an `i32` leads its partition and is elected again and
again. -/
theorem elected_again : ∃ r : Run, Reach step Free (init ⟨10⟩) r ∧ ¬ r.mem.Settles := by
  obtain ⟨r, hreach, hagain⟩ := Reach.exists_of_runSteps step Free (init ⟨10⟩)
    [.request (.registerBroker 2147483648 "a" "a") 0 true, .request (.createTopic "t" 1 1) 0 true]
    (fun r => (electWhereNeeded (electWhereNeeded r.mem).2).1 = true) (by decide)
  refine ⟨r, hreach, fun hsettles => ?_⟩
  rw [hsettles.again] at hagain
  cases hagain

end Run
end Replog.Controller
