import Replog.Groups.Assignment
import Replog.Library.Transition
import Replog.Proto.Message

/-!
# The group coordinator

Membership, generations and fencing. Whatever changes the members of a group or what they
subscribe to takes the group to its next generation with a new assignment.
-/

namespace Replog.Groups
open Replog.Library
open Replog.Proto (ErrorCode)

structure Group where
  generation : ℕ
  members : Assoc String Member
  assignment : Slots

def Group.default : Group := { generation := 0, members := ∅, assignment := ∅ }

structure JoinOutcome where
  memberId : String
  generation : ℕ
  assignment : List (String × ℕ)
  deriving DecidableEq

structure GroupCoordinator where
  groups : Assoc String Group
  nextMember : ℕ

/-- The next generation of a group with these members. -/
def Group.rebalance (g : Group) (members : Assoc String Member) (counts : String → Option ℕ) :
    Group :=
  { generation := g.generation + 1, members, assignment := assign members counts }

def Group.slotsOf (g : Group) (memberId : String) : List (String × ℕ) :=
  (g.assignment.lookup memberId).getD []

/-- The members silent past their session timeout. -/
def Group.dead (g : Group) (now : ℕ) : List String :=
  (g.members.entries.filter fun m => m.2.sessionTimeout < now - m.2.lastHeartbeat).map Sigma.fst

/-- Evicts the dead members of one group. -/
def Group.expire (g : Group) (counts : String → Option ℕ) (now : ℕ) : Group :=
  if g.dead now = [] then g
  else g.rebalance ((g.dead now).foldl (fun members id => members.erase id) g.members) counts

namespace GroupCoordinator

def new : GroupCoordinator := { groups := ∅, nextMember := 1 }

def group (c : GroupCoordinator) (group : String) : Group := (c.groups.lookup group).getD .default

def setGroup (c : GroupCoordinator) (group : String) (g : Group) : GroupCoordinator :=
  { c with groups := c.groups.insert group g }

/-- The id a joining member goes by, whether the subscriptions change, and the next free number. -/
def enroll (c : GroupCoordinator) (g : Group) (memberId : String) (topics : List String) :
    String × Bool × ℕ :=
  if memberId = "" then (s!"m-{c.nextMember}", true, c.nextMember + 1)
  else
    match g.members.lookup memberId with
    | none => (s!"m-{c.nextMember}", true, c.nextMember + 1)
    | some m => (memberId, m.topics ≠ topics, c.nextMember)

/-- A new member rebalances; a rejoin only if its subscriptions changed. -/
def join (c : GroupCoordinator) (group memberId : String) (sessionTimeout : ℕ)
    (topics : List String) (counts : String → Option ℕ) (now : ℕ) :
    JoinOutcome × GroupCoordinator :=
  let g := c.group group
  let (memberId, changed, nextMember) := c.enroll g memberId topics
  let members := g.members.insert memberId { topics, sessionTimeout, lastHeartbeat := now }
  let g' := if changed then g.rebalance members counts else { g with members }
  ({ memberId, generation := g'.generation, assignment := g'.slotsOf memberId },
    { groups := c.groups.insert group g', nextMember })

def heartbeat (c : GroupCoordinator) (group memberId : String) (generation now : ℕ) :
    ErrorCode × GroupCoordinator :=
  match c.groups.lookup group with
  | none => (.unknownMember, c)
  | some g =>
    match g.members.lookup memberId with
    | none => (.unknownMember, c)
    | some m =>
      (if generation ≠ g.generation then .staleGeneration else .none,
        c.setGroup group
          { g with members := g.members.insert memberId { m with lastHeartbeat := now } })

def leave (c : GroupCoordinator) (group memberId : String) (counts : String → Option ℕ) :
    ErrorCode × GroupCoordinator :=
  match c.groups.lookup group with
  | none => (.unknownMember, c)
  | some g =>
    match g.members.lookup memberId with
    | none => (.unknownMember, c)
    | some _ => (.none, c.setGroup group (g.rebalance (g.members.erase memberId) counts))

/-- Validates a fenced commit. An empty member id is unfenced and always allowed. -/
def checkCommit (c : GroupCoordinator) (group memberId : String) (generation : ℕ) : ErrorCode :=
  if memberId = "" then .none
  else
    match c.groups.lookup group with
    | none => .unknownMember
    | some g =>
      if memberId ∉ g.members then .unknownMember
      else if generation ≠ g.generation then .staleGeneration
      else .none

/-- Evicts the dead members of every group, and counts them. -/
def expire (c : GroupCoordinator) (counts : String → Option ℕ) (now : ℕ) :
    ℕ × GroupCoordinator :=
  ((c.groups.entries.map fun g => (g.2.dead now).length).sum,
    { c with groups := c.groups.mapVal fun _ g => g.expire counts now })

end GroupCoordinator

/-! ## What a call does to a group -/

/-- Who is in a group, and with which topics. -/
def Group.subscription (g : Group) (memberId : String) : Option (List String) :=
  (g.members.lookup memberId).map Member.topics

/-- The subscriptions stay and so do generation and assignment, or there is a next generation. -/
inductive Group.Evolves (g : Group) : Group → Prop where
  | kept (members : Assoc String Member)
      (hsame : ∀ id, (members.lookup id).map Member.topics = g.subscription id) :
      Evolves g { g with members }
  | rebalanced (members : Assoc String Member) (counts : String → Option ℕ) :
      Evolves g (g.rebalance members counts)

/-- The same with the partition counts that the next generation is assigned from. -/
inductive Group.Updates (counts : String → Option ℕ) (g : Group) : Group → Prop where
  | kept (members : Assoc String Member)
      (hsame : ∀ id, (members.lookup id).map Member.topics = g.subscription id) :
      Updates counts g { g with members }
  | rebalanced (members : Assoc String Member) : Updates counts g (g.rebalance members counts)

theorem Group.Updates.refl (counts : String → Option ℕ) (g : Group) : g.Updates counts g :=
  .kept g.members fun _ => rfl

theorem Group.Updates.evolves {counts : String → Option ℕ} {g g' : Group}
    (h : g.Updates counts g') : g.Evolves g' := by
  cases h with
  | kept members hsame => exact .kept members hsame
  | rebalanced members => exact .rebalanced members counts

theorem Group.Evolves.quiet_or_next {g g' : Group} (h : g.Evolves g') :
    (g'.generation = g.generation ∧ g'.assignment = g.assignment ∧
        ∀ id, g'.subscription id = g.subscription id) ∨
      (g'.generation = g.generation + 1 ∧ Exclusive g'.assignment) := by
  cases h with
  | kept members hsame => exact .inl ⟨rfl, rfl, hsame⟩
  | rebalanced members counts => exact .inr ⟨rfl, exclusive_assign members counts⟩

private theorem subscription_insert {g : Group} {memberId : String} {m m' : Member}
    (hm : g.members.lookup memberId = some m) (htopics : m'.topics = m.topics) (id : String) :
    ((g.members.insert memberId m').lookup id).map Member.topics = g.subscription id := by
  by_cases hid : id = memberId
  · rw [hid, AList.lookup_insert, Group.subscription, hm, Option.map_some, Option.map_some, htopics]
  · rw [AList.lookup_insert_ne hid, Group.subscription]

namespace GroupCoordinator

variable {c : GroupCoordinator}

theorem group_setGroup (c : GroupCoordinator) (group group' : String) (g : Group) :
    (c.setGroup group g).group group' = if group' = group then g else c.group group' := by
  rw [GroupCoordinator.group, setGroup]
  split
  · rename_i h
    rw [h, AList.lookup_insert, Option.getD_some]
  · rename_i h
    rw [AList.lookup_insert_ne h, GroupCoordinator.group]

theorem group_of_lookup {group : String} {g : Group} (h : c.groups.lookup group = some g) :
    c.group group = g := by
  rw [GroupCoordinator.group, h, Option.getD_some]

theorem updates_setGroup {counts : String → Option ℕ} {group : String} {g : Group}
    (h : (c.group group).Updates counts g) (group' : String) :
    (c.group group').Updates counts ((c.setGroup group g).group group') := by
  rw [group_setGroup]
  split
  · rename_i heq
    rwa [heq]
  · exact .refl counts _

private theorem enroll_quiet {g : Group} {memberId : String} {topics : List String}
    (h : (c.enroll g memberId topics).2.1 = false) :
    ∃ m, g.members.lookup (c.enroll g memberId topics).1 = some m ∧ m.topics = topics := by
  rw [enroll] at h ⊢
  split at h
  · cases h
  · rename_i hne
    rw [if_neg hne]
    split at h
    · cases h
    · rename_i m hm
      exact ⟨m, hm, by simpa using h⟩

theorem updates_join (c : GroupCoordinator) (group memberId : String) (sessionTimeout : ℕ)
    (topics : List String) (counts : String → Option ℕ) (now : ℕ) (group' : String) :
    (c.group group').Updates counts
      ((c.join group memberId sessionTimeout topics counts now).2.group group') := by
  let a := c.enroll (c.group group) memberId topics
  let members := (c.group group).members.insert a.1 { topics, sessionTimeout, lastHeartbeat := now }
  let g' :=
    if a.2.1 then (c.group group).rebalance members counts else { c.group group with members }
  change (c.group group').Updates counts ((c.setGroup group g').group group')
  refine updates_setGroup ?_ group'
  cases hchanged : a.2.1 with
  | true =>
    have hg' : g' = (c.group group).rebalance members counts := if_pos hchanged
    rw [hg']
    exact .rebalanced members
  | false =>
    have hg' : g' = { c.group group with members } := if_neg (by rw [hchanged]; decide)
    obtain ⟨m, hm, htopics⟩ := enroll_quiet hchanged
    rw [hg']
    exact .kept members (subscription_insert hm htopics.symm)

/-- A join evolves its group and answers with what it left there. -/
theorem join_spec (c : GroupCoordinator) (group memberId : String) (sessionTimeout : ℕ)
    (topics : List String) (counts : String → Option ℕ) (now : ℕ) :
    let r := c.join group memberId sessionTimeout topics counts now
    (∀ group', (c.group group').Evolves (r.2.group group')) ∧
      r.1.generation = (r.2.group group).generation ∧
      r.1.assignment = (r.2.group group).slotsOf r.1.memberId := by
  intro r
  let a := c.enroll (c.group group) memberId topics
  let members := (c.group group).members.insert a.1 { topics, sessionTimeout, lastHeartbeat := now }
  let g' :=
    if a.2.1 then (c.group group).rebalance members counts else { c.group group with members }
  have hown : r.2.group group = g' := by
    change (c.setGroup group g').group group = g'
    rw [group_setGroup, if_pos rfl]
  refine ⟨fun group' => ?_, congrArg Group.generation hown.symm, ?_⟩
  · exact (c.updates_join group memberId sessionTimeout topics counts now group').evolves
  · rw [hown]
    rfl

theorem updates_heartbeat (c : GroupCoordinator) (group memberId : String) (generation now : ℕ)
    (counts : String → Option ℕ) (group' : String) :
    (c.group group').Updates counts
      ((c.heartbeat group memberId generation now).2.group group') := by
  rw [heartbeat]
  split
  · exact .refl counts _
  · rename_i g hg
    split
    · exact .refl counts _
    · rename_i m hm
      refine updates_setGroup ?_ group'
      rw [group_of_lookup hg]
      exact .kept _ (subscription_insert hm rfl)

theorem updates_leave (c : GroupCoordinator) (group memberId : String)
    (counts : String → Option ℕ) (group' : String) :
    (c.group group').Updates counts ((c.leave group memberId counts).2.group group') := by
  rw [leave]
  split
  · exact .refl counts _
  · rename_i g hg
    split
    · exact .refl counts _
    · refine updates_setGroup ?_ group'
      rw [group_of_lookup hg]
      exact .rebalanced _

theorem updates_expire (c : GroupCoordinator) (counts : String → Option ℕ) (now : ℕ)
    (group : String) :
    (c.group group).Updates counts ((c.expire counts now).2.group group) := by
  rw [GroupCoordinator.group, GroupCoordinator.group, expire, Assoc.lookup_mapVal]
  cases c.groups.lookup group with
  | none => exact .refl counts _
  | some g =>
    rw [Option.map_some, Option.getD_some, Option.getD_some, Group.expire]
    split
    · exact .refl counts _
    · exact .rebalanced _

/-- A fenced commit passes only for a current member that knows the current generation. -/
theorem checkCommit_eq_none {group memberId : String} {generation : ℕ}
    (h : c.checkCommit group memberId generation = .none) (hfenced : memberId ≠ "") :
    memberId ∈ (c.group group).members ∧ generation = (c.group group).generation := by
  rw [checkCommit, if_neg hfenced] at h
  split at h
  · cases h
  · rename_i g hg
    rw [group_of_lookup hg]
    split_ifs at h with hmember hgeneration
    exact ⟨hmember, not_not.mp hgeneration⟩

end GroupCoordinator

/-! ## Runs -/

/-- A coordinator with the outcomes it has handed out, each with its group. -/
structure Membership where
  coordinator : GroupCoordinator
  outcomes : List (String × JoinOutcome)

/-- The calls, each with the partition counts and the time it sees. -/
inductive Action where
  | join (group memberId : String) (sessionTimeout : ℕ) (topics : List String)
      (counts : String → Option ℕ) (now : ℕ)
  | heartbeat (group memberId : String) (generation now : ℕ)
  | leave (group memberId : String) (counts : String → Option ℕ)
  | expire (counts : String → Option ℕ) (now : ℕ)

namespace Membership

def init : Membership := { coordinator := .new, outcomes := [] }

def step (r : Membership) : Action → Option Membership
  | .join group memberId sessionTimeout topics counts now =>
    let (outcome, c) := r.coordinator.join group memberId sessionTimeout topics counts now
    some { coordinator := c, outcomes := (group, outcome) :: r.outcomes }
  | .heartbeat group memberId generation now =>
    some { r with coordinator := (r.coordinator.heartbeat group memberId generation now).2 }
  | .leave group memberId counts =>
    some { r with coordinator := (r.coordinator.leave group memberId counts).2 }
  | .expire counts now => some { r with coordinator := (r.coordinator.expire counts now).2 }

def Free (_ : Membership) (_ : Action) : Prop := True

variable {r r' : Membership} {a : Action}

theorem evolves_step (h : step r a = some r') (group : String) :
    (r.coordinator.group group).Evolves (r'.coordinator.group group) := by
  cases a with
  | join group' memberId sessionTimeout topics counts now =>
    cases h
    exact (GroupCoordinator.join_spec _ group' memberId sessionTimeout topics counts now).1 group
  | heartbeat group' memberId generation now =>
    cases h
    exact (GroupCoordinator.updates_heartbeat _ group' memberId generation now
      (fun _ => none) group).evolves
  | leave group' memberId counts =>
    cases h
    exact (GroupCoordinator.updates_leave _ group' memberId counts group).evolves
  | expire counts now =>
    cases h
    exact (GroupCoordinator.updates_expire _ counts now group).evolves

/-- What is handed out is what the group of that generation assigns. -/
structure Current (c : GroupCoordinator) (o : String × JoinOutcome) : Prop where
  generation_le : o.2.generation ≤ (c.group o.1).generation
  assignment_eq : o.2.generation = (c.group o.1).generation →
    o.2.assignment = (c.group o.1).slotsOf o.2.memberId

/-- Two outcomes of one group and generation: the same for one member, disjoint for two. -/
def Compatible (o o' : String × JoinOutcome) : Prop :=
  o.1 = o'.1 → o.2.generation = o'.2.generation →
    (o.2.memberId = o'.2.memberId → o.2.assignment = o'.2.assignment) ∧
    (o.2.memberId ≠ o'.2.memberId → o.2.assignment.Disjoint o'.2.assignment)

structure Invariant (r : Membership) : Prop where
  exclusive : ∀ group, Exclusive (r.coordinator.group group).assignment
  current : ∀ o ∈ r.outcomes, Current r.coordinator o
  compatible : ∀ o ∈ r.outcomes, ∀ o' ∈ r.outcomes, Compatible o o'

theorem Current.of_evolves {c c' : GroupCoordinator} {o : String × JoinOutcome}
    (h : Current c o) (hev : (c.group o.1).Evolves (c'.group o.1)) : Current c' o := by
  have hle := h.generation_le
  rcases hev.quiet_or_next with ⟨hgen, hassign, -⟩ | ⟨hgen, -⟩
  · refine ⟨by omega, fun heq => ?_⟩
    rw [h.assignment_eq (heq.trans hgen), Group.slotsOf, Group.slotsOf, hassign]
  · exact ⟨by omega, fun heq => by omega⟩

/-- Two outcomes of the current generation are read off one assignment. -/
theorem Current.compatible {c : GroupCoordinator} {o o' : String × JoinOutcome}
    (hexclusive : Exclusive (c.group o.1).assignment) (h : Current c o) (h' : Current c o')
    (hnow : o.2.generation = (c.group o.1).generation) : Compatible o o' := by
  intro hgroup hgen
  have hassign := h.assignment_eq hnow
  have hassign' := h'.assignment_eq (by rw [← hgroup, ← hgen, hnow])
  rw [← hgroup] at hassign'
  constructor
  · intro hmember
    rw [hassign, hassign', hmember]
  · intro hmember slot hslot hslot'
    rw [hassign] at hslot
    rw [hassign'] at hslot'
    have howns : ∀ m, slot ∈ (c.group o.1).slotsOf m → Owns (c.group o.1).assignment m slot := by
      intro m hm
      rw [Group.slotsOf] at hm
      cases hl : (c.group o.1).assignment.lookup m with
      | none => simp [hl] at hm
      | some slots => exact ⟨slots, hl, by simpa [hl] using hm⟩
    exact hmember (hexclusive _ _ slot (howns _ hslot) (howns _ hslot'))

theorem Compatible.symm {o o' : String × JoinOutcome} (h : Compatible o o') : Compatible o' o := by
  intro hgroup hgen
  obtain ⟨hsame, hother⟩ := h hgroup.symm hgen.symm
  exact ⟨fun hmember => (hsame hmember.symm).symm, fun hmember => (hother (Ne.symm hmember)).symm⟩

theorem invariant_init : init.Invariant where
  exclusive _ _ _ _ := by
    rintro ⟨slots, hslots, -⟩
    cases hslots
  current := nofun
  compatible := nofun

theorem invariant_step (h : r.Invariant) (hstep : step r a = some r') : r'.Invariant := by
  have hev := evolves_step hstep
  have hexclusive : ∀ group, Exclusive (r'.coordinator.group group).assignment := fun group => by
    rcases (hev group).quiet_or_next with ⟨-, hassign, -⟩ | ⟨-, hnew⟩
    · rw [hassign]
      exact h.exclusive group
    · exact hnew
  have hold : ∀ o ∈ r.outcomes, Current r'.coordinator o := fun o ho =>
    (h.current o ho).of_evolves (hev o.1)
  cases a with
  | join group memberId sessionTimeout topics counts now =>
    obtain ⟨-, hgen, hassign⟩ :=
      r.coordinator.join_spec group memberId sessionTimeout topics counts now
    cases hstep
    have hnew : Current (r.coordinator.join group memberId sessionTimeout topics counts now).2
        (group, (r.coordinator.join group memberId sessionTimeout topics counts now).1) :=
      ⟨hgen.le, fun _ => hassign⟩
    refine ⟨hexclusive, List.forall_mem_cons.mpr ⟨hnew, hold⟩, ?_⟩
    refine List.forall_mem_cons.mpr ⟨List.forall_mem_cons.mpr ⟨?_, ?_⟩, fun o ho =>
      List.forall_mem_cons.mpr ⟨?_, h.compatible o ho⟩⟩
    · exact Current.compatible (hexclusive group) hnew hnew hgen
    · exact fun o ho => Current.compatible (hexclusive group) hnew (hold o ho) hgen
    · exact (Current.compatible (hexclusive group) hnew (hold o ho) hgen).symm
  | heartbeat group memberId generation now =>
    cases hstep
    exact ⟨hexclusive, hold, h.compatible⟩
  | leave group memberId counts =>
    cases hstep
    exact ⟨hexclusive, hold, h.compatible⟩
  | expire counts now =>
    cases hstep
    exact ⟨hexclusive, hold, h.compatible⟩

/-- In every run: a change of the subscriptions of a group takes it to a higher generation, the
outcomes of one generation are one assignment without overlaps, and a fenced commit passes only
for a current member with the current generation. -/
theorem assignments_exclusive (h : Reach step Free init r) :
    (∀ a r', step r a = some r' → ∀ group memberId,
      (r'.coordinator.group group).subscription memberId ≠
        (r.coordinator.group group).subscription memberId →
      (r.coordinator.group group).generation < (r'.coordinator.group group).generation) ∧
    (∀ o ∈ r.outcomes, ∀ o' ∈ r.outcomes, Compatible o o') ∧
    (∀ group memberId generation, memberId ≠ "" →
      r.coordinator.checkCommit group memberId generation = .none →
      memberId ∈ (r.coordinator.group group).members ∧
        generation = (r.coordinator.group group).generation) := by
  have hinv : r.Invariant :=
    h.invariant invariant_init fun _ _ _ hr _ hstep => invariant_step hr hstep
  refine ⟨fun a r' hstep group memberId hchange => ?_, hinv.compatible, ?_⟩
  · rcases (evolves_step hstep group).quiet_or_next with ⟨-, -, hsame⟩ | ⟨hgen, -⟩
    · exact absurd (hsame memberId) hchange
    · omega
  · exact fun group memberId generation hfenced hok =>
      GroupCoordinator.checkCommit_eq_none hok hfenced

/-- Two members share two partitions, and a third one makes them move on. -/
theorem assignments_exclusive_three :
    ∃ r : Membership, r.outcomes.map (fun o => (o.2.memberId, o.2.generation, o.2.assignment)) =
        [("m-3", 3, []), ("m-1", 2, [("t", 0)]), ("m-2", 2, [("t", 1)]),
          ("m-1", 1, [("t", 0), ("t", 1)])] ∧
      ∀ o ∈ r.outcomes, ∀ o' ∈ r.outcomes, Compatible o o' := by
  obtain ⟨r, hreach, houtcomes⟩ := Reach.exists_of_runSteps step (fun _ _ => True) init
    [.join "g" "" 10 ["t"] (fun _ => some 2) 0, .join "g" "" 10 ["t"] (fun _ => some 2) 1,
      .join "g" "m-1" 10 ["t"] (fun _ => some 2) 2, .join "g" "" 10 ["t"] (fun _ => some 2) 3]
    (fun r => r.outcomes.map (fun o => (o.2.memberId, o.2.generation, o.2.assignment)) =
      [("m-3", 3, []), ("m-1", 2, [("t", 0)]), ("m-2", 2, [("t", 1)]),
        ("m-1", 1, [("t", 0), ("t", 1)])]) (by decide)
  exact ⟨r, houtcomes, (assignments_exclusive hreach).2.1⟩

end Membership
end Replog.Groups
