import Replog.Library.Transition
import Replog.Replication.Broker

/-!
# The controller

The tuple of one partition (leader, epoch, ISR) and the liveness of the brokers, with the four
mutations that touch them. Every mutation that changes something bumps the metadata version.
-/

namespace Replog.Replication

structure Controller where
  version : ℕ
  alive : BrokerId → Bool
  leader : Option BrokerId
  leaderEpoch : ℕ
  replicas : List BrokerId
  isr : List BrokerId

namespace Controller

/-- The partition as `CreateTopic` lays it out on brokers that are alive. -/
def create (replicas : List BrokerId) : Controller where
  version := 1
  alive := fun b => b ∈ replicas
  leader := replicas.head?
  leaderEpoch := 1
  replicas
  isr := replicas

def partitionMeta (c : Controller) : PartitionMeta :=
  { version := c.version, leader := c.leader, leaderEpoch := c.leaderEpoch,
    replicas := c.replicas, isr := c.isr }

def leaderAlive (c : Controller) : Bool := c.leader.elim false c.alive

/-- Elects from the ISR only, minus its dead members, when the leader is dead or missing. The flag
says whether anything changed. -/
def electWhereNeeded (c : Controller) : Bool × Controller :=
  if c.leaderAlive then (false, c)
  else
    match c.isr.find? fun b => c.alive b with
    | some newLeader =>
      (true, { c with leader := some newLeader, leaderEpoch := c.leaderEpoch + 1,
                      isr := c.isr.filter fun b => c.alive b })
    | none => (c.leader.isSome, { c with leader := none })

/-- Bumps the version of a mutation that reports a change. -/
def mutate (r : Bool × Controller) : Controller :=
  if r.1 then { r.2 with version := r.2.version + 1 } else r.2

def setAlive (c : Controller) (b : BrokerId) (alive : Bool) : Controller :=
  { c with alive := fun a => if a = b then alive else c.alive a }

/-- `RegisterBroker`; `addrChanged` when the broker comes with other addresses than before. -/
def register (c : Controller) (b : BrokerId) (addrChanged : Bool) : Controller :=
  let (elected, c') := (c.setAlive b true).electWhereNeeded
  mutate (!c.alive b || addrChanged || elected, c')

/-- `BrokerHeartbeat` of a known broker; only one that comes back from the dead elects. -/
def heartbeat (c : Controller) (b : BrokerId) : Controller :=
  if c.alive b then c else mutate (c.setAlive b true).electWhereNeeded

/-- `sweep_liveness`, with the brokers whose session has run out. -/
def sweepLiveness (c : Controller) (expired : List BrokerId) : Controller :=
  let dead := { c with alive := fun b => c.alive b && b ∉ expired }
  if expired.any fun b => c.alive b then mutate (true, dead.electWhereNeeded.2) else c

/-- `AlterIsr`: fenced by the epoch, the ISR has to hold the leader and lie within the replicas.
The answer is the metadata version. -/
def alterIsr (c : Controller) (req : AlterIsrRequest) : Except ErrorCode ℕ × Controller :=
  if req.leaderEpoch ≠ c.leaderEpoch then (.error .fencedEpoch, c)
  else if req.isr = [] ∨ (∀ l ∈ c.leader, l ∉ req.isr) ∨ ¬ req.isr ⊆ c.replicas then
    (.error .malformed, c)
  else if c.isr = req.isr then (.ok c.version, c)
  else (.ok (c.version + 1), { c with isr := req.isr, version := c.version + 1 })

variable {c : Controller}

/-- A later state of the controller: an election starts a new epoch, within an epoch only the
leader can go, and a leader is of the ISR. -/
structure Follows (old new : Controller) : Prop where
  version_le : old.version ≤ new.version
  epoch : (new.leaderEpoch = old.leaderEpoch ∧ new.isr = old.isr ∧
    (new.leader = old.leader ∨ new.leader = none)) ∨ new.leaderEpoch = old.leaderEpoch + 1
  office : (∀ l ∈ old.leader, l ∈ old.isr) → ∀ l ∈ new.leader, l ∈ new.isr

theorem Follows.refl (c : Controller) : c.Follows c := ⟨le_rfl, .inl ⟨rfl, rfl, .inl rfl⟩, id⟩

private theorem follows_electWhereNeeded (c : Controller) : c.Follows c.electWhereNeeded.2 := by
  rw [electWhereNeeded]
  split
  · exact .refl c
  · split
    · rename_i newLeader hfind
      refine ⟨le_rfl, .inr rfl, fun _ l hl => ?_⟩
      cases hl
      exact List.mem_filter.mpr ⟨List.mem_of_find?_eq_some hfind, List.find?_some hfind⟩
    · exact ⟨le_rfl, .inl ⟨rfl, rfl, .inr rfl⟩, fun _ l hl => by cases hl⟩

theorem follows_mutate (c : Controller) (changed : Bool) (alive : BrokerId → Bool) :
    c.Follows (mutate (changed, { c with alive }.electWhereNeeded.2)) := by
  have helect := follows_electWhereNeeded { c with alive }
  cases changed with
  | true => exact ⟨helect.version_le.trans (Nat.le_succ _), helect.epoch, helect.office⟩
  | false => exact ⟨helect.version_le, helect.epoch, helect.office⟩

theorem follows_register (c : Controller) (b : BrokerId) (addrChanged : Bool) :
    c.Follows (c.register b addrChanged) := follows_mutate c _ _

theorem follows_heartbeat (c : Controller) (b : BrokerId) : c.Follows (c.heartbeat b) := by
  rw [heartbeat]
  split
  · exact .refl c
  · exact follows_mutate c _ _

theorem follows_sweepLiveness (c : Controller) (expired : List BrokerId) :
    c.Follows (c.sweepLiveness expired) := by
  rw [sweepLiveness]
  split
  · exact follows_mutate c _ _
  · exact .refl c

/-- An `AlterIsr` is refused and changes nothing, or it names the epoch and its ISR, which holds
the leader, is the one the partition has from then on. -/
theorem alterIsr_cases (c : Controller) (req : AlterIsrRequest) :
    (∃ code, c.alterIsr req = (.error code, c)) ∨
      (req.leaderEpoch = c.leaderEpoch ∧ (∃ l, c.leader = some l ∧ l ∈ req.isr) ∧
        ∃ version, (version = c.version ∧ c.isr = req.isr ∨ version = c.version + 1) ∧
          c.alterIsr req = (.ok version, { c with isr := req.isr, version })) := by
  rw [alterIsr]
  split
  · exact .inl ⟨_, rfl⟩
  · rename_i hepoch
    split
    · exact .inl ⟨_, rfl⟩
    · rename_i hform
      have hleader : ∃ l, c.leader = some l ∧ l ∈ req.isr := by
        by_contra hnone
        exact hform (.inr (.inl fun l hl hmem => hnone ⟨l, hl, hmem⟩))
      split
      · rename_i hsame
        refine .inr ⟨not_not.mp hepoch, hleader, c.version, .inl ⟨rfl, hsame⟩, ?_⟩
        rw [← hsame]
      · exact .inr ⟨not_not.mp hepoch, hleader, _, .inr rfl, rfl⟩

end Controller
end Replog.Replication
