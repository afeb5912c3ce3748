import Replog.Library.Transition
import Replog.Replication.Broker

/-!
# One broker among others

A broker whose clients, followers, leaders and controller may send it anything at any time, with
the trace of what it did. The only promise is the controller's: epochs come in order, and the
leadership of an epoch is not handed back to a broker it was taken from.
-/

namespace Replog.Replication
open Replog.Library

structure Node where
  broker : Broker := {}
  trace : List Event := []

def Action.metadata? : Action → Option PartitionMeta
  | .metadata p => some p
  | _ => none

def Action.task? : Action → Option ℕ
  | .task i => some i
  | _ => none

def Action.fetcher? : Action → Option ℕ
  | .fetcher g => some g
  | _ => none

def Action.isProcess : Action → Bool
  | .process _ _ _ => true
  | _ => false

def Action.isApply : Action → Bool
  | .applyMetadata => true
  | _ => false

def Runtime.pulled? : Runtime → Option PartitionMeta
  | .pulled p => some p
  | _ => none

namespace Node

variable (config : BrokerConfig) (self : BrokerId)

def step (s : Node) (a : Action) : Option Node :=
  (s.broker.step config self a).map fun (b, events) => ⟨b, s.trace ++ events⟩

/-- What the controller promises about the metadata a broker gets. -/
def MetadataInOrder (s : Node) (a : Action) : Prop :=
  ∀ p ∈ a.metadata?, s.broker.repl.epoch ≤ p.leaderEpoch ∧
    (p.leaderEpoch = s.broker.repl.epoch → p.leader = some self → s.broker.repl.isLeader = true)

instance (s : Node) (a : Action) : Decidable (s.MetadataInOrder self a) :=
  inferInstanceAs (Decidable (∀ p ∈ a.metadata?, _))

/-- The commands queued so far, oldest first. -/
def queued (s : Node) : List Cmd :=
  s.trace.filterMap fun
    | .queued c => some c
    | _ => none

end Node
end Replog.Replication
