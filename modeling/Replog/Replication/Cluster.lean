import Replog.Replication.Controller
import Replog.Replication.QueueFencing

/-!
# The replicas of a partition and their controller

The controller, the brokers and the messages between them. A message is delivered once or lost,
in any order; a broker pulls the metadata as the controller has it; a broker may die at any
moment and start again on what is left of its log.
-/

namespace Replog.Replication
open Replog.Library

/-- A step that a broker takes by itself or on behalf of a client. -/
def Action.isLocal : Action → Bool
  | .replicaFetch _ | .epochCheck _ | .metadata _ | .alterIsrReply _ _ | .epochReply _ _ _
  | .fetchReply _ _ _ => false
  | _ => true

def Event.sent? : Event → Option Message
  | .sent m => some m
  | _ => none

structure Cluster where
  controller : Controller
  nodes : BrokerId → Node
  net : List Message
  /-- The brokers that an accepted `AlterIsr` has added, with the version that has them. -/
  admitted : List (ℕ × BrokerId)

namespace Cluster

inductive Action where
  | register (b : BrokerId) (addrChanged : Bool)
  | heartbeat (b : BrokerId)
  | sweepLiveness (expired : List BrokerId)
  /-- A broker is given the metadata. -/
  | pull (b : BrokerId)
  | broker (b : BrokerId) (a : Replication.Action)
  /-- A message arrives; a reply goes to the fetcher of a generation. -/
  | deliver (i generation : ℕ)
  | lose (i : ℕ)
  /-- A broker dies inside the command it is at, or between two, and starts again. -/
  | crash (b : BrokerId) (wall : ℕ → Int64) (k : ℕ)

def create (replicas : List BrokerId) : Cluster where
  controller := .create replicas
  nodes := fun _ => {}
  net := []
  admitted := []

variable (config : BrokerId → BrokerConfig)

/-- The broker `b` takes a step; what it sends is on its way. -/
def stepBroker (c : Cluster) (b : BrokerId) (a : Replication.Action) : Option Cluster :=
  ((c.nodes b).broker.step (config b) b a).map fun (b', events) => { c with
    nodes := Function.update c.nodes b ⟨b', (c.nodes b).trace ++ events⟩
    net := c.net ++ events.filterMap Event.sent? }

/-- The controller handles an `AlterIsr` and answers. -/
def stepAlterIsr (c : Cluster) (req : AlterIsrRequest) : Cluster :=
  let (result, controller) := c.controller.alterIsr req
  { c with
    controller
    net := c.net ++ [.alterIsrReply req result]
    admitted := c.admitted ++
      (controller.isr.filter (· ∉ c.controller.isr)).map fun f => (controller.version, f) }

/-- The message is taken to whom it is for. -/
def receive (c : Cluster) (generation : ℕ) : Message → Option Cluster
  | .replicaFetch target req => c.stepBroker config target (.replicaFetch req)
  | .fetchReply req result => c.stepBroker config req.follower (.fetchReply generation req result)
  | .epochCheck target req => c.stepBroker config target (.epochCheck req)
  | .epochReply req result => c.stepBroker config req.follower (.epochReply generation req result)
  | .alterIsr req => some (c.stepAlterIsr req)
  | .alterIsrReply req result => c.stepBroker config req.proposer (.alterIsrReply req result)

def step (c : Cluster) : Action → Option Cluster
  | .register b addrChanged => some { c with controller := c.controller.register b addrChanged }
  | .heartbeat b => some { c with controller := c.controller.heartbeat b }
  | .sweepLiveness expired => some { c with controller := c.controller.sweepLiveness expired }
  | .pull b => c.stepBroker config b (.metadata c.controller.partitionMeta)
  | .broker b a => if a.isLocal then c.stepBroker config b a else none
  | .deliver i generation =>
    c.net[i]?.bind (receive config { c with net := c.net.eraseIdx i } generation)
  | .lose i => if i < c.net.length then some { c with net := c.net.eraseIdx i } else none
  | .crash b wall k =>
    let broker := (c.nodes b).broker
    let restarted := Broker.restart { broker with log := broker.torn (config b) wall k }
    some { c with
      nodes := Function.update c.nodes b { c.nodes b with broker := restarted } }

/-! ## What a step can do -/

/-- The broker that acts, how, and the messages that are left. -/
inductive Acts (c : Cluster) : Action → BrokerId → Replication.Action → List Message → Prop where
  | pull {b} : Acts c (.pull b) b (.metadata c.controller.partitionMeta) c.net
  | broker {b a} (hlocal : a.isLocal = true) : Acts c (.broker b a) b a c.net
  | replicaFetch {i g b req} (hm : c.net[i]? = some (.replicaFetch b req)) :
    Acts c (.deliver i g) b (.replicaFetch req) (c.net.eraseIdx i)
  | fetchReply {i g req result} (hm : c.net[i]? = some (.fetchReply req result)) :
    Acts c (.deliver i g) req.follower (.fetchReply g req result) (c.net.eraseIdx i)
  | epochCheck {i g b req} (hm : c.net[i]? = some (.epochCheck b req)) :
    Acts c (.deliver i g) b (.epochCheck req) (c.net.eraseIdx i)
  | epochReply {i g req result} (hm : c.net[i]? = some (.epochReply req result)) :
    Acts c (.deliver i g) req.follower (.epochReply g req result) (c.net.eraseIdx i)
  | alterIsrReply {i g req result} (hm : c.net[i]? = some (.alterIsrReply req result)) :
    Acts c (.deliver i g) req.proposer (.alterIsrReply req result) (c.net.eraseIdx i)

/-- A mutation of the controller that is not about one partition. -/
inductive Sweeps (k : Controller) : Action → Controller → Prop where
  | register {b addrChanged} : Sweeps k (.register b addrChanged) (k.register b addrChanged)
  | heartbeat {b} : Sweeps k (.heartbeat b) (k.heartbeat b)
  | sweepLiveness {expired} : Sweeps k (.sweepLiveness expired) (k.sweepLiveness expired)

inductive Steps (c : Cluster) : Action → Cluster → Prop where
  | sweeps {a : Action} {controller} (h : Sweeps c.controller a controller) :
    Steps c a { c with controller }
  | acts {a : Action} {b act net broker events} (h : Acts c a b act net)
    (hb : (c.nodes b).broker.step (config b) b act = some (broker, events)) :
    Steps c a { c with
      nodes := Function.update c.nodes b ⟨broker, (c.nodes b).trace ++ events⟩
      net := net ++ events.filterMap Event.sent? }
  | alterIsr {i g req} (hm : c.net[i]? = some (.alterIsr req)) :
    Steps c (.deliver i g) (stepAlterIsr { c with net := c.net.eraseIdx i } req)
  | lose {i} : Steps c (.lose i) { c with net := c.net.eraseIdx i }
  | crash {b wall k} : Steps c (.crash b wall k) { c with
      nodes := Function.update c.nodes b { c.nodes b with
        broker := Broker.restart { (c.nodes b).broker with
          log := (c.nodes b).broker.torn (config b) wall k } } }

variable {config} {c c' : Cluster} {a : Action}

private theorem steps_of_stepBroker {net : List Message} {b : BrokerId}
    {act : Replication.Action} (hacts : Acts c a b act net)
    (h : stepBroker config { c with net } b act = some c') : Steps config c a c' := by
  obtain ⟨⟨broker, events⟩, hb, rfl⟩ := Option.map_eq_some_iff.mp h
  exact .acts hacts hb

theorem steps_of_step (h : step config c a = some c') : Steps config c a c' := by
  cases a with
  | register b addrChanged =>
    cases h
    exact .sweeps .register
  | heartbeat b =>
    cases h
    exact .sweeps .heartbeat
  | sweepLiveness expired =>
    cases h
    exact .sweeps .sweepLiveness
  | pull b => exact steps_of_stepBroker .pull h
  | broker b a =>
    rw [step] at h
    split at h
    · exact steps_of_stepBroker (.broker ‹_›) h
    · cases h
  | deliver i g =>
    obtain ⟨m, hm, hreceive⟩ := Option.bind_eq_some_iff.mp h
    cases m with
    | replicaFetch target req => exact steps_of_stepBroker (.replicaFetch hm) hreceive
    | fetchReply req result => exact steps_of_stepBroker (.fetchReply hm) hreceive
    | epochCheck target req => exact steps_of_stepBroker (.epochCheck hm) hreceive
    | epochReply req result => exact steps_of_stepBroker (.epochReply hm) hreceive
    | alterIsr req =>
      cases hreceive
      exact .alterIsr hm
    | alterIsrReply req result => exact steps_of_stepBroker (.alterIsrReply hm) hreceive
  | lose i =>
    rw [step] at h
    split at h
    · cases h
      exact .lose
    · cases h
  | crash b wall k =>
    cases h
    exact .crash

end Cluster
end Replog.Replication
