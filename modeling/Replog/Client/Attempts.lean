import Replog.Client.Metadata
import Replog.Client.Producer

/-!
# Attempts

A produce or a fetch of the cluster client sends its request to the leader that the cached metadata
names, and tries again after the errors that come with a failover, until it is too late.
-/

namespace Replog.Client

def ClusterClient.leaderFor (s : ClusterClient) (topic : String) (partition : UInt32) :
    Option (String × UInt64) :=
  (s.cluster.topics.find? fun t => t.name = topic).bind fun t =>
    (t.partitions.find? fun p => p.partition = partition).bind fun p =>
      if p.leader < 0 then none
      else (s.cluster.brokers.find? fun b => b.1 = p.leader.toUInt32).map fun b =>
        (b.2, p.leaderEpoch)

inductive Attempt where
  | route
  | await (addr : String)
  /-- Sleeps and refreshes the metadata before the next attempt. -/
  | backoff
  deriving DecidableEq

/-- The errors after which a produce is tried again. -/
def retriesProduce : ClientError → Bool
  | .broker .notLeader | .broker .fencedEpoch | .broker .offline | .broker .notEnoughReplicas
  | .broker .unknownTopicOrPartition | .closed | .io => true
  | _ => false

def retriesFetch : ClientError → Bool
  | .broker .notLeader | .broker .fencedEpoch | .broker .offline | .closed | .io => true
  | _ => false

/-- What follows on an attempt that failed, past the deadline or not; `none` when the call returns
the error. -/
def Attempt.failed (retries : ClientError → Bool) (error : ClientError) (late : Bool) :
    Option Attempt :=
  if retries error && !late then some .backoff else none

/-- The start of an attempt, which may or may not get a connection. The second part is where its
request goes. -/
def ClusterClient.attempt (s : ClusterClient) (retries : ClientError → Bool) (topic : String)
    (partition : UInt32) (connected late : Bool) : Option Attempt × Option (String × UInt64) :=
  match s.leaderFor topic partition with
  | none => (Attempt.failed retries (.broker .offline) late, none)
  | some (addr, epoch) =>
    if connected then (some (.await addr), some (addr, epoch))
    else (Attempt.failed retries .io late, none)

end Replog.Client
