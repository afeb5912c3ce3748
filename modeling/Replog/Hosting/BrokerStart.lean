import Replog.Groups.StoreRestarts
import Replog.Hosting.DataDir

/-!
# The start of a broker

A broker scans its data directory, opens the partitions it is to open and replays the commits of its
offsets log. Every one of these can fail, and then it does not start.
-/

namespace Replog.Hosting
open Replog.Library
open Replog.Partition (Thread)
open Replog.Proto (ErrorCode)
open Replog.Storage (LogConfig Clock)

inductive StartError where
  | invalidLayout (err : LayoutError)
  | storage
  | offsetsReplay (code : ErrorCode)

/-- The log and the epoch checkpoint in the directory of a partition. -/
structure PartitionFiles where
  log : Storage.Dir
  epochs : Option (List UInt8)

structure Started where
  threads : List ((String × ℕ) × Thread)
  offsets : Assoc Groups.CacheKey ℕ

variable (crc : List UInt8 → UInt32) (config : LogConfig)

/-- Opens one partition after the other, up to the first that fails. -/
def spawnAll (clock : Clock) (files : String × ℕ → PartitionFiles) :
    List (String × ℕ) → Option (List ((String × ℕ) × Thread))
  | [] => some []
  | key :: keys =>
    match Thread.spawn crc config clock (files key).log (files key).epochs with
    | none => none
    | some t => (spawnAll clock files keys).map fun threads => (key, t) :: threads

/-- `Broker::start` up to the listener. The replay of the offsets log reads `fuel` times at most. -/
def start (clustered : Bool) (clock : Clock) (files : String × ℕ → PartitionFiles) (fuel : ℕ)
    (entries : List DirEntry) : Option (Except StartError Started) :=
  match openings clustered entries with
  | .error err => some (.error (.invalidLayout err))
  | .ok keys =>
    match spawnAll crc config clock files keys with
    | none => some (.error .storage)
    | some threads =>
      (threads.lookup (offsetsTopic, 0)).bind fun t =>
        (Groups.openCache crc fuel t).map fun
          | .ok offsets => .ok { threads, offsets }
          | .error code => .error (.offsetsReplay code)

variable {crc config}

end Replog.Hosting
