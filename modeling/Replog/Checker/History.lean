import Replog.Library.Tabulate
import Mathlib.Data.List.Destutter

/-!
# The checker

What clients saw, and the report on it: acked ids that nobody consumed, offsets that went back in
one consumer's generation, offsets with two ids, and gaps. Duplicates are counted.
-/

namespace Replog.Checker
open Replog.Library

structure ProducedRecord where
  id : UInt64
  topic : String

structure ConsumedRecord where
  consumer : String
  /-- Offsets may start over in a new generation. -/
  generation : UInt64
  topic : String
  partition : UInt32
  offset : UInt64
  id : UInt64

namespace ConsumedRecord

def stream (c : ConsumedRecord) : String × UInt64 × String × UInt32 :=
  (c.consumer, c.generation, c.topic, c.partition)

def log (c : ConsumedRecord) : String × UInt32 := (c.topic, c.partition)

def position (c : ConsumedRecord) : String × UInt32 × UInt64 := (c.topic, c.partition, c.offset)

end ConsumedRecord

structure History where
  produced : List ProducedRecord
  consumed : List ConsumedRecord

structure Report where
  producedAcked : ℕ
  consumedTotal : ℕ
  distinctConsumed : ℕ
  missingIds : List UInt64
  duplicateDeliveries : ℕ
  monotonicityViolations : List String
  divergentOffsets : List String
  offsetGaps : List String

def Report.isOk (r : Report) : Bool :=
  r.missingIds.isEmpty && r.monotonicityViolations.isEmpty && r.divergentOffsets.isEmpty &&
    r.offsetGaps.isEmpty

namespace History

def new : History := { produced := [], consumed := [] }

def recordProduced (h : History) (id : UInt64) (topic : String) : History :=
  { h with produced := h.produced ++ [{ id, topic }] }

def recordConsumed (h : History) (consumer : String) (generation : UInt64) (topic : String)
    (partition : UInt32) (offset id : UInt64) : History :=
  { h with consumed := h.consumed ++ [{ consumer, generation, topic, partition, offset, id }] }

def consumedCount (h : History) : Assoc UInt64 ℕ := Assoc.counts ConsumedRecord.id h.consumed

def missingIds (h : History) : List UInt64 :=
  ((h.produced.filter fun p => p.id ∉ h.consumedCount).map ProducedRecord.id).mergeSort
    |>.destutter (· ≠ ·)

def monotonicityViolation (c : ConsumedRecord) (prev : UInt64) : String :=
  s!"{c.consumer} (gen {c.generation}) on {c.topic}-{c.partition}: offset {c.offset} after {prev}"

/-- Compares with the last offset of the stream, which the record then is. -/
def checkOrder (s : Assoc (String × UInt64 × String × UInt32) UInt64 × List String)
    (c : ConsumedRecord) : Assoc (String × UInt64 × String × UInt32) UInt64 × List String :=
  (s.1.insert c.stream c.offset,
    match s.1.lookup c.stream with
    | some prev => if c.offset ≤ prev then s.2 ++ [monotonicityViolation c prev] else s.2
    | none => s.2)

def divergence (c : ConsumedRecord) (id : UInt64) : String :=
  s!"{c.topic}-{c.partition} offset {c.offset}: id {id} vs id {c.id}"

/-- Compares with the id first seen at the offset. -/
def checkId (s : Assoc (String × UInt32 × UInt64) UInt64 × List String) (c : ConsumedRecord) :
    Assoc (String × UInt32 × UInt64) UInt64 × List String :=
  match s.1.lookup c.position with
  | some id =>
    if id ≠ c.id then (s.1, s.2 ++ [divergence c id]) else (s.1.insert c.position c.id, s.2)
  | none => (s.1.insert c.position c.id, s.2)

def verify (h : History) : Report where
  producedAcked := h.produced.length
  consumedTotal := h.consumed.length
  distinctConsumed := h.consumedCount.entries.length
  missingIds := h.missingIds
  duplicateDeliveries := (h.consumedCount.entries.map fun e => e.2 - 1).sum
  monotonicityViolations := (h.consumed.foldl checkOrder (∅, [])).2
  divergentOffsets := (h.consumed.foldl checkId (∅, [])).2
  offsetGaps := []

/-- The offsets consumed of each partition, each of them once. -/
def seen (h : History) : Assoc (String × UInt32) (List UInt64) :=
  Assoc.tabulate ConsumedRecord.log (fun offsets c => (offsets.getD []).insert c.offset) h.consumed

def offsetsUpTo (max : UInt64) : List UInt64 := (List.range (max.toNat + 1)).map UInt64.ofNat

def gapText (log : String × UInt32) (consumed : ℕ) (max firstHole : UInt64) : String :=
  s!"{log.1}-{log.2}: {consumed} of {max + 1} offsets consumed, first hole at {firstHole}"

/-- Compares how many offsets of a partition were consumed with the largest. The code panics where
this is `none`. -/
def offsetGap (log : String × UInt32) (offsets : List UInt64) : Option (List String) :=
  match offsets.max? with
  | none => none
  | some max =>
    if UInt64.ofNat offsets.length ≠ max + 1 then
      ((offsetsUpTo max).find? (· ∉ offsets)).map fun firstHole =>
        [gapText log offsets.length max firstHole]
    else some []

def verifyFromStart (h : History) : Option Report :=
  (h.seen.entries.mapM fun e => offsetGap e.1 e.2).map fun gaps =>
    { h.verify with offsetGaps := gaps.flatten.mergeSort }

end History
end Replog.Checker
