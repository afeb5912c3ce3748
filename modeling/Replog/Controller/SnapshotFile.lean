import Replog.Controller.Contents
import Replog.Proto.RoundTrip

/-!
# The controller's state file

The snapshot as bytes: a magic number, then the version, the brokers and the topics, each list
behind its count. The file is replaced as a whole, and a file that is cut or has something behind
it is refused.
-/

namespace Replog.Controller
open Replog.Library
open Replog.Proto (StrFits VecFits IdsFit ProtoError)
open Replog.Proto.Wire

def SNAPSHOT_MAGIC : UInt32 := 0x524C4332

inductive SnapshotError where
  | truncated
  | badMagic
  | malformed (e : ProtoError)
  deriving DecidableEq

/-! ## Writing -/

def putBroker (b : UInt32 × String × String) : List UInt8 :=
  putU32 b.1 ++ (putStr b.2.1 ++ putStr b.2.2)

def putPartition (p : PartitionState) : List UInt8 :=
  putI32 p.leader ++ (putU64 (.ofNat p.leaderEpoch) ++
    (putVec putU32 p.replicas ++ putVec putU32 p.isr))

def putTopic (t : String × List PartitionState) : List UInt8 :=
  putStr t.1 ++ putVec putPartition t.2

def putSnapshot (snap : Snapshot) : List UInt8 :=
  putU64 (.ofNat snap.version) ++ (putVec putBroker snap.brokers ++ putVec putTopic snap.topics)

def persistSnapshot (s : State) : List UInt8 := putU32 SNAPSHOT_MAGIC ++ putSnapshot s.snapshot

/-! ## Reading -/

def readBroker : Reader (UInt32 × String × String) := do
  let id ← u32
  let addr ← string
  let peerAddr ← string
  return (id, addr, peerAddr)

def readPartition : Reader PartitionState := do
  let leader ← i32
  let leaderEpoch ← u64
  let replicas ← vec u32
  let isr ← vec u32
  return { leader, leaderEpoch := leaderEpoch.toNat, replicas, isr }

def readTopic : Reader (String × List PartitionState) := do
  let name ← string
  let parts ← vec readPartition
  return (name, parts)

def readSnapshot : Reader Snapshot := do
  let version ← u64
  let brokers ← vec readBroker
  let topics ← vec readTopic
  return { version := version.toNat, brokers, topics }

def parseSnapshot (bytes : List UInt8) : Except SnapshotError Snapshot :=
  match u32.run bytes with
  | .error _ => .error .truncated
  | .ok (magic, rest) =>
    if magic ≠ SNAPSHOT_MAGIC then .error .badMagic
    else
      match readAll readSnapshot rest with
      | .error e => .error (.malformed e)
      | .ok snap => .ok snap

/-- What the controller starts with when the file has these bytes. -/
def loadSnapshotFile (now : ℕ) (bytes : List UInt8) : Except SnapshotError State :=
  (parseSnapshot bytes).map fun snap => loadSnapshot now (some snap)

/-! ## Round trip -/

structure PartitionState.Fits (p : PartitionState) : Prop where
  leaderEpoch : p.leaderEpoch < 2 ^ 64
  replicas : IdsFit p.replicas
  isr : IdsFit p.isr

/-- The counters are `u64`s, and lengths fit the fields they are written to. -/
structure Snapshot.Fits (snap : Snapshot) : Prop where
  version : snap.version < 2 ^ 64
  brokers : VecFits (fun b => StrFits b.2.1 ∧ StrFits b.2.2) snap.brokers
  topics : VecFits (fun t => StrFits t.1 ∧ VecFits PartitionState.Fits t.2) snap.topics

/-- The version and the epochs are `u64`s; no string is longer than 65535 bytes and no collection
larger than a `u32` can count. -/
structure State.Fits (s : State) : Prop where
  version : s.version < 2 ^ 64
  brokers : s.brokers.entries.length < 2 ^ 32
  addresses : ∀ id b, s.brokers.lookup id = some b → StrFits b.addr ∧ StrFits b.peerAddr
  topics : s.topics.entries.length < 2 ^ 32
  names : ∀ name parts, s.topics.lookup name = some parts → StrFits name
  partitions : ∀ name parts, s.topics.lookup name = some parts → VecFits PartitionState.Fits parts

private theorem reads_broker (b : UInt32 × String × String) (h : StrFits b.2.1 ∧ StrFits b.2.2) :
    readBroker.Reads (putBroker b) b :=
  (reads_u32 _).bind ((reads_string h.1).bind (reads_string h.2).bind_pure)

private theorem reads_partition (p : PartitionState) (h : p.Fits) :
    readPartition.Reads (putPartition p) p := by
  have hread : readPartition.Reads (putPartition p)
      { p with leaderEpoch := (UInt64.ofNat p.leaderEpoch).toNat } :=
    (reads_i32 _).bind ((reads_u64 _).bind (h.replicas.reads.bind h.isr.reads.bind_pure))
  rwa [UInt64.toNat_ofNat_of_lt' h.leaderEpoch] at hread

private theorem reads_topic (t : String × List PartitionState)
    (h : StrFits t.1 ∧ VecFits PartitionState.Fits t.2) : readTopic.Reads (putTopic t) t :=
  (reads_string h.1).bind (h.2.reads reads_partition).bind_pure

private theorem reads_snapshot (snap : Snapshot) (h : snap.Fits) :
    readSnapshot.Reads (putSnapshot snap) snap := by
  have hread : readSnapshot.Reads (putSnapshot snap)
      { snap with version := (UInt64.ofNat snap.version).toNat } :=
    (reads_u64 _).bind ((h.brokers.reads reads_broker).bind
      (h.topics.reads reads_topic).bind_pure)
  rwa [UInt64.toNat_ofNat_of_lt' h.version] at hread

theorem State.Fits.snapshot {s : State} (h : s.Fits) : s.snapshot.Fits where
  version := h.version
  brokers := by
    constructor
    · simpa [State.snapshot, Assoc.sorted] using h.brokers
    · intro b hb
      obtain ⟨⟨id, b⟩, hmem, rfl⟩ := List.mem_map.mp hb
      exact h.addresses id b (Assoc.mem_sorted.mp hmem)
  topics := by
    constructor
    · simpa [State.snapshot, Assoc.sorted] using h.topics
    · rintro ⟨name, parts⟩ hmem
      have hlookup := Assoc.mem_sorted.mp hmem
      exact ⟨h.names name parts hlookup, h.partitions name parts hlookup⟩

private theorem parseSnapshot_persistSnapshot {s : State} (h : s.Fits) :
    parseSnapshot (persistSnapshot s) = .ok s.snapshot := by
  have hbody : readAll readSnapshot (putSnapshot s.snapshot) = .ok s.snapshot := by
    have hrun := reads_snapshot s.snapshot h.snapshot []
    rw [List.append_nil] at hrun
    exact Proto.readAll_eq_ok.mpr hrun
  simp only [parseSnapshot, persistSnapshot, reads_u32 SNAPSHOT_MAGIC (putSnapshot s.snapshot),
    hbody]
  rfl

private theorem parseSnapshot_whole {bytes : List UInt8} {snap : Snapshot}
    (h : parseSnapshot bytes = .ok snap) :
    (∀ p, p <+: bytes → p ≠ bytes → ∀ snap', parseSnapshot p ≠ .ok snap') ∧
      ∀ more, more ≠ [] → ∀ snap', parseSnapshot (bytes ++ more) ≠ .ok snap' := by
  have hparse : ∀ bytes snap, parseSnapshot bytes = .ok snap →
      ∃ rest, u32.run bytes = .ok (SNAPSHOT_MAGIC, rest) ∧
        readSnapshot.run rest = .ok (snap, []) := by
    intro bytes snap h
    rw [parseSnapshot] at h
    split at h
    · cases h
    · rename_i magic rest hmagic
      split at h
      · cases h
      · rename_i heq
        rw [not_not] at heq
        subst heq
        refine ⟨rest, hmagic, ?_⟩
        split at h
        · cases h
        · rename_i hread
          cases h
          exact Proto.readAll_eq_ok.mp hread
  obtain ⟨rest, hmagic, hread⟩ := hparse bytes snap h
  constructor
  · rintro p ⟨more, rfl⟩ hne snap' hp
    obtain ⟨rest', hmagic', hread'⟩ := hparse p snap' hp
    have hlong := u32.run_append hmagic' more
    rw [hmagic, Except.ok.injEq, Prod.mk.injEq] at hlong
    obtain ⟨-, rfl⟩ := hlong
    refine Reader.run_isPrefix_ne hread (List.prefix_append rest' more) ?_ hread'
    exact fun heq => hne (by simpa using heq)
  · intro more hmore snap' hp
    obtain ⟨rest', hmagic', hread'⟩ := hparse _ snap' hp
    rw [u32.run_append hmagic more, Except.ok.injEq, Prod.mk.injEq] at hmagic'
    obtain ⟨-, rfl⟩ := hmagic'
    rw [readSnapshot.run_append hread more, Except.ok.injEq, Prod.mk.injEq, List.nil_append]
      at hread'
    exact hmore hread'.2

/-- What a restarted controller has of a state: everything but the liveness of the brokers. -/
structure Restored (now : ℕ) (s s' : State) : Prop where
  version : s'.version = s.version
  brokers : ∀ id, s'.brokers.lookup id =
    (s.brokers.lookup id).map fun b => restoredBroker now b.addr b.peerAddr
  topics : ∀ topic, s'.topics.lookup topic = s.topics.lookup topic

private theorem restored_loadSnapshot (now : ℕ) (s : State) :
    Restored now s (loadSnapshot now (some s.snapshot)) where
  version := rfl
  brokers id := by
    have hlist : s.snapshot.brokers.map (fun b => (b.1, restoredBroker now b.2.1 b.2.2)) =
        s.brokers.sorted.map fun b => (b.1, restoredBroker now b.2.addr b.2.peerAddr) := by
      simp [State.snapshot]
    have hlookup := Assoc.lookup_ofList_map s.brokers.sorted
      (fun b : BrokerState => restoredBroker now b.addr b.peerAddr) id
    rw [Assoc.lookup_ofList_sorted] at hlookup
    rw [loadSnapshot, hlist]
    exact hlookup
  topics topic := s.topics.lookup_ofList_sorted topic

/-- A state that is persisted comes back, with all brokers taken for dead, and from no strict
prefix and no extension of the file does anything come back. -/
theorem snapshot_round_trip {s : State} (h : s.Fits) (now : ℕ) :
    (∃ s', loadSnapshotFile now (persistSnapshot s) = .ok s' ∧ Restored now s s') ∧
      (∀ p, p <+: persistSnapshot s → p ≠ persistSnapshot s →
        ∀ s', loadSnapshotFile now p ≠ .ok s') ∧
      ∀ more, more ≠ [] → ∀ s', loadSnapshotFile now (persistSnapshot s ++ more) ≠ .ok s' := by
  have hparse := parseSnapshot_persistSnapshot h
  obtain ⟨hfront, hextension⟩ := parseSnapshot_whole hparse
  have hload : ∀ bytes s', loadSnapshotFile now bytes = .ok s' →
      ∃ snap, parseSnapshot bytes = .ok snap := by
    intro bytes s' hs'
    rw [loadSnapshotFile] at hs'
    cases hp : parseSnapshot bytes with
    | error e =>
      rw [hp] at hs'
      cases hs'
    | ok snap => exact ⟨snap, rfl⟩
  refine ⟨⟨_, ?_, restored_loadSnapshot now s⟩, fun p hp hne s' hs' => ?_,
    fun more hmore s' hs' => ?_⟩
  · rw [loadSnapshotFile, hparse]
    rfl
  · obtain ⟨snap, hsnap⟩ := hload p s' hs'
    exact hfront p hp hne snap hsnap
  · obtain ⟨snap, hsnap⟩ := hload _ s' hs'
    exact hextension more hmore snap hsnap

/-- A topic led by broker 1 at epoch 4, which broker 2 has fallen out of the ISR of. -/
def sample : State where
  version := 9
  brokers := Assoc.ofList [(1, ⟨"a:1", "p:1", true, 7⟩), (2, ⟨"b:2", "p:2", false, 3⟩)]
  topics := Assoc.ofList [("t", [⟨1, 4, [2, 1], [1]⟩])]

private theorem fits_sample : sample.Fits where
  version := by decide
  brokers := by decide
  addresses id b hb := by
    have hmem := Assoc.mem_of_lookup_ofList hb
    simp only [List.mem_cons, Prod.mk.injEq, List.not_mem_nil, or_false] at hmem
    rcases hmem with ⟨-, rfl⟩ | ⟨-, rfl⟩ <;> exact ⟨by decide, by decide⟩
  topics := by decide
  names name parts hparts := by
    have hmem := Assoc.mem_of_lookup_ofList hparts
    simp only [List.mem_singleton, Prod.mk.injEq] at hmem
    rw [hmem.1]
    decide
  partitions name parts hparts := by
    have hmem := Assoc.mem_of_lookup_ofList hparts
    simp only [List.mem_singleton, Prod.mk.injEq] at hmem
    rw [hmem.2]
    refine ⟨by decide, fun p hp => ?_⟩
    rw [List.mem_singleton.mp hp]
    exact ⟨by decide, ⟨by decide, fun _ _ => trivial⟩, by decide, fun _ _ => trivial⟩

theorem snapshot_round_trip_sample :
    (∃ s', loadSnapshotFile 100 (persistSnapshot sample) = .ok s' ∧ Restored 100 sample s') ∧
      (∀ p, p <+: persistSnapshot sample → p ≠ persistSnapshot sample →
        ∀ s', loadSnapshotFile 100 p ≠ .ok s') ∧
      ∀ more, more ≠ [] → ∀ s', loadSnapshotFile 100 (persistSnapshot sample ++ more) ≠ .ok s' :=
  snapshot_round_trip fits_sample 100

end Replog.Controller
