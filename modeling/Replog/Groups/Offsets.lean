import Replog.Groups.Coordinator
import Replog.Proto.RoundTrip

/-!
# Committed offsets

A commit is validated by the coordinator and then carried out by a task of its own: the record is
appended to the offsets log, and once that is acknowledged the cache is updated. Members may come
and go in between.
-/

namespace Replog.Groups
open Replog.Library Replog.LittleEndian
open Replog.Proto (ErrorCode StrFits)

abbrev OffsetKey := String × String × ℕ

structure Commit where
  group : String
  topic : String
  partition : ℕ
  offset : ℕ
  /-- Empty for an unfenced commit. -/
  memberId : String
  generation : ℕ
  deriving DecidableEq

def Commit.key (c : Commit) : OffsetKey := (c.group, c.topic, c.partition)

/-! ## The records of the offsets log -/

section Records
open Proto.Wire

def encodeKey (group topic : String) (partition : UInt32) : List UInt8 :=
  putStr group ++ (putStr topic ++ putU32 partition)

def readKey : Reader (String × String × UInt32) := do
  let group ← string
  let topic ← string
  let partition ← u32
  return (group, topic, partition)

def decodeEntry (key value : List UInt8) : Option ((String × String × UInt32) × ℕ) :=
  match readAll readKey key with
  | .error _ => none
  | .ok k => if value.length = 8 then some (k, leValue value) else none

/-- What is written for a commit is read back at the next start. -/
theorem decodeEntry_encodeKey {group topic : String} (hgroup : StrFits group)
    (htopic : StrFits topic) (partition : UInt32) {offset : ℕ} (hoffset : offset < 2 ^ 64) :
    decodeEntry (encodeKey group topic partition) (leBytes 8 offset) =
      some ((group, topic, partition), offset) := by
  have hread : readKey.Reads (encodeKey group topic partition) (group, topic, partition) :=
    (reads_string hgroup).bind ((reads_string htopic).bind (reads_u32 partition).bind_pure)
  have hrun := hread []
  rw [List.append_nil] at hrun
  rw [decodeEntry, Proto.readAll_eq_ok.mpr hrun]
  simp only [length_leBytes, if_true, leValue_leBytes_of_lt (w := 8) hoffset]

end Records

/-- The log in the order of the appends, and the cache that answers fetches. -/
structure OffsetsStore where
  log : List (OffsetKey × ℕ)
  cache : Assoc OffsetKey ℕ

namespace OffsetsStore

/-- Replays the log: the latest record for a key wins. -/
def openStore (log : List (OffsetKey × ℕ)) : OffsetsStore := { log, cache := Assoc.ofList log }

def fetch (s : OffsetsStore) (group topic : String) (partition : ℕ) : Option ℕ :=
  s.cache.lookup (group, topic, partition)

end OffsetsStore

/-- A commit that passed its check, on its way into the store. -/
structure CommitTask where
  commit : Commit
  appended : Bool
  deriving DecidableEq

structure GroupBroker where
  coordinator : GroupCoordinator
  tasks : List CommitTask
  store : OffsetsStore

namespace GroupBroker

def init : GroupBroker := { coordinator := .new, tasks := [], store := .openStore [] }

/-- The connection's part of a commit: the check, and a task if it passes. -/
def commitOffset (b : GroupBroker) (c : Commit) : ErrorCode × GroupBroker :=
  let fence := b.coordinator.checkCommit c.group c.memberId c.generation
  if fence ≠ .none then (fence, b)
  else (.none, { b with tasks := b.tasks ++ [{ commit := c, appended := false }] })

/-- The partition thread takes the append of the `k`th task, or the append fails. -/
def appendCommit (b : GroupBroker) (k : ℕ) (ok : Bool) : Option GroupBroker :=
  match b.tasks[k]? with
  | some { commit := c, appended := false } =>
    some <|
      if ok then
        { b with
          tasks := b.tasks.set k { commit := c, appended := true }
          store := { b.store with log := b.store.log ++ [(c.key, c.offset)] } }
      else { b with tasks := b.tasks.eraseIdx k }
  | _ => none

/-- The append is acknowledged and the task updates the cache, or its flush fails. -/
def finishCommit (b : GroupBroker) (k : ℕ) (ok : Bool) : Option GroupBroker :=
  match b.tasks[k]? with
  | some { commit := c, appended := true } =>
    some { b with
      tasks := b.tasks.eraseIdx k
      store := if ok then { b.store with cache := b.store.cache.insert c.key c.offset }
               else b.store }
  | _ => none

/-- What a step of the task leaves: only the task itself moves, and what is stored is its own. -/
structure TaskStep (b b' : GroupBroker) (t : CommitTask) : Prop where
  mem : t ∈ b.tasks
  coordinator_eq : b'.coordinator = b.coordinator
  tasks : ∀ t' ∈ b'.tasks, ∃ t ∈ b.tasks, t.commit = t'.commit
  log : ∀ e ∈ b'.store.log, e ∈ b.store.log ∨ e = (t.commit.key, t.commit.offset)
  cache : ∀ key offset, b'.store.cache.lookup key = some offset →
    b.store.cache.lookup key = some offset ∨ (key, offset) = (t.commit.key, t.commit.offset)

variable {b b' : GroupBroker} {k : ℕ} {ok : Bool}

theorem appendCommit_spec (h : b.appendCommit k ok = some b') :
    ∃ t, b.tasks[k]? = some t ∧ TaskStep b b' t := by
  rw [appendCommit] at h
  split at h
  · rename_i c hc
    have hmem := List.mem_of_getElem? hc
    refine ⟨_, hc, ?_⟩
    cases ok with
    | true =>
      cases h
      refine ⟨hmem, rfl, fun t' ht' => ?_, fun e he => ?_, fun _ _ h => .inl h⟩
      · rcases List.mem_or_eq_of_mem_set ht' with ht' | rfl
        · exact ⟨t', ht', rfl⟩
        · exact ⟨_, hmem, rfl⟩
      · rcases List.mem_append.mp he with he | he
        · exact .inl he
        · exact .inr (List.mem_singleton.mp he)
    | false =>
      cases h
      exact ⟨hmem, rfl, fun t' ht' => ⟨t', List.mem_of_mem_eraseIdx ht', rfl⟩,
        fun _ he => .inl he, fun _ _ h => .inl h⟩
  · cases h

theorem finishCommit_spec (h : b.finishCommit k ok = some b') :
    ∃ t, b.tasks[k]? = some t ∧ TaskStep b b' t := by
  rw [finishCommit] at h
  split at h
  · rename_i c hc
    have hmem := List.mem_of_getElem? hc
    refine ⟨_, hc, ?_⟩
    cases h
    refine ⟨hmem, rfl, fun t' ht' => ⟨t', List.mem_of_mem_eraseIdx ht', rfl⟩, fun e he => ?_,
      fun key offset hlookup => ?_⟩
    · cases ok <;> exact .inl he
    · cases ok with
      | false => exact .inl hlookup
      | true =>
        by_cases hkey : key = c.key
        · subst hkey
          rw [if_pos rfl, AList.lookup_insert, Option.some.injEq] at hlookup
          exact .inr (by rw [hlookup])
        · rw [if_pos rfl, AList.lookup_insert_ne hkey] at hlookup
          exact .inl hlookup
  · cases h

/-- A commit that is let through is the task that is new. -/
theorem commitOffset_spec (b : GroupBroker) (c : Commit) :
    (b.commitOffset c).2 = b ∨
      b.coordinator.checkCommit c.group c.memberId c.generation = .none ∧
        (b.commitOffset c).2 =
          { b with tasks := b.tasks ++ [{ commit := c, appended := false }] } := by
  rw [commitOffset]
  by_cases hfence : b.coordinator.checkCommit c.group c.memberId c.generation = .none
  · exact .inr ⟨hfence, by rw [hfence]; rfl⟩
  · exact .inl (by rw [if_pos hfence])

end GroupBroker
end Replog.Groups
