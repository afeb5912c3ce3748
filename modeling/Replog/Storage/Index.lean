import Replog.Storage.Files

/-!
# The sparse index of a segment

Pairs of a relative offset and a file position, both `u32`, one for each
`index_interval_bytes` of log written. A file that is cut inside an entry or not strictly
increasing is not loaded, and the caller rebuilds it.
-/

namespace Replog.Storage
open Replog.LittleEndian

def ENTRY_BYTES : ℕ := 8

/-- The cast of a number to `u32`. -/
def u32 (n : ℕ) : ℕ := n % 2 ^ 32

theorem u32_of_lt {n : ℕ} (h : n < 2 ^ 32) : u32 n = n := Nat.mod_eq_of_lt h

/-- The entries of one segment's index, oldest first. -/
structure SparseIndex where
  entries : List (ℕ × ℕ)
  deriving DecidableEq

namespace SparseIndex

def encodeEntry (e : ℕ × ℕ) : List UInt8 := leBytes 4 e.1 ++ leBytes 4 e.2

def encodeEntries (es : List (ℕ × ℕ)) : List UInt8 := es.flatMap encodeEntry

def create (base : ℕ) : FsM SparseIndex := do
  FsM.perform (.createIndex base)
  return ⟨[]⟩

/-- Reads whole entries while each is above the one before it in both components. -/
def parse : ℕ → List UInt8 → List (ℕ × ℕ) → Option (List (ℕ × ℕ))
  | 0, _, entries => some entries
  | n + 1, bytes, entries =>
    let rel := leValue (bytes.take 4)
    let pos := leValue ((bytes.drop 4).take 4)
    let follows := entries.getLast?.all fun last => decide (last.1 < rel ∧ last.2 < pos)
    if follows then parse n (bytes.drop ENTRY_BYTES) (entries ++ [(rel, pos)]) else none

def load (base : ℕ) : FsM (Option SparseIndex) := fun fs =>
  match fs.dir.index base with
  | none => .ok none fs
  | some bytes =>
    if bytes.length % ENTRY_BYTES ≠ 0 then .ok none fs
    else .ok ((parse (bytes.length / ENTRY_BYTES) bytes []).map SparseIndex.mk) fs

def append (idx : SparseIndex) (base relativeOffset filePosition : ℕ) : FsM SparseIndex := do
  FsM.perform (.writeIndex base (encodeEntry (relativeOffset, filePosition)))
  return ⟨idx.entries ++ [(relativeOffset, filePosition)]⟩

/-- Greatest entry with `relativeOffset ≤ target`, if any. -/
def lookup (idx : SparseIndex) (target : ℕ) : Option (ℕ × ℕ) :=
  idx.entries.reverse.find? fun e => e.1 ≤ target

def last (idx : SparseIndex) : Option (ℕ × ℕ) := idx.entries.getLast?

end SparseIndex
end Replog.Storage
