import Replog.Library.LittleEndian
import Replog.Library.Reader

/-!
# Wire primitives

Numbers are little-endian. A string is its UTF-8 bytes behind a `u16` length, a blob its bytes
behind a `u32` length, and an optional blob writes an `i32` length with `-1` for null.
-/

namespace Replog.Proto
open Replog.LittleEndian Replog.Library

inductive ProtoError where
  | truncated
  | malformed (message : String)
  | badVersion (version : UInt8)
  | unknownMsgType (msgType : UInt8)
  deriving DecidableEq

namespace Wire

abbrev Reader := Library.Reader ProtoError

def putU8 (v : UInt8) : List UInt8 := leBytes 1 v.toNat
def putU16 (v : UInt16) : List UInt8 := leBytes 2 v.toNat
def putU32 (v : UInt32) : List UInt8 := leBytes 4 v.toNat
def putU64 (v : UInt64) : List UInt8 := leBytes 8 v.toNat
def putI32 (v : Int32) : List UInt8 := leBytes 4 v.toUInt32.toNat
def putI64 (v : Int64) : List UInt8 := leBytes 8 v.toUInt64.toNat

def utf8 (s : String) : List UInt8 := s.toByteArray.data.toList

/-- The length is cast to a `u16`. -/
def putStr (s : String) : List UInt8 := leBytes 2 (utf8 s).length ++ utf8 s

def putBytes (b : List UInt8) : List UInt8 := leBytes 4 b.length ++ b

def putOptBytes : Option (List UInt8) → List UInt8
  | none => putI32 (-1)
  | some b => leBytes 4 b.length ++ b

/-- The count of a list, then its entries. -/
def putVec {α : Type} (put : α → List UInt8) (l : List α) : List UInt8 :=
  leBytes 4 l.length ++ l.flatMap put

def take (n : ℕ) : Reader (List UInt8) := Reader.take .truncated n

def u8 : Reader UInt8 := do return UInt8.ofNat (leValue (← take 1))
def u16 : Reader UInt16 := do return UInt16.ofNat (leValue (← take 2))
def u32 : Reader UInt32 := do return UInt32.ofNat (leValue (← take 4))
def u64 : Reader UInt64 := do return UInt64.ofNat (leValue (← take 8))
def i32 : Reader Int32 := do return (UInt32.ofNat (leValue (← take 4))).toInt32
def i64 : Reader Int64 := do return (UInt64.ofNat (leValue (← take 8))).toInt64

def string : Reader String := do
  let len ← u16
  let bytes ← take len.toNat
  match String.fromUTF8? ⟨bytes.toArray⟩ with
  | some s => return s
  | none => Reader.fail (.malformed "invalid utf-8 in string")

def bytes : Reader (List UInt8) := do
  let len ← u32
  take len.toNat

def optBytes : Reader (Option (List UInt8)) := do
  let len ← i32
  if len < 0 then return none
  else return some (← take len.toUInt32.toNat)

def vec {α : Type} (r : Reader α) : Reader (List α) := do
  let count ← u32
  Reader.replicate r count.toNat

/-- Runs a reader that has to consume everything. -/
def readAll {α : Type} (r : Reader α) (buf : List UInt8) : Except ProtoError α :=
  match r.run buf with
  | .error e => .error e
  | .ok (a, []) => .ok a
  | .ok (_, rest) =>
    let trailing := rest.length
    .error (.malformed s!"{trailing} trailing bytes after message body")

theorem reads_take {w : ℕ} {l : List UInt8} (h : l.length = w) : (take w).Reads l l := by
  subst h
  exact Reader.reads_take _ l

private theorem reads_number {α : Type} (cast : ℕ → α) {w n : ℕ} {a : α} (hn : n < 256 ^ w)
    (hcast : cast n = a) :
    Reader.Reads (do return cast (leValue (← take w)) : Reader α) (leBytes w n) a := by
  have hread := (reads_take (length_leBytes w n)).bind_pure (f := fun l => cast (leValue l))
  simpa only [leValue_leBytes_of_lt hn, hcast] using hread

theorem reads_u8 (v : UInt8) : u8.Reads (putU8 v) v :=
  reads_number UInt8.ofNat v.toNat_lt (by simp)

theorem reads_u16 (v : UInt16) : u16.Reads (putU16 v) v :=
  reads_number UInt16.ofNat v.toNat_lt (by simp)

theorem reads_u32 (v : UInt32) : u32.Reads (putU32 v) v :=
  reads_number UInt32.ofNat v.toNat_lt (by simp)

theorem reads_u64 (v : UInt64) : u64.Reads (putU64 v) v :=
  reads_number UInt64.ofNat v.toNat_lt (by simp)

theorem reads_i32 (v : Int32) : i32.Reads (putI32 v) v :=
  reads_number (fun n => (UInt32.ofNat n).toInt32) v.toUInt32.toNat_lt (by simp)

theorem reads_i64 (v : Int64) : i64.Reads (putI64 v) v :=
  reads_number (fun n => (UInt64.ofNat n).toInt64) v.toUInt64.toNat_lt (by simp)

private theorem reads_len16 {n : ℕ} (h : n < 2 ^ 16) : u16.Reads (leBytes 2 n) (UInt16.ofNat n) :=
  reads_number UInt16.ofNat h rfl

private theorem reads_len32 {n : ℕ} (h : n < 2 ^ 32) : u32.Reads (leBytes 4 n) (UInt32.ofNat n) :=
  reads_number UInt32.ofNat h rfl

theorem fromUTF8_utf8 (s : String) : String.fromUTF8? ⟨(utf8 s).toArray⟩ = some s := by
  simp only [String.fromUTF8?, utf8, Array.toArray_toList]
  exact dif_pos s.isValidUTF8

theorem reads_string {s : String} (h : s.utf8ByteSize ≤ 65535) : string.Reads (putStr s) s := by
  have hlen : (utf8 s).length = s.utf8ByteSize := rfl
  have hcount : (UInt16.ofNat (utf8 s).length).toNat = (utf8 s).length :=
    UInt16.toNat_ofNat_of_lt' (by rw [hlen]; exact Nat.lt_succ_of_le h)
  refine (reads_len16 (by rw [hlen]; omega)).bind ?_
  intro rest
  rw [hcount, (reads_take rfl).run_bind, fromUTF8_utf8]
  rfl

theorem reads_bytes {b : List UInt8} (h : b.length < 2 ^ 32) : bytes.Reads (putBytes b) b := by
  refine (reads_len32 h).bind ?_
  rw [UInt32.toNat_ofNat_of_lt' h]
  exact reads_take rfl

theorem reads_optBytes {b : Option (List UInt8)} (h : ∀ k ∈ b, k.length < 2 ^ 31) :
    optBytes.Reads (putOptBytes b) b := by
  cases b with
  | none =>
    intro rest
    rw [optBytes, putOptBytes, (reads_i32 (-1)).run_bind]
    rfl
  | some k =>
    have hk := h k rfl
    have hlen : i32.Reads (leBytes 4 k.length) (UInt32.ofNat k.length).toInt32 :=
      reads_number (fun n => (UInt32.ofNat n).toInt32) (by omega) rfl
    have hcount : (UInt32.ofNat k.length).toNat = k.length :=
      UInt32.toNat_ofNat_of_lt' (hk.trans (by decide))
    have hnonneg : ¬ (UInt32.ofNat k.length).toInt32 < 0 := by
      have hvalue : (UInt32.ofNat k.length).toInt32.toInt = k.length :=
        Int32.toInt_ofNat_of_lt hk
      rw [Int32.lt_iff_toInt_lt, hvalue]
      simp
    refine hlen.bind ?_
    rw [if_neg hnonneg, UInt32.toUInt32_toInt32, hcount]
    exact (reads_take rfl).bind_pure

theorem reads_vec {α : Type} {r : Reader α} {put : α → List UInt8} {l : List α}
    (hlen : l.length < 2 ^ 32) (h : ∀ a ∈ l, r.Reads (put a) a) :
    (vec r).Reads (putVec put l) l := by
  refine (reads_len32 hlen).bind ?_
  rw [UInt32.toNat_ofNat_of_lt' hlen]
  exact Reader.reads_replicate h

/-! ## What is accepted -/

private theorem run_number_eq_ok {α : Type} (cast : ℕ → α) (value : α → ℕ) {w : ℕ}
    (hcast : ∀ n < 256 ^ w, value (cast n) = n)
    (hvalue : ∀ a, value a < 256 ^ w ∧ cast (value a) = a) {bytes rest : List UInt8} {a : α} :
    (do return cast (leValue (← take w)) : Reader α).run bytes = .ok (a, rest) ↔
      bytes = leBytes w (value a) ++ rest := by
  constructor
  · intro h
    rw [Reader.run_bind_eq_ok] at h
    obtain ⟨l, mid, hl, h⟩ := h
    obtain ⟨rfl, rfl⟩ := Reader.run_take_eq_ok.mp hl
    obtain ⟨rfl, rfl⟩ := Reader.run_pure_eq_ok.mp h
    rw [hcast _ (leValue_lt l), leBytes_leValue]
  · rintro rfl
    exact reads_number cast (hvalue a).1 (hvalue a).2 rest

section Accepted

variable {bytes rest : List UInt8}

theorem run_u8_eq_ok {v : UInt8} : u8.run bytes = .ok (v, rest) ↔ bytes = putU8 v ++ rest :=
  run_number_eq_ok UInt8.ofNat UInt8.toNat (fun _ h => UInt8.toNat_ofNat_of_lt' h)
    fun v => ⟨v.toNat_lt, by simp⟩

theorem run_u16_eq_ok {v : UInt16} : u16.run bytes = .ok (v, rest) ↔ bytes = putU16 v ++ rest :=
  run_number_eq_ok UInt16.ofNat UInt16.toNat (fun _ h => UInt16.toNat_ofNat_of_lt' h)
    fun v => ⟨v.toNat_lt, by simp⟩

theorem run_u32_eq_ok {v : UInt32} : u32.run bytes = .ok (v, rest) ↔ bytes = putU32 v ++ rest :=
  run_number_eq_ok UInt32.ofNat UInt32.toNat (fun _ h => UInt32.toNat_ofNat_of_lt' h)
    fun v => ⟨v.toNat_lt, by simp⟩

theorem run_u64_eq_ok {v : UInt64} : u64.run bytes = .ok (v, rest) ↔ bytes = putU64 v ++ rest :=
  run_number_eq_ok UInt64.ofNat UInt64.toNat (fun _ h => UInt64.toNat_ofNat_of_lt' h)
    fun v => ⟨v.toNat_lt, by simp⟩

theorem run_i32_eq_ok {v : Int32} : i32.run bytes = .ok (v, rest) ↔ bytes = putI32 v ++ rest :=
  run_number_eq_ok (fun n => (UInt32.ofNat n).toInt32) (fun v => v.toUInt32.toNat)
    (fun _ h => by rw [UInt32.toUInt32_toInt32]; exact UInt32.toNat_ofNat_of_lt' h)
    fun v => ⟨v.toUInt32.toNat_lt, by simp⟩

theorem run_i64_eq_ok {v : Int64} : i64.run bytes = .ok (v, rest) ↔ bytes = putI64 v ++ rest :=
  run_number_eq_ok (fun n => (UInt64.ofNat n).toInt64) (fun v => v.toUInt64.toNat)
    (fun _ h => by rw [UInt64.toUInt64_toInt64]; exact UInt64.toNat_ofNat_of_lt' h)
    fun v => ⟨v.toUInt64.toNat_lt, by simp⟩

theorem run_string_eq_ok {s : String} :
    string.run bytes = .ok (s, rest) ↔ s.utf8ByteSize ≤ 65535 ∧ bytes = putStr s ++ rest := by
  constructor
  · intro h
    simp only [string, Reader.run_bind_eq_ok, run_u16_eq_ok] at h
    obtain ⟨len, _, rfl, l, mid, hl, h⟩ := h
    obtain ⟨hlen, rfl⟩ := Reader.run_take_eq_ok.mp hl
    split at h
    · rename_i t ht
      obtain ⟨rfl, rfl⟩ := Reader.run_pure_eq_ok.mp h
      have hutf8 : utf8 t = l := by
        rw [String.fromUTF8?] at ht
        split_ifs at ht
        cases ht
        rfl
      have hsize : t.utf8ByteSize = len.toNat := by
        rw [← hlen, ← hutf8]
        rfl
      have hlt := len.toNat_lt
      refine ⟨by omega, ?_⟩
      rw [putStr, hutf8, hlen, List.append_assoc]
      rfl
    · cases h
  · rintro ⟨hsize, rfl⟩
    exact reads_string hsize rest

theorem run_bytes_eq_ok {b : List UInt8} :
    Wire.bytes.run bytes = .ok (b, rest) ↔ b.length < 2 ^ 32 ∧ bytes = putBytes b ++ rest := by
  constructor
  · intro h
    simp only [Wire.bytes, Reader.run_bind_eq_ok, run_u32_eq_ok] at h
    obtain ⟨len, _, rfl, h⟩ := h
    obtain ⟨hlen, rfl⟩ := Reader.run_take_eq_ok.mp h
    have hlt := len.toNat_lt
    refine ⟨by omega, ?_⟩
    rw [putBytes, hlen, List.append_assoc]
    rfl
  · rintro ⟨hlen, rfl⟩
    exact reads_bytes hlen rest

theorem run_vec_eq_ok {α : Type} {r : Reader α} {fits : α → Prop} {put : α → List UInt8}
    (h : ∀ {bytes a rest}, r.run bytes = .ok (a, rest) ↔ fits a ∧ bytes = put a ++ rest)
    {l : List α} : (vec r).run bytes = .ok (l, rest) ↔
      (l.length < 2 ^ 32 ∧ ∀ a ∈ l, fits a) ∧ bytes = putVec put l ++ rest := by
  constructor
  · intro hrun
    simp only [vec, Reader.run_bind_eq_ok, run_u32_eq_ok,
      Reader.run_replicate_eq_ok_flatMap h] at hrun
    obtain ⟨count, _, rfl, hlen, hfits, rfl⟩ := hrun
    have hlt := count.toNat_lt
    refine ⟨⟨by omega, hfits⟩, ?_⟩
    rw [putVec, hlen, List.append_assoc]
    rfl
  · rintro ⟨⟨hlen, hfits⟩, rfl⟩
    refine reads_vec hlen (fun a ha rest => h.mpr ⟨hfits a ha, rfl⟩) rest

end Accepted

/-! ## Null keys -/

/-- A null is spelled by any negative length. -/
def putOptBytesAs (null : Int32) : Option (List UInt8) → List UInt8
  | none => putI32 null
  | some b => leBytes 4 b.length ++ b

private theorem toNat_lt_of_nonneg {len : Int32} (h : ¬ len < 0) : len.toUInt32.toNat < 2 ^ 31 := by
  have hvalue : len.toInt = if 2 * len.toUInt32.toNat < 2 ^ 32 then (len.toUInt32.toNat : ℤ)
      else (len.toUInt32.toNat : ℤ) - 2 ^ 32 := BitVec.toInt_eq_toNat_cond len.toBitVec
  rw [Int32.lt_iff_toInt_lt, Int32.toInt_zero, hvalue] at h
  have hlt := len.toUInt32.toNat_lt
  split_ifs at h <;> omega

theorem run_optBytes_eq_ok {bytes rest : List UInt8} {b : Option (List UInt8)} :
    optBytes.run bytes = .ok (b, rest) ↔ (∀ k ∈ b, k.length < 2 ^ 31) ∧
      ∃ null : Int32, null < 0 ∧ bytes = putOptBytesAs null b ++ rest := by
  constructor
  · intro h
    simp only [optBytes, Reader.run_bind_eq_ok, run_i32_eq_ok] at h
    obtain ⟨len, _, rfl, h⟩ := h
    split_ifs at h with hneg
    · obtain ⟨rfl, rfl⟩ := Reader.run_pure_eq_ok.mp h
      exact ⟨nofun, len, hneg, rfl⟩
    · simp only [Reader.run_bind_eq_ok] at h
      obtain ⟨l, mid, hl, h⟩ := h
      obtain ⟨hlen, rfl⟩ := Reader.run_take_eq_ok.mp hl
      obtain ⟨rfl, rfl⟩ := Reader.run_pure_eq_ok.mp h
      refine ⟨?_, -1, by decide, ?_⟩
      · intro k hk
        cases hk
        rw [hlen]
        exact toNat_lt_of_nonneg hneg
      · rw [putOptBytesAs, hlen, List.append_assoc]
        rfl
  · rintro ⟨hfits, null, hnull, rfl⟩
    cases b with
    | none =>
      refine Reader.run_bind_eq_ok.mpr ⟨null, rest, run_i32_eq_ok.mpr rfl, ?_⟩
      rw [if_pos hnull]
      rfl
    | some k => exact reads_optBytes hfits rest

end Wire
end Replog.Proto
