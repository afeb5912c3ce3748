import Replog.Library.Crc32
import Replog.Library.LittleEndian

/-!
# The on-disk record

A record is written length first, then a CRC over its body, then the body. The CRC function
belongs to a crate outside the repository, so the codec is parametric in it; nothing below
depends on which function it is.
-/

namespace Replog.Storage
open Replog.LittleEndian

def LEN_FIELD_BYTES : ℕ := 4
def CRC_FIELD_BYTES : ℕ := 4
/-- offset(8) + timestamp(8) + key_len(4) + value_len(4) -/
def MIN_BODY_BYTES : ℕ := 24

/-- The `u64` offset is a natural number; the codec keeps its low 64 bits. -/
structure Record where
  offset : ℕ
  timestampMs : Int64
  key : Option (List UInt8)
  value : List UInt8
  deriving DecidableEq

/-- Why a decoder or a recovery scan calls bytes corrupt; one case for each message. -/
inductive CorruptReason where
  | implausiblySmall (len : ℕ)
  | exceedsMax (len maxRecordBytes : ℕ)
  | crcMismatch (crcStored crcActual : ℕ)
  | keyOverruns (keyLen : ℕ)
  | missingValueLength
  | valueLengthMismatch (valueLen : ℕ)
  | offsetDiscontinuity (expected : ℕ)
  | incompleteInRolledSegment
  | offsetNotFound
  deriving DecidableEq

inductive DecodeOutcome where
  | record (record : Record) (consumed : ℕ)
  | incomplete
  | corrupt (reason : CorruptReason)
  deriving DecidableEq

namespace Record

def keyLen (r : Record) : ℕ := r.key.elim 0 List.length

def encodedLen (r : Record) : ℕ :=
  LEN_FIELD_BYTES + CRC_FIELD_BYTES + MIN_BODY_BYTES + r.keyLen + r.value.length

/-- The two's complement spelling of the `i32` key length, `-1` for a null key. -/
def keyLenField (r : Record) : ℕ := r.key.elim (2 ^ 32 - 1) List.length

def body (r : Record) : List UInt8 :=
  leBytes 8 r.offset ++ (leBytes 8 r.timestampMs.toUInt64.toNat ++ (leBytes 4 r.keyLenField ++
    (r.key.getD [] ++ (leBytes 4 r.value.length ++ r.value))))

def encode (crc : List UInt8 → UInt32) (r : Record) : List UInt8 :=
  leBytes LEN_FIELD_BYTES (CRC_FIELD_BYTES + (MIN_BODY_BYTES + r.keyLen + r.value.length)) ++
    leBytes CRC_FIELD_BYTES (crc r.body).toNat ++ r.body

/-- The key of a body, with the position just past it; `none` where the key overruns. -/
def decodeKey (body : List UInt8) : Except CorruptReason (Option (List UInt8) × ℕ) :=
  let keyLen := leValue ((body.drop 16).take 4)
  -- the top bit is the sign of the `i32`
  if 2 ^ 31 ≤ keyLen then .ok (none, 20)
  else if body.length < 20 + keyLen + 4 then .error (.keyOverruns keyLen)
  else .ok (some ((body.drop 20).take keyLen), 20 + keyLen)

/-- The fields of a CRC-checked body. -/
def decodeBody (body : List UInt8) : Except CorruptReason Record := do
  let (key, pos) ← decodeKey body
  if body.length < pos + 4 then throw .missingValueLength
  let valueLen := leValue ((body.drop pos).take 4)
  if body.length ≠ pos + 4 + valueLen then throw (.valueLengthMismatch valueLen)
  return {
    offset := leValue (body.take 8)
    timestampMs := (UInt64.ofNat (leValue ((body.drop 8).take 8))).toInt64
    key := key
    value := body.drop (pos + 4) }

def decode (crc : List UInt8 → UInt32) (buf : List UInt8) (maxRecordBytes : ℕ) :
    DecodeOutcome :=
  if buf.length < LEN_FIELD_BYTES then .incomplete
  else
    let len := leValue (buf.take 4)
    if len < CRC_FIELD_BYTES + MIN_BODY_BYTES then .corrupt (.implausiblySmall len)
    else if maxRecordBytes < len then .corrupt (.exceedsMax len maxRecordBytes)
    else
      let total := LEN_FIELD_BYTES + len
      if buf.length < total then .incomplete
      else
        let crcStored := leValue ((buf.drop 4).take 4)
        let body := (buf.take total).drop 8
        let crcActual := (crc body).toNat
        if crcStored ≠ crcActual then .corrupt (.crcMismatch crcStored crcActual)
        else match decodeBody body with
          | .ok record => .record record total
          | .error reason => .corrupt reason

/-- The record's fields fit the widths they are stored in. -/
structure Encodable (r : Record) : Prop where
  offset_lt : r.offset < 2 ^ 64
  len_le : r.encodedLen ≤ 2 ^ 30

variable {crc : List UInt8 → UInt32} {r : Record}

private theorem length_getD_key (r : Record) : (r.key.getD []).length = r.keyLen := by
  cases hk : r.key <;> simp [keyLen, hk]

theorem length_body (r : Record) :
    r.body.length = MIN_BODY_BYTES + r.keyLen + r.value.length := by
  simp only [body, List.length_append, length_leBytes, length_getD_key, MIN_BODY_BYTES]
  omega

@[simp] theorem length_encode (crc : List UInt8 → UInt32) (r : Record) :
    (r.encode crc).length = r.encodedLen := by
  simp [encode, length_body, encodedLen]
  omega

theorem le_encodedLen (r : Record) :
    LEN_FIELD_BYTES + CRC_FIELD_BYTES + MIN_BODY_BYTES ≤ r.encodedLen := by
  simp only [encodedLen]
  omega

theorem encodedLen_pos (r : Record) : 0 < r.encodedLen :=
  lt_of_lt_of_le (by decide) r.le_encodedLen

private theorem leValue_take_encode (crc : List UInt8 → UInt32) (h : r.encodedLen ≤ 2 ^ 30)
    (rest : List UInt8) :
    leValue ((r.encode crc ++ rest).take 4) = r.encodedLen - LEN_FIELD_BYTES := by
  simp only [encode, List.append_assoc]
  rw [List.take_left' (by simp [LEN_FIELD_BYTES]), leValue_leBytes_of_lt]
  all_goals simp only [encodedLen, MIN_BODY_BYTES, LEN_FIELD_BYTES, CRC_FIELD_BYTES] at *
  all_goals omega

private theorem keyLenField_lt (h : r.encodedLen ≤ 2 ^ 30) : r.keyLenField < 256 ^ 4 := by
  cases hk : r.key with
  | none => simp [keyLenField, hk]
  | some k =>
    simp only [encodedLen, keyLen, hk, Option.elim_some] at h
    simp only [keyLenField, hk, Option.elim_some]
    omega

private theorem decodeKey_body (h : r.encodedLen ≤ 2 ^ 30) :
    decodeKey r.body = .ok (r.key, 20 + r.keyLen) := by
  have hfield : leValue ((r.body.drop 16).take 4) = r.keyLenField := by
    rw [body, ← List.append_assoc, List.drop_left' (by simp), List.take_left' (by simp)]
    exact leValue_leBytes_of_lt (keyLenField_lt h)
  have hkeyBytes : (r.body.drop 20).take r.keyLen = r.key.getD [] := by
    rw [body, ← List.append_assoc, ← List.append_assoc, List.drop_left' (by simp),
      List.take_left' (length_getD_key r)]
  have hbody := length_body r
  simp only [MIN_BODY_BYTES] at hbody
  simp only [encodedLen] at h
  cases hk : r.key with
  | none => simp [decodeKey, hfield, keyLenField, keyLen, hk]
  | some k =>
    have hlen : r.keyLen = k.length := by simp [keyLen, hk]
    have hfield' : r.keyLenField = r.keyLen := by simp [keyLenField, keyLen, hk]
    simp only [decodeKey, hfield, hfield', hkeyBytes, hk, Option.getD_some]
    rw [if_neg (by omega), if_neg (by omega)]

private theorem drop_body (r : Record) :
    r.body.drop (20 + r.keyLen) = leBytes 4 r.value.length ++ r.value := by
  rw [body, ← List.append_assoc, ← List.append_assoc, ← List.append_assoc,
    List.drop_left' (by simp [length_getD_key]; omega)]

private theorem decodeBody_body (h : r.Encodable) : decodeBody r.body = .ok r := by
  have hlen := h.len_le
  have hlenBody := length_body r
  simp only [encodedLen] at hlen
  simp only [MIN_BODY_BYTES] at hlenBody
  have hvalueLen : leValue ((r.body.drop (20 + r.keyLen)).take 4) = r.value.length := by
    rw [drop_body, List.take_left' (by simp)]
    exact leValue_leBytes_of_lt (by omega)
  have hvalue : r.body.drop (20 + r.keyLen + 4) = r.value := by
    rw [← List.drop_drop, drop_body, List.drop_left' (by simp)]
  have hoffset : leValue (r.body.take 8) = r.offset := by
    rw [body, List.take_left' (by simp)]
    exact leValue_leBytes_of_lt (lt_of_lt_of_eq h.offset_lt (by norm_num))
  have htime : leValue ((r.body.drop 8).take 8) = r.timestampMs.toUInt64.toNat := by
    rw [body, List.drop_left' (by simp), List.take_left' (by simp)]
    exact leValue_leBytes_of_lt (lt_of_lt_of_eq r.timestampMs.toUInt64.toNat_lt (by norm_num))
  simp only [decodeBody, decodeKey_body h.len_le, bind, Except.bind, hvalueLen, hvalue, hoffset,
    htime]
  rw [if_neg (by omega), if_neg (by omega)]
  simp [pure, Except.pure]

/-- A complete record decodes to itself, whatever bytes follow it. -/
theorem decode_encode_append (crc : List UInt8 → UInt32) (h : r.Encodable) {maxRecordBytes : ℕ}
    (hmax : r.encodedLen ≤ maxRecordBytes) (rest : List UInt8) :
    decode crc (r.encode crc ++ rest) maxRecordBytes = .record r r.encodedLen := by
  have hmin := r.le_encodedLen
  have hlenField := leValue_take_encode crc h.len_le rest
  have hcrcField : leValue (((r.encode crc ++ rest).drop 4).take 4) = (crc r.body).toNat := by
    have hlt := (crc r.body).toNat_lt
    simp only [encode, List.append_assoc]
    rw [List.drop_left' (by simp [LEN_FIELD_BYTES]), List.take_left' (by simp [CRC_FIELD_BYTES])]
    exact leValue_leBytes_of_lt (lt_of_lt_of_eq hlt (by simp [CRC_FIELD_BYTES]))
  have hbody : ((r.encode crc ++ rest).take r.encodedLen).drop 8 = r.body := by
    rw [List.take_left' (length_encode crc r), encode,
      List.drop_left' (by simp [LEN_FIELD_BYTES, CRC_FIELD_BYTES])]
  have htotal : LEN_FIELD_BYTES + (r.encodedLen - LEN_FIELD_BYTES) = r.encodedLen := by omega
  simp only [decode, hlenField, hcrcField, htotal, hbody, decodeBody_body h, ne_eq,
    not_true_eq_false, if_false, List.length_append, length_encode]
  rw [if_neg (by omega), if_neg (by omega), if_neg (by omega), if_neg (by omega)]

/-- A record cut anywhere before its last byte is incomplete, never corrupt. -/
theorem decode_take_encode (crc : List UInt8 → UInt32) (h : r.Encodable) {maxRecordBytes n : ℕ}
    (hmax : r.encodedLen ≤ maxRecordBytes) (hn : n < r.encodedLen) :
    decode crc ((r.encode crc).take n) maxRecordBytes = .incomplete := by
  have hmin := r.le_encodedLen
  have hlength : ((r.encode crc).take n).length = n := by
    rw [List.length_take, length_encode, Nat.min_eq_left hn.le]
  by_cases hshort : n < LEN_FIELD_BYTES
  · simp only [decode, hlength, hshort, if_true]
  · have hlenField : leValue (((r.encode crc).take n).take 4) = r.encodedLen - LEN_FIELD_BYTES := by
      have hfield := leValue_take_encode crc h.len_le []
      simp only [LEN_FIELD_BYTES] at hshort
      rwa [List.append_nil, ← Nat.min_eq_left (Nat.le_of_not_lt hshort), ← List.take_take]
        at hfield
    simp only [decode, hlength, hlenField, hshort, if_false]
    rw [if_neg (by omega), if_neg (by omega), if_pos (by omega)]

/-- A record that is within the limits decodes once its last byte is there, and is incomplete until
then. -/
theorem decode_cut (crc : List UInt8 → UInt32) {r : Record} {maxRecordBytes : ℕ}
    (hoffset : r.offset < 2 ^ 64) (hlen : r.encodedLen ≤ maxRecordBytes)
    (hmax : maxRecordBytes ≤ 2 ^ 30) :
    (∀ s, decode crc (r.encode crc ++ s) maxRecordBytes = .record r r.encodedLen) ∧
      ∀ p, p <+: r.encode crc → p ≠ r.encode crc → decode crc p maxRecordBytes = .incomplete := by
  have henc : r.Encodable := ⟨hoffset, hlen.trans hmax⟩
  refine ⟨decode_encode_append crc henc hlen, fun p hp hne => ?_⟩
  have hshort : p.length < r.encodedLen := by
    rw [← length_encode crc r]
    exact lt_of_le_of_ne hp.length_le fun h => hne (hp.eq_of_length h)
  rw [List.prefix_iff_eq_take.mp hp]
  exact decode_take_encode crc henc hlen hshort

def keyed : Record := ⟨5, 7, some [1, 2], [3]⟩

theorem decode_cut_keyed :
    (∀ s, decode Crc32.crc32 (keyed.encode Crc32.crc32 ++ s) 64 = .record keyed 35) ∧
      ∀ p, p <+: keyed.encode Crc32.crc32 → p ≠ keyed.encode Crc32.crc32 →
        decode Crc32.crc32 p 64 = .incomplete :=
  decode_cut Crc32.crc32 (by decide) (show keyed.encodedLen ≤ 64 by decide) (by decide)

theorem decode_nil (crc : List UInt8 → UInt32) (maxRecordBytes : ℕ) :
    decode crc [] maxRecordBytes = .incomplete := by
  simp [decode, LEN_FIELD_BYTES]

/-- What it takes for bytes to decode to a record. -/
theorem decode_eq_record_iff {buf : List UInt8} {maxRecordBytes c : ℕ} :
    decode crc buf maxRecordBytes = .record r c ↔
      c = LEN_FIELD_BYTES + leValue (buf.take 4) ∧
      CRC_FIELD_BYTES + MIN_BODY_BYTES ≤ leValue (buf.take 4) ∧
      leValue (buf.take 4) ≤ maxRecordBytes ∧ c ≤ buf.length ∧
      leValue ((buf.drop 4).take 4) = (crc ((buf.take c).drop 8)).toNat ∧
      decodeBody ((buf.take c).drop 8) = .ok r := by
  constructor
  · intro h
    simp only [decode] at h
    split_ifs at h with hshort hmin hmax htotal hcrc
    split at h
    · rename_i record hbody
      cases h
      exact ⟨rfl, by omega, by omega, by omega, not_not.mp hcrc, hbody⟩
    · cases h
  · rintro ⟨rfl, hmin, hmax, htotal, hcrc, hbody⟩
    simp only [decode, hcrc, hbody]
    rw [if_neg (by omega), if_neg (by omega), if_neg (by omega), if_neg (by omega),
      if_neg (by simp)]

/-- A record found at the front is found there in every prefix that has all of it; a shorter one is
incomplete. -/
theorem decode_take {buf : List UInt8} {maxRecordBytes c : ℕ}
    (h : decode crc buf maxRecordBytes = .record r c) (k : ℕ) :
    decode crc (buf.take k) maxRecordBytes = if c ≤ k then .record r c else .incomplete := by
  obtain ⟨hc, hmin, hmax, htotal, hcrc, hbody⟩ := decode_eq_record_iff.mp h
  have hfield : 4 ≤ k → (buf.take k).take 4 = buf.take 4 := fun hk => by
    rw [List.take_take, Nat.min_eq_left hk]
  simp only [LEN_FIELD_BYTES, CRC_FIELD_BYTES, MIN_BODY_BYTES] at hc hmin
  split_ifs with hk
  · rw [decode_eq_record_iff, hfield (by omega), List.drop_take, List.take_take, List.take_take,
      Nat.min_eq_left hk, Nat.min_eq_left (by omega), List.length_take]
    exact ⟨hc, hmin, hmax, by omega, hcrc, hbody⟩
  · have hlen : (buf.take k).length < c := lt_of_le_of_lt (List.length_take_le k buf) (by omega)
    by_cases hshort : (buf.take k).length < 4
    · simp only [decode, LEN_FIELD_BYTES, hshort, if_true]
    · have hlong : 4 ≤ k := by
        rw [List.length_take] at hshort
        omega
      simp only [decode, hfield hlong, LEN_FIELD_BYTES, CRC_FIELD_BYTES, MIN_BODY_BYTES]
      rw [if_neg hshort, if_neg (by omega), if_neg (by omega), if_pos (by omega)]

private theorem decodeKey_keyLen {body : List UInt8} {key : Option (List UInt8)} {pos : ℕ}
    (h : decodeKey body = .ok (key, pos)) : pos = 20 + key.elim 0 List.length := by
  rw [decodeKey] at h
  split_ifs at h with hsign hover
  · cases h
    rfl
  · cases h
    simp only [Option.elim_some, List.length_take, List.length_drop]
    omega

/-- A record takes up what it was decoded from. -/
theorem decodeBody_encodedLen {body : List UInt8} (h : decodeBody body = .ok r) :
    r.encodedLen = 8 + body.length := by
  rw [decodeBody] at h
  cases hkey : decodeKey body with
  | error e =>
    rw [hkey] at h
    cases h
  | ok found =>
    obtain ⟨key, pos⟩ := found
    have hpos := decodeKey_keyLen hkey
    rw [hkey] at h
    simp only [bind, Except.bind] at h
    split_ifs at h with hshort hvalue
    cases h
    simp only [encodedLen, keyLen, List.length_drop, LEN_FIELD_BYTES, CRC_FIELD_BYTES,
      MIN_BODY_BYTES]
    omega

theorem decode_encodedLen {buf : List UInt8} {maxRecordBytes c : ℕ}
    (h : decode crc buf maxRecordBytes = .record r c) : c = r.encodedLen := by
  obtain ⟨hc, hmin, -, hle, -, hbody⟩ := decode_eq_record_iff.mp h
  rw [decodeBody_encodedLen hbody, List.length_drop, List.length_take, Nat.min_eq_left hle]
  simp only [LEN_FIELD_BYTES, CRC_FIELD_BYTES, MIN_BODY_BYTES] at hc hmin
  omega

end Record
end Replog.Storage
