import Replog.Storage.Log
import Mathlib.Algebra.Order.BigOperators.Group.List

/-!
# What the files of a segment say

`SegmentOk` ties a segment to the records it stands for: its file holds their encodings in
order, its counters count them, and every index entry names the position of the record with
that relative offset. The records of a log carry their own position as offset.
-/

namespace Replog.Storage
open Replog.LittleEndian

variable (crc : List UInt8 → UInt32) (config : LogConfig)

def encodeAll (rs : List Record) : List UInt8 := rs.flatMap (Record.encode crc)

/-- The bytes a list of records takes up. -/
def totalLen (rs : List Record) : ℕ := (rs.map Record.encodedLen).sum

@[simp] theorem encodeAll_nil : encodeAll crc [] = [] := rfl

@[simp] theorem encodeAll_cons (r : Record) (rs : List Record) :
    encodeAll crc (r :: rs) = r.encode crc ++ encodeAll crc rs := rfl

@[simp] theorem encodeAll_append (rs ss : List Record) :
    encodeAll crc (rs ++ ss) = encodeAll crc rs ++ encodeAll crc ss := by
  simp [encodeAll]

@[simp] theorem totalLen_nil : totalLen [] = 0 := rfl

@[simp] theorem totalLen_cons (r : Record) (rs : List Record) :
    totalLen (r :: rs) = r.encodedLen + totalLen rs := by
  simp [totalLen]

@[simp] theorem totalLen_append (rs ss : List Record) :
    totalLen (rs ++ ss) = totalLen rs + totalLen ss := by
  simp [totalLen]

@[simp] theorem length_encodeAll (rs : List Record) :
    (encodeAll crc rs).length = totalLen rs := by
  induction rs with
  | nil => rfl
  | cons r rs ih => simp [ih]

theorem totalLen_take_le (rs : List Record) (n : ℕ) : totalLen (rs.take n) ≤ totalLen rs := by
  have hsplit : totalLen (rs.take n) + totalLen (rs.drop n) = totalLen rs := by
    rw [← totalLen_append, List.take_append_drop]
  omega

/-- A record takes at least 32 bytes, so a segment has fewer records than bytes. -/
theorem length_le_totalLen (rs : List Record) : rs.length ≤ totalLen rs := by
  induction rs with
  | nil => simp
  | cons r rs ih =>
    have hpos := r.encodedLen_pos
    simp only [List.length_cons, totalLen_cons]
    omega

theorem totalLen_take_lt {rs : List Record} {i j : ℕ} (hij : i < j) (hj : j ≤ rs.length) :
    totalLen (rs.take i) < totalLen (rs.take j) := by
  have hsplit : rs.take j = rs.take i ++ (rs.drop i).take (j - i) := by
    rw [← List.take_add, Nat.add_sub_cancel' hij.le]
  have hlen := length_le_totalLen ((rs.drop i).take (j - i))
  rw [List.length_take, List.length_drop] at hlen
  rw [hsplit, totalLen_append]
  omega

/-- The records of a log: offsets count up from `n` and every record passed the size check. -/
def Numbered : ℕ → List Record → Prop
  | _, [] => True
  | n, r :: rs => r.offset = n ∧ n < 2 ^ 64 ∧ r.encodedLen ≤ config.maxRecordBytes ∧
      Numbered (n + 1) rs

variable {crc config}

@[simp] theorem numbered_nil (n : ℕ) : Numbered config n [] := trivial

theorem numbered_append {n : ℕ} {rs ss : List Record} :
    Numbered config n (rs ++ ss) ↔ Numbered config n rs ∧ Numbered config (n + rs.length) ss := by
  induction rs generalizing n with
  | nil => simp [Numbered]
  | cons r rs ih =>
    simp only [List.cons_append, Numbered, ih, List.length_cons, and_assoc]
    rw [show n + (rs.length + 1) = n + 1 + rs.length by omega]

theorem Numbered.take {n : ℕ} {rs : List Record} (h : Numbered config n rs) (k : ℕ) :
    Numbered config n (rs.take k) := by
  rw [← List.take_append_drop k rs, numbered_append] at h
  exact h.1

theorem Numbered.drop {n : ℕ} {rs : List Record} (h : Numbered config n rs) {k : ℕ}
    (hk : k ≤ rs.length) : Numbered config (n + k) (rs.drop k) := by
  rw [← List.take_append_drop k rs, numbered_append, List.length_take, Nat.min_eq_left hk] at h
  exact h.2

theorem Numbered.offset_eq {n i : ℕ} {r : Record} {rs : List Record} (h : Numbered config n rs)
    (hr : rs[i]? = some r) : r.offset = n + i := by
  induction rs generalizing n i with
  | nil => cases hr
  | cons r' rs ih =>
    obtain ⟨hoffset, -, -, hrest⟩ := h
    cases i with
    | zero =>
      cases hr
      exact hoffset
    | succ i =>
      rw [ih hrest hr]
      omega

theorem Numbered.encodable {n : ℕ} {r : Record} {rs : List Record} (hc : config.Valid)
    (h : Numbered config n (r :: rs)) : r.Encodable :=
  ⟨h.1 ▸ h.2.1, h.2.2.1.trans hc.record_le⟩

/-- Bytes at the end of a file that are no complete record: a record cut short, or nothing. -/
def Torn (crc : List UInt8 → UInt32) (config : LogConfig) (tail : List UInt8) : Prop :=
  tail = [] ∨ ∃ r : Record, r.Encodable ∧ r.encodedLen ≤ config.maxRecordBytes ∧
    ∃ n < r.encodedLen, tail = (r.encode crc).take n

theorem Torn.decode {tail : List UInt8} (h : Torn crc config tail) :
    Record.decode crc tail config.maxRecordBytes = .incomplete := by
  rcases h with rfl | ⟨r, henc, hmax, n, hn, rfl⟩
  · simp [Record.decode, LEN_FIELD_BYTES]
  · exact Record.decode_take_encode crc henc hmax hn

/-- Each entry names the byte position of the record with that relative offset, which may be
the record to come: its entry is written first. -/
structure IndexOk (chunk : List Record) (entries : List (ℕ × ℕ)) : Prop where
  ascending : entries.Pairwise fun a b => a.1 < b.1
  position : ∀ e ∈ entries, e.1 ≤ chunk.length ∧ e.2 = totalLen (chunk.take e.1)

theorem IndexOk.nil (chunk : List Record) : IndexOk chunk [] :=
  ⟨.nil, by simp⟩

theorem IndexOk.extend {chunk : List Record} {entries : List (ℕ × ℕ)}
    (h : IndexOk chunk entries) (more : List Record) : IndexOk (chunk ++ more) entries := by
  refine ⟨h.ascending, fun e he => ?_⟩
  obtain ⟨hle, hpos⟩ := h.position e he
  refine ⟨by simp; omega, ?_⟩
  rw [hpos, List.take_append_of_le_length hle]

/-- The entries of records the segment already has. -/
def Behind (chunk : List Record) (entries : List (ℕ × ℕ)) : Prop :=
  ∀ e ∈ entries, e.1 < chunk.length

theorem IndexOk.behind_snoc {chunk : List Record} {entries : List (ℕ × ℕ)}
    (h : IndexOk chunk entries) (r : Record) : Behind (chunk ++ [r]) entries := by
  intro e he
  have hle := (h.position e he).1
  rw [List.length_append, List.length_singleton]
  omega

/-- The next record's own entry, ahead of the record. -/
theorem IndexOk.ahead {chunk : List Record} {entries : List (ℕ × ℕ)} (h : IndexOk chunk entries)
    (hbehind : Behind chunk entries) :
    IndexOk chunk (entries ++ [(chunk.length, totalLen chunk)]) := by
  refine ⟨?_, fun e he => ?_⟩
  · refine List.pairwise_append.mpr ⟨h.ascending, by simp, fun a ha b hb => ?_⟩
    rw [List.mem_singleton.mp hb]
    exact hbehind a ha
  · rcases List.mem_append.mp he with he | he
    · exact h.position e he
    · rw [List.mem_singleton.mp he]
      simp

theorem IndexOk.snoc {chunk : List Record} {entries : List (ℕ × ℕ)} (h : IndexOk chunk entries)
    (hbehind : Behind chunk entries) (r : Record) :
    IndexOk (chunk ++ [r]) (entries ++ [(chunk.length, totalLen chunk)]) :=
  (h.ahead hbehind).extend [r]

theorem IndexOk.take {chunk : List Record} {entries : List (ℕ × ℕ)}
    (h : IndexOk chunk entries) (k : ℕ) : IndexOk chunk (entries.take k) :=
  ⟨h.ascending.sublist (List.take_sublist k entries),
    fun e he => h.position e (List.mem_of_mem_take he)⟩

/-- Positions grow with the relative offsets, so the stored entries pass the load check. -/
theorem IndexOk.both_ascending {chunk : List Record} {entries : List (ℕ × ℕ)}
    (h : IndexOk chunk entries) : entries.Pairwise fun a b => a.1 < b.1 ∧ a.2 < b.2 := by
  refine h.ascending.imp_of_mem fun {a b} ha hb hlt => ⟨hlt, ?_⟩
  rw [(h.position a ha).2, (h.position b hb).2]
  exact totalLen_take_lt hlt (h.position b hb).1

private theorem IndexOk.lt {chunk : List Record} {entries : List (ℕ × ℕ)} (h : IndexOk chunk entries)
    (hsize : totalLen chunk ≤ 2 ^ 30) {e : ℕ × ℕ} (he : e ∈ entries) :
    e.1 < 2 ^ 32 ∧ e.2 < 2 ^ 32 := by
  obtain ⟨hle, hpos⟩ := h.position e he
  have hlen := length_le_totalLen chunk
  have hle' := totalLen_take_le chunk e.1
  omega

@[simp] theorem length_encodeEntries (es : List (ℕ × ℕ)) :
    (SparseIndex.encodeEntries es).length = ENTRY_BYTES * es.length := by
  induction es with
  | nil => rfl
  | cons e es ih =>
    simp only [SparseIndex.encodeEntries, List.flatMap_cons, List.length_append] at ih ⊢
    simp only [ih, SparseIndex.encodeEntry, List.length_append, length_leBytes, ENTRY_BYTES,
      List.length_cons]
    omega

private theorem parse_encodeEntries (acc : List (ℕ × ℕ)) {es : List (ℕ × ℕ)}
    (hasc : (acc ++ es).Pairwise fun a b => a.1 < b.1 ∧ a.2 < b.2)
    (hlt : ∀ e ∈ es, e.1 < 2 ^ 32 ∧ e.2 < 2 ^ 32) :
    SparseIndex.parse es.length (SparseIndex.encodeEntries es) acc = some (acc ++ es) := by
  induction es generalizing acc with
  | nil => simp [SparseIndex.parse]
  | cons e es ih =>
    obtain ⟨h1, h2⟩ := hlt e List.mem_cons_self
    have hbytes : SparseIndex.encodeEntries (e :: es) =
        leBytes 4 e.1 ++ (leBytes 4 e.2 ++ SparseIndex.encodeEntries es) := by
      simp [SparseIndex.encodeEntries, SparseIndex.encodeEntry]
    have hrel : leValue ((SparseIndex.encodeEntries (e :: es)).take 4) = e.1 := by
      rw [hbytes, List.take_left' (by simp)]
      exact leValue_leBytes_of_lt (lt_of_lt_of_eq h1 (by norm_num))
    have hpos : leValue (((SparseIndex.encodeEntries (e :: es)).drop 4).take 4) = e.2 := by
      rw [hbytes, List.drop_left' (by simp), List.take_left' (by simp)]
      exact leValue_leBytes_of_lt (lt_of_lt_of_eq h2 (by norm_num))
    have hrest : (SparseIndex.encodeEntries (e :: es)).drop ENTRY_BYTES =
        SparseIndex.encodeEntries es := by
      rw [hbytes, ← List.append_assoc, List.drop_left' (by simp [ENTRY_BYTES])]
    have hfollows : acc.getLast?.all (fun last => decide (last.1 < e.1 ∧ last.2 < e.2)) = true := by
      cases hlast : acc.getLast? with
      | none => rfl
      | some last =>
        have hmem := List.mem_of_getLast? hlast
        have hpair := (List.pairwise_append.mp hasc).2.2 last hmem e List.mem_cons_self
        simpa using hpair
    rw [List.length_cons, SparseIndex.parse, hrel, hpos, hrest]
    simp only [hfollows, if_true]
    rw [ih (acc ++ [e]) (by simpa using hasc) (fun a ha => hlt a (List.mem_cons_of_mem e ha))]
    simp

private theorem take_encodeEntries (es : List (ℕ × ℕ)) (k : ℕ) :
    (SparseIndex.encodeEntries es).take (ENTRY_BYTES * k) =
      SparseIndex.encodeEntries (es.take k) := by
  have hlen := length_encodeEntries (es.take k)
  rcases Nat.le_total k es.length with hk | hk
  · conv_lhs => rw [← List.take_append_drop k es]
    rw [SparseIndex.encodeEntries, List.flatMap_append, List.take_left']
    · rfl
    · rw [SparseIndex.encodeEntries] at hlen
      rw [hlen, List.length_take, Nat.min_eq_left hk]
  · rw [List.take_of_length_le hk, List.take_of_length_le]
    rw [length_encodeEntries]
    exact Nat.mul_le_mul_left _ hk

/-- What a stored index may hold after a crash: a prefix of good entries, cut at any byte. -/
def IndexFileOk (chunk : List Record) (file : Option (List UInt8)) : Prop :=
  ∀ bytes, file = some bytes →
    ∃ es k, IndexOk chunk es ∧ bytes = (SparseIndex.encodeEntries es).take k

theorem IndexFileOk.of_entries {chunk : List Record} {es : List (ℕ × ℕ)}
    (h : IndexOk chunk es) : IndexFileOk chunk (some (SparseIndex.encodeEntries es)) := by
  intro bytes hb
  exact ⟨es, (SparseIndex.encodeEntries es).length, h, by
    rw [List.take_length]; exact (Option.some.inj hb).symm⟩

theorem IndexFileOk.cut {chunk : List Record} {file : Option (List UInt8)}
    (h : IndexFileOk chunk file) (n : ℕ) : IndexFileOk chunk (file.map (List.take n)) := by
  intro bytes hb
  obtain ⟨old, hold, rfl⟩ := Option.map_eq_some_iff.mp hb
  obtain ⟨es, k, hes, rfl⟩ := h old hold
  exact ⟨es, min n k, hes, List.take_take⟩

/-- An index file that was written to the end loads. -/
theorem load_entries {chunk : List Record} {es : List (ℕ × ℕ)} {fs : Fs} {base : ℕ}
    (hes : IndexOk chunk es) (hsize : totalLen chunk ≤ 2 ^ 30)
    (hfile : fs.dir.index base = some (SparseIndex.encodeEntries es)) :
    (SparseIndex.load base).run fs = .ok (some ⟨es⟩) fs := by
  have hlen := length_encodeEntries es
  have hwhole : (SparseIndex.encodeEntries es).length % ENTRY_BYTES = 0 := by
    rw [hlen, Nat.mul_mod_right]
  have hdiv : (SparseIndex.encodeEntries es).length / ENTRY_BYTES = es.length := by
    rw [hlen, Nat.mul_div_cancel_left _ (by decide)]
  have hparse := parse_encodeEntries [] (by simpa using hes.both_ascending)
    (fun e he => hes.lt hsize he)
  rw [EStateM.run, SparseIndex.load, hfile]
  simp only [hwhole, hdiv, hparse, ne_eq, not_true_eq_false, if_false, List.nil_append,
    Option.map_some]

/-- Loading finds good entries, or decides to rebuild. -/
theorem load_spec {chunk : List Record} {fs : Fs} {base : ℕ} (hsize : totalLen chunk ≤ 2 ^ 30)
    (h : IndexFileOk chunk (fs.dir.index base)) :
    (SparseIndex.load base).run fs = .ok none fs ∨
      ∃ es, IndexOk chunk es ∧ fs.dir.index base = some (SparseIndex.encodeEntries es) ∧
        (SparseIndex.load base).run fs = .ok (some ⟨es⟩) fs := by
  cases hfile : fs.dir.index base with
  | none => exact .inl (by simp [SparseIndex.load, EStateM.run, hfile])
  | some bytes =>
    by_cases hwhole : bytes.length % ENTRY_BYTES ≠ 0
    · exact .inl (by simp only [SparseIndex.load, EStateM.run, hfile, hwhole, if_true, ne_eq,
        not_false_eq_true])
    · obtain ⟨es, k, hes, rfl⟩ := h bytes hfile
      simp only [ne_eq, not_not] at hwhole
      -- whole entries survive: the cut is after the first `m` of them
      obtain ⟨m, hm⟩ : ∃ m, (SparseIndex.encodeEntries es).take k =
          SparseIndex.encodeEntries (es.take m) := by
        refine ⟨((SparseIndex.encodeEntries es).take k).length / ENTRY_BYTES, ?_⟩
        rw [← take_encodeEntries, Nat.mul_div_cancel' (Nat.dvd_of_mod_eq_zero hwhole)]
        exact List.take_eq_take_min.trans (by simp)
      rw [hm] at hfile ⊢
      exact .inr ⟨es.take m, hes.take m, rfl, load_entries (hes.take m) hsize hfile⟩

/-- A segment, its two files, and the records they stand for. -/
structure SegmentOk (crc : List UInt8 → UInt32) (config : LogConfig) (dir : Dir)
    (seg : Segment) (base : ℕ) (chunk : List Record) : Prop where
  base_eq : seg.baseOffset = base
  next_eq : seg.nextOffset = base + chunk.length
  size_eq : seg.size = totalLen chunk
  log_file : ∃ synced, dir.log base = some ⟨encodeAll crc chunk, synced⟩
  index_file : dir.index base = some (SparseIndex.encodeEntries seg.index.entries)
  index_ok : IndexOk chunk seg.index.entries
  /-- An entry is due only when none is ahead. -/
  behind : Behind chunk seg.index.entries ∨ seg.bytesSinceIndex < config.indexIntervalBytes
  numbered : Numbered config base chunk
  size_le : totalLen chunk ≤ 2 ^ 30

/-- A segment's meaning depends on its own two files only. -/
theorem SegmentOk.frame {dir dir' : Dir} {seg : Segment} {base : ℕ} {chunk : List Record}
    (h : SegmentOk crc config dir seg base chunk) (hlog : dir'.log base = dir.log base)
    (hindex : dir'.index base = dir.index base) : SegmentOk crc config dir' seg base chunk :=
  { h with log_file := hlog ▸ h.log_file, index_file := hindex ▸ h.index_file }

end Replog.Storage
