import Replog.Storage.Layout

/-!
# What reads of a segment return

A read finds the position of its offset through the index and returns the longest run of
records from there whose bytes stay within the limit, or the first record alone.
-/

namespace Replog.Storage

variable {crc : List UInt8 → UInt32} {config : LogConfig}

theorem FsM.run_checkedSub {a b : ℕ} (h : b ≤ a) (fs : Fs) :
    (FsM.checkedSub a b).run fs = .ok (a - b) fs := by
  simp [FsM.checkedSub, h]

theorem FsM.run_readLog {fs : Fs} {base : ℕ} {file : LogFile} (h : fs.dir.log base = some file) :
    (FsM.readLog base).run fs = .ok file fs := by
  simp [FsM.readLog, EStateM.run, h]

/-- A step that succeeds hands its result and state to the rest. -/
theorem run_bind_ok {ε σ α β : Type} {x : EStateM ε σ α} {f : α → EStateM ε σ β} {s s' : σ}
    {a : α} (h : x.run s = .ok a s') : (x >>= f).run s = (f a).run s' := by
  rw [EStateM.run_bind, h]

/-- The greatest entry at or below a target names the position of a record not past it. -/
theorem startPos_spec {dir : Dir} {seg : Segment} {base : ℕ} {chunk : List Record}
    (h : SegmentOk crc config dir seg base chunk) {target : ℕ} (htarget : target < chunk.length) :
    ∃ k ≤ target, seg.startPos (base + target) = totalLen (chunk.take k) := by
  have hlt : target < 2 ^ 32 := by
    have hlen := length_le_totalLen chunk
    have hsize := h.size_le
    omega
  have hrel : u32 (base + target - seg.baseOffset) = target := by
    rw [h.base_eq, Nat.add_sub_cancel_left, u32_of_lt hlt]
  rw [Segment.startPos, hrel, SparseIndex.lookup]
  cases hfind : seg.index.entries.reverse.find? fun e => e.1 ≤ target with
  | none => exact ⟨0, Nat.zero_le _, by simp⟩
  | some e =>
    have hmem : e ∈ seg.index.entries := List.mem_reverse.mp (List.mem_of_find?_eq_some hfind)
    refine ⟨e.1, by simpa using List.find?_some hfind, ?_⟩
    simpa using (h.index_ok.position e hmem).2

theorem drop_encodeAll (crc : List UInt8 → UInt32) (chunk : List Record) (k : ℕ) :
    (encodeAll crc chunk).drop (totalLen (chunk.take k)) = encodeAll crc (chunk.drop k) := by
  conv_lhs => rw [← List.take_append_drop k chunk, encodeAll_append]
  rw [List.take_append_drop, List.drop_left' (length_encodeAll crc _)]

theorem take_encodeAll (crc : List UInt8 → UInt32) (chunk : List Record) (k : ℕ) :
    (encodeAll crc chunk).take (totalLen (chunk.take k)) = encodeAll crc (chunk.take k) := by
  conv_lhs => rw [← List.take_append_drop k chunk, encodeAll_append]
  rw [List.take_append_drop, List.take_left' (length_encodeAll crc _)]

theorem committedFrom_eq {fs : Fs} {seg : Segment} {base : ℕ} {chunk : List Record}
    (h : SegmentOk crc config fs.dir seg base chunk) (k : ℕ) :
    (seg.committedFrom (totalLen (chunk.take k))).run fs =
      .ok (encodeAll crc (chunk.drop k)) fs := by
  obtain ⟨synced, hfile⟩ := h.log_file
  rw [← h.base_eq] at hfile
  have hle : totalLen (chunk.take k) ≤ seg.size := h.size_eq ▸ totalLen_take_le chunk k
  rw [Segment.committedFrom, run_bind_ok (FsM.run_readLog hfile),
    run_bind_ok (FsM.run_checkedSub hle fs), drop_encodeAll, List.take_of_length_le]
  · rfl
  · have hsplit : totalLen (chunk.take k) + totalLen (chunk.drop k) = totalLen chunk := by
      rw [← totalLen_append, List.take_append_drop]
    rw [length_encodeAll, h.size_eq]
    omega

/-- One turn of any decode loop whose bytes start with a whole record. -/
theorem decode_encodeAll_cons (crc : List UInt8 → UInt32) {r : Record} {rs : List Record} {n : ℕ}
    (hc : config.Valid) (h : Numbered config n (r :: rs)) (tail : List UInt8) :
    Record.decode crc (encodeAll crc (r :: rs) ++ tail) config.maxRecordBytes =
      .record r r.encodedLen := by
  rw [encodeAll_cons, List.append_assoc]
  exact Record.decode_encode_append crc (h.encodable hc) h.2.2.1 _

theorem drop_encodeAll_cons (crc : List UInt8 → UInt32) (r : Record) (rs : List Record)
    (tail : List UInt8) :
    (encodeAll crc (r :: rs) ++ tail).drop r.encodedLen = encodeAll crc rs ++ tail := by
  rw [encodeAll_cons, List.append_assoc, List.drop_left' (Record.length_encode crc r)]

/-- The records a read still takes once `used` bytes are out. -/
def takeRun (maxBytes : ℕ) : ℕ → List Record → List Record
  | _, [] => []
  | used, r :: rs =>
    if maxBytes < used + r.encodedLen then []
    else if maxBytes ≤ used + r.encodedLen then [r]
    else r :: takeRun maxBytes (used + r.encodedLen) rs

private theorem takeRun_isPrefix (maxBytes used : ℕ) (rs : List Record) :
    takeRun maxBytes used rs <+: rs := by
  induction rs generalizing used with
  | nil => simp [takeRun]
  | cons r rs ih =>
    simp only [takeRun]
    split_ifs
    · exact List.nil_prefix
    · exact List.prefix_cons_inj r |>.mpr List.nil_prefix
    · exact List.prefix_cons_inj r |>.mpr (ih _)

private theorem takeRun_within {maxBytes : ℕ} (used : ℕ) (h : used ≤ maxBytes) (rs : List Record) :
    used + totalLen (takeRun maxBytes used rs) ≤ maxBytes := by
  induction rs generalizing used with
  | nil => simpa [takeRun] using h
  | cons r rs ih =>
    simp only [takeRun]
    split_ifs with hover hfull
    · simpa using h
    · simp only [totalLen_cons, totalLen_nil]
      omega
    · have hrest := ih (used + r.encodedLen) (by omega)
      simp only [totalLen_cons]
      omega

private theorem takeRun_longest {maxBytes : ℕ} (used : ℕ) {rs q : List Record} (hq : q <+: rs)
    (hlen : used + totalLen q ≤ maxBytes) : q.length ≤ (takeRun maxBytes used rs).length := by
  induction rs generalizing used q with
  | nil => simp [List.prefix_nil.mp hq]
  | cons r rs ih =>
    cases q with
    | nil => simp
    | cons a q =>
      obtain ⟨rfl, hrest⟩ := List.cons_prefix_cons.mp hq
      simp only [totalLen_cons] at hlen
      rw [takeRun, if_neg (by omega)]
      split_ifs with hfull
      · cases q with
        | nil => simp
        | cons b q =>
          have hpos := b.encodedLen_pos
          simp only [totalLen_cons] at hlen
          omega
      · have hle := ih (used + a.encodedLen) hrest (by omega)
        simp only [List.length_cons]
        omega

/-- The run a read returns from the records `avail` at and after its offset: the longest that
fits in `maxBytes`, or the first record when that alone is larger. -/
structure ReadRun (maxBytes : ℕ) (avail run : List Record) : Prop where
  isPrefix : run <+: avail
  nonempty : run ≠ []
  within : totalLen run ≤ maxBytes ∨ run.length = 1
  longest : ∀ q, q <+: avail → totalLen q ≤ maxBytes → q.length ≤ run.length

theorem ReadRun.isPrefix_of {maxBytes : ℕ} {avail run q : List Record}
    (h : ReadRun maxBytes avail run) (hq : q <+: avail)
    (hsmall : totalLen q ≤ maxBytes ∨ q.length = 1) : q <+: run := by
  refine List.prefix_of_prefix_length_le hq h.isPrefix ?_
  rcases hsmall with hsmall | hone
  · exact h.longest q hq hsmall
  · have hpos := List.length_pos_of_ne_nil h.nonempty
    omega

private theorem readRun_cons (maxBytes : ℕ) (r : Record) (rs : List Record) :
    ReadRun maxBytes (r :: rs)
      (if maxBytes ≤ r.encodedLen then [r] else r :: takeRun maxBytes r.encodedLen rs) := by
  split_ifs with hfull
  · refine ⟨List.prefix_cons_inj r |>.mpr List.nil_prefix, by simp, .inr rfl, ?_⟩
    intro q hq hlen
    rcases q with _ | ⟨a, _ | ⟨b, q⟩⟩
    · simp
    · simp
    · obtain ⟨rfl, -⟩ := List.cons_prefix_cons.mp hq
      have hpos := b.encodedLen_pos
      simp only [totalLen_cons] at hlen
      omega
  · refine ⟨List.prefix_cons_inj r |>.mpr (takeRun_isPrefix _ _ _), by simp, .inl ?_, ?_⟩
    · have hle := takeRun_within r.encodedLen (show r.encodedLen ≤ maxBytes by omega) rs
      simpa using hle
    · intro q hq hlen
      cases q with
      | nil => simp
      | cons a q =>
        obtain ⟨rfl, hrest⟩ := List.cons_prefix_cons.mp hq
        have hle : q.length ≤ (takeRun maxBytes a.encodedLen rs).length :=
          takeRun_longest a.encodedLen hrest (by simpa using hlen)
        simp only [List.length_cons]
        omega

private theorem readLoop_taking (hc : config.Valid) {seg : Segment} {offset maxBytes start : ℕ} {fs : Fs}
    {rs : List Record} {n : ℕ} (hnum : Numbered config n rs) (hn : offset ≤ n) {fuel pos used : ℕ}
    {out : List Record} (hfuel : rs.length < fuel) (hout : out ≠ []) :
    (seg.readLoop crc config offset maxBytes start fuel (encodeAll crc rs) pos out used).run fs =
      .ok (out ++ takeRun maxBytes used rs) fs := by
  induction rs generalizing fuel pos used out n with
  | nil =>
    obtain ⟨fuel, rfl⟩ := Nat.exists_eq_succ_of_ne_zero (Nat.ne_of_gt hfuel)
    have hdecode : Record.decode crc [] config.maxRecordBytes = .incomplete :=
      Torn.decode (.inl rfl)
    simp [Segment.readLoop, hdecode, takeRun]
  | cons r rs ih =>
    obtain ⟨fuel, rfl⟩ := Nat.exists_eq_succ_of_ne_zero (Nat.ne_of_gt (Nat.zero_lt_of_lt hfuel))
    have hdecode := decode_encodeAll_cons crc hc hnum []
    have hdrop := drop_encodeAll_cons crc r rs []
    rw [List.append_nil] at hdecode
    simp only [List.append_nil] at hdrop
    have hoffset : ¬ r.offset < offset := by
      rw [hnum.1]
      omega
    simp only [List.length_cons] at hfuel
    simp only [Segment.readLoop, hdecode, hoffset, if_false, hout, ne_eq, not_false_eq_true,
      true_and, takeRun]
    split_ifs with hover hfull
    · simp
    · simp
    · rw [hdrop, ih hnum.2.2.2 (by omega) (by omega) (by simp)]
      simp

/-- The loop skips the records before its offset and then returns a read run. -/
theorem readLoop_spec (crc : List UInt8 → UInt32) (hc : config.Valid) (seg : Segment)
    (maxBytes start : ℕ) (fs : Fs) {rs : List Record} {n k : ℕ} (hnum : Numbered config n rs)
    (hk : k < rs.length) {fuel : ℕ} (pos : ℕ) (hfuel : rs.length < fuel) :
    ∃ run, ReadRun maxBytes (rs.drop k) run ∧
      (seg.readLoop crc config (n + k) maxBytes start fuel (encodeAll crc rs) pos [] 0).run fs =
        .ok run fs := by
  induction k generalizing rs n fuel pos with
  | zero =>
    obtain ⟨r, rs, rfl⟩ := List.exists_cons_of_length_pos hk
    obtain ⟨fuel, rfl⟩ := Nat.exists_eq_succ_of_ne_zero (Nat.ne_of_gt (Nat.zero_lt_of_lt hfuel))
    have hdecode := decode_encodeAll_cons crc hc hnum []
    have hdrop := drop_encodeAll_cons crc r rs []
    rw [List.append_nil] at hdecode
    simp only [List.append_nil] at hdrop
    refine ⟨_, readRun_cons maxBytes r rs, ?_⟩
    simp only [List.length_cons] at hfuel
    simp only [Segment.readLoop, hdecode, hnum.1, Nat.add_zero, Nat.lt_irrefl, if_false, ne_eq,
      not_true_eq_false, false_and, List.nil_append, Nat.zero_add]
    split_ifs with hfull
    · rfl
    · rw [hdrop, readLoop_taking hc hnum.2.2.2 (by omega) (by omega) (by simp)]
      simp
  | succ k ih =>
    obtain ⟨r, rs, rfl⟩ := List.exists_cons_of_length_pos (Nat.zero_lt_of_lt hk)
    obtain ⟨fuel, rfl⟩ := Nat.exists_eq_succ_of_ne_zero (Nat.ne_of_gt (Nat.zero_lt_of_lt hfuel))
    have hdecode := decode_encodeAll_cons crc hc hnum []
    have hdrop := drop_encodeAll_cons crc r rs []
    rw [List.append_nil] at hdecode
    simp only [List.append_nil] at hdrop
    simp only [List.length_cons] at hfuel hk
    obtain ⟨run, hrun, heq⟩ := ih hnum.2.2.2 (by omega) (pos + r.encodedLen)
      (show rs.length < fuel by omega)
    refine ⟨run, by simpa using hrun, ?_⟩
    simp only [Segment.readLoop, hdecode, hnum.1]
    rw [if_pos (by omega), hdrop, show n + (k + 1) = n + 1 + k by omega, heq]

theorem readFrom_spec (hc : config.Valid) {fs : Fs} {seg : Segment} {base k : ℕ}
    {chunk : List Record} (h : SegmentOk crc config fs.dir seg base chunk)
    (hk : k < chunk.length) (maxBytes : ℕ) :
    ∃ run, ReadRun maxBytes (chunk.drop k) run ∧
      (seg.readFrom crc config (base + k) maxBytes).run fs = .ok run fs := by
  obtain ⟨j, hj, hstart⟩ := startPos_spec h hk
  have hnum := h.numbered.drop (k := j) (by omega)
  have hlen := length_le_totalLen (chunk.drop j)
  obtain ⟨run, hrun, heq⟩ := readLoop_spec crc hc seg maxBytes (seg.startPos (base + k)) fs hnum
    (show k - j < (chunk.drop j).length by rw [List.length_drop]; omega) 0
    (show _ < (encodeAll crc (chunk.drop j)).length + 1 by rw [length_encodeAll]; omega)
  rw [show base + j + (k - j) = base + k by omega] at heq
  refine ⟨run, ?_, ?_⟩
  · rwa [List.drop_drop, Nat.add_sub_cancel' hj] at hrun
  · rw [Segment.readFrom, if_neg (by rw [h.base_eq, h.next_eq]; omega)]
    rw [hstart, run_bind_ok (committedFrom_eq h j), ← hstart]
    exact heq

private theorem positionLoop_spec (crc : List UInt8 → UInt32) (hc : config.Valid) (start : ℕ) (fs : Fs)
    {rs : List Record} {n k : ℕ} (hnum : Numbered config n rs) (hk : k < rs.length) {fuel : ℕ}
    (pos : ℕ) (hfuel : rs.length < fuel) :
    (Segment.positionLoop crc config (n + k) start fuel (encodeAll crc rs) pos).run fs =
      .ok (start + (pos + totalLen (rs.take k))) fs := by
  induction k generalizing rs n fuel pos with
  | zero =>
    obtain ⟨r, rs, rfl⟩ := List.exists_cons_of_length_pos hk
    obtain ⟨fuel, rfl⟩ := Nat.exists_eq_succ_of_ne_zero (Nat.ne_of_gt (Nat.zero_lt_of_lt hfuel))
    have hdecode := decode_encodeAll_cons crc hc hnum []
    rw [List.append_nil] at hdecode
    simp only [Segment.positionLoop, hdecode, hnum.1, Nat.add_zero, if_true]
    simp
  | succ k ih =>
    obtain ⟨r, rs, rfl⟩ := List.exists_cons_of_length_pos (Nat.zero_lt_of_lt hk)
    obtain ⟨fuel, rfl⟩ := Nat.exists_eq_succ_of_ne_zero (Nat.ne_of_gt (Nat.zero_lt_of_lt hfuel))
    have hdecode := decode_encodeAll_cons crc hc hnum []
    have hdrop := drop_encodeAll_cons crc r rs []
    rw [List.append_nil] at hdecode
    simp only [List.append_nil] at hdrop
    simp only [List.length_cons] at hfuel hk
    simp only [Segment.positionLoop, hdecode, hnum.1]
    rw [if_neg (by omega), hdrop, show n + (k + 1) = n + 1 + k by omega,
      ih hnum.2.2.2 (by omega) _ (by omega)]
    simp [Nat.add_assoc]

/-- The position of an offset is the length of the records before it. -/
theorem positionOf_spec (hc : config.Valid) {fs : Fs} {seg : Segment} {base k : ℕ}
    {chunk : List Record} (h : SegmentOk crc config fs.dir seg base chunk)
    (hk : k ≤ chunk.length) :
    (seg.positionOf crc config (base + k)).run fs = .ok (totalLen (chunk.take k)) fs := by
  rw [Segment.positionOf, if_neg (by rw [h.base_eq, h.next_eq]; omega), h.next_eq]
  by_cases hend : k = chunk.length
  · rw [if_pos (by omega), h.size_eq, hend, List.take_length]
    rfl
  · have hlt : k < chunk.length := by omega
    obtain ⟨j, hj, hstart⟩ := startPos_spec h hlt
    have hnum := h.numbered.drop (k := j) (by omega)
    have hlen := length_le_totalLen (chunk.drop j)
    have hloop := positionLoop_spec crc hc (seg.startPos (base + k)) fs hnum
      (show k - j < (chunk.drop j).length by rw [List.length_drop]; omega) 0
      (show _ < (encodeAll crc (chunk.drop j)).length + 1 by rw [length_encodeAll]; omega)
    rw [show base + j + (k - j) = base + k by omega, hstart, Nat.zero_add, ← totalLen_append,
      ← List.take_add, Nat.add_sub_cancel' hj] at hloop
    rw [if_neg (by omega)]
    rw [hstart, run_bind_ok (committedFrom_eq h j)]
    exact hloop

end Replog.Storage
