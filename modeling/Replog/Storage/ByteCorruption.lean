import Replog.Library.Crc32
import Replog.Storage.Serving
import Replog.Storage.Twins

/-!
# One changed byte

A byte of a segment file changes after it was written. The checksum shows it, unless the byte
belongs to the length field of a record, which says how much is checked: a larger length may look
like a record that is not complete yet, and then a read ends before it as if there was nothing.
-/

namespace Replog.Storage
open Replog.LittleEndian

/-- No change of one byte goes unnoticed. -/
def Detects (crc : List UInt8 → UInt32) : Prop :=
  ∀ bytes i b, i < bytes.length → bytes[i]? ≠ some b → crc (bytes.set i b) ≠ crc bytes

private theorem detects_crc32 : Detects Crc32.crc32 := fun _ _ _ => Crc32.crc32_set_ne

variable {crc : List UInt8 → UInt32} {config : LogConfig}

namespace Record

variable {buf : List UInt8} {maxRecordBytes c c' k : ℕ} {r r' : Record} {v : UInt8}

theorem drop_set_of_le {l : List UInt8} {i n : ℕ} (h : n ≤ i) (b : UInt8) :
    (l.set i b).drop n = (l.drop n).set (i - n) b := by
  rw [List.drop_set, if_neg (by omega)]

private theorem decode_set_corrupt (hcrc : Detects crc) (h : decode crc buf maxRecordBytes = .record r c)
    (hk : LEN_FIELD_BYTES ≤ k) (hlt : k < c) (hv : buf[k]? ≠ some v) :
    ∃ reason, decode crc (buf.set k v) maxRecordBytes = .corrupt reason := by
  obtain ⟨hc, hmin, hmax, hle, hstored, -⟩ := decode_eq_record_iff.mp h
  simp only [LEN_FIELD_BYTES, CRC_FIELD_BYTES, MIN_BODY_BYTES] at hk hc hmin
  have hlen : leValue ((buf.set k v).take 4) = leValue (buf.take 4) := by
    rw [List.take_set_of_le hk]
  have hmismatch : leValue (((buf.set k v).drop 4).take 4) ≠
      (crc (((buf.set k v).take c).drop 8)).toNat := by
    rw [List.take_set, drop_set_of_le hk]
    by_cases hfield : k < 8
    · have hbody : ((buf.take c).set k v).drop 8 = (buf.take c).drop 8 := by
        rw [List.drop_set, if_pos hfield]
      rw [hbody, ← hstored, List.take_set]
      refine leValue_set_ne (by simp; omega) ?_
      rw [List.getElem?_take_of_lt (by omega), List.getElem?_drop, Nat.add_sub_cancel' hk]
      exact hv
    · rw [List.take_set_of_le (by omega), hstored, drop_set_of_le (by omega)]
      intro heq
      refine hcrc _ (k - 8) v (by simp; omega) ?_ (UInt32.toNat_inj.mp heq.symm)
      rw [List.getElem?_drop, Nat.add_sub_cancel' (by omega), List.getElem?_take_of_lt hlt]
      exact hv
  simp only [decode, hlen, List.length_set, LEN_FIELD_BYTES, CRC_FIELD_BYTES, MIN_BODY_BYTES]
  rw [if_neg (by omega), if_neg (by omega), if_neg (by omega), if_neg (by omega), ← hc,
    if_pos hmismatch]
  exact ⟨_, rfl⟩

/-- The offset stands at the front of the body. -/
theorem decodeBody_offset {body : List UInt8} (h : decodeBody body = .ok r) :
    r.offset = leValue (body.take 8) := by
  rw [decodeBody] at h
  cases hkey : decodeKey body with
  | error e =>
    rw [hkey] at h
    cases h
  | ok found =>
    rw [hkey] at h
    simp only [bind, Except.bind] at h
    split_ifs at h
    cases h
    rfl

private theorem decode_set_length (h : decode crc buf maxRecordBytes = .record r c)
    (hk : k < LEN_FIELD_BYTES) (hv : buf[k]? ≠ some v)
    (h' : decode crc (buf.set k v) maxRecordBytes = .record r' c') :
    r'.offset = r.offset ∧ r' ≠ r := by
  obtain ⟨hc, hmin, -, hle, -, hbody⟩ := decode_eq_record_iff.mp h
  obtain ⟨hc', hmin', -, hle', -, hbody'⟩ := decode_eq_record_iff.mp h'
  simp only [LEN_FIELD_BYTES, CRC_FIELD_BYTES, MIN_BODY_BYTES] at hk hc hmin hc' hmin'
  have hdrop : (buf.set k v).drop 8 = buf.drop 8 := by rw [List.drop_set, if_pos (by omega)]
  constructor
  · rw [decodeBody_offset hbody, decodeBody_offset hbody', List.drop_take, List.drop_take, hdrop,
      List.take_take, List.take_take, Nat.min_eq_left (by omega), Nat.min_eq_left (by omega)]
  · intro heq
    have hlen := decodeBody_encodedLen hbody
    have hlen' := decodeBody_encodedLen hbody'
    rw [List.length_drop, List.length_take, Nat.min_eq_left hle] at hlen
    rw [heq, List.length_drop, List.length_take, Nat.min_eq_left hle'] at hlen'
    refine @leValue_set_ne (buf.take 4) k v ?_ ?_ ?_
    · rw [List.length_take]
      omega
    · rwa [List.getElem?_take_of_lt hk]
    · rw [← List.take_set]
      omega

end Record

/-! ## Reading -/

/-- A read loop over whole records either stops in them or comes to what is behind them. -/
theorem readLoop_append (crc : List UInt8 → UInt32) (hc : config.Valid) (seg : Segment)
    (offset maxBytes start : ℕ) (fs : Fs) {rs : List Record} {n : ℕ} (hnum : Numbered config n rs)
    (rest : List UInt8) {fuel : ℕ} (hfuel : rs.length < fuel) (pos used : ℕ) (out : List Record) :
    (∃ run, (seg.readLoop crc config offset maxBytes start fuel (encodeAll crc rs ++ rest) pos out
        used).run fs = .ok (out ++ run) fs ∧ out ++ run ≠ [] ∧ run <+: rs.drop (offset - n)) ∨
      ∃ fuel' pos' used',
        (seg.readLoop crc config offset maxBytes start fuel (encodeAll crc rs ++ rest) pos out
          used).run fs =
        (seg.readLoop crc config offset maxBytes start (fuel' + 1) rest pos'
          (out ++ rs.drop (offset - n)) used').run fs := by
  induction rs generalizing n fuel pos used out with
  | nil =>
    obtain ⟨fuel, rfl⟩ := Nat.exists_eq_succ_of_ne_zero (Nat.ne_of_gt hfuel)
    refine .inr ⟨fuel, pos, used, ?_⟩
    rw [encodeAll_nil, List.nil_append, List.drop_nil, List.append_nil]
  | cons r rs ih =>
    obtain ⟨fuel, rfl⟩ := Nat.exists_eq_succ_of_ne_zero (Nat.ne_of_gt (Nat.zero_lt_of_lt hfuel))
    have hdecode := decode_encodeAll_cons crc hc hnum rest
    have hdrop := drop_encodeAll_cons crc r rs rest
    simp only [List.length_cons] at hfuel
    simp only [Segment.readLoop, hdecode, hdrop]
    by_cases hskip : r.offset < offset
    · rw [if_pos hskip]
      rw [hnum.1] at hskip
      have hsucc : offset - n = (offset - (n + 1)) + 1 := by omega
      rw [hsucc, List.drop_succ_cons]
      exact ih hnum.2.2.2 (by omega) _ _ _
    · rw [if_neg hskip]
      rw [hnum.1] at hskip
      have hzero : offset - n = 0 := by omega
      have hzero' : offset - (n + 1) = 0 := by omega
      rw [hzero, List.drop_zero]
      split_ifs with hover hfull
      · exact .inl ⟨[], by rw [List.append_nil]; rfl, by simpa using hover.1, List.nil_prefix⟩
      · exact .inl ⟨[r], rfl, by simp, (List.prefix_cons_inj r).mpr List.nil_prefix⟩
      · have hrest := ih hnum.2.2.2 (show rs.length < fuel by omega) (pos + r.encodedLen)
          (used + r.encodedLen) (out ++ [r])
        rw [hzero', List.drop_zero, List.append_assoc, List.singleton_append] at hrest
        rcases hrest with ⟨run, hrun, hne, hpre⟩ | hrest
        · rw [List.append_assoc, List.singleton_append] at hrun hne
          exact .inl ⟨r :: run, hrun, hne, (List.prefix_cons_inj r).mpr hpre⟩
        · exact .inr hrest

/-- Corruption is not served, and does not look like nothing: a read that should find the records
`rs` fails or returns some of them. -/
def Truthful {σ : Type} (rs : List Record) : EStateM.Result Failure σ (List Record) → Prop
  | .ok run _ => run ≠ [] ∧ run <+: rs
  | .error (.err _) _ => True
  | .error .panic _ => False

theorem Truthful.onFs {x : FsM (List Record)} {log : Log} {fs : Fs} {rs : List Record} :
    Truthful rs ((MethodM.onFs x : LogM (List Record)).run (log, fs)) ↔ Truthful rs (x.run fs) := by
  rw [onFs_run]
  cases x.run fs with
  | ok => exact Iff.rfl
  | error e =>
    cases e <;> exact Iff.rfl

/-! ## Changed files -/

/-- Byte `i` of the file of the segment at `base` is now `v`. -/
structure ByteChanged (d d' : Dir) (base i : ℕ) (v : UInt8) (file : LogFile) : Prop where
  before : d.log base = some file
  lt_length : i < file.bytes.length
  changed : file.bytes[i]? ≠ some v
  after : ∃ synced, d'.log base = some ⟨file.bytes.set i v, synced⟩
  others : ∀ b, b ≠ base → d'.log b = d.log b
  indexes : ∀ b, d'.index b = d.index b

private theorem exists_record_at {c : List Record} {i : ℕ} (hi : i < totalLen c) :
    ∃ pre r post, c = pre ++ r :: post ∧ totalLen pre ≤ i ∧ i < totalLen pre + r.encodedLen := by
  induction c generalizing i with
  | nil => exact absurd hi (Nat.not_lt_zero i)
  | cons r c ih =>
    rw [totalLen_cons] at hi
    by_cases hfirst : i < r.encodedLen
    · exact ⟨[], r, c, rfl, Nat.zero_le i, by rw [totalLen_nil, Nat.zero_add]; exact hfirst⟩
    · obtain ⟨pre, r', post, rfl, hle, hlt⟩ := ih (i := i - r.encodedLen) (by omega)
      exact ⟨r :: pre, r', post, rfl, by rw [totalLen_cons]; omega, by rw [totalLen_cons]; omega⟩

/-- Where the record starts that has byte `i`. -/
def recordStart (crc : List UInt8 → UInt32) (maxRecordBytes : ℕ) : ℕ → List UInt8 → ℕ → ℕ
  | 0, _, _ => 0
  | fuel + 1, buf, i =>
    match Record.decode crc buf maxRecordBytes with
    | .record _ consumed =>
      if i < consumed then 0
      else consumed + recordStart crc maxRecordBytes fuel (buf.drop consumed) (i - consumed)
    | _ => 0

private theorem recordStart_encodeAll (crc : List UInt8 → UInt32) (hc : config.Valid)
    {pre post : List Record} {r : Record} {n i fuel : ℕ}
    (hnum : Numbered config n (pre ++ r :: post)) (hle : totalLen pre ≤ i)
    (hlt : i < totalLen pre + r.encodedLen) (hfuel : pre.length < fuel) :
    recordStart crc config.maxRecordBytes fuel (encodeAll crc (pre ++ r :: post)) i =
      totalLen pre := by
  induction pre generalizing n i fuel with
  | nil =>
    obtain ⟨fuel, rfl⟩ := Nat.exists_eq_succ_of_ne_zero (Nat.ne_of_gt hfuel)
    have hdecode := decode_encodeAll_cons crc hc hnum []
    rw [List.append_nil] at hdecode
    rw [totalLen_nil, Nat.zero_add] at hlt
    rw [List.nil_append, recordStart, hdecode]
    dsimp only
    rw [if_pos hlt, totalLen_nil]
  | cons r' pre ih =>
    obtain ⟨fuel, rfl⟩ := Nat.exists_eq_succ_of_ne_zero (Nat.ne_of_gt (Nat.zero_lt_of_lt hfuel))
    rw [List.cons_append] at hnum
    have hdecode := decode_encodeAll_cons crc hc hnum []
    have hdrop := drop_encodeAll_cons crc r' (pre ++ r :: post) []
    rw [List.append_nil] at hdecode
    simp only [List.append_nil] at hdrop
    simp only [List.length_cons] at hfuel
    rw [totalLen_cons] at hle hlt
    have hpos := r'.encodedLen_pos
    rw [List.cons_append, recordStart, hdecode]
    dsimp only
    rw [if_neg (by omega), hdrop, ih hnum.2.2.2 (by omega) (by omega) (by omega), totalLen_cons]

section Segment

variable {fs : Fs} {dir : Dir} {seg : Segment} {base i k : ℕ} {v : UInt8} {file : LogFile}
  {pre post : List Record} {r : Record}

/-- What a read at offset `base + k` decodes after the change, if it comes past it at all. -/
theorem readFrom_changed (h : SegmentOk crc config dir seg base (pre ++ r :: post))
    (hchange : ByteChanged dir fs.dir base i v file) (hle : totalLen pre ≤ i)
    (hlt : i < totalLen pre + r.encodedLen) (hk : k < (pre ++ r :: post).length) (maxBytes : ℕ) :
    ∃ j ≤ k, ∃ buf, buf.length = totalLen ((pre ++ r :: post).drop j) ∧
      (seg.readFrom crc config (base + k) maxBytes).run fs =
        (seg.readLoop crc config (base + k) maxBytes (seg.startPos (base + k)) (buf.length + 1) buf
          0 [] 0).run fs ∧
      (buf = encodeAll crc ((pre ++ r :: post).drop j) ∧ pre.length < j ∨
        buf = encodeAll crc (pre.drop j) ++
          (encodeAll crc (r :: post)).set (i - totalLen pre) v ∧ j ≤ pre.length) := by
  obtain ⟨j, hj, hstart⟩ := startPos_spec h hk
  obtain ⟨synced, hbefore⟩ := h.log_file
  obtain ⟨synced', hafter⟩ := hchange.after
  have hbytes : file.bytes = encodeAll crc (pre ++ r :: post) := by
    rw [hchange.before] at hbefore
    rw [Option.some.inj hbefore]
  rw [hbytes, ← h.base_eq] at hafter
  have hsplit : totalLen ((pre ++ r :: post).take j) + totalLen ((pre ++ r :: post).drop j) =
      totalLen (pre ++ r :: post) := by
    rw [← totalLen_append, List.take_append_drop]
  have hsize := h.size_eq
  have hrun := @readFrom_run crc config _ _ _ (base + k) hafter
    (by rw [h.base_eq]; omega) (by rw [h.next_eq]; omega) (by omega) maxBytes
  dsimp only at hrun
  rw [List.take_of_length_le (by
    rw [List.length_drop, List.length_set, length_encodeAll]
    omega)] at hrun
  refine ⟨j, hj, _, ?_, hrun, ?_⟩
  · rw [List.length_drop, List.length_set, length_encodeAll]
    omega
  rw [hstart]
  rcases Nat.lt_or_ge pre.length j with hbehind | hahead
  · refine .inl ⟨?_, hbehind⟩
    have hcovers : totalLen (pre ++ [r]) ≤ totalLen ((pre ++ r :: post).take j) := by
      have htake : (pre ++ r :: post).take j = pre ++ [r] ++ post.take (j - pre.length - 1) := by
        rw [List.take_append, List.take_of_length_le hbehind.le,
          List.take_cons (by omega), List.append_assoc, List.singleton_append]
      rw [htake, totalLen_append (pre ++ [r])]
      exact Nat.le_add_right _ _
    rw [totalLen_append, totalLen_cons, totalLen_nil] at hcovers
    rw [List.drop_set, if_pos (by omega), drop_encodeAll]
  · refine .inr ⟨?_, hahead⟩
    have htake : (pre ++ r :: post).take j = pre.take j := List.take_append_of_le_length hahead
    have hdrop : (pre ++ r :: post).drop j = pre.drop j ++ r :: post :=
      List.drop_append_of_le_length hahead
    have hpre : totalLen (pre.take j) + totalLen (pre.drop j) = totalLen pre := by
      rw [← totalLen_append, List.take_append_drop]
    rw [htake] at hstart ⊢
    rw [List.drop_set, if_neg (by omega), ← htake, drop_encodeAll, htake, hdrop, encodeAll_append,
      List.set_append_right _ _ (by rw [length_encodeAll]; omega), length_encodeAll]
    congr 2
    omega

private theorem readFrom_truthful (hc : config.Valid)
    (h : SegmentOk crc config dir seg base (pre ++ r :: post))
    (hchange : ByteChanged dir fs.dir base i v file) (hle : totalLen pre ≤ i)
    (hlt : i < totalLen pre + r.encodedLen) {reason : CorruptReason}
    (hcorrupt : Record.decode crc ((encodeAll crc (r :: post)).set (i - totalLen pre) v)
      config.maxRecordBytes = .corrupt reason)
    (hk : k < (pre ++ r :: post).length) (maxBytes : ℕ) :
    Truthful ((pre ++ r :: post).drop k)
      ((seg.readFrom crc config (base + k) maxBytes).run fs) := by
  obtain ⟨j, hj, buf, hlen, hrun, hbuf⟩ := readFrom_changed h hchange hle hlt hk maxBytes
  rw [hrun]
  have hshift : base + j + (k - j) = base + k := by omega
  rcases hbuf with ⟨rfl, hbehind⟩ | ⟨rfl, hahead⟩
  · have hcount := length_le_totalLen ((pre ++ r :: post).drop j)
    obtain ⟨run, hread, hrun'⟩ := readLoop_spec crc hc seg maxBytes (seg.startPos (base + k)) fs
      (h.numbered.drop (k := j) (by omega)) (k := k - j) (by rw [List.length_drop]; omega) 0
      (show _ < (encodeAll crc ((pre ++ r :: post).drop j)).length + 1 by omega)
    rw [hshift] at hrun'
    rw [hrun']
    rw [List.drop_drop, Nat.add_sub_cancel' hj] at hread
    exact ⟨hread.nonempty, hread.isPrefix⟩
  · have hnum : Numbered config (base + j) (pre.drop j) :=
      (numbered_append.mp h.numbered).1.drop hahead
    have hcount := length_le_totalLen (pre.drop j)
    rcases readLoop_append crc hc seg (base + k) maxBytes (seg.startPos (base + k)) fs hnum
        ((encodeAll crc (r :: post)).set (i - totalLen pre) v)
        (show (pre.drop j).length < (encodeAll crc (pre.drop j) ++
          (encodeAll crc (r :: post)).set (i - totalLen pre) v).length + 1 by
            rw [List.length_append, length_encodeAll]; omega) 0 0 [] with
      ⟨run, hstop, hne, hpre⟩ | ⟨fuel', pos', used', hgo⟩
    · rw [hstop]
      refine ⟨hne, ?_⟩
      rw [List.nil_append]
      rw [Nat.add_sub_add_left, List.drop_drop, Nat.add_sub_cancel' hj] at hpre
      refine hpre.trans ?_
      rw [List.drop_append]
      exact List.prefix_append _ _
    · rw [hgo]
      simp only [Segment.readLoop, hcorrupt]
      exact True.intro

private theorem corrupt_of_truthful (hc : config.Valid)
    (h : SegmentOk crc config dir seg base (pre ++ r :: post))
    (hchange : ByteChanged dir fs.dir base i v file) (hle : totalLen pre ≤ i)
    (hfield : i < totalLen pre + LEN_FIELD_BYTES) {rest : List Record}
    (hread : Truthful (r :: rest)
      ((seg.readFrom crc config (base + pre.length) 0).run fs)) :
    ∃ reason, Record.decode crc ((encodeAll crc (r :: post)).set (i - totalLen pre) v)
      config.maxRecordBytes = .corrupt reason := by
  have hmin := r.le_encodedLen
  obtain ⟨j, hj, buf, -, hrun, hbuf⟩ := readFrom_changed h hchange hle (by omega)
    (k := pre.length) (by simp) 0
  obtain ⟨rfl, -⟩ : buf = encodeAll crc (pre.drop j) ++
      (encodeAll crc (r :: post)).set (i - totalLen pre) v ∧ j ≤ pre.length :=
    hbuf.resolve_left fun hbehind => by omega
  have hnum : Numbered config (base + j) (pre.drop j) :=
    (numbered_append.mp h.numbered).1.drop hj
  have hcount := length_le_totalLen (pre.drop j)
  have hnone : (pre.drop j).drop (base + pre.length - (base + j)) = [] := by
    rw [Nat.add_sub_add_left, List.drop_drop, Nat.add_sub_cancel' hj, List.drop_length]
  rw [hrun] at hread
  rcases readLoop_append crc hc seg (base + pre.length) 0 (seg.startPos (base + pre.length)) fs hnum
      ((encodeAll crc (r :: post)).set (i - totalLen pre) v)
      (show (pre.drop j).length < (encodeAll crc (pre.drop j) ++
        (encodeAll crc (r :: post)).set (i - totalLen pre) v).length + 1 by
          rw [List.length_append, length_encodeAll]; omega) 0 0 [] with
    ⟨run, -, hne, hpre⟩ | ⟨fuel', pos', used', hgo⟩
  · rw [hnone] at hpre
    exact absurd (List.prefix_nil.mp hpre) hne
  rw [hgo, hnone] at hread
  have hafter := (numbered_append.mp h.numbered).2
  have hdecode := decode_encodeAll_cons crc hc hafter []
  rw [List.append_nil] at hdecode
  have hoffset : r.offset = base + pre.length := hafter.1
  have hbytes : file.bytes = encodeAll crc (pre ++ r :: post) := by
    obtain ⟨synced, hbefore⟩ := h.log_file
    rw [hchange.before] at hbefore
    rw [Option.some.inj hbefore]
  have hv : (encodeAll crc (r :: post))[i - totalLen pre]? ≠ some v := by
    have hchanged := hchange.changed
    rwa [hbytes, encodeAll_append, List.getElem?_append_right (by rw [length_encodeAll]; exact hle),
      length_encodeAll] at hchanged
  cases hnow : Record.decode crc ((encodeAll crc (r :: post)).set (i - totalLen pre) v)
      config.maxRecordBytes with
  | corrupt reason => exact ⟨reason, rfl⟩
  | incomplete =>
    simp only [Segment.readLoop, hnow] at hread
    exact absurd rfl hread.1
  | record r' c' =>
    obtain ⟨hsame, hother⟩ := Record.decode_set_length hdecode
      (k := i - totalLen pre) (by omega) hv hnow
    simp only [Segment.readLoop, hnow] at hread
    rw [if_neg (by omega), if_neg (by simp), if_pos (Nat.zero_le _)] at hread
    exact absurd (List.cons_prefix_cons.mp hread.2).1 hother

end Segment

/-- The changed byte belongs to a record of its segment. -/
theorem ByteChanged.locate (hc : config.Valid) {dir d' : Dir} {seg : Segment} {base i : ℕ}
    {v : UInt8} {file : LogFile} {c : List Record} (hchange : ByteChanged dir d' base i v file)
    (h : SegmentOk crc config dir seg base c) :
    ∃ pre r post, c = pre ++ r :: post ∧ totalLen pre ≤ i ∧ i < totalLen pre + r.encodedLen ∧
      recordStart crc config.maxRecordBytes file.bytes.length file.bytes i = totalLen pre ∧
      (file.bytes.set i v).drop (totalLen pre) =
        (encodeAll crc (r :: post)).set (i - totalLen pre) v ∧
      (encodeAll crc (r :: post))[i - totalLen pre]? ≠ some v := by
  obtain ⟨synced, hbefore⟩ := h.log_file
  have hbytes : file.bytes = encodeAll crc c := by
    rw [hchange.before] at hbefore
    rw [Option.some.inj hbefore]
  have hlen := hchange.lt_length
  have hchanged := hchange.changed
  rw [hbytes, length_encodeAll] at hlen
  obtain ⟨pre, r, post, rfl, hle, hlt⟩ := exists_record_at hlen
  have hcount := length_le_totalLen (pre ++ r :: post)
  rw [List.length_append, List.length_cons] at hcount
  refine ⟨pre, r, post, rfl, hle, hlt, ?_, ?_, ?_⟩
  · rw [hbytes]
    exact recordStart_encodeAll crc hc h.numbered hle hlt (by rw [length_encodeAll]; omega)
  · rw [hbytes, encodeAll_append, List.set_append_right _ _ (by rw [length_encodeAll]; exact hle),
      length_encodeAll, List.drop_left' (length_encodeAll crc pre)]
  · rwa [hbytes, encodeAll_append, List.getElem?_append_right (by rw [length_encodeAll]; exact hle),
      length_encodeAll] at hchanged

/-- No read in range serves corruption, or finds nothing. -/
def Honest (crc : List UInt8 → UInt32) (s : Log × Fs) (rs : List Record) : Prop :=
  ∀ o, s.1.startOffset ≤ o → o < s.1.nextOffset → ∀ maxBytes,
    Truthful (rs.drop o) ((Log.read crc o maxBytes).run s)

/-- The log after something has happened to the files. -/
def onDir (s : Log × Fs) (d : Dir) : Log × Fs := (s.1, { s.2 with dir := d })

theorem Truthful.mono {σ : Type} {rs rs' : List Record} {res : EStateM.Result Failure σ (List Record)}
    (h : Truthful rs res) (hpre : rs <+: rs') : Truthful rs' res := by
  cases res with
  | ok run s => exact ⟨h.1, h.2.trans hpre⟩
  | error e s => cases e <;> exact h

/-- After the change of one byte every read in range still fails or tells the truth exactly when
the byte is behind the length field of its record, or the record is now found corrupt. Index files
are not read at all. -/
theorem byte_change_iff (hconfig : config.validate = .ok ()) (hcrc : Detects crc) {s : Log × Fs}
    (h : Lived crc config Loses (.up s)) :
    ∃ rs, rs.length ≤ 2 ^ 64 ∧ Refines crc config s rs ∧
      (∀ d' base i v file, ByteChanged s.2.dir d' base i v file →
        (Honest crc (onDir s d') rs ↔
          recordStart crc config.maxRecordBytes file.bytes.length file.bytes i + LEN_FIELD_BYTES ≤ i ∨
            ∃ reason, Record.decode crc ((file.bytes.set i v).drop
              (recordStart crc config.maxRecordBytes file.bytes.length file.bytes i))
                config.maxRecordBytes = .corrupt reason)) ∧
      ∀ d', (∀ b, d'.log b = s.2.dir.log b) → Honest crc (onDir s d') rs := by
  have hc := config.validate_eq_ok_iff.mp hconfig
  obtain ⟨rs, hrep⟩ := h.ok hc
  refine ⟨rs, hrep.length_le, hrep.refines hc, fun d' base i v file hchange => ?_,
    fun d' hlogs => ?_⟩
  · have hlen := hrep.nextOffset_eq
    obtain ⟨cs, act, hok, rfl⟩ := hrep
    constructor
    · intro hhonest
      obtain ⟨seg, c, hserves⟩ := hok.serves_file (b := base) (by rw [hchange.before]; rfl)
      obtain ⟨pre, r, post, rfl, hle, hlt, hstart, hbytes, hv⟩ := hchange.locate hc hserves.ok
      rw [hstart, hbytes]
      by_cases hfield : totalLen pre + LEN_FIELD_BYTES ≤ i
      · exact .inl hfield
      have hk : pre.length < (pre ++ r :: post).length := by simp
      have hin := hserves.lt_length hk
      have hread := hhonest (base + pre.length) (by rw [onDir, hok.startOffset_eq]; omega)
        (by rw [onDir, hlen]; exact hin) 0
      rw [onDir, hserves.read hk, Truthful.onFs] at hread
      obtain ⟨rest, hrest⟩ := hserves.drop_isPrefix hk.le
      rw [← hrest, List.drop_left, List.cons_append] at hread
      exact .inr (corrupt_of_truthful hc hserves.ok hchange hle
        (by omega) hread)
    · intro hcorrupt o _ hnext maxBytes
      rw [onDir, hlen] at hnext
      obtain ⟨seg, b, c, k, hserves, hk, rfl⟩ := hok.serves_offset hnext
      rw [onDir, hserves.read hk, Truthful.onFs]
      refine Truthful.mono ?_ (hserves.drop_isPrefix hk.le)
      by_cases hother : b = base
      · subst hother
        obtain ⟨pre, r, post, rfl, hle, hlt, hstart, hbytes, hv⟩ := hchange.locate hc hserves.ok
        rw [hstart, hbytes] at hcorrupt
        have hfound : ∃ reason, Record.decode crc ((encodeAll crc (r :: post)).set
            (i - totalLen pre) v) config.maxRecordBytes = .corrupt reason := by
          rcases hcorrupt with hbehind | hfound
          · have hdecode := decode_encodeAll_cons crc hc
              (numbered_append.mp hserves.ok.numbered).2 []
            rw [List.append_nil] at hdecode
            exact Record.decode_set_corrupt hcrc hdecode (by omega) (by omega) hv
          · exact hfound
        obtain ⟨reason, hfound⟩ := hfound
        exact readFrom_truthful hc hserves.ok hchange hle hlt hfound
          hk maxBytes
      · have hframe : SegmentOk crc config d' seg b c :=
          hserves.ok.frame (hchange.others b hother) (hchange.indexes b)
        obtain ⟨run, hread, hrun⟩ :=
          @readFrom_spec crc config hc { s.2 with dir := d' } _ _ _ _ hframe hk maxBytes
        rw [hrun]
        exact ⟨hread.nonempty, hread.isPrefix⟩
  · intro o _ hnext maxBytes
    rw [onDir, hrep.nextOffset_eq] at hnext
    obtain ⟨run, hrun, hread⟩ := (hrep.reads hc).inside o hnext maxBytes
    obtain ⟨s₁, hrun', -⟩ := read_follows crc
      (R := fun fs fs' => ∀ b, fs.dir.log b = fs'.dir.log b) (fun _ _ heq b => heq b) o maxBytes s
      (onDir s d') ⟨rfl, fun b => (hlogs b).symm⟩ run s hrun
    rw [hrun']
    exact ⟨hread.nonempty, hread.isPrefix.trans (List.take_prefix _ _)⟩

section Lost

def setByte (d : Dir) (base i : ℕ) (v : UInt8) : Dir :=
  d.mapLog base fun file => { file with bytes := file.bytes.set i v }

private theorem setByte_changed {d : Dir} {base i : ℕ} {v : UInt8} {file : LogFile}
    (hbefore : d.log base = some file) (hi : i < file.bytes.length)
    (hv : file.bytes[i]? ≠ some v) : ByteChanged d (setByte d base i v) base i v file := by
  have hlog : ∀ b, (setByte d base i v).log b = if b = base then
      (d.log base).map fun file => { file with bytes := file.bytes.set i v } else d.log b :=
    fun _ => lookup_alterKey _ _ _ _
  refine ⟨hbefore, hi, hv, ⟨file.synced, ?_⟩, fun b hb => ?_, fun _ => rfl⟩
  · rw [hlog, if_pos rfl, hbefore, Option.map_some]
  · rw [hlog, if_neg hb]

/-- A log with one record of one byte. -/
def oneRecord : Log × Fs := (tornOp.step Crc32.crc32 emptyLog).2

def oneFile : LogFile := ⟨Record.encode Crc32.crc32 ⟨0, 0, none, [7]⟩, 0⟩

theorem oneRecord_lived : Lived Crc32.crc32 smallConfig Loses (.up oneRecord) :=
  .stepped (.opened .new (show (Log.openDir Crc32.crc32 smallConfig ⟨0, 0⟩).run
    ⟨Dir.empty, [], []⟩ = .ok emptyLog.1 emptyLog.2 from rfl)) (by decide) tornOp

theorem oneRecord_changed {i : ℕ} {v : UInt8} (hi : i < oneFile.bytes.length)
    (hv : oneFile.bytes[i]? ≠ some v) :
    ByteChanged oneRecord.2.dir (setByte oneRecord.2.dir 0 i v) 0 i v oneFile :=
  setByte_changed rfl hi hv

/-- The byte of the value changes, and reads notice. -/
theorem byte_change_value : ∃ rs, Refines Crc32.crc32 smallConfig oneRecord rs ∧
    Honest Crc32.crc32 (onDir oneRecord (setByte oneRecord.2.dir 0 32 8)) rs := by
  obtain ⟨rs, -, hrefines, hiff, -⟩ := byte_change_iff rfl detects_crc32 oneRecord_lived
  have hchange := oneRecord_changed (i := 32) (v := 8) (by decide +kernel) (by decide +kernel)
  exact ⟨rs, hrefines, (hiff _ _ _ _ _ hchange).mpr (.inl (by decide +kernel))⟩

/-- The low byte of the length becomes 255: the record looks incomplete, and a read at its offset
finds nothing. -/
theorem byte_change_length : ∃ s d' base i v file,
    Lived Crc32.crc32 smallConfig Loses (.up s) ∧ ByteChanged s.2.dir d' base i v file ∧
      ∀ rs, ¬ Honest Crc32.crc32 (onDir s d') rs := by
  refine ⟨oneRecord, _, 0, 0, 255, oneFile, oneRecord_lived,
    oneRecord_changed (by decide +kernel) (by decide +kernel), fun rs hhonest => ?_⟩
  have hread := hhonest 0 (by decide) (by decide) 1024
  have hempty : Library.okValue (fun run _ => run.isEmpty) false ((Log.read Crc32.crc32 0 1024).run
      (onDir oneRecord (setByte oneRecord.2.dir 0 0 255))) = true := by decide +kernel
  cases hrun : (Log.read Crc32.crc32 0 1024).run
      (onDir oneRecord (setByte oneRecord.2.dir 0 0 255)) with
  | ok run s' =>
    rw [hrun] at hread hempty
    exact hread.1 (List.isEmpty_iff.mp hempty)
  | error e s' =>
    rw [hrun] at hempty
    cases hempty

end Lost

end Replog.Storage
