import Replog.Library.Fallible
import Replog.Storage.LogLives

/-!
# Recovering the newest segment from any bytes

A run of valid records is a concatenation of complete ones with consecutive offsets. Recovery of the
newest segment looks for the longest one that the file starts with, and cuts the rest off, unless the
rest starts with one more valid record whose offset is another one, or the offset behind the run is
no `u64` any more.
-/

namespace Replog.Storage

variable {crc : List UInt8 → UInt32} {config : LogConfig} {maxRecordBytes : ℕ}

/-- The bytes are complete records, one after the other, with the offsets from `n` on. -/
inductive ValidRun (crc : List UInt8 → UInt32) (maxRecordBytes : ℕ) :
    ℕ → List UInt8 → List Record → Prop
  | nil (n : ℕ) : ValidRun crc maxRecordBytes n [] []
  | cons {n : ℕ} {piece bytes : List UInt8} {r : Record} {rs : List Record}
      (hpiece : Record.decode crc piece maxRecordBytes = .record r piece.length)
      (hoffset : r.offset = n) (h : ValidRun crc maxRecordBytes (n + 1) bytes rs) :
      ValidRun crc maxRecordBytes n (piece ++ bytes) (r :: rs)

/-- The first `p` bytes are a run of valid records, and no more are. -/
structure LongestRun (crc : List UInt8 → UInt32) (maxRecordBytes base : ℕ) (bytes : List UInt8)
    (p : ℕ) (rs : List Record) : Prop where
  le_length : p ≤ bytes.length
  valid : ValidRun crc maxRecordBytes base (bytes.take p) rs
  longest : ∀ p' rs', p' ≤ bytes.length → ValidRun crc maxRecordBytes base (bytes.take p') rs' →
    p' ≤ p

private theorem decode_append {buf : List UInt8} {r : Record} {c : ℕ}
    (h : Record.decode crc buf maxRecordBytes = .record r c) (rest : List UInt8) :
    Record.decode crc (buf ++ rest) maxRecordBytes = .record r c := by
  obtain ⟨hc, hmin, hmax, hle, hstored, hbody⟩ := Record.decode_eq_record_iff.mp h
  simp only [LEN_FIELD_BYTES, CRC_FIELD_BYTES, MIN_BODY_BYTES] at hc hmin
  have hfield : (buf ++ rest).take 4 = buf.take 4 := List.take_append_of_le_length (by omega)
  have hcrc : ((buf ++ rest).drop 4).take 4 = (buf.drop 4).take 4 := by
    rw [List.drop_append_of_le_length (by omega),
      List.take_append_of_le_length (by rw [List.length_drop]; omega)]
  refine Record.decode_eq_record_iff.mpr ?_
  rw [hfield, hcrc, List.take_append_of_le_length hle, List.length_append]
  exact ⟨hc, hmin, hmax, by omega, hstored, hbody⟩

theorem ValidRun.of_nil {n : ℕ} {bytes : List UInt8} (h : ValidRun crc maxRecordBytes n bytes []) :
    bytes = [] := by
  cases h
  rfl

/-- The first record of a run is found at the front of everything that starts with it. -/
theorem ValidRun.first {n q : ℕ} {buf : List UInt8} {r : Record} {rs : List Record}
    (hq : q ≤ buf.length) (h : ValidRun crc maxRecordBytes n (buf.take q) (r :: rs)) :
    ∃ c ≤ q, Record.decode crc buf maxRecordBytes = .record r c ∧ r.offset = n ∧
      ValidRun crc maxRecordBytes (n + 1) ((buf.drop c).take (q - c)) rs := by
  generalize htake : buf.take q = bytes at h
  cases h with
  | @cons _ piece bytes' _ _ hpiece hoffset hrest =>
    have hlen : q = piece.length + bytes'.length := by
      rw [← List.length_append, ← htake, List.length_take, Nat.min_eq_left hq]
    have hbuf : buf = piece ++ (bytes' ++ buf.drop q) := by
      rw [← List.append_assoc, ← htake, List.take_append_drop]
    refine ⟨piece.length, by omega, ?_, hoffset, ?_⟩
    · rw [hbuf]
      exact decode_append hpiece _
    · rw [← List.drop_take, htake, List.drop_left]
      exact hrest

/-- A run followed by no record that continues it is the longest one. -/
theorem ValidRun.longest {n q : ℕ} {buf : List UInt8} {rs : List Record} (hq : q ≤ buf.length)
    (h : ValidRun crc maxRecordBytes n (buf.take q) rs)
    (hstop : ∀ r c, Record.decode crc (buf.drop q) maxRecordBytes = .record r c →
      r.offset ≠ n + rs.length) : LongestRun crc maxRecordBytes n buf q rs := by
  refine ⟨hq, h, fun q' rs' hq' h' => ?_⟩
  induction rs generalizing n q q' buf rs' with
  | nil =>
    have hnil := h.of_nil
    rw [List.take_eq_nil_iff] at hnil
    cases rs' with
    | nil =>
      have hnil' := h'.of_nil
      rw [List.take_eq_nil_iff] at hnil'
      rcases hnil' with rfl | rfl
      · exact Nat.zero_le q
      · exact hq'.trans (Nat.zero_le q)
    | cons r' rs' =>
      obtain ⟨c, -, hdecode, hoffset, -⟩ := h'.first hq'
      rcases hnil with rfl | rfl
      · exact absurd hoffset (hstop r' c hdecode)
      · exact hq'.trans (Nat.zero_le q)
  | cons r rs ih =>
    obtain ⟨c, hc, hdecode, -, hrest⟩ := h.first hq
    cases rs' with
    | nil =>
      have hnil := h'.of_nil
      rw [List.take_eq_nil_iff] at hnil
      rcases hnil with rfl | rfl
      · exact Nat.zero_le q
      · exact hq'.trans (Nat.zero_le q)
    | cons r' rs' =>
      obtain ⟨c', hc', hdecode', -, hrest'⟩ := h'.first hq'
      rw [hdecode] at hdecode'
      cases hdecode'
      have hle := ih (by rw [List.length_drop]; omega) hrest (fun r' c' hnext => ?_) _ _
        (by rw [List.length_drop]; omega) hrest'
      · omega
      · rw [List.drop_drop, Nat.add_sub_cancel' hc] at hnext
        have hne := hstop r' c' hnext
        rw [List.length_cons] at hne
        omega

/-- Bytes are a run of valid records in one way only. -/
theorem ValidRun.unique {n : ℕ} {bytes : List UInt8} {rs rs' : List Record}
    (h : ValidRun crc maxRecordBytes n bytes rs) (h' : ValidRun crc maxRecordBytes n bytes rs') :
    rs = rs' := by
  induction rs generalizing n bytes rs' with
  | nil =>
    obtain rfl := h.of_nil
    cases rs' with
    | nil => rfl
    | cons r' rs' =>
      rw [← List.take_nil (i := 0)] at h'
      obtain ⟨c, -, hdecode, -⟩ := h'.first (Nat.zero_le _)
      rw [Record.decode_nil] at hdecode
      cases hdecode
  | cons r rs ih =>
    rw [← List.take_length (l := bytes)] at h h'
    obtain ⟨c, -, hdecode, -, hrest⟩ := h.first le_rfl
    cases rs' with
    | nil =>
      rw [List.take_length] at h'
      rw [h'.of_nil, Record.decode_nil] at hdecode
      cases hdecode
    | cons r' rs' =>
      obtain ⟨c', -, hdecode', -, hrest'⟩ := h'.first le_rfl
      rw [hdecode] at hdecode'
      cases hdecode'
      rw [ih hrest hrest']

theorem LongestRun.unique {base p p' : ℕ} {bytes : List UInt8} {rs rs' : List Record}
    (h : LongestRun crc maxRecordBytes base bytes p rs)
    (h' : LongestRun crc maxRecordBytes base bytes p' rs') : p = p' ∧ rs = rs' := by
  obtain rfl : p = p' :=
    le_antisymm (h'.longest p rs h.le_length h.valid) (h.longest p' rs' h'.le_length h'.valid)
  exact ⟨rfl, h.valid.unique h'.valid⟩

theorem ValidRun.decoded {n c q : ℕ} {buf : List UInt8} {r : Record} {rs : List Record}
    (hdecode : Record.decode crc buf maxRecordBytes = .record r c) (hoffset : r.offset = n)
    (h : ValidRun crc maxRecordBytes (n + 1) ((buf.drop c).take q) rs) :
    ValidRun crc maxRecordBytes n (buf.take (c + q)) (r :: rs) := by
  obtain ⟨-, -, -, hle, -⟩ := Record.decode_eq_record_iff.mp hdecode
  have htake := Record.decode_take hdecode c
  rw [if_pos le_rfl] at htake
  have hlen : (buf.take c).length = c := by rw [List.length_take, Nat.min_eq_left hle]
  rw [List.take_add]
  refine .cons ?_ hoffset h
  rw [htake, hlen]

/-- How a scan of the newest segment ends: behind a run of valid records there is no further one,
and the scan stops there, or there is one with another offset, and the scan fails. -/
inductive ScanEnd (crc : List UInt8 → UInt32) (maxRecordBytes : ℕ) (buf : List UInt8)
    (st : Segment.Scan) (logs : ℕ → Option LogFile) :
    EStateM.Result Failure Fs Segment.Scan → Prop
  | stops {q : ℕ} {rs : List Record} {st' : Segment.Scan} {fs : Fs} (hq : q ≤ buf.length)
      (hvalid : ValidRun crc maxRecordBytes st.nextOffset (buf.take q) rs)
      (hnone : ∀ r c, Record.decode crc (buf.drop q) maxRecordBytes ≠ .record r c)
      (hnext : st'.nextOffset = st.nextOffset + rs.length) (hend : st'.validEnd = st.validEnd + q)
      (hfs : fs.Healthy) (hlogs : fs.dir.log = logs) :
      ScanEnd crc maxRecordBytes buf st logs (.ok st' fs)
  | fails {q : ℕ} {rs : List Record} {r : Record} {c : ℕ} {e : Failure} {fs : Fs}
      (hq : q ≤ buf.length)
      (hvalid : ValidRun crc maxRecordBytes st.nextOffset (buf.take q) rs)
      (hdecode : Record.decode crc (buf.drop q) maxRecordBytes = .record r c)
      (hoffset : r.offset ≠ st.nextOffset + rs.length) :
      ScanEnd crc maxRecordBytes buf st logs (.error e fs)

theorem ScanEnd.cons {buf : List UInt8} {r : Record} {c : ℕ} {st st₂ : Segment.Scan}
    {logs : ℕ → Option LogFile} {res : EStateM.Result Failure Fs Segment.Scan}
    (hdecode : Record.decode crc buf maxRecordBytes = .record r c)
    (hoffset : r.offset = st.nextOffset) (hnext : st₂.nextOffset = st.nextOffset + 1)
    (hend : st₂.validEnd = st.validEnd + c)
    (h : ScanEnd crc maxRecordBytes (buf.drop c) st₂ logs res) :
    ScanEnd crc maxRecordBytes buf st logs res := by
  obtain ⟨-, -, -, hle, -⟩ := Record.decode_eq_record_iff.mp hdecode
  cases h with
  | stops hq hvalid hnone hnext' hend' hfs hlogs =>
    rw [List.length_drop] at hq
    rw [List.drop_drop] at hnone
    rw [hnext] at hvalid
    exact .stops (by omega) (hvalid.decoded hdecode hoffset) hnone
      (by rw [hnext', hnext, List.length_cons]; omega) (by rw [hend', hend]; omega) hfs hlogs
  | fails hq hvalid hdecode' hoffset' =>
    rw [List.length_drop] at hq
    rw [List.drop_drop] at hdecode'
    rw [hnext] at hvalid hoffset'
    exact .fails (by omega) (hvalid.decoded hdecode hoffset) hdecode'
      (by rw [List.length_cons]; omega)

private theorem scan_end (crc : List UInt8 → UInt32) (config : LogConfig) (base fuel : ℕ)
    (buf : List UInt8) (hfuel : buf.length < fuel) (st : Segment.Scan) (fs : Fs) (hfs : fs.Healthy) :
    ScanEnd crc config.maxRecordBytes buf st fs.dir.log
      ((Segment.scan crc config base true true fuel buf st).run fs) := by
  induction fuel generalizing buf st fs with
  | zero => omega
  | succ fuel ih =>
    have hstop : (∀ r c, Record.decode crc buf config.maxRecordBytes ≠ .record r c) →
        ScanEnd crc config.maxRecordBytes buf st fs.dir.log (.ok st fs) := fun hnone =>
      .stops (Nat.zero_le _) (.nil _) (by rwa [List.drop_zero]) rfl rfl hfs rfl
    rw [Segment.scan]
    cases hdecode : Record.decode crc buf config.maxRecordBytes with
    | incomplete =>
      dsimp only
      rw [if_pos (.inr rfl)]
      exact hstop fun r c h => by rw [hdecode] at h; cases h
    | corrupt reason =>
      dsimp only
      rw [if_pos rfl]
      exact hstop fun r c h => by rw [hdecode] at h; cases h
    | record r c =>
      obtain ⟨hc, -, -, hle, -⟩ := Record.decode_eq_record_iff.mp hdecode
      have hpos : 0 < c := by rw [hc, LEN_FIELD_BYTES]; omega
      dsimp only
      by_cases hoffset : r.offset = st.nextOffset
      · rw [if_neg (not_not.mpr hoffset)]
        have hshort : (buf.drop c).length < fuel := by
          rw [List.length_drop]
          omega
        split_ifs
        · simp only [EStateM.run_bind, run_index_append hfs, EStateM.run_pure]
          have hrest := ih (buf.drop c) hshort
            { index := ⟨st.index.entries ++ [(u32 (r.offset - base), u32 st.validEnd)]⟩
              bytesSinceIndex := 0 + c
              nextOffset := st.nextOffset + 1
              validEnd := st.validEnd + c } _ (Fs.advance_healthy fs
                [.writeIndex base (SparseIndex.encodeEntry
                  (u32 (r.offset - base), u32 st.validEnd))])
          exact .cons hdecode hoffset rfl rfl hrest
        · simp only [EStateM.run_bind, EStateM.run_pure]
          have hrest := ih (buf.drop c) hshort
            { index := st.index
              bytesSinceIndex := st.bytesSinceIndex + c
              nextOffset := st.nextOffset + 1
              validEnd := st.validEnd + c } fs hfs
          exact .cons hdecode hoffset rfl rfl hrest
      · rw [if_pos hoffset]
        exact .fails (Nat.zero_le _) (.nil _) (by rw [List.drop_zero]; exact hdecode)
          (by rwa [List.length_nil, Nat.add_zero])

/-- Recovery keeps the first `p` bytes of the file, the records `rs`, and cuts the rest off. The
segment goes on at the offset behind them, for which it counts in a `u64`. -/
def RecoversTo (crc : List UInt8 → UInt32) (config : LogConfig) (fs : Fs) (base p : ℕ)
    (bytes : List UInt8) (rs : List Record) : Prop :=
  ∃ seg fs' synced, (Segment.recover crc config base true).run fs = .ok seg fs' ∧
    seg.baseOffset = base ∧ seg.nextOffset = base + rs.length ∧ seg.nextOffset < 2 ^ 64 ∧
    seg.size = p ∧
    fs'.dir.log base = some ⟨bytes.take p, synced⟩

/-- Whatever the newest file holds, recovery keeps exactly its longest run of valid records, unless
that is followed by a valid record, one with another offset, or the count of offsets overflows. -/
theorem recover_newest_iff (crc : List UInt8 → UInt32) (config : LogConfig) {fs : Fs}
    (hfs : fs.Healthy) {base synced : ℕ} {bytes : List UInt8}
    (hfile : fs.dir.log base = some ⟨bytes, synced⟩) :
    ∃ p rs, LongestRun crc config.maxRecordBytes base bytes p rs ∧
      (RecoversTo crc config fs base p bytes rs ↔
        base + rs.length < 2 ^ 64 ∧
          ∀ r c, Record.decode crc (bytes.drop p) config.maxRecordBytes ≠ .record r c) := by
  have hread := FsM.run_readLog (((onlyIndex_create fs base).log_eq base).trans hfile)
  have hend := scan_end crc config base (bytes.length + 1) bytes (Nat.lt_succ_self _)
    { index := ⟨[]⟩, nextOffset := base, bytesSinceIndex := 0, validEnd := 0 }
    (fs.advance [.createIndex base]) (Fs.advance_healthy _ _)
  have hrun : (Segment.recover crc config base true).run fs =
      (Segment.scan crc config base true true (bytes.length + 1) bytes
        { index := ⟨[]⟩, nextOffset := base, bytesSinceIndex := 0, validEnd := 0 } >>= fun st => do
          Segment.cutTail base st.validEnd bytes.length
          return (⟨base, st.index, st.nextOffset, st.validEnd, st.bytesSinceIndex⟩ : Segment)).run
        (fs.advance [.createIndex base]) := by
    simp only [Segment.recover, Segment.recoverStart, if_true, EStateM.run_bind, EStateM.run_pure,
      run_index_create hfs, hread, FsM.run_checkedSub (Nat.zero_le _), Nat.sub_zero,
      List.drop_zero]
  rw [EStateM.run_bind] at hrun
  generalize (Segment.scan crc config base true true (bytes.length + 1) bytes
    { index := ⟨[]⟩, nextOffset := base, bytesSinceIndex := 0, validEnd := 0 }).run
      (fs.advance [.createIndex base]) = result at hend hrun
  cases hend with
  | @stops p rs st fs' hp hvalid hnone hnext hend hfs' hlogs =>
    refine ⟨p, rs, hvalid.longest hp fun r c h => absurd h (hnone r c), fun hrecovers => ?_,
      fun hkept => ?_⟩
    · obtain ⟨seg, -, -, -, -, hoffset, hroom, -⟩ := hrecovers
      exact ⟨hoffset ▸ hroom, hnone⟩
    · dsimp only at hnext hend hrun
      rw [Nat.zero_add] at hend
      have hfile' : fs'.dir.log base = some ⟨bytes.take p ++ bytes.drop p, synced⟩ := by
        rw [hlogs, List.take_append_drop]
        exact ((onlyIndex_create fs base).log_eq base).trans hfile
      obtain ⟨ops, hcut, ⟨synced', hshort⟩, -⟩ := cutTail_spec hfs' hfile'
      rw [List.take_append_drop, List.length_take, Nat.min_eq_left hp, ← hend] at hcut
      simp only [EStateM.run_bind, hcut, EStateM.run_pure] at hrun
      exact ⟨_, _, synced', hrun, rfl, hnext, hnext ▸ hkept.1, hend, hshort⟩
  | @fails p rs r c e fs' hp hvalid hdecode hoffset =>
    refine ⟨p, rs, hvalid.longest hp fun r' c' h => ?_, fun hrecovers => ?_,
      fun h => absurd hdecode (h.2 r c)⟩
    · rw [hdecode] at h
      cases h
      exact hoffset
    · obtain ⟨seg, fs'', _, hok, _⟩ := hrecovers
      rw [hrun] at hok
      cases hok

section Foreign

/-- A directory whose only segment file has the given bytes. -/
def fileOf (bytes : List UInt8) : Fs :=
  Fs.advance ⟨Dir.empty, [], []⟩ [.createLog 0, .createIndex 0, .writeLog 0 bytes]

theorem fileOf_log (bytes : List UInt8) : (fileOf bytes).dir.log 0 = some ⟨bytes, 0⟩ := by
  simp [fileOf, Fs.advance]

/-- A record and one byte of the next. -/
def cutBytes : List UInt8 := Record.encode (fun _ => 0) ⟨0, 0, none, [7]⟩ ++ [33]

private theorem cutBytes_none (r : Record) (c : ℕ) :
    Record.decode (fun _ => 0) (cutBytes.drop 33) 1024 ≠ .record r c := by
  intro hdecode
  obtain ⟨hc, -, -, hle, -⟩ := Record.decode_eq_record_iff.mp hdecode
  rw [hc, LEN_FIELD_BYTES, List.length_drop, show cutBytes.length = 34 from rfl] at hle
  omega

theorem recover_newest_short :
    LongestRun (fun _ => 0) 1024 0 cutBytes 33 [⟨0, 0, none, [7]⟩] ∧
      RecoversTo (fun _ => 0) smallConfig (fileOf cutBytes) 0 33 cutBytes
        [⟨0, 0, none, [7]⟩] := by
  have hvalid : ValidRun (fun _ => 0) 1024 0 (cutBytes.take 33) [⟨0, 0, none, [7]⟩] :=
    @ValidRun.cons _ _ 0 (cutBytes.take 33) [] _ _ (by decide +kernel) rfl (.nil 1)
  have hrun := hvalid.longest (show 33 ≤ cutBytes.length by decide) fun r c hdecode =>
    absurd hdecode (cutBytes_none r c)
  obtain ⟨p, rs, hlongest, hiff⟩ := recover_newest_iff (fun _ => 0) smallConfig
    (show (fileOf cutBytes).Healthy from rfl) (fileOf_log cutBytes)
  obtain ⟨rfl, rfl⟩ := hrun.unique hlongest
  exact ⟨hrun, hiff.mpr ⟨by decide, cutBytes_none⟩⟩

/-- A valid record with offset 1 where offset 0 should be. -/
def foreignBytes : List UInt8 := Record.encode (fun _ => 0) ⟨1, 0, none, [7]⟩

theorem recover_newest_fails : ∃ fs bytes, fs.Healthy ∧ fs.dir.log 0 = some ⟨bytes, 0⟩ ∧
    ∀ p rs, ¬ RecoversTo (fun _ => 0) smallConfig fs 0 p bytes rs := by
  refine ⟨fileOf foreignBytes, foreignBytes, rfl, fileOf_log _, ?_⟩
  rintro p rs ⟨seg, fs', synced, hrun, -⟩
  have hfails : Library.okValue (fun _ _ => true) false
      ((Segment.recover (fun _ => 0) smallConfig 0 true).run (fileOf foreignBytes)) = false := by
    decide +kernel
  rw [hrun] at hfails
  cases hfails

end Foreign

end Replog.Storage
