import Replog.Storage.SegmentReads

/-!
# Recovery and appends of a segment

Recovery of a file that holds whole records followed by a torn one stops exactly at the torn
record, whatever a crash has left of the index. An append extends the file by one encoding.
-/

namespace Replog.Storage

variable {crc : List UInt8 → UInt32} {config : LogConfig}

/-- The files other than the index of `base` are as they were. -/
structure OnlyIndex (base : ℕ) (fs fs' : Fs) : Prop where
  log_eq : ∀ b, fs'.dir.log b = fs.dir.log b
  index_eq : ∀ b, b ≠ base → fs'.dir.index b = fs.dir.index b

theorem OnlyIndex.refl (base : ℕ) (fs : Fs) : OnlyIndex base fs fs :=
  ⟨fun _ => rfl, fun _ _ => rfl⟩

theorem OnlyIndex.trans {base : ℕ} {fs fs' fs'' : Fs} (h : OnlyIndex base fs fs')
    (h' : OnlyIndex base fs' fs'') : OnlyIndex base fs fs'' :=
  ⟨fun b => (h'.log_eq b).trans (h.log_eq b),
    fun b hb => (h'.index_eq b hb).trans (h.index_eq b hb)⟩

theorem encodeEntries_snoc (es : List (ℕ × ℕ)) (e : ℕ × ℕ) :
    SparseIndex.encodeEntries (es ++ [e]) =
      SparseIndex.encodeEntries es ++ SparseIndex.encodeEntry e := by
  simp [SparseIndex.encodeEntries]

/-- An index append is one write to the index file. -/
theorem run_index_append {fs : Fs} (h : fs.Healthy) (idx : SparseIndex) (base rel pos : ℕ) :
    (idx.append base rel pos).run fs = .ok ⟨idx.entries ++ [(rel, pos)]⟩
      (fs.advance [.writeIndex base (SparseIndex.encodeEntry (rel, pos))]) := by
  rw [SparseIndex.append, run_bind_ok (FsM.run_perform h _)]
  rfl

theorem index_append_file {fs : Fs} {base : ℕ} {es : List (ℕ × ℕ)} (e : ℕ × ℕ)
    (h : fs.dir.index base = some (SparseIndex.encodeEntries es)) :
    (fs.advance [.writeIndex base (SparseIndex.encodeEntry e)]).dir.index base =
      some (SparseIndex.encodeEntries (es ++ [e])) := by
  simp [h, encodeEntries_snoc]

theorem onlyIndex_write (fs : Fs) (base : ℕ) (bytes : List UInt8) :
    OnlyIndex base fs (fs.advance [.writeIndex base bytes]) :=
  ⟨fun b => by simp, fun b hb => by simp [hb]⟩

/-- What holds after `pre` has been scanned. -/
structure ScanOk (fs : Fs) (base : ℕ) (pre : List Record) (st : Segment.Scan) : Prop where
  next_eq : st.nextOffset = base + pre.length
  end_eq : st.validEnd = totalLen pre
  index_ok : IndexOk pre st.index.entries
  behind : Behind pre st.index.entries
  index_file : fs.dir.index base = some (SparseIndex.encodeEntries st.index.entries)

/-- A directory on the way to a new index of `base`: everything else is as it was, and what is
there of the index are good entries. -/
structure Rebuilding (base : ℕ) (chunk : List Record) (d d' : Dir) : Prop where
  log_eq : ∀ b, d'.log b = d.log b
  index_eq : ∀ b, b ≠ base → d'.index b = d.index b
  index_file : IndexFileOk chunk (d'.index base)

theorem OnlyIndex.rebuilding {base : ℕ} {chunk : List Record} {fs fs' : Fs}
    (h : OnlyIndex base fs fs') {d : Dir} (hd : Rebuilding base chunk fs'.dir d) :
    Rebuilding base chunk fs.dir d :=
  ⟨fun b => (hd.log_eq b).trans (h.log_eq b),
    fun b hb => (hd.index_eq b hb).trans (h.index_eq b hb), hd.index_file⟩

theorem ScanOk.rebuilding {fs : Fs} {base : ℕ} {pre : List Record} {st : Segment.Scan}
    (h : ScanOk fs base pre st) (rs : List Record) :
    Rebuilding base (pre ++ rs) fs.dir fs.dir :=
  ⟨fun _ => rfl, fun _ _ => rfl,
    h.index_file ▸ IndexFileOk.of_entries (h.index_ok.extend rs)⟩

private theorem rebuilding_writeIndex {base : ℕ} {chunk : List Record} {d : Dir} {es : List (ℕ × ℕ)}
    {e : ℕ × ℕ} (hes : IndexOk chunk (es ++ [e]))
    (hindex : d.index base = some (SparseIndex.encodeEntries es)) (n : ℕ) :
    Rebuilding base chunk d
      ((FsOp.writeIndex base (SparseIndex.encodeEntry e)).applyFailed n d) := by
  refine ⟨fun b => by simp [FsOp.applyFailed], fun b hb => by simp [FsOp.applyFailed, hb], ?_⟩
  have hcut : (SparseIndex.encodeEntries (es ++ [e])).take
      ((SparseIndex.encodeEntries es).length + n) =
        SparseIndex.encodeEntries es ++ (SparseIndex.encodeEntry e).take n := by
    rw [encodeEntries_snoc, List.take_length_add_append]
  simp only [FsOp.applyFailed, FsOp.index_writeIndex, if_pos, hindex, Option.map_some, ← hcut]
  exact (IndexFileOk.of_entries hes).cut _

private theorem scan_spec (crc : List UInt8 → UInt32) (hc : config.Valid) (truncate rebuild : Bool)
    {rs pre : List Record} {tail : List UInt8} {base fuel : ℕ} {st : Segment.Scan} {fs : Fs}
    (hfs : fs.Healthy)
    (hst : ScanOk fs base pre st) (hnum : Numbered config (base + pre.length) rs)
    (hsize : totalLen (pre ++ rs) ≤ 2 ^ 30) (htorn : Torn crc config tail)
    (htail : tail = [] ∨ truncate = true) (hfuel : rs.length < fuel) :
    ∃ st' ops,
      (Segment.scan crc config base truncate rebuild fuel (encodeAll crc rs ++ tail) st).run fs =
        .ok st' (fs.advance ops) ∧
      ScanOk (fs.advance ops) base (pre ++ rs) st' ∧ OnlyIndex base fs (fs.advance ops) ∧
      Passes (Rebuilding base (pre ++ rs) fs.dir) fs ops := by
  induction rs generalizing pre fuel st fs with
  | nil =>
    obtain ⟨fuel, rfl⟩ := Nat.exists_eq_succ_of_ne_zero (Nat.ne_of_gt hfuel)
    refine ⟨st, [], ?_, by simpa [Fs.advance_nil hfs] using hst, by
      rw [Fs.advance_nil hfs]; exact .refl _ _, .nil (hst.rebuilding [])⟩
    rw [encodeAll_nil, List.nil_append]
    simp only [Segment.scan, htorn.decode]
    rw [if_pos htail, Fs.advance_nil hfs]
    rfl
  | cons r rs ih =>
    obtain ⟨fuel, rfl⟩ := Nat.exists_eq_succ_of_ne_zero (Nat.ne_of_gt (Nat.zero_lt_of_lt hfuel))
    have hassoc : pre ++ r :: rs = (pre ++ [r]) ++ rs := by simp
    have hnum' : Numbered config (base + (pre ++ [r]).length) rs := by
      simpa [Nat.add_assoc] using hnum.2.2.2
    have hlen := length_le_totalLen pre
    have hbound : pre.length < 2 ^ 32 ∧ totalLen pre < 2 ^ 32 := by
      rw [totalLen_append] at hsize
      omega
    have hrel : u32 (r.offset - base) = pre.length := by
      rw [hnum.1, Nat.add_sub_cancel_left, u32_of_lt hbound.1]
    have hpos : u32 st.validEnd = totalLen pre := by
      rw [hst.end_eq, u32_of_lt hbound.2]
    simp only [List.length_cons] at hfuel
    simp only [Segment.scan, decode_encodeAll_cons crc hc hnum tail, drop_encodeAll_cons]
    rw [if_neg (by rw [hnum.1, hst.next_eq]; simp)]
    by_cases hindex : rebuild = true ∧ config.indexIntervalBytes ≤ st.bytesSinceIndex
    · -- an entry for this record goes in first
      rw [if_pos hindex, hrel, hpos]
      simp only [EStateM.run_bind, run_index_append hfs, EStateM.run_pure]
      obtain ⟨st', ops, hrun, hok, honly, hpasses⟩ := ih
        (Fs.advance_healthy fs [.writeIndex base (SparseIndex.encodeEntry
          (pre.length, totalLen pre))])
        (show ScanOk _ base (pre ++ [r]) {
            index := ⟨st.index.entries ++ [(pre.length, totalLen pre)]⟩
            nextOffset := st.nextOffset + 1
            bytesSinceIndex := 0 + r.encodedLen
            validEnd := st.validEnd + r.encodedLen } from
          ⟨by simp [hst.next_eq, Nat.add_assoc], by simp [hst.end_eq], hst.index_ok.snoc hst.behind r,
            (hst.index_ok.ahead hst.behind).behind_snoc r, index_append_file _ hst.index_file⟩)
        hnum' (hassoc ▸ hsize) (show rs.length < fuel by omega)
      rw [Fs.advance_advance] at hrun hok honly
      have hentries : IndexOk (pre ++ r :: rs) (st.index.entries ++ [(pre.length, totalLen pre)]) :=
        hassoc ▸ (hst.index_ok.snoc hst.behind r).extend rs
      refine ⟨st', _, hrun, hassoc ▸ hok, (onlyIndex_write fs base _).trans honly,
        .cons (hst.rebuilding _) (rebuilding_writeIndex hentries hst.index_file) ?_⟩
      rw [← hassoc] at hpasses
      exact hpasses.imp fun d hd => (onlyIndex_write fs base _).rebuilding hd
    · rw [if_neg hindex]
      simp only [EStateM.run_bind, EStateM.run_pure]
      obtain ⟨st', ops, hrun, hok, honly, hpasses⟩ := ih hfs
        (show ScanOk fs base (pre ++ [r]) {
            index := st.index
            nextOffset := st.nextOffset + 1
            bytesSinceIndex := st.bytesSinceIndex + r.encodedLen
            validEnd := st.validEnd + r.encodedLen } from
          ⟨by simp [hst.next_eq, Nat.add_assoc], by simp [hst.end_eq], hst.index_ok.extend [r],
            hst.index_ok.behind_snoc r, hst.index_file⟩)
        hnum' (hassoc ▸ hsize) (show rs.length < fuel by omega)
      exact ⟨st', ops, hrun, hassoc ▸ hok, honly, hassoc ▸ hpasses⟩

/-- The files of other segments are as they were. -/
structure OnlySegment (base : ℕ) (fs fs' : Fs) : Prop where
  log_eq : ∀ b, b ≠ base → fs'.dir.log b = fs.dir.log b
  index_eq : ∀ b, b ≠ base → fs'.dir.index b = fs.dir.index b

theorem OnlyIndex.onlySegment {base : ℕ} {fs fs' : Fs} (h : OnlyIndex base fs fs') :
    OnlySegment base fs fs' :=
  ⟨fun b _ => h.log_eq b, h.index_eq⟩

theorem OnlySegment.trans {base : ℕ} {fs fs' fs'' : Fs} (h : OnlySegment base fs fs')
    (h' : OnlySegment base fs' fs'') : OnlySegment base fs fs'' :=
  ⟨fun b hb => (h'.log_eq b hb).trans (h.log_eq b hb),
    fun b hb => (h'.index_eq b hb).trans (h.index_eq b hb)⟩

theorem run_index_create {fs : Fs} (h : fs.Healthy) (base : ℕ) :
    (SparseIndex.create base).run fs = .ok ⟨[]⟩ (fs.advance [.createIndex base]) := by
  rw [SparseIndex.create, run_bind_ok (FsM.run_perform h _)]
  rfl

theorem onlyIndex_create (fs : Fs) (base : ℕ) :
    OnlyIndex base fs (fs.advance [.createIndex base]) :=
  ⟨fun b => by simp, fun b hb => by simp [hb]⟩

/-- A directory on the way of recovering the newest segment: of the other files nothing has
changed, and the segment has its bytes still or only the valid ones, as many synced as before. -/
structure Recovering (base : ℕ) (valid : List UInt8) (synced : ℕ) (d d' : Dir) : Prop where
  log_eq : ∀ b, b ≠ base → d'.log b = d.log b
  index_eq : ∀ b, b ≠ base → d'.index b = d.index b
  log_file : d'.log base = d.log base ∨
    ∃ synced', min synced valid.length ≤ synced' ∧ d'.log base = some ⟨valid, synced'⟩

theorem OnlyIndex.recovering {base synced : ℕ} {valid : List UInt8} {fs fs' : Fs}
    (h : OnlyIndex base fs fs') {d : Dir} (hd : Recovering base valid synced fs'.dir d) :
    Recovering base valid synced fs.dir d :=
  ⟨fun b hb => (hd.log_eq b hb).trans (h.log_eq b),
    fun b hb => (hd.index_eq b hb).trans (h.index_eq b hb), h.log_eq base ▸ hd.log_file⟩

/-- Cutting the tail leaves the valid bytes, and touches no other file. -/
theorem cutTail_spec {fs : Fs} (hfs : fs.Healthy) {base synced : ℕ} {bytes tail : List UInt8}
    (hfile : fs.dir.log base = some ⟨bytes ++ tail, synced⟩) :
    ∃ ops, (Segment.cutTail base bytes.length (bytes ++ tail).length).run fs =
        .ok () (fs.advance ops) ∧
      (∃ synced, (fs.advance ops).dir.log base = some ⟨bytes, synced⟩) ∧
      (fs.advance ops).dir.index = fs.dir.index ∧ OnlySegment base fs (fs.advance ops) ∧
      Passes (Recovering base bytes synced fs.dir) fs ops := by
  have hstart : Recovering base bytes synced fs.dir fs.dir :=
    ⟨fun _ _ => rfl, fun _ _ => rfl, .inl rfl⟩
  by_cases hcut : bytes.length < (bytes ++ tail).length
  · refine ⟨[.setLen base bytes.length, .fsyncLog base], ?_, ?_, rfl, ?_, ?_⟩
    · rw [Segment.cutTail, if_pos hcut, run_bind_ok (FsM.run_perform hfs _),
        FsM.run_perform (Fs.advance_healthy _ _), Fs.advance_advance]
      rfl
    · exact ⟨bytes.length, by simp [hfile]⟩
    · exact ⟨fun b hb => by simp [hb], fun _ _ => rfl⟩
    · have hshort : Recovering base bytes synced fs.dir
          ((FsOp.setLen base bytes.length).apply fs.dir) :=
        ⟨fun b hb => by simp [hb], fun _ _ => rfl, .inr ⟨_, le_rfl, by simp [hfile]⟩⟩
      refine .cons hstart (fun _ => hstart) (.cons hshort (fun _ => hshort) (.nil ?_))
      exact ⟨fun b hb => by simp [hb], fun _ _ => rfl,
        .inr ⟨_, Nat.min_le_right _ _, by simp [hfile]⟩⟩
  · have htail : tail = [] := by
      rw [List.length_append] at hcut
      exact List.eq_nil_of_length_eq_zero (by omega)
    subst htail
    refine ⟨[], ?_, ⟨synced, by simpa using hfile⟩, rfl, ⟨fun _ _ => rfl, fun _ _ => rfl⟩,
      .nil hstart⟩
    rw [Segment.cutTail, if_neg hcut, Fs.advance_nil hfs]
    rfl

/-- The segment recovery builds from a finished scan. -/
theorem ScanOk.segmentOk {fs : Fs} {base : ℕ} {chunk : List Record} {st : Segment.Scan}
    (h : ScanOk fs base chunk st) (hnum : Numbered config base chunk)
    (hsize : totalLen chunk ≤ 2 ^ 30)
    (hfile : ∃ synced, fs.dir.log base = some ⟨encodeAll crc chunk, synced⟩) :
    SegmentOk crc config fs.dir
      { baseOffset := base, index := st.index, nextOffset := st.nextOffset, size := st.validEnd,
        bytesSinceIndex := st.bytesSinceIndex } base chunk :=
  ⟨rfl, h.next_eq, h.end_eq, hfile, h.index_file, h.index_ok, .inl h.behind, hnum, hsize⟩

/-- A recovery without an index scans the whole file and builds one. -/
theorem scan_all_spec (hc : config.Valid) (truncate : Bool) (fs : Fs)
    {base : ℕ} {chunk : List Record} {tail : List UInt8} (hnum : Numbered config base chunk)
    (hsize : totalLen chunk ≤ 2 ^ 30) (htorn : Torn crc config tail)
    (htail : tail = [] ∨ truncate = true) :
    ∃ st ops, (Segment.scan crc config base truncate true
          ((encodeAll crc chunk ++ tail).length + 1) (encodeAll crc chunk ++ tail)
          { index := ⟨[]⟩, nextOffset := base, bytesSinceIndex := 0, validEnd := 0 }).run
          (fs.advance [.createIndex base]) = .ok st (fs.advance ops) ∧
      ScanOk (fs.advance ops) base chunk st ∧ OnlyIndex base fs (fs.advance ops) ∧
      Passes (fun d => d = fs.dir ∨ Rebuilding base chunk fs.dir d) fs ops := by
  have hlen := length_le_totalLen chunk
  have hstart : ScanOk (fs.advance [.createIndex base]) base []
      { index := ⟨[]⟩, nextOffset := base, bytesSinceIndex := 0, validEnd := 0 } :=
    ⟨rfl, rfl, IndexOk.nil [], by simp [Behind], by simp [SparseIndex.encodeEntries]⟩
  obtain ⟨st, ops, hrun, hok, honly, hpasses⟩ := scan_spec crc hc truncate true
    (Fs.advance_healthy _ _) hstart hnum hsize htorn htail
    (show _ < (encodeAll crc chunk ++ tail).length + 1 by simp; omega)
  rw [Fs.advance_advance] at hrun hok honly
  exact ⟨st, _, hrun, hok, (onlyIndex_create fs base).trans honly, .cons (.inl rfl)
    (fun _ => .inl rfl) (hpasses.imp fun d hd => .inr ((onlyIndex_create fs base).rebuilding hd))⟩

/-- Recovering the newest segment keeps its whole records and cuts the torn one off. -/
theorem recover_newest_spec (hc : config.Valid) {fs : Fs} (hfs : fs.Healthy) {base synced : ℕ}
    {chunk : List Record} {tail : List UInt8}
    (hfile : fs.dir.log base = some ⟨encodeAll crc chunk ++ tail, synced⟩)
    (hnum : Numbered config base chunk) (hsize : totalLen chunk ≤ 2 ^ 30)
    (htorn : Torn crc config tail) :
    ∃ seg ops, (Segment.recover crc config base true).run fs = .ok seg (fs.advance ops) ∧
      SegmentOk crc config (fs.advance ops).dir seg base chunk ∧
      OnlySegment base fs (fs.advance ops) ∧
      Passes (Recovering base (encodeAll crc chunk) synced fs.dir) fs ops := by
  obtain ⟨st, ops, hrun, hok, hscanned, hpasses⟩ :=
    scan_all_spec hc true fs hnum hsize htorn (.inr rfl)
  obtain ⟨cutOps, hcutRun, hcutFile, hcutIndex, hcutOnly, hcutPasses⟩ :=
    cutTail_spec (Fs.advance_healthy _ _) ((hscanned.log_eq base).trans hfile)
  rw [Fs.advance_advance] at hcutRun hcutFile hcutIndex hcutOnly
  rw [length_encodeAll, ← hok.end_eq] at hcutRun
  have hrecovering : Passes (Recovering base (encodeAll crc chunk) synced fs.dir) fs ops := by
    refine hpasses.imp fun d hd => ?_
    rcases hd with rfl | hd
    · exact ⟨fun _ _ => rfl, fun _ _ => rfl, .inl rfl⟩
    · exact ⟨fun b _ => hd.log_eq b, hd.index_eq, .inl (hd.log_eq base)⟩
  refine ⟨_, _, ?_, ScanOk.segmentOk (show ScanOk _ _ _ st from ?_) hnum hsize hcutFile,
    hscanned.onlySegment.trans hcutOnly,
    hrecovering.append (hcutPasses.imp fun d hd => hscanned.recovering hd)⟩
  · have hread := FsM.run_readLog (((onlyIndex_create fs base).log_eq base).trans hfile)
    simp only [Segment.recover, Segment.recoverStart, if_true, EStateM.run_bind, EStateM.run_pure,
      run_index_create hfs, hread, FsM.run_checkedSub (Nat.zero_le _), Nat.sub_zero,
      List.drop_zero, hrun, hcutRun]
  · exact { hok with index_file := (congrFun hcutIndex base).trans hok.index_file }

private theorem scan_keep_spec (crc : List UInt8 → UInt32) (hc : config.Valid) {rs : List Record}
    (base : ℕ) {n fuel : ℕ} (st : Segment.Scan) (fs : Fs) (hst : st.nextOffset = n)
    (hnum : Numbered config n rs)
    (hfuel : rs.length < fuel) :
    (Segment.scan crc config base false false fuel (encodeAll crc rs) st).run fs =
      .ok { index := st.index, nextOffset := n + rs.length
            bytesSinceIndex := st.bytesSinceIndex + totalLen rs
            validEnd := st.validEnd + totalLen rs } fs := by
  induction rs generalizing n fuel st with
  | nil =>
    obtain ⟨fuel, rfl⟩ := Nat.exists_eq_succ_of_ne_zero (Nat.ne_of_gt hfuel)
    have hdecode : Record.decode crc [] config.maxRecordBytes = .incomplete :=
      Torn.decode (.inl rfl)
    rw [encodeAll_nil]
    simp only [Segment.scan, hdecode]
    rw [if_pos (by simp), ← hst]
    rfl
  | cons r rs ih =>
    obtain ⟨fuel, rfl⟩ := Nat.exists_eq_succ_of_ne_zero (Nat.ne_of_gt (Nat.zero_lt_of_lt hfuel))
    have hdecode := decode_encodeAll_cons crc hc hnum []
    have hdrop := drop_encodeAll_cons crc r rs []
    rw [List.append_nil] at hdecode
    simp only [List.append_nil] at hdrop
    simp only [List.length_cons] at hfuel
    have hrun := ih {
        index := st.index
        nextOffset := st.nextOffset + 1
        bytesSinceIndex := st.bytesSinceIndex + r.encodedLen
        validEnd := st.validEnd + r.encodedLen }
      (by simp [hst]) hnum.2.2.2 (show rs.length < fuel by omega)
    simp only [Segment.scan, hdecode, hdrop]
    rw [if_neg (by rw [hnum.1, hst]; simp)]
    simp only [Bool.false_eq_true, false_and, if_false, EStateM.run_bind, EStateM.run_pure, hrun]
    simp only [List.length_cons, totalLen_cons]
    congr 2 <;> omega

private theorem IndexOk.last_spec {chunk : List Record} {es : List (ℕ × ℕ)} (h : IndexOk chunk es)
    {rel pos : ℕ} (hlast : (SparseIndex.mk es).last = some (rel, pos)) :
    rel ≤ chunk.length ∧ pos = totalLen (chunk.take rel) := by
  have hpos := h.position _ (List.mem_of_getLast? hlast)
  exact hpos

private theorem IndexOk.le_last {chunk : List Record} {es : List (ℕ × ℕ)} (h : IndexOk chunk es)
    {last : ℕ × ℕ} (hlast : (SparseIndex.mk es).last = some last) : ∀ e ∈ es, e.1 ≤ last.1 := by
  obtain ⟨init, rfl⟩ := List.getLast?_eq_some_iff.mp hlast
  intro e he
  rcases List.mem_append.mp he with he | he
  · exact ((List.pairwise_append.mp h.ascending).2.2 e he last (List.mem_singleton_self last)).le
  · rw [List.mem_singleton.mp he]

/-- A recovery that starts at a record takes the index as it is. -/
theorem recover_started (hc : config.Valid) {fs : Fs} {base synced k : ℕ} {chunk : List Record}
    {idx : SparseIndex} (hfile : fs.dir.log base = some ⟨encodeAll crc chunk, synced⟩)
    (hstart : (Segment.recoverStart base false).run fs =
      .ok (idx, totalLen (chunk.take k), base + k, false) fs)
    (hk : k ≤ chunk.length) (hnum : Numbered config base chunk) :
    (Segment.recover crc config base false).run fs =
      .ok ⟨base, idx, base + chunk.length, totalLen chunk, totalLen (chunk.drop k)⟩ fs := by
  have hlen := length_le_totalLen (chunk.drop k)
  have hsplit : totalLen (chunk.take k) + totalLen (chunk.drop k) = totalLen chunk := by
    rw [← totalLen_append, List.take_append_drop]
  have hrun := scan_keep_spec crc hc base
    { index := idx, nextOffset := base + k, bytesSinceIndex := 0,
      validEnd := totalLen (chunk.take k) } fs rfl (hnum.drop hk)
    (show _ < (encodeAll crc chunk).length - totalLen (chunk.take k) + 1 by
      rw [length_encodeAll]; omega)
  have hend : totalLen (chunk.take k) + totalLen (chunk.drop k) = (encodeAll crc chunk).length := by
    rw [hsplit, length_encodeAll]
  have hcut : (Segment.cutTail base (encodeAll crc chunk).length
      (encodeAll crc chunk).length).run fs = .ok () fs := by
    rw [Segment.cutTail, if_neg (Nat.lt_irrefl _)]
    rfl
  have hnext : base + k + (chunk.drop k).length = base + chunk.length := by
    rw [List.length_drop]
    omega
  simp only [Segment.recover, EStateM.run_bind, hstart, FsM.run_readLog hfile,
    FsM.run_checkedSub (show totalLen (chunk.take k) ≤ (encodeAll crc chunk).length by omega),
    drop_encodeAll, hrun, hend, hcut, EStateM.run_pure, hnext, Nat.zero_add]
  rw [length_encodeAll]

/-- Recovering a rolled segment whose index loads: the scan starts at its last entry, and no file
changes. -/
theorem recover_loaded (hc : config.Valid) {fs : Fs}
    {base synced k : ℕ} {chunk : List Record} {es : List (ℕ × ℕ)}
    (hfile : fs.dir.log base = some ⟨encodeAll crc chunk, synced⟩) (hes : IndexOk chunk es)
    (hindex : fs.dir.index base = some (SparseIndex.encodeEntries es))
    (hstart : (Segment.recoverStart base false).run fs =
      .ok (⟨es⟩, totalLen (chunk.take k), base + k, false) fs)
    (hk : k ≤ chunk.length) (hlast : ∀ e ∈ es, e.1 ≤ k) (hnum : Numbered config base chunk)
    (hsize : totalLen chunk ≤ 2 ^ 30) :
    ∃ seg, (Segment.recover crc config base false).run fs = .ok seg fs ∧
      SegmentOk crc config fs.dir seg base chunk := by
  have hbehind : Behind chunk es ∨ totalLen (chunk.drop k) < config.indexIntervalBytes := by
    rcases Nat.lt_or_ge k chunk.length with hlt | hge
    · exact .inl fun e he => (hlast e he).trans_lt hlt
    · have hinterval := hc.interval_ge
      rw [List.drop_eq_nil_of_le hge, totalLen_nil]
      exact .inr (by omega)
  exact ⟨_, recover_started hc hfile hstart hk hnum, rfl, rfl, rfl, ⟨synced, hfile⟩, hindex, hes,
    hbehind, hnum, hsize⟩

/-- The relative offset of the last entry, where a recovery with the index starts. -/
def SparseIndex.scanFrom (idx : SparseIndex) : ℕ := (idx.last.map Prod.fst).getD 0

theorem recoverStart_loaded {fs : Fs} {base : ℕ} {chunk : List Record} {idx : SparseIndex}
    (hes : IndexOk chunk idx.entries) (hload : (SparseIndex.load base).run fs = .ok (some idx) fs) :
    idx.scanFrom ≤ chunk.length ∧ (∀ e ∈ idx.entries, e.1 ≤ idx.scanFrom) ∧
      (Segment.recoverStart base false).run fs =
        .ok (idx, totalLen (chunk.take idx.scanFrom), base + idx.scanFrom, false) fs := by
  rw [SparseIndex.scanFrom]
  cases hlast : idx.last with
  | none =>
    have hnil : idx.entries = [] := List.getLast?_eq_none_iff.mp hlast
    refine ⟨Nat.zero_le _, by simp [hnil], ?_⟩
    simp [Segment.recoverStart, hload, hlast]
  | some e =>
    obtain ⟨hk, hpos⟩ := hes.last_spec hlast
    refine ⟨hk, hes.le_last hlast, ?_⟩
    simp [Segment.recoverStart, hload, hlast, ← hpos]

/-- Without a usable index a rolled segment is scanned from its start, and the index is rebuilt. -/
theorem recover_rebuilt (hc : config.Valid) {fs : Fs} (hfs : fs.Healthy) {base synced : ℕ}
    {chunk : List Record} (hfile : fs.dir.log base = some ⟨encodeAll crc chunk, synced⟩)
    (hload : (SparseIndex.load base).run fs = .ok none fs) (hnum : Numbered config base chunk)
    (hsize : totalLen chunk ≤ 2 ^ 30) :
    ∃ seg ops, (Segment.recover crc config base false).run fs = .ok seg (fs.advance ops) ∧
      SegmentOk crc config (fs.advance ops).dir seg base chunk ∧
      OnlyIndex base fs (fs.advance ops) ∧
      Passes (fun d => d = fs.dir ∨ Rebuilding base chunk fs.dir d) fs ops := by
  obtain ⟨st, ops, hrun, hok, hscanned, hpasses⟩ := scan_all_spec hc false fs hnum hsize
    (show Torn crc config [] from .inl rfl) (.inl rfl)
  rw [List.append_nil] at hrun
  have hread := FsM.run_readLog (((onlyIndex_create fs base).log_eq base).trans hfile)
  have hcut : ∀ fs : Fs, (Segment.cutTail base st.validEnd
      (encodeAll crc chunk).length).run fs = .ok () fs := by
    intro fs
    rw [Segment.cutTail, hok.end_eq, length_encodeAll, if_neg (Nat.lt_irrefl _)]
    rfl
  refine ⟨_, _, ?_, hok.segmentOk hnum hsize ⟨synced, (hscanned.log_eq base).trans hfile⟩,
    hscanned, hpasses⟩
  simp only [Segment.recover, Segment.recoverStart, Bool.false_eq_true, if_false,
    EStateM.run_bind, EStateM.run_pure, hload, run_index_create hfs, hread,
    FsM.run_checkedSub (Nat.zero_le _), Nat.sub_zero, List.drop_zero, hrun, hcut]

/-- Recovering a rolled segment reads its tail again and leaves its bytes alone, whether its
index file can be loaded or not. -/
theorem recover_closed_spec (hc : config.Valid) {fs : Fs} (hfs : fs.Healthy) {base synced : ℕ}
    {chunk : List Record} (hfile : fs.dir.log base = some ⟨encodeAll crc chunk, synced⟩)
    (hindex : IndexFileOk chunk (fs.dir.index base)) (hnum : Numbered config base chunk)
    (hsize : totalLen chunk ≤ 2 ^ 30) :
    ∃ seg ops, (Segment.recover crc config base false).run fs = .ok seg (fs.advance ops) ∧
      SegmentOk crc config (fs.advance ops).dir seg base chunk ∧
      OnlyIndex base fs (fs.advance ops) ∧ Passes (Rebuilding base chunk fs.dir) fs ops := by
  rcases load_spec hsize hindex with hload | ⟨es, hes, hstored, hload⟩
  · obtain ⟨seg, ops, hrun, hok, honly, hpasses⟩ := recover_rebuilt hc hfs hfile hload hnum hsize
    refine ⟨seg, ops, hrun, hok, honly, hpasses.imp fun d hd => hd.elim ?_ id⟩
    rintro rfl
    exact ⟨fun _ => rfl, fun _ _ => rfl, hindex⟩
  · obtain ⟨hk, hlast, hstart⟩ := recoverStart_loaded hes hload
    obtain ⟨seg, hrun, hok⟩ := recover_loaded hc hfile hes hstored hstart hk hlast hnum hsize
    refine ⟨seg, [], ?_, ?_, ?_, .nil ⟨fun _ => rfl, fun _ _ => rfl, hindex⟩⟩
    · rw [Fs.advance_nil hfs]
      exact hrun
    · rw [Fs.advance_nil hfs]
      exact hok
    · rw [Fs.advance_nil hfs]
      exact .refl base fs

theorem create_spec (crc : List UInt8 → UInt32) (config : LogConfig) {fs : Fs} (hfs : fs.Healthy)
    {base : ℕ} (hnew : fs.dir.log base = none) :
    ∃ seg, (Segment.create base).run fs =
        .ok seg (fs.advance [.createLog base, .createIndex base]) ∧
      SegmentOk crc config (fs.advance [.createLog base, .createIndex base]).dir seg base [] ∧
      OnlySegment base fs (fs.advance [.createLog base, .createIndex base]) := by
  have hcreate : (FsM.createNewLog base).run fs = .ok () (fs.advance [.createLog base]) := by
    have hrun := FsM.run_perform hfs (.createLog base)
    simpa [FsM.createNewLog, EStateM.run, hnew] using hrun
  refine ⟨⟨base, ⟨[]⟩, base, 0, 0⟩, ?_, ?_, ?_⟩
  · simp only [Segment.create, EStateM.run_bind, hcreate, run_index_create (Fs.advance_healthy _ _),
      EStateM.run_pure, Fs.advance_advance]
    rfl
  · exact ⟨rfl, rfl, rfl, ⟨0, by simp⟩, by simp [SparseIndex.encodeEntries], IndexOk.nil [],
      .inl (by simp [Behind]), trivial, Nat.zero_le _⟩
  · exact ⟨fun b hb => by simp [hb], fun b hb => by simp [hb]⟩

/-- The operations of one append: an index entry when one is due, then the record. -/
def appendOps (crc : List UInt8 → UInt32) (config : LogConfig) (seg : Segment) (r : Record) :
    List FsOp :=
  (if config.indexIntervalBytes ≤ seg.bytesSinceIndex then
    [.writeIndex seg.baseOffset (SparseIndex.encodeEntry
      (u32 (r.offset - seg.baseOffset), u32 seg.size))]
  else []) ++ [.writeLog seg.baseOffset (r.encode crc)]

theorem onlySegment_writeLog (fs : Fs) (base : ℕ) (bytes : List UInt8) :
    OnlySegment base fs (fs.advance [.writeLog base bytes]) :=
  ⟨fun b hb => by simp [hb], fun _ _ => rfl⟩

theorem onlySegment_append (crc : List UInt8 → UInt32) (config : LogConfig) (fs : Fs)
    (seg : Segment) (r : Record) :
    OnlySegment seg.baseOffset fs (fs.advance (appendOps crc config seg r)) := by
  rw [appendOps]
  split_ifs
  · have hwritten := (onlyIndex_write fs seg.baseOffset (SparseIndex.encodeEntry
      (u32 (r.offset - seg.baseOffset), u32 seg.size))).onlySegment.trans
        (onlySegment_writeLog _ seg.baseOffset (r.encode crc))
    rwa [Fs.advance_advance] at hwritten
  · exact onlySegment_writeLog fs seg.baseOffset (r.encode crc)

def Segment.appended (config : LogConfig) (seg : Segment) (r : Record) : Segment :=
  { seg with
    index :=
      if config.indexIntervalBytes ≤ seg.bytesSinceIndex then
        ⟨seg.index.entries ++ [(u32 (r.offset - seg.baseOffset), u32 seg.size)]⟩
      else seg.index
    nextOffset := seg.nextOffset + 1
    size := seg.size + r.encodedLen
    bytesSinceIndex :=
      (if config.indexIntervalBytes ≤ seg.bytesSinceIndex then 0 else seg.bytesSinceIndex) +
        r.encodedLen }

theorem append_run {fs : Fs} (hfs : fs.Healthy) (seg : Segment) (r : Record) :
    (Segment.append crc config r).run (seg, fs) =
      .ok r.encodedLen (seg.appended config r, fs.advance (appendOps crc config seg r)) := by
  rw [Segment.appended, appendOps]
  split_ifs with hdue
  · simp only [Segment.append, EStateM.run_bind, MethodM.run_self, hdue, if_true,
      MethodM.run_onFs (run_index_append hfs _ _ _ _), MethodM.run_modifySelf,
      MethodM.run_onFs (FsM.run_perform (Fs.advance_healthy _ _) _), EStateM.run_pure,
      Fs.advance_advance, Record.length_encode]
  · simp only [Segment.append, EStateM.run_bind, MethodM.run_self, hdue, if_false,
      MethodM.run_onFs (FsM.run_perform hfs _), MethodM.run_modifySelf, EStateM.run_pure,
      Record.length_encode, List.nil_append]

/-- An append extends the segment by its record. -/
theorem append_spec {fs : Fs} (hfs : fs.Healthy) {seg : Segment} {base : ℕ}
    {chunk : List Record} (h : SegmentOk crc config fs.dir seg base chunk) {r : Record}
    (hnum : Numbered config (base + chunk.length) [r]) (hsize : totalLen (chunk ++ [r]) ≤ 2 ^ 30) :
    ∃ seg', (Segment.append crc config r).run (seg, fs) =
        .ok r.encodedLen (seg', fs.advance (appendOps crc config seg r)) ∧
      SegmentOk crc config (fs.advance (appendOps crc config seg r)).dir seg' base
        (chunk ++ [r]) ∧
      OnlySegment base fs (fs.advance (appendOps crc config seg r)) := by
  refine ⟨seg.appended config r, append_run hfs seg r, ?_,
    h.base_eq ▸ onlySegment_append crc config fs seg r⟩
  obtain ⟨synced, hfile⟩ := h.log_file
  have hlen := length_le_totalLen chunk
  have hbound := h.size_le
  have hrel : u32 (r.offset - base) = chunk.length := by
    rw [hnum.1, Nat.add_sub_cancel_left, u32_of_lt (by omega)]
  have hpos : u32 seg.size = totalLen chunk := by rw [h.size_eq, u32_of_lt (by omega)]
  have hnum' : Numbered config base (chunk ++ [r]) := numbered_append.mpr ⟨h.numbered, hnum⟩
  have hnext : seg.nextOffset + 1 = base + (chunk ++ [r]).length := by
    rw [h.next_eq, List.length_append, List.length_singleton, Nat.add_assoc]
  have hsize' : seg.size + r.encodedLen = totalLen (chunk ++ [r]) := by simp [h.size_eq]
  rw [Segment.appended, appendOps, h.base_eq, hrel, hpos]
  by_cases hdue : config.indexIntervalBytes ≤ seg.bytesSinceIndex
  · rw [if_pos hdue, if_pos hdue, if_pos hdue]
    have hbehind : Behind chunk seg.index.entries := h.behind.resolve_right (by omega)
    refine ⟨rfl, hnext, hsize', ⟨synced, ?_⟩, ?_, h.index_ok.snoc hbehind r,
      .inl ((h.index_ok.ahead hbehind).behind_snoc r), hnum', hsize⟩
    · simp [hfile]
    · simp [h.index_file, encodeEntries_snoc]
  · rw [if_neg hdue, if_neg hdue, if_neg hdue, List.nil_append]
    refine ⟨rfl, hnext, hsize', ⟨synced, ?_⟩, ?_, h.index_ok.extend [r],
      .inl (h.index_ok.behind_snoc r), hnum', hsize⟩
    · simp [hfile]
    · simp [h.index_file]

end Replog.Storage
