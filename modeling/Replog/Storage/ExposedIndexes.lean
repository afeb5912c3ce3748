import Replog.Storage.IndexedOpens

/-!
# What calls show of an index

A read shows where the entry it starts from leads, and a truncation where the record it looks for
was found. If neither shows anything, the index is sound.
-/

namespace Replog.Storage
open Replog.Library

variable {crc : List UInt8 → UInt32} {config : LogConfig}

/-! ## Entries of a loaded index -/

namespace SparseIndex

private theorem parse_pairwise {n : ℕ} {bytes : List UInt8} {entries es : List (ℕ × ℕ)}
    (h : parse n bytes entries = some es)
    (hentries : entries.Pairwise fun e e' => e.1 < e'.1) : es.Pairwise fun e e' => e.1 < e'.1 := by
  induction n generalizing bytes entries with
  | zero =>
    cases h
    exact hentries
  | succ n ih =>
    rw [parse] at h
    split_ifs at h with hfollows
    refine ih h (List.pairwise_append.mpr ⟨hentries, List.pairwise_singleton _ _, fun e he => ?_⟩)
    rcases entries.eq_nil_or_concat with rfl | ⟨init, last, rfl⟩
    · cases he
    · rw [List.concat_eq_append] at hentries hfollows he
      rw [List.getLast?_concat, Option.all_some, decide_eq_true_iff] at hfollows
      have hle : e.1 ≤ last.1 := by
        rcases List.mem_append.mp he with he | he
        · exact ((List.pairwise_append.mp hentries).2.2 e he last List.mem_cons_self).le
        · rw [List.mem_singleton.mp he]
      intro e' he'
      rw [List.mem_singleton.mp he']
      exact hle.trans_lt hfollows.1

private theorem loaded_pairwise {file : Option (List UInt8)} {idx : SparseIndex}
    (h : loaded file = some idx) : idx.entries.Pairwise fun e e' => e.1 < e'.1 := by
  cases file with
  | none => cases h
  | some bytes =>
    rw [loaded] at h
    split_ifs at h
    obtain ⟨es, hparse, rfl⟩ := Option.map_eq_some_iff.mp h
    exact parse_pairwise hparse .nil

variable {idx : SparseIndex} {e : ℕ × ℕ}

private theorem lookup_of_mem (h : idx.entries.Pairwise fun e e' => e.1 < e'.1) (he : e ∈ idx.entries) :
    idx.lookup e.1 = some e := by
  obtain ⟨pre, post, heq⟩ := List.append_of_mem he
  rw [heq] at h
  have hpost := (List.pairwise_cons.mp (List.pairwise_append.mp h).2.1).1
  have hnone : post.reverse.find? (fun e' => e'.1 ≤ e.1) = none :=
    List.find?_eq_none.mpr fun e' he' => by
      have hlt := hpost e' (List.mem_reverse.mp he')
      simpa using hlt
  rw [lookup, heq, List.reverse_append, List.reverse_cons, List.append_assoc, List.find?_append,
    hnone, Option.none_or, List.singleton_append, List.find?_cons_of_pos]
  simp

private theorem eq_or_lt_resumeAt (h : idx.entries.Pairwise fun e e' => e.1 < e'.1)
    (he : e ∈ idx.entries) : e = idx.resumeAt ∨ e.1 < idx.resumeAt.1 := by
  rcases hcases : idx.entries.eq_nil_or_concat with hnil | ⟨init, last, hconcat⟩
  · rw [hnil] at he
    cases he
  · rw [List.concat_eq_append] at hconcat
    have hresume : idx.resumeAt = last := by
      rw [resumeAt, SparseIndex.last, hconcat, List.getLast?_concat, Option.getD_some]
    rw [hconcat] at h he
    rw [hresume]
    rcases List.mem_append.mp he with he | he
    · exact .inr ((List.pairwise_append.mp h).2.2 e he last List.mem_cons_self)
    · exact .inl (List.mem_singleton.mp he)

end SparseIndex

/-! ## Reads and truncations -/

theorem ReadRun.all {maxBytes : ℕ} {avail run : List Record} (h : ReadRun maxBytes avail run)
    (hroom : totalLen avail ≤ maxBytes) : run = avail :=
  h.isPrefix.eq_of_length_le (h.longest avail List.prefix_rfl hroom)

theorem readFrom_first {seg : Segment} {fs fs' : Fs} {file : LogFile} {o maxBytes : ℕ} {r : Record}
    {res : List Record} (hfile : fs.dir.log seg.baseOffset = some file)
    (hsize : seg.size = file.bytes.length)
    (hrun : (seg.readFrom crc config o maxBytes).run fs = .ok (r :: res) fs') :
    ∃ q c, LeadsTo crc config.maxRecordBytes file.bytes o (seg.startPos o) q ∧
      Record.decode crc (file.bytes.drop q) config.maxRecordBytes = .record r c ∧
      q + totalLen (r :: res) ≤ file.bytes.length := by
  by_cases hout : o < seg.baseOffset ∨ seg.nextOffset ≤ o
  · rw [Segment.readFrom, if_pos hout] at hrun
    cases hrun
  by_cases hle : seg.startPos o ≤ seg.size
  · rw [readFrom_run hfile (by omega) (by omega) hle, List.take_of_length_le
      (by rw [List.length_drop, hsize])] at hrun
    exact readLoop_first seg (hsize ▸ hle) hrun
  · rw [Segment.readFrom, if_neg hout] at hrun
    simp only [Segment.committedFrom, EStateM.run_bind, FsM.run_readLog hfile, FsM.checkedSub,
      if_neg hle] at hrun
    cases hrun

section Calls

variable {P : Segment → Segment → Prop} {s t : Log × Fs} {cs preC postC : List (List Record)}
  {act c : List Record} {pre post : List Segment} {seg : Segment} {n k : ℕ}
  (hbase : ∀ {seg seg'}, P seg seg' → seg'.baseOffset = seg.baseOffset)

include hbase

/-- A read in a rolled segment goes to the segment that is paired with it. -/
theorem read_paired (h : LogOk crc config s cs act) (hapart : Apart config P Level s t)
    (hcov : Covers crc config s.2.dir 0 n s.1.closed cs pre seg post preC c postC) (maxBytes : ℕ) :
    ∃ seg', P seg seg' ∧ (Log.read crc n maxBytes).run t =
      (MethodM.onFs (seg'.readFrom crc config n maxBytes) : LogM (List Record)).run t := by
  have hlt := hcov.lt_end
  have hnext := h.nextOffset_eq
  have hlen : (cs.flatten ++ act).length = nextBase cs + act.length := List.length_append
  have hend : nextBase cs = nextBase preC + (c.length + nextBase postC) := by
    rw [hcov.chunks_eq, nextBase_append, nextBase_cons]
  have hactive : t.1.active.baseOffset = nextBase cs := by
    rw [hapart.rest]
    exact h.active.base_eq
  have hconfig : t.1.config = config := by
    rw [hapart.rest]
    exact hapart.config_eq
  have hstart := (hapart.startOffset_eq hbase).trans h.startOffset_eq
  have hnext' := hapart.nextOffset_eq.trans hnext
  have hlast := hcov.lastClosed_eq (p := (· ≤ n)) fun _ => Iff.rfl
  rcases lastClosed_paired hbase hapart.closed (· ≤ n) with ⟨hs, -⟩ | ⟨seg₀, seg', hP, hs, ht⟩
  · rw [hlast] at hs
    cases hs
  · rw [hlast] at hs
    cases hs
    refine ⟨seg', hP, ?_⟩
    have hrun := @Log.read_closed crc t.1 _ _ (show t.1.startOffset ≤ n by omega)
      (by omega) (by omega) ht t.2 maxBytes
    rw [hconfig] at hrun
    exact hrun

/-- A cut in the middle of a rolled segment rebuilds the segment that is paired with it. -/
theorem truncateSuffix_paired (hc : config.Valid) (h : LogOk crc config s cs act)
    (hapart : Apart config P Level s t)
    (hcov : Covers crc config s.2.dir 0 (nextBase preC + k) s.1.closed cs pre seg post preC c
      postC) (hk : k + 1 < c.length) :
    ∃ seg' t₁, P seg seg' ∧ t₁.1.config = config ∧ t₁.2.Healthy ∧
      t₁.2.dir.log (nextBase preC) = s.2.dir.log (nextBase preC) ∧
      (Log.truncateSuffix crc (nextBase preC + (k + 1))).run t =
        (Log.rebuildAt crc seg' (nextBase preC + (k + 1))).run t₁ := by
  have hlen : (cs.flatten ++ act).length = nextBase cs + act.length := List.length_append
  have hend : nextBase cs = nextBase preC + (c.length + nextBase postC) := by
    rw [hcov.chunks_eq, nextBase_append, nextBase_cons]
  have hnext := h.nextOffset_eq
  have hstart := h.startOffset_eq
  have hactive := h.active.base_eq
  have hsegBase : seg.baseOffset = nextBase preC := by rw [hcov.ok.base_eq, Nat.zero_add]
  have htarget : s.1.truncateTarget (nextBase preC + (k + 1)) = some (nextBase preC) := by
    rw [Log.truncateTarget, if_neg (by omega), if_neg (by omega),
      hcov.lastClosed_eq (p := (· < nextBase preC + (k + 1))) fun b => by omega, Option.map_some,
      hsegBase]
  obtain ⟨log, ops, -, -, hrun, -⟩ :=
    truncateSuffix_spec hc h (n := nextBase preC + (k + 1)) (by omega)
  rw [Log.truncateSuffix, run_bind_ok (MethodM.run_self s), if_neg (by omega), if_neg (by omega),
    htarget] at hrun
  obtain ⟨s₁, t₁, seg₀, seg', hseg, hbaseEq, hP, happart₁, hlogs, -, hcut⟩ :=
    cutTo_paired hbase hapart (by omega) hrun
  have hmem : seg ∈ s.1.closed := by
    rw [hcov.segs_eq]
    exact List.mem_append_right pre List.mem_cons_self
  obtain rfl := h.eq_of_base hseg hmem (hbaseEq.trans hsegBase.symm)
  have hconfig : t₁.1.config = config := by
    rw [happart₁.rest]
    exact happart₁.config_eq
  refine ⟨seg', t₁, hP, hconfig, happart₁.fs.healthy,
    (happart₁.fs.log_eq _).symm.trans (hlogs _ le_rfl), ?_⟩
  rw [← hcut, Log.truncateSuffix, run_bind_ok (MethodM.run_self t), hapart.nextOffset_eq,
    hapart.startOffset_eq hbase, if_neg (by omega), if_neg (by omega),
    hapart.truncateTarget_eq hbase, htarget]

end Calls

/-- The log is cut where the search has ended, and keeps the records before. -/
theorem rebuildAt_found (hc : config.Valid) {s : Log × Fs} (hconfig : s.1.config = config)
    (hfs : s.2.Healthy) {seg : Segment} {chunk : List Record} {synced n q : ℕ}
    (hfile : s.2.dir.log seg.baseOffset = some ⟨encodeAll crc chunk, synced⟩)
    (hnum : Numbered config seg.baseOffset chunk) (hsize : totalLen chunk ≤ 2 ^ 30)
    (hposition : (seg.positionOf crc config n).run s.2 = .ok q s.2) :
    ∃ s', (Log.rebuildAt crc seg n).run s = .ok () s' ∧
      s'.1.nextOffset = seg.baseOffset + (whole q chunk).length := by
  obtain ⟨tail, htake, htorn⟩ := take_encodeAll_whole crc hc hnum q
  have hcut : (s.2.advance [.setLen seg.baseOffset q, .fsyncLog seg.baseOffset]).dir.log
      seg.baseOffset = some ⟨encodeAll crc (whole q chunk) ++ tail,
        ((encodeAll crc chunk).take q).length⟩ := by
    simp [hfile, htake]
  have hpre := whole_isPrefix q chunk
  have hless : totalLen (whole q chunk) ≤ totalLen chunk := by
    obtain ⟨more, hmore⟩ := hpre
    rw [← hmore, totalLen_append, hmore]
    exact Nat.le_add_right _ _
  obtain ⟨rebuilt, ops, hrecover, hok, -⟩ := recover_newest_spec hc (Fs.advance_healthy _ _) hcut
    (hnum.ofPrefix hpre) (hless.trans hsize) htorn
  rw [Fs.advance_advance] at hrecover
  obtain ⟨log, fs⟩ := s
  refine ⟨({ log with
    closed := Log.removeClosed seg.baseOffset log.closed
    active := rebuilt
    durableOffset := Log.durableBelow n log.durableOffset },
    fs.advance ([.setLen seg.baseOffset q, .fsyncLog seg.baseOffset] ++ ops)), ?_, hok.next_eq⟩
  dsimp only at hconfig hfs hfile hposition hrecover ⊢
  simp only [Log.rebuildAt, EStateM.run_bind, MethodM.run_self, hconfig,
    MethodM.run_onFs hposition, MethodM.run_onFs (FsM.run_readLog hfile),
    MethodM.run_onFs (FsM.run_perform hfs _),
    MethodM.run_onFs (FsM.run_perform (Fs.advance_healthy _ _) _), Fs.advance_advance,
    List.cons_append, List.nil_append, MethodM.run_onFs hrecover, MethodM.run_modifySelf]

/-! ## An index that does not show -/

theorem Resumed.startPos_eq {d : Dir} {idx : SparseIndex} {seg seg₁ seg₂ : Segment}
    (h₁ : Resumed crc config d idx seg seg₁) (h₂ : Resumed crc config d idx seg seg₂) (o : ℕ) :
    seg₁.startPos o = seg₂.startPos o := by
  rw [Segment.startPos, Segment.startPos, h₁.base_eq, h₂.base_eq, h₁.index_eq, h₂.index_eq]

theorem Stored.resumed {d : Dir} {idx : SparseIndex} {seg seg' : Segment}
    (h : Stored crc config d seg seg')
    (hload : SparseIndex.loaded (d.index seg.baseOffset) = some idx) :
    Resumed crc config d idx seg seg' := by
  rw [Stored, hload] at h
  exact h

theorem Resumed.shape {d dir dir' : Dir} {idx : SparseIndex} {seg seg' : Segment} {base : ℕ}
    {chunk : List Record} (h : Resumed crc config d idx seg seg')
    (hok : SegmentOk crc config dir seg base chunk) (hlog : dir'.log base = dir.log base) :
    Shape crc config dir' seg' base chunk :=
  ⟨h.base_eq.trans hok.base_eq, h.next_eq.trans hok.next_eq, h.size_eq.trans hok.size_eq,
    hlog ▸ hok.log_file, hok.numbered⟩

/-- If every offset is found from the entry before it, the entries are sound. -/
theorem Resumed.sound (hc : config.Valid) {d dir : Dir} {idx : SparseIndex} {seg seg' : Segment}
    {chunk : List Record} {synced : ℕ} (hok : SegmentOk crc config dir seg seg.baseOffset chunk)
    (hlog : d.log seg.baseOffset = some ⟨encodeAll crc chunk, synced⟩)
    (hload : SparseIndex.loaded (d.index seg.baseOffset) = some idx)
    (h : Resumed crc config d idx seg seg')
    (hfound : ∀ k < chunk.length, LeadsTo crc config.maxRecordBytes (encodeAll crc chunk)
      (seg.baseOffset + k) (seg'.startPos (seg.baseOffset + k)) (totalLen (chunk.take k))) :
    IndexSound crc config.maxRecordBytes seg.baseOffset (encodeAll crc chunk) idx.entries := by
  obtain ⟨file, rs, hfile, hwalk, hhead, hcount⟩ := h.walk
  obtain rfl : file = ⟨encodeAll crc chunk, synced⟩ :=
    Option.some.inj (hfile.symm.trans hlog)
  have hnext := hok.next_eq
  have hasc := SparseIndex.loaded_pairwise hload
  have hlast : ∀ e ∈ idx.entries, e.1 < chunk.length ∨ e.1 = chunk.length ∧ e = idx.resumeAt := by
    intro e he
    rcases SparseIndex.eq_or_lt_resumeAt hasc he with hresume | hlt
    · rcases Nat.lt_or_eq_of_le (show e.1 ≤ chunk.length by rw [hresume]; omega) with hlt | heq
      · exact .inl hlt
      · exact .inr ⟨heq, hresume⟩
    · exact .inl (by omega)
  have hwhole : ∀ {e}, e = idx.resumeAt → e.1 = chunk.length →
      e.2 = totalLen (chunk.take e.1) := by
    rintro e rfl heq
    have hnil : rs = [] := List.eq_nil_of_length_eq_zero (by omega)
    rw [hnil] at hwalk
    have hend := hwalk.end_eq
    rw [totalLen_nil, length_encodeAll] at hend
    rw [heq, List.take_length]
    omega
  have hentry : ∀ e ∈ idx.entries, e.1 < chunk.length →
      LeadsTo crc config.maxRecordBytes (encodeAll crc chunk) (seg.baseOffset + e.1) e.2
        (totalLen (chunk.take e.1)) := by
    intro e he hlt
    have hsmall : e.1 < 2 ^ 32 := by
      have hlen := length_le_totalLen chunk
      have hsize := hok.size_le
      omega
    have hstart : seg'.startPos (seg.baseOffset + e.1) = e.2 := by
      rw [Segment.startPos, h.base_eq, h.index_eq, Nat.add_sub_cancel_left, u32_of_lt hsmall,
        SparseIndex.lookup_of_mem hasc he]
      rfl
    rw [← hstart]
    exact hfound e.1 hlt
  refine ⟨fun e he => ?_, fun e he => ?_⟩
  · rcases hlast e he with hlt | ⟨heq, hresume⟩
    · obtain ⟨start, hstart, hlen⟩ := (walk_start_iff hc hok.numbered hlt.le).mpr rfl
      exact ⟨start, _, hstart, hlen, hentry e he hlt⟩
    · obtain ⟨start, hstart, hlen⟩ :=
        (walk_start_iff hc hok.numbered heq.le).mpr (hwhole hresume heq)
      exact ⟨start, e.2, hstart, hlen, [], .nil _, fun _ h => absurd h List.not_mem_nil⟩
  · have hmem := List.mem_of_getLast? he
    have hresume : idx.resumeAt = e := by rw [SparseIndex.resumeAt, SparseIndex.last, he]; rfl
    rcases hlast e hmem with hlt | ⟨heq, hresume⟩
    · obtain ⟨skipped, hskipped, hlow⟩ := hentry e hmem hlt
      generalize hq : totalLen (chunk.take e.1) = q at hskipped
      cases hskipped with
      | nil => exact (walk_start_iff hc hok.numbered hlt.le).mpr hq.symm
      | cons hdecode _ =>
        -- the first record the recovery has checked is the one the entry names
        rw [hresume] at hwalk hhead hcount
        obtain ⟨first, more, rfl⟩ := List.exists_cons_of_length_pos (show 0 < rs.length by omega)
        cases hwalk with
        | cons hdecode' _ =>
          rw [hdecode] at hdecode'
          cases hdecode'
          have hlow := hlow _ List.mem_cons_self
          have hat := hhead _ rfl
          omega
    · exact (walk_start_iff hc hok.numbered heq.le).mpr (hwhole hresume heq)

end Replog.Storage
