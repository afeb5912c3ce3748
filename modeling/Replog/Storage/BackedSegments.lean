import Replog.Storage.Conversions
import Replog.Storage.OtherConfig

/-!
# Segments under changing configurations

Each opening may bring another validated configuration. Under none of them does a segment grow past
a gibibyte, nor do two records share a position. So the records of a segment are the ones it counts,
and its index names their positions, even where a failed truncation has taken the files away.
-/

namespace Replog.Storage
open Replog.Library

variable {crc : List UInt8 → UInt32}

/-- No validated configuration lets through more than this one. -/
def wideConfig : LogConfig := ⟨2 ^ 30, 64, 2 ^ 30, .os⟩

theorem wideConfig_valid : wideConfig.Valid :=
  wideConfig.validate_eq_ok_iff.mp rfl

private theorem Numbered.wide {config : LogConfig} (hc : config.Valid) {n : ℕ} {rs : List Record}
    (h : Numbered config n rs) : Numbered wideConfig n rs := by
  induction rs generalizing n with
  | nil => exact numbered_nil n
  | cons r rs ih =>
    obtain ⟨hoffset, hlt, hlen, hrest⟩ := h
    exact ⟨hoffset, hlt, hlen.trans hc.record_le, ih hrest⟩

/-! ## Segments -/

/-- The records that the segment counts and its index tells apart. -/
structure Segment.Holds (seg : Segment) (chunk : List Record) : Prop where
  next_eq : seg.nextOffset = seg.baseOffset + chunk.length
  size_eq : seg.size = totalLen chunk
  size_le : totalLen chunk ≤ 2 ^ 30
  index_ok : IndexOk chunk seg.index.entries
  behind : Behind chunk seg.index.entries
  numbered : Numbered wideConfig seg.baseOffset chunk

def Dir.bytes (d : Dir) (base : ℕ) : Option (List UInt8) := (d.log base).map LogFile.bytes

/-- The files have the records and the entries, if they are there at all. -/
def Dir.Stores (crc : List UInt8 → UInt32) (d : Dir) (base : ℕ) (chunk : List Record)
    (entries : List (ℕ × ℕ)) : Prop :=
  d.bytes base = none ∨ d.bytes base = some (encodeAll crc chunk) ∧
    d.index base = some (SparseIndex.encodeEntries entries)

/-- The segment and its files agree on its records. -/
def Segment.Backed (crc : List UInt8 → UInt32) (d : Dir) (seg : Segment) : Prop :=
  ∃ chunk, seg.Holds chunk ∧ d.Stores crc seg.baseOffset chunk seg.index.entries

/-- All segment files of the directory are those of some segment. -/
def Dir.Backed (crc : List UInt8 → UInt32) (d : Dir) : Prop :=
  ∀ b, d.bytes b ≠ none → ∃ seg : Segment, seg.baseOffset = b ∧ seg.Backed crc d

/-- The files of a segment stay as they are, or its log file is gone. -/
def Dir.Stays (d d' : Dir) (b : ℕ) : Prop :=
  d'.bytes b = none ∨ d'.bytes b = d.bytes b ∧ d'.index b = d.index b

theorem Dir.Stays.of_eq {d d' : Dir} {b : ℕ} (hlog : d'.log b = d.log b)
    (hindex : d'.index b = d.index b) : d.Stays d' b :=
  .inr ⟨congrArg (Option.map LogFile.bytes) hlog, hindex⟩

theorem Dir.Stays.trans {d d' d'' : Dir} {b : ℕ} (h : d.Stays d' b) (h' : d'.Stays d'' b) :
    d.Stays d'' b := by
  rcases h' with hgone | ⟨hlog', hindex'⟩
  · exact .inl hgone
  · rcases h with hgone | ⟨hlog, hindex⟩
    · exact .inl (hlog'.trans hgone)
    · exact .inr ⟨hlog'.trans hlog, hindex'.trans hindex⟩

theorem OnlySegment.stays {base : ℕ} {fs fs' : Fs} (h : OnlySegment base fs fs') {b : ℕ}
    (hb : b ≠ base) : fs.dir.Stays fs'.dir b :=
  .of_eq (h.log_eq b hb) (h.index_eq b hb)

theorem Segment.Holds.small {seg : Segment} {chunk : List Record} (h : seg.Holds chunk) :
    seg.Small := by
  have hlen := length_le_totalLen chunk
  have hsize := h.size_le
  refine ⟨?_, ?_⟩
  · rw [h.next_eq]
    omega
  · rw [h.size_eq]
    omega

theorem Segment.Holds.ok {d : Dir} {seg : Segment} {chunk : List Record} {file : LogFile}
    (h : seg.Holds chunk) (hstores : d.Stores crc seg.baseOffset chunk seg.index.entries)
    (hfile : d.log seg.baseOffset = some file) :
    SegmentOk crc wideConfig d seg seg.baseOffset chunk := by
  rcases hstores with hgone | ⟨hbytes, hindex⟩
  · rw [Dir.bytes, hfile] at hgone
    cases hgone
  · rw [Dir.bytes, hfile, Option.map_some, Option.some.injEq] at hbytes
    exact ⟨rfl, h.next_eq, h.size_eq, ⟨file.synced, by rw [hfile, ← hbytes]⟩, hindex, h.index_ok,
      .inl h.behind, h.numbered, h.size_le⟩

theorem Segment.Holds.startPos {seg : Segment} {chunk : List Record} (h : seg.Holds chunk)
    (offset : ℕ) :
    ∃ k ≤ chunk.length, seg.startPos offset = totalLen (chunk.take k) := by
  rw [Segment.startPos, SparseIndex.lookup]
  cases hfind : seg.index.entries.reverse.find?
      fun e => e.1 ≤ u32 (offset - seg.baseOffset) with
  | none => exact ⟨0, Nat.zero_le _, by simp⟩
  | some e =>
    have hmem : e ∈ seg.index.entries := List.mem_reverse.mp (List.mem_of_find?_eq_some hfind)
    obtain ⟨hle, hpos⟩ := h.index_ok.position e hmem
    exact ⟨e.1, hle, hpos⟩

namespace Segment.Backed

variable {d d' : Dir} {seg : Segment}

theorem small (h : seg.Backed crc d) : seg.Small := by
  obtain ⟨chunk, hholds, -⟩ := h
  exact hholds.small

theorem stays (h : seg.Backed crc d) (hd : d.Stays d' seg.baseOffset) : seg.Backed crc d' := by
  obtain ⟨chunk, hholds, hstores⟩ := h
  refine ⟨chunk, hholds, ?_⟩
  rcases hd with hgone | ⟨hlog, hindex⟩
  · exact .inl hgone
  · rcases hstores with hgone | ⟨hfile, hentries⟩
    · exact .inl (hlog.trans hgone)
    · exact .inr ⟨hlog.trans hfile, hindex.trans hentries⟩

/-- A segment as a single configuration would leave it. -/
theorem of_ok {config : LogConfig} (hc : config.Valid) {base : ℕ} {chunk : List Record}
    (h : SegmentOk crc config d seg base chunk) (hbehind : Behind chunk seg.index.entries) :
    seg.Backed crc d := by
  obtain ⟨synced, hfile⟩ := h.log_file
  have hbase := h.base_eq
  subst hbase
  refine ⟨chunk, ⟨h.next_eq, h.size_eq, h.size_le, h.index_ok, hbehind, h.numbered.wide hc⟩,
    .inr ⟨?_, h.index_file⟩⟩
  rw [Dir.bytes, hfile]
  rfl

theorem ok {file : LogFile} (h : seg.Backed crc d) (hfile : d.log seg.baseOffset = some file) :
    ∃ chunk, SegmentOk crc wideConfig d seg seg.baseOffset chunk ∧
      Behind chunk seg.index.entries := by
  obtain ⟨chunk, hholds, hstores⟩ := h
  exact ⟨chunk, hholds.ok hstores hfile, hholds.behind⟩

end Segment.Backed

namespace Dir.Backed

variable {d d' : Dir}

theorem stays (h : d.Backed crc) (hd : ∀ b, d.Stays d' b) : d'.Backed crc := by
  intro b hb
  rcases hd b with hgone | ⟨hlog, hindex⟩
  · exact absurd hgone hb
  · rw [hlog] at hb
    obtain ⟨seg, rfl, hseg⟩ := h b hb
    exact ⟨seg, rfl, hseg.stays (.inr ⟨hlog, hindex⟩)⟩

theorem changed (h : d.Backed crc) {seg : Segment} (hseg : seg.Backed crc d')
    (hd : ∀ b, b ≠ seg.baseOffset → d.Stays d' b) : d'.Backed crc := by
  intro b hb
  by_cases heq : b = seg.baseOffset
  · exact ⟨seg, heq.symm, hseg⟩
  · rcases hd b heq with hgone | ⟨hlog, hindex⟩
    · exact absurd hgone hb
    · rw [hlog] at hb
      obtain ⟨seg', rfl, hseg'⟩ := h b hb
      exact ⟨seg', rfl, hseg'.stays (.inr ⟨hlog, hindex⟩)⟩

/-- The file of a segment, found in the directory. -/
theorem ok (h : d.Backed crc) {b : ℕ} {file : LogFile} (hfile : d.log b = some file) :
    ∃ seg chunk, SegmentOk crc wideConfig d seg b chunk ∧ Behind chunk seg.index.entries := by
  obtain ⟨seg, rfl, hseg⟩ := h b (by rw [Dir.bytes, hfile]; exact Option.some_ne_none _)
  obtain ⟨chunk, hok, hbehind⟩ := hseg.ok hfile
  exact ⟨seg, chunk, hok, hbehind⟩

theorem length_lt (h : d.Backed crc) {b : ℕ} {file : LogFile} (hfile : d.log b = some file) :
    file.bytes.length < 2 ^ 32 := by
  obtain ⟨seg, chunk, hok, -⟩ := h.ok hfile
  obtain ⟨synced, hsame⟩ := hok.log_file
  have hsize := hok.size_le
  rw [Option.some.inj (hfile.symm.trans hsame), length_encodeAll]
  omega

end Dir.Backed

/-! ## What the calls on a segment do -/

section Calls

variable {config : LogConfig} {fs : Fs}

theorem create_backed (crc : List UInt8 → UInt32) (hfs : fs.Healthy) (base : ℕ) :
    Ends (fun seg fs' => fs'.Healthy ∧ seg.baseOffset = base ∧ seg.nextOffset = base ∧
        seg.size = 0 ∧ seg.Backed crc fs'.dir ∧ ∀ b, b ≠ base → fs.dir.Stays fs'.dir b)
      (fun _ fs' => fs' = fs) ((Segment.create base).run fs) := by
  cases hfile : fs.dir.log base with
  | none =>
    obtain ⟨seg, hrun, hok, honly⟩ := create_spec crc wideConfig hfs hfile
    have hlen := congrArg (Option.map List.length) hok.index_file
    have hnil : seg.index.entries = [] := by
      simpa [ENTRY_BYTES, eq_comm] using hlen
    rw [hrun]
    exact ⟨Fs.advance_healthy _ _, hok.base_eq, hok.next_eq, hok.size_eq,
      .of_ok wideConfig_valid hok (by simp [Behind, hnil]), fun b hb => honly.stays hb⟩
  | some file =>
    have hrun : (FsM.createNewLog base).run fs = .error (.err .io) fs := by
      simp [FsM.createNewLog, EStateM.run, hfile]
    rw [Segment.create, EStateM.run_bind, hrun]
    rfl

/-- The newest segment keeps the records that fit, and gets a new index. -/
theorem recover_newest_backed (hc : config.Valid) (hfs : fs.Healthy) {base : ℕ} {file : LogFile}
    {chunk : List Record} (hfile : fs.dir.log base = some file)
    (hbytes : file.bytes = encodeAll crc chunk) (hnum : Numbered wideConfig base chunk)
    (hsize : totalLen chunk ≤ 2 ^ 30) :
    ∃ seg ops, (Segment.recover crc config base true).run fs = .ok seg (fs.advance ops) ∧
      seg.baseOffset = base ∧ seg.Backed crc (fs.advance ops).dir ∧
      ∀ b, b ≠ base → fs.dir.Stays (fs.advance ops).dir b := by
  have hfile' : fs.dir.log base = some ⟨encodeAll crc chunk, file.synced⟩ := by
    rw [hfile, ← hbytes]
  obtain ⟨seg, ops, hrun, hok, hbehind, honly⟩ :=
    recover_newest_fitting wideConfig_valid hc hfs hfile' hnum hsize
  exact ⟨seg, ops, hrun, hok.base_eq, .of_ok (wideConfig_valid.widen hc) hok hbehind,
    fun b hb => honly.stays hb⟩

/-- A rolled segment keeps its files, whether it is recovered or not. -/
theorem recover_closed_backed (hc : config.Valid) {base : ℕ} {file : LogFile}
    (hdir : fs.dir.Backed crc) (hfile : fs.dir.log base = some file) :
    Ends (fun seg fs' => fs' = fs ∧ seg.baseOffset = base ∧ seg.Backed crc fs.dir)
      (fun _ fs' => fs' = fs) ((Segment.recover crc config base false).run fs) := by
  obtain ⟨seg, chunk, hok, hbehind⟩ := hdir.ok hfile
  by_cases hfits : ∀ r ∈ chunk.drop seg.index.scanFrom, config.Fits r
  · obtain ⟨seg', hrun, hok'⟩ := recover_closed_other wideConfig_valid hc hok hfits
    -- both indexes are what the file holds
    have hload := load_entries hok.index_ok hok.size_le hok.index_file
    rw [load_entries hok'.index_ok hok'.size_le hok'.index_file, EStateM.Result.ok.injEq,
      Option.some.injEq, SparseIndex.mk.injEq] at hload
    rw [hrun]
    exact ⟨rfl, hok'.base_eq, .of_ok (wideConfig_valid.widen hc) hok' (hload.1 ▸ hbehind)⟩
  · obtain ⟨e, hrun⟩ := recover_closed_oversize wideConfig_valid hok (by simpa using hfits)
    rw [hrun]
    rfl

/-- An append adds the record, also to a segment whose files are gone. -/
theorem append_backed {seg : Segment} (hseg : seg.Backed crc fs.dir) {r : Record}
    (hoffset : r.offset = seg.nextOffset) (hroom : r.offset < 2 ^ 64)
    (hsize : seg.size + r.encodedLen ≤ 2 ^ 30) :
    (seg.appended config r).Backed crc (fs.advance (appendOps crc config seg r)).dir := by
  obtain ⟨chunk, hholds, hstores⟩ := hseg
  have hlen := length_le_totalLen chunk
  have hle := hholds.size_le
  have hnext := hholds.next_eq
  have hrel : u32 (r.offset - seg.baseOffset) = chunk.length := by
    rw [hoffset, hnext, Nat.add_sub_cancel_left, u32_of_lt (by omega)]
  have hpos : u32 seg.size = totalLen chunk := by
    rw [hholds.size_eq, u32_of_lt (by omega)]
  have hnum : Numbered wideConfig (seg.baseOffset + chunk.length) [r] :=
    ⟨hoffset.trans hnext, by omega, show r.encodedLen ≤ 2 ^ 30 by omega, trivial⟩
  have hsize' : totalLen (chunk ++ [r]) = seg.size + r.encodedLen := by
    rw [totalLen_append, totalLen_cons, totalLen_nil, hholds.size_eq, Nat.add_zero]
  have hentries : IndexOk (chunk ++ [r]) (seg.appended config r).index.entries ∧
      Behind (chunk ++ [r]) (seg.appended config r).index.entries := by
    rw [Segment.appended, hrel, hpos]
    dsimp only
    split_ifs
    · exact ⟨hholds.index_ok.snoc hholds.behind r,
        (hholds.index_ok.ahead hholds.behind).behind_snoc r⟩
    · exact ⟨hholds.index_ok.extend [r], hholds.index_ok.behind_snoc r⟩
  refine ⟨chunk ++ [r], ⟨?_, hsize'.symm, by omega, hentries.1, hentries.2,
    numbered_append.mpr ⟨hholds.numbered, hnum⟩⟩, ?_⟩
  · rw [List.length_append, List.length_singleton, ← Nat.add_assoc]
    exact congrArg (· + 1) hnext
  · rw [Segment.appended, appendOps, hrel, hpos]
    rcases hstores with hgone | ⟨hbytes, hindex⟩
    · left
      rw [Dir.bytes, Option.map_eq_none_iff] at hgone ⊢
      split_ifs <;> simp [hgone]
    · right
      rw [Dir.bytes, Option.map_eq_some_iff] at hbytes
      obtain ⟨file, hfile, hbytes⟩ := hbytes
      split_ifs <;> simp [Dir.bytes, hfile, hbytes, hindex, encodeEntries_snoc]

private theorem positionLoop_ends (offset start : ℕ) {rs : List Record} {n : ℕ}
    (hnum : Numbered wideConfig n rs) (fuel pos : ℕ) :
    Ends (fun position fs' => fs' = fs ∧ ∃ j, position = start + pos + totalLen (rs.take j))
      (fun _ fs' => fs' = fs)
      ((Segment.positionLoop crc config offset start fuel (encodeAll crc rs) pos).run fs) := by
  induction fuel generalizing rs n pos with
  | zero => exact rfl
  | succ fuel ih =>
    rw [Segment.positionLoop]
    cases rs with
    | nil =>
      rw [encodeAll_nil, Record.decode_nil]
      exact rfl
    | cons r rs =>
      have hdecode := decode_other crc wideConfig_valid config hnum []
      have hdrop := drop_encodeAll_cons crc r rs []
      rw [List.append_nil] at hdecode
      simp only [List.append_nil] at hdrop
      by_cases hfits : config.Fits r
      · rw [hdecode, if_pos hfits]
        dsimp only
        rw [hdrop]
        split_ifs
        · exact ⟨rfl, 0, rfl⟩
        · refine (ih hnum.2.2.2 (pos + r.encodedLen)).imp (fun position fs' h => ?_) fun _ _ h => h
          obtain ⟨hfs, j, hj⟩ := h
          refine ⟨hfs, j + 1, ?_⟩
          rw [hj, List.take_succ_cons, totalLen_cons]
          omega
      · rw [hdecode, if_neg hfits]
        exact rfl

/-- The position found is one of a record, or the end. -/
theorem positionOf_ends {seg : Segment} {chunk : List Record} (hholds : seg.Holds chunk)
    (hstores : fs.dir.Stores crc seg.baseOffset chunk seg.index.entries) (offset : ℕ) :
    Ends (fun position fs' => fs' = fs ∧ ∃ j, position = totalLen (chunk.take j))
      (fun _ fs' => fs' = fs) ((seg.positionOf crc config offset).run fs) := by
  rw [Segment.positionOf]
  split_ifs
  · exact rfl
  · exact ⟨rfl, chunk.length, by rw [List.take_length, hholds.size_eq]⟩
  obtain ⟨k, hk, hstart⟩ := hholds.startPos offset
  dsimp only
  cases hfile : fs.dir.log seg.baseOffset with
  | none =>
    have hread : (FsM.readLog seg.baseOffset).run fs = .error (.err .io) fs := by
      simp [FsM.readLog, EStateM.run, hfile]
    rw [Segment.committedFrom, EStateM.run_bind, EStateM.run_bind, hread]
    rfl
  | some file =>
    have hok := hholds.ok hstores hfile
    rw [hstart, run_bind_ok (committedFrom_eq hok k)]
    refine (positionLoop_ends offset _ (hholds.numbered.drop hk) _ 0).imp
      (fun position fs' h => ?_) fun _ _ h => h
    obtain ⟨hfs, j, hj⟩ := h
    refine ⟨hfs, k + j, ?_⟩
    rw [hj, List.take_add, totalLen_append, Nat.add_zero]

end Calls

end Replog.Storage
