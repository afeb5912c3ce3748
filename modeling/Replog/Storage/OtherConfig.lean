import Replog.Storage.Serving
import Mathlib.Data.List.TakeWhile

/-!
# Opening a log under another configuration

Of the configuration only the limit on the size of a record reaches what is already written. A
record above the limit is found corrupt: in the newest segment recovery takes it for a torn tail, in
a rolled one it is an error, provided that recovery scans it at all.
-/

namespace Replog.Storage

/-- The record decodes under the configuration, which does not count the length field. -/
def LogConfig.Fits (config : LogConfig) (r : Record) : Prop :=
  r.encodedLen ≤ config.maxRecordBytes + LEN_FIELD_BYTES

instance (config : LogConfig) : DecidablePred config.Fits := fun _ => Nat.decLe _ _

/-- The second configuration with the larger limit of the two. -/
def LogConfig.widen (c₁ c₂ : LogConfig) : LogConfig :=
  { c₂ with maxRecordBytes := max c₁.maxRecordBytes c₂.maxRecordBytes }

private theorem LogConfig.widen_widen (c₁ c₂ : LogConfig) : (c₁.widen c₂).widen c₂ = c₁.widen c₂ := by
  simp [LogConfig.widen]

variable {crc : List UInt8 → UInt32} {c₁ c₂ : LogConfig}

theorem LogConfig.Valid.widen (h₁ : c₁.Valid) (h₂ : c₂.Valid) : (c₁.widen c₂).Valid :=
  ⟨h₂.segment_ge, h₂.segment_le, h₂.interval_ge, max_le h₁.record_le h₂.record_le⟩

theorem Numbered.widen {n : ℕ} {rs : List Record} (h : Numbered c₁ n rs) :
    Numbered (c₁.widen c₂) n rs := by
  induction rs generalizing n with
  | nil => exact numbered_nil n
  | cons r rs ih =>
    obtain ⟨hoffset, hlt, hlen, hrest⟩ := h
    exact ⟨hoffset, hlt, hlen.trans (le_max_left _ _), ih hrest⟩

private theorem decode_limit {buf : List UInt8} {r : Record} {c m : ℕ}
    (h : Record.decode crc buf m = .record r c) (m' : ℕ) :
    Record.decode crc buf m' =
      if c ≤ m' + LEN_FIELD_BYTES then .record r c
      else .corrupt (.exceedsMax (c - LEN_FIELD_BYTES) m') := by
  obtain ⟨hc, hmin, -, hle, hstored, hbody⟩ := Record.decode_eq_record_iff.mp h
  split_ifs with hfits
  · exact Record.decode_eq_record_iff.mpr ⟨hc, hmin, by omega, hle, hstored, hbody⟩
  · have hlen : ¬ buf.length < LEN_FIELD_BYTES := by omega
    rw [Record.decode, if_neg hlen]
    dsimp only
    rw [if_neg (by omega), if_pos (by omega), hc, Nat.add_sub_cancel_left]

section Loops

variable (crc) (h₁ : c₁.Valid)
include h₁

/-- What the second configuration makes of a record written under the first. -/
theorem decode_other (c₂ : LogConfig) {r : Record} {rs : List Record} {n : ℕ}
    (hnum : Numbered c₁ n (r :: rs)) (tail : List UInt8) :
    Record.decode crc (encodeAll crc (r :: rs) ++ tail) c₂.maxRecordBytes =
      if c₂.Fits r then .record r r.encodedLen
      else .corrupt (.exceedsMax (r.encodedLen - LEN_FIELD_BYTES) c₂.maxRecordBytes) :=
  decode_limit (decode_encodeAll_cons crc h₁ hnum tail) c₂.maxRecordBytes

/-- Up to the first record that does not fit, recovery goes as with the larger limit. -/
theorem scan_other (h₂ : c₂.Valid) (base : ℕ) (truncate rebuild : Bool) {rs : List Record} {n : ℕ}
    (hnum : Numbered c₁ n rs) (hfits : ∀ r ∈ rs, c₂.Fits r) {tail : List UInt8}
    (hstop : ∀ r c, Record.decode crc tail c₂.maxRecordBytes ≠ .record r c)
    (htail : tail = [] ∨ truncate = true) {fuel fuel' : ℕ} (hfuel : rs.length < fuel)
    (hfuel' : rs.length < fuel') (st : Segment.Scan) :
    Segment.scan crc c₂ base truncate rebuild fuel (encodeAll crc rs ++ tail) st =
      Segment.scan crc (c₁.widen c₂) base truncate rebuild fuel' (encodeAll crc rs) st := by
  obtain ⟨fuel, rfl⟩ := Nat.exists_eq_succ_of_ne_zero (Nat.ne_of_gt (Nat.zero_lt_of_lt hfuel))
  obtain ⟨fuel', rfl⟩ := Nat.exists_eq_succ_of_ne_zero (Nat.ne_of_gt (Nat.zero_lt_of_lt hfuel'))
  induction rs generalizing n fuel fuel' st with
  | nil =>
    have hdone : Segment.scan crc (c₁.widen c₂) base truncate rebuild (fuel' + 1) [] st =
        pure st := by
      rw [Segment.scan, Record.decode_nil]
      exact if_pos (.inl rfl)
    rw [encodeAll_nil, List.nil_append, Nat.succ_eq_add_one, hdone, Segment.scan]
    cases hdecode : Record.decode crc tail c₂.maxRecordBytes with
    | incomplete => exact if_pos htail
    | corrupt reason =>
      refine if_pos (htail.resolve_left fun hnil => ?_)
      rw [hnil, Record.decode_nil] at hdecode
      cases hdecode
    | record r c => exact absurd hdecode (hstop r c)
  | cons r rs ih =>
    have hdecode := decode_other crc h₁ c₂ hnum tail
    rw [if_pos (hfits r List.mem_cons_self)] at hdecode
    have hwide := decode_encodeAll_cons crc (h₁.widen h₂) hnum.widen []
    have hdrop := drop_encodeAll_cons crc r rs []
    rw [List.append_nil] at hwide
    simp only [List.append_nil] at hdrop
    simp only [List.length_cons] at hfuel hfuel'
    obtain ⟨fuel, rfl⟩ := Nat.exists_eq_succ_of_ne_zero (show fuel ≠ 0 by omega)
    obtain ⟨fuel', rfl⟩ := Nat.exists_eq_succ_of_ne_zero (show fuel' ≠ 0 by omega)
    have hrest := fun st => ih hnum.2.2.2 (fun r' hr' => hfits r' (List.mem_cons_of_mem _ hr'))
      st fuel (by omega) fuel' (by omega)
    rw [Segment.scan, hdecode, Segment.scan, hwide]
    simp only [drop_encodeAll_cons, hdrop, hrest]
    rfl

private theorem scan_oversize (base : ℕ) {pre post : List Record} {r : Record} {n : ℕ}
    (hnum : Numbered c₁ n (pre ++ r :: post)) (hpre : ∀ r ∈ pre, c₂.Fits r) (hr : ¬ c₂.Fits r)
    {fuel : ℕ} (hfuel : pre.length < fuel) (st : Segment.Scan) (hst : st.nextOffset = n) (fs : Fs) :
    ∃ e, (Segment.scan crc c₂ base false false fuel (encodeAll crc (pre ++ r :: post)) st).run fs =
      .error (.err e) fs := by
  induction pre generalizing n fuel st with
  | nil =>
    obtain ⟨fuel, rfl⟩ := Nat.exists_eq_succ_of_ne_zero (Nat.ne_of_gt hfuel)
    have hdecode := decode_other crc h₁ c₂ hnum []
    rw [if_neg hr, List.append_nil] at hdecode
    refine ⟨.corrupt st.nextOffset st.validEnd (.exceedsMax (r.encodedLen - LEN_FIELD_BYTES)
      c₂.maxRecordBytes), ?_⟩
    rw [List.nil_append, Segment.scan, hdecode]
    rfl
  | cons r' pre ih =>
    obtain ⟨fuel, rfl⟩ := Nat.exists_eq_succ_of_ne_zero (Nat.ne_of_gt (Nat.zero_lt_of_lt hfuel))
    have hrest : Numbered c₁ n (r' :: (pre ++ r :: post)) := hnum
    have hdecode := decode_other crc h₁ c₂ hrest []
    rw [if_pos (hpre r' List.mem_cons_self), List.append_nil] at hdecode
    have hdrop := drop_encodeAll_cons crc r' (pre ++ r :: post) []
    simp only [List.append_nil] at hdrop
    simp only [List.length_cons] at hfuel
    rw [List.cons_append, Segment.scan, hdecode]
    dsimp only
    rw [hdrop]
    rw [if_neg (by rw [hrest.1, hst]; simp)]
    simp only [Bool.false_eq_true, false_and, if_false, EStateM.run_bind, EStateM.run_pure]
    exact ih hrest.2.2.2 (fun r hr => hpre r (List.mem_cons_of_mem _ hr)) (by omega) _
      (by simp [hst])

private theorem readLoop_other (h₂ : c₂.Valid) (seg : Segment) (offset maxBytes start : ℕ)
    {rs : List Record} {n : ℕ} (hnum : Numbered c₁ n rs) (hfits : ∀ r ∈ rs, c₂.Fits r)
    (fuel pos : ℕ) (out : List Record) (used : ℕ) :
    seg.readLoop crc c₂ offset maxBytes start fuel (encodeAll crc rs) pos out used =
      seg.readLoop crc (c₁.widen c₂) offset maxBytes start fuel (encodeAll crc rs) pos out used := by
  induction fuel generalizing rs n pos out used with
  | zero => rfl
  | succ fuel ih =>
    cases rs with
    | nil =>
      rw [encodeAll_nil, Segment.readLoop, Segment.readLoop, Record.decode_nil, Record.decode_nil]
    | cons r rs =>
      have hdecode := decode_other crc h₁ c₂ hnum []
      rw [if_pos (hfits r List.mem_cons_self)] at hdecode
      have hwide := decode_encodeAll_cons crc (h₁.widen h₂) hnum.widen []
      have hdrop := drop_encodeAll_cons crc r rs []
      simp only [List.append_nil] at hdecode hwide hdrop
      have hrest := ih hnum.2.2.2 fun r' hr' => hfits r' (List.mem_cons_of_mem _ hr')
      rw [Segment.readLoop, Segment.readLoop, hdecode, hwide]
      simp only [hdrop, hrest]

private theorem readLoop_oversize (seg : Segment) (offset maxBytes start : ℕ) {pre post : List Record}
    {r : Record} {n : ℕ} (hnum : Numbered c₁ n (pre ++ r :: post)) (hpre : ∀ r ∈ pre, c₂.Fits r)
    (hr : ¬ c₂.Fits r) (hoffset : n + pre.length ≤ offset) {fuel : ℕ} (hfuel : pre.length < fuel)
    (pos : ℕ) (out : List Record) (used : ℕ) (fs : Fs) :
    ∃ e, (seg.readLoop crc c₂ offset maxBytes start fuel (encodeAll crc (pre ++ r :: post)) pos out
      used).run fs = .error (.err e) fs := by
  obtain ⟨fuel, rfl⟩ := Nat.exists_eq_succ_of_ne_zero (Nat.ne_of_gt (Nat.zero_lt_of_lt hfuel))
  induction pre generalizing n fuel pos with
  | nil =>
    have hdecode := decode_other crc h₁ c₂ hnum []
    rw [if_neg hr, List.append_nil] at hdecode
    refine ⟨.corrupt seg.nextOffset (start + pos) (.exceedsMax (r.encodedLen - LEN_FIELD_BYTES)
      c₂.maxRecordBytes), ?_⟩
    rw [List.nil_append, Segment.readLoop, hdecode]
    rfl
  | cons r' pre ih =>
    have hrest : Numbered c₁ n (r' :: (pre ++ r :: post)) := hnum
    have hdecode := decode_other crc h₁ c₂ hrest []
    have hdrop := drop_encodeAll_cons crc r' (pre ++ r :: post) []
    simp only [List.append_nil] at hdecode hdrop
    rw [if_pos (hpre r' List.mem_cons_self)] at hdecode
    simp only [List.length_cons] at hfuel hoffset
    have hbehind : r'.offset < offset := by
      rw [hrest.1]
      omega
    obtain ⟨fuel, rfl⟩ := Nat.exists_eq_succ_of_ne_zero (show fuel ≠ 0 by omega)
    rw [List.cons_append, Segment.readLoop, hdecode]
    dsimp only
    rw [if_pos hbehind, hdrop]
    exact ih hrest.2.2.2 (fun r hr => hpre r (List.mem_cons_of_mem _ hr)) (by omega) _ fuel
      (by omega)

end Loops

/-! ## Recovery -/

/-- The records before the first one that does not fit. -/
def LogConfig.fitting (config : LogConfig) (rs : List Record) : List Record :=
  rs.takeWhile fun r => config.Fits r

theorem LogConfig.fitting_split (config : LogConfig) (rs : List Record) :
    ∃ post, rs = config.fitting rs ++ post ∧ ∀ r ∈ post.head?, ¬ config.Fits r := by
  refine ⟨rs.dropWhile fun r => config.Fits r, List.takeWhile_append_dropWhile.symm, ?_⟩
  intro r hr
  have hhead := List.head?_dropWhile_not (fun r => decide (config.Fits r)) rs
  rw [hr] at hhead
  simpa using hhead

theorem LogConfig.fits_of_mem_fitting {config : LogConfig} {rs : List Record} {r : Record}
    (h : r ∈ config.fitting rs) : config.Fits r := by
  simpa using List.mem_takeWhile_imp h

/-- A list with a record that does not fit has a first one. -/
theorem LogConfig.first_oversize {config : LogConfig} {rs : List Record}
    (h : ∃ r ∈ rs, ¬ config.Fits r) : ∃ pre r post, rs = pre ++ r :: post ∧
      (∀ r ∈ pre, config.Fits r) ∧ ¬ config.Fits r := by
  obtain ⟨post, hsplit, hhead⟩ := config.fitting_split rs
  cases post with
  | nil =>
    obtain ⟨r, hr, hlarge⟩ := h
    rw [hsplit, List.append_nil] at hr
    exact absurd (config.fits_of_mem_fitting hr) hlarge
  | cons r post =>
    exact ⟨_, r, post, hsplit, fun r hr => config.fits_of_mem_fitting hr, hhead r rfl⟩

section Recovery

variable (h₁ : c₁.Valid) (h₂ : c₂.Valid)
include h₁ h₂

/-- Recovery of the newest segment cuts off what does not fit, and all that follows. -/
theorem recover_newest_fitting {fs : Fs} (hfs : fs.Healthy) {base synced : ℕ}
    {chunk : List Record} (hfile : fs.dir.log base = some ⟨encodeAll crc chunk, synced⟩)
    (hnum : Numbered c₁ base chunk) (hsize : totalLen chunk ≤ 2 ^ 30) :
    ∃ seg ops, (Segment.recover crc c₂ base true).run fs = .ok seg (fs.advance ops) ∧
      SegmentOk crc (c₁.widen c₂) (fs.advance ops).dir seg base (c₂.fitting chunk) ∧
      Behind (c₂.fitting chunk) seg.index.entries ∧ OnlySegment base fs (fs.advance ops) := by
  obtain ⟨post, hsplit, hhead⟩ := c₂.fitting_split chunk
  have hfits : ∀ r ∈ c₂.fitting chunk, c₂.Fits r := fun r hr => LogConfig.fits_of_mem_fitting hr
  generalize c₂.fitting chunk = pre at hsplit hfits ⊢
  rw [hsplit] at hfile hnum hsize
  obtain ⟨hpre, hpost⟩ := numbered_append.mp hnum
  rw [encodeAll_append] at hfile
  have hstop : ∀ r c, Record.decode crc (encodeAll crc post) c₂.maxRecordBytes ≠ .record r c := by
    intro r c hdecode
    cases post with
    | nil =>
      rw [encodeAll_nil, Record.decode_nil] at hdecode
      cases hdecode
    | cons r' post =>
      have hlarge := decode_other crc h₁ c₂ hpost []
      rw [if_neg (hhead r' rfl), List.append_nil, hdecode] at hlarge
      cases hlarge
  have hsize' : totalLen pre ≤ 2 ^ 30 := by
    rw [totalLen_append] at hsize
    omega
  have hcount := length_le_totalLen pre
  obtain ⟨st, ops, hrun, hok, hscanned, -⟩ := scan_all_spec (h₁.widen h₂) true fs
    hpre.widen hsize' (show Torn crc (c₁.widen c₂) [] from .inl rfl) (.inl rfl)
  obtain ⟨cutOps, hcutRun, hcutFile, hcutIndex, hcutOnly, -⟩ :=
    cutTail_spec (Fs.advance_healthy fs ops) ((hscanned.log_eq base).trans hfile)
  rw [Fs.advance_advance] at hcutRun hcutFile hcutIndex hcutOnly
  rw [length_encodeAll, ← hok.end_eq] at hcutRun
  refine ⟨_, _, ?_, ScanOk.segmentOk (show ScanOk _ _ _ st from ?_) hpre.widen hsize' hcutFile,
    hok.behind, hscanned.onlySegment.trans hcutOnly⟩
  · have hscan := scan_other crc h₁ h₂ base true true hpre hfits hstop (.inr rfl)
      (show _ < (encodeAll crc pre ++ encodeAll crc post).length + 1 by
        rw [List.length_append, length_encodeAll]; omega)
      (show _ < (encodeAll crc pre ++ []).length + 1 by
        rw [List.append_nil, length_encodeAll]; omega)
      { index := ⟨[]⟩, nextOffset := base, bytesSinceIndex := 0, validEnd := 0 }
    have hread := FsM.run_readLog (((onlyIndex_create fs base).log_eq base).trans hfile)
    rw [List.append_nil (encodeAll crc pre)] at hrun hscan
    simp only [Segment.recover, Segment.recoverStart, if_true, EStateM.run_bind, EStateM.run_pure,
      run_index_create hfs, hread, FsM.run_checkedSub (Nat.zero_le _), Nat.sub_zero,
      List.drop_zero, hscan, hrun, hcutRun]
  · exact { hok with index_file := (congrFun hcutIndex base).trans hok.index_file }

private theorem recover_newest_other {fs : Fs} (hfs : fs.Healthy) {base synced : ℕ} {chunk : List Record}
    (hfile : fs.dir.log base = some ⟨encodeAll crc chunk, synced⟩) (hnum : Numbered c₁ base chunk)
    (hsize : totalLen chunk ≤ 2 ^ 30) :
    ∃ seg ops, (Segment.recover crc c₂ base true).run fs = .ok seg (fs.advance ops) ∧
      SegmentOk crc (c₁.widen c₂) (fs.advance ops).dir seg base (c₂.fitting chunk) ∧
      OnlySegment base fs (fs.advance ops) := by
  obtain ⟨seg, ops, hrun, hok, -, honly⟩ := recover_newest_fitting h₁ h₂ hfs hfile hnum hsize
  exact ⟨seg, ops, hrun, hok, honly⟩

variable {fs : Fs} {seg : Segment} {base : ℕ} {chunk : List Record}

/-- A rolled segment is recovered as it is if the records behind its last index entry fit, whatever
is before them. -/
theorem recover_closed_other (h : SegmentOk crc c₁ fs.dir seg base chunk)
    (hfits : ∀ r ∈ chunk.drop seg.index.scanFrom, c₂.Fits r) :
    ∃ seg', (Segment.recover crc c₂ base false).run fs = .ok seg' fs ∧
      SegmentOk crc (c₁.widen c₂) fs.dir seg' base chunk := by
  obtain ⟨synced, hfile⟩ := h.log_file
  obtain ⟨hk, hlast, hstart⟩ := recoverStart_loaded h.index_ok
    (load_entries h.index_ok h.size_le h.index_file)
  obtain ⟨seg', hrun, hok⟩ := recover_loaded (h₁.widen h₂) hfile h.index_ok h.index_file hstart hk
    hlast h.numbered.widen h.size_le
  have hsplit : totalLen (chunk.take seg.index.scanFrom) + totalLen (chunk.drop seg.index.scanFrom) =
      totalLen chunk := by
    rw [← totalLen_append, List.take_append_drop]
  have hcount := length_le_totalLen (chunk.drop seg.index.scanFrom)
  have hle : totalLen (chunk.take seg.index.scanFrom) ≤ (encodeAll crc chunk).length := by
    rw [length_encodeAll]
    omega
  have hfuel : (chunk.drop seg.index.scanFrom).length <
      (encodeAll crc chunk).length - totalLen (chunk.take seg.index.scanFrom) + 1 := by
    rw [length_encodeAll]
    omega
  have hscan := fun st => scan_other crc h₁ h₂ base false false (h.numbered.drop hk) hfits
    (fun r c hdecode => by rw [Record.decode_nil] at hdecode; cases hdecode) (.inl rfl) hfuel hfuel st
  simp only [List.append_nil] at hscan
  refine ⟨seg', ?_, hok⟩
  simp only [Segment.recover, EStateM.run_bind, hstart, FsM.run_readLog hfile,
    FsM.run_checkedSub hle, drop_encodeAll] at hrun ⊢
  rw [hscan]
  exact hrun

omit h₂ in
theorem recover_closed_oversize (h : SegmentOk crc c₁ fs.dir seg base chunk)
    (hlarge : ∃ r ∈ chunk.drop seg.index.scanFrom, ¬ c₂.Fits r) :
    ∃ e, (Segment.recover crc c₂ base false).run fs = .error (.err e) fs := by
  obtain ⟨synced, hfile⟩ := h.log_file
  obtain ⟨hk, hlast, hstart⟩ := recoverStart_loaded h.index_ok
    (load_entries h.index_ok h.size_le h.index_file)
  have hsplit : totalLen (chunk.take seg.index.scanFrom) + totalLen (chunk.drop seg.index.scanFrom) =
      totalLen chunk := by
    rw [← totalLen_append, List.take_append_drop]
  obtain ⟨pre, r, post, hdrop, hpre, hr⟩ := LogConfig.first_oversize hlarge
  have hnum := h.numbered.drop hk
  rw [hdrop] at hnum hsplit
  have hcount := length_le_totalLen pre
  rw [totalLen_append] at hsplit
  have hle : totalLen (chunk.take seg.index.scanFrom) ≤ (encodeAll crc chunk).length := by
    rw [length_encodeAll]
    omega
  obtain ⟨e, hscan⟩ := scan_oversize crc h₁ base hnum hpre hr
    (show _ < (encodeAll crc chunk).length - totalLen (chunk.take seg.index.scanFrom) + 1 by
      rw [length_encodeAll]; omega)
    { index := seg.index, nextOffset := base + seg.index.scanFrom, bytesSinceIndex := 0
      validEnd := totalLen (chunk.take seg.index.scanFrom) } rfl fs
  refine ⟨e, ?_⟩
  simp only [Segment.recover, EStateM.run_bind, hstart, FsM.run_readLog hfile,
    FsM.run_checkedSub hle, drop_encodeAll, hdrop, hscan]

end Recovery

/-- The records that recovery reads again once the segment is rolled. -/
def Segment.rescanned (seg : Segment) (rs : List Record) : List Record :=
  (rs.take seg.nextOffset).drop (seg.baseOffset + seg.index.scanFrom)

private theorem SegmentOk.rescanned_eq {config : LogConfig} {dir : Dir} {seg : Segment} {base : ℕ}
    {chunk : List Record} (h : SegmentOk crc config dir seg base chunk)
    {before : List Record} (hbefore : before.length = base) (after : List Record) :
    seg.rescanned (before ++ (chunk ++ after)) = chunk.drop seg.index.scanFrom := by
  rw [Segment.rescanned, h.next_eq, h.base_eq, ← List.append_assoc,
    List.take_left' (by rw [List.length_append, hbefore]), ← hbefore, ← List.drop_drop,
    List.drop_left]

/-- Recovery finds in a rolled segment a record that does not fit. -/
def Blocked (config : LogConfig) (closed : List Segment) (rs : List Record) : Prop :=
  ∃ seg ∈ closed, ∃ r ∈ seg.rescanned rs, ¬ config.Fits r

section Opening

variable (h₁ : c₁.Valid) (h₂ : c₂.Valid)
include h₁ h₂

/-- The rolled segments are all recovered, or the first that is not ends recovery; no file
changes. -/
private theorem recoverAll_other (fs : Fs) {before : List Record} (after : List Record)
    {segs : List Segment} {cs : List (List Record)} {b : ℕ}
    (hok : SegsOk crc c₁ fs.dir b segs cs) (hbefore : before.length = b) (last : ℕ)
    (expected : Option ℕ) (closed : List Segment)
    (hexpected : expected = none ∨ expected = some b) (hbelow : ∀ s ∈ closed, s.baseOffset < b) :
    (Blocked c₂ segs (before ++ (cs.flatten ++ after)) ∧
      ∃ e, (Log.recoverAll crc c₂ (basesOf b cs ++ [last]) expected closed).run fs =
        .error (.err e) fs) ∨
    (¬ Blocked c₂ segs (before ++ (cs.flatten ++ after)) ∧ ∃ segs' expected',
      (Log.recoverAll crc c₂ (basesOf b cs ++ [last]) expected closed).run fs =
        (Log.recoverAll crc c₂ [last] expected' (closed ++ segs')).run fs ∧
      (expected' = none ∨ expected' = some (b + nextBase cs)) ∧
      SegsOk crc (c₁.widen c₂) fs.dir b segs' cs) := by
  induction cs generalizing b segs before expected closed with
  | nil =>
    cases segs with
    | nil =>
      refine .inr ⟨fun ⟨seg, hseg, _⟩ => absurd hseg List.not_mem_nil, [], expected, ?_, ?_, trivial⟩
      · rw [basesOf, List.nil_append, List.append_nil]
      · rwa [nextBase_nil, Nat.add_zero]
    | cons => exact hok.elim
  | cons c cs ih =>
    cases segs with
    | nil => exact hok.elim
    | cons seg segs =>
      obtain ⟨hne, hseg, hrest⟩ := hok
      have hpos := List.length_pos_of_ne_nil hne
      rw [List.flatten_cons, List.append_assoc]
      have hscanned := hseg.rescanned_eq hbefore (cs.flatten ++ after)
      have hnotLast : (basesOf (b + c.length) cs ++ [last]).isEmpty = false := by simp
      by_cases hlarge : ∃ r ∈ c.drop seg.index.scanFrom, ¬ c₂.Fits r
      · obtain ⟨e, hrun⟩ := recover_closed_oversize h₁ hseg hlarge
        refine .inl ⟨⟨seg, List.mem_cons_self, by rwa [hscanned]⟩, e, ?_⟩
        simp only [basesOf, List.cons_append, Log.recoverAll, hnotLast, EStateM.run_bind, hrun]
      · have hfits : ∀ r ∈ c.drop seg.index.scanFrom, c₂.Fits r := fun r hr => by
          by_contra hr'
          exact hlarge ⟨r, hr, hr'⟩
        obtain ⟨seg', hrun, hok'⟩ := recover_closed_other h₁ h₂ hseg hfits
        have hcheck : ∀ fs : Fs, (Log.checkBase b expected).run fs = .ok () fs := by
          rcases hexpected with rfl | rfl <;> simp [Log.checkBase]
        have hinsert : Log.insertClosed seg' closed = closed ++ [seg'] :=
          insertClosed_of_lt fun s hs => hok'.base_eq ▸ hbelow s hs
        have hstep : (Log.recoverAll crc c₂ (basesOf b (c :: cs) ++ [last]) expected closed).run fs =
            (Log.recoverAll crc c₂ (basesOf (b + c.length) cs ++ [last]) (some seg'.nextOffset)
              (closed ++ [seg'])).run fs := by
          simp only [basesOf, List.cons_append, Log.recoverAll, hnotLast, EStateM.run_bind, hrun,
            hcheck, hinsert, Bool.false_eq_true, if_false]
        have hbelow' : ∀ s ∈ closed ++ [seg'], s.baseOffset < b + c.length := by
          intro s hs
          rcases List.mem_append.mp hs with hs | hs
          · have hlt := hbelow s hs
            omega
          · rw [List.mem_singleton.mp hs, hok'.base_eq]
            omega
        have hblocked : Blocked c₂ (seg :: segs) (before ++ (c ++ (cs.flatten ++ after))) ↔
            Blocked c₂ segs (before ++ c ++ (cs.flatten ++ after)) := by
          rw [List.append_assoc]
          constructor
          · rintro ⟨t, ht, r, hr, hr'⟩
            rcases List.mem_cons.mp ht with rfl | ht
            · rw [hscanned] at hr
              exact absurd (hfits r hr) hr'
            · exact ⟨t, ht, r, hr, hr'⟩
          · rintro ⟨t, ht, hr⟩
            exact ⟨t, List.mem_cons_of_mem seg ht, hr⟩
        rw [hstep, hblocked]
        have hlen : (before ++ c).length = b + c.length := by rw [List.length_append, hbefore]
        rcases ih hrest hlen (some seg'.nextOffset) (closed ++ [seg'])
            (.inr (congrArg some hok'.next_eq)) hbelow' with
          ⟨hlarge', e, hrun'⟩ | ⟨hnone, segs', expected', hrun', hexpected', hsegs'⟩
        · exact .inl ⟨hlarge', e, hrun'⟩
        · refine .inr ⟨hnone, seg' :: segs', expected', ?_, ?_, hne, hok', hsegs'⟩
          · rw [hrun', List.append_assoc]
            rfl
          · rwa [nextBase_cons, ← Nat.add_assoc]

/-- What opening under the second configuration makes of a log: nothing, or a log without the
records of the newest segment from the first on that does not fit. -/
private theorem openDir_other {s : Log × Fs} {cs : List (List Record)} {act : List Record}
    (h : LogOk crc c₁ s cs act) (clock : Clock) :
    (Blocked c₂ s.1.closed (cs.flatten ++ act) ∧
      ∃ e, (Log.openDir crc c₂ clock).run ⟨s.2.dir, [], []⟩ =
        .error (.err e) ⟨s.2.dir, [], []⟩) ∨
    (¬ Blocked c₂ s.1.closed (cs.flatten ++ act) ∧
      ∃ log fs, (Log.openDir crc c₂ clock).run ⟨s.2.dir, [], []⟩ = .ok log fs ∧
        log.config = c₂ ∧
        LogOk crc (c₁.widen c₂) ({ log with config := c₁.widen c₂ }, fs) cs (c₂.fitting act)) := by
  have hvalid := c₂.validate_eq_ok_iff.mpr h₂
  have hget : (get : FsM Fs).run ⟨s.2.dir, [], []⟩ = .ok ⟨s.2.dir, [], []⟩ ⟨s.2.dir, [], []⟩ := rfl
  have hbases := sorted_bases h.closed.tiled h.files
  have hne : (basesOf 0 cs ++ [nextBase cs]).isEmpty = false := by simp
  rcases recoverAll_other h₁ h₂ ⟨s.2.dir, [], []⟩ act h.closed (List.length_nil) (nextBase cs) none []
      (.inl rfl) (by simp) with
    ⟨hlarge, e, hrun⟩ | ⟨hnone, segs, expected, hrun, hexpected, hsegs⟩
  · refine .inl ⟨hlarge, e, ?_⟩
    simp only [Log.openDir, hvalid, EStateM.run_bind, hget, hbases, hne, Bool.false_eq_true,
      if_false, hrun]
  · obtain ⟨synced, hfile⟩ := h.active.log_file
    obtain ⟨active, ops, hnewest, hok, honly⟩ := recover_newest_other h₁ h₂
      (show Fs.Healthy ⟨s.2.dir, [], []⟩ from rfl) hfile h.active.numbered h.active.size_le
    have hcheck : ∀ fs : Fs, (Log.checkBase (nextBase cs) expected).run fs = .ok () fs := by
      rcases hexpected with rfl | rfl <;> simp [Log.checkBase]
    have hfiles : ∀ b, ((Fs.advance ⟨s.2.dir, [], []⟩ ops).dir.log b).isSome ↔
        b ∈ basesOf 0 cs ∨ b = nextBase cs := by
      intro b
      by_cases hb : b = nextBase cs
      · obtain ⟨_, hcut⟩ := hok.log_file
        rw [hb, hcut]
        exact ⟨fun _ => .inr rfl, fun _ => rfl⟩
      · rw [honly.log_eq b hb]
        exact h.files b
    refine .inr ⟨hnone, ⟨c₂, segs, active, Log.checkedPred active.nextOffset, 0, clock.instantMs⟩,
      _, ?_, rfl, ⟨rfl, Fs.advance_healthy _ ops, hsegs.frame fun b hb => ?_, hok, hfiles⟩⟩
    · simp only [Log.openDir, hvalid, EStateM.run_bind, EStateM.run_pure, hget, hbases, hne,
        Bool.false_eq_true, if_false, hrun, Log.recoverAll, List.isEmpty_nil, hnewest, hcheck,
        if_true, List.nil_append]
      rfl
    · have hlt := h.closed.tiled.lt_end hb
      exact ⟨honly.log_eq b (by omega), honly.index_eq b (by omega)⟩

end Opening

/-! ## Reading -/

section Reading

variable (h₁ : c₁.Valid) (h₂ : c₂.Valid)
include h₁

variable {fs : Fs} {seg : Segment} {base : ℕ} {chunk pre post : List Record} {r : Record}

include h₂ in
private theorem readFrom_other (h : SegmentOk crc (c₁.widen c₂) fs.dir seg base chunk)
    (hfits : ∀ r ∈ chunk, c₂.Fits r) {k : ℕ} (hk : k < chunk.length) (maxBytes : ℕ) :
    (seg.readFrom crc c₂ (base + k) maxBytes).run fs =
      (seg.readFrom crc (c₁.widen c₂) (base + k) maxBytes).run fs := by
  obtain ⟨j, hj, hstart⟩ := startPos_spec h hk
  have hloop := readLoop_other crc (h₁.widen h₂) h₂ seg (base + k) maxBytes
    (seg.startPos (base + k)) (h.numbered.drop (k := j) (by omega))
    (fun r hr => hfits r (List.mem_of_mem_drop hr)) ((encodeAll crc (chunk.drop j)).length + 1)
    0 [] 0
  rw [LogConfig.widen_widen] at hloop
  have hin : ¬ (base + k < seg.baseOffset ∨ seg.nextOffset ≤ base + k) := by
    rw [h.base_eq, h.next_eq]
    omega
  rw [Segment.readFrom, Segment.readFrom, if_neg hin, if_neg hin]
  dsimp only
  rw [hstart, run_bind_ok (committedFrom_eq h j), run_bind_ok (committedFrom_eq h j), ← hstart,
    hloop]

private theorem readFrom_oversize (h : SegmentOk crc c₁ fs.dir seg base (pre ++ r :: post))
    (hpre : ∀ r ∈ pre, c₂.Fits r) (hr : ¬ c₂.Fits r) (maxBytes : ℕ) :
    ∃ e, (seg.readFrom crc c₂ (base + pre.length) maxBytes).run fs = .error (.err e) fs := by
  have hk : pre.length < (pre ++ r :: post).length := by simp
  obtain ⟨j, hj, hstart⟩ := startPos_spec h hk
  have hdrop : (pre ++ r :: post).drop j = pre.drop j ++ r :: post :=
    List.drop_append_of_le_length hj
  have hnum := h.numbered.drop (k := j) (by omega)
  rw [hdrop] at hnum
  have hcount := length_le_totalLen (pre.drop j)
  obtain ⟨e, hloop⟩ := readLoop_oversize crc h₁ seg (base + pre.length) maxBytes
    (seg.startPos (base + pre.length)) hnum (fun r hr => hpre r (List.mem_of_mem_drop hr)) hr
    (by rw [List.length_drop]; omega)
    (show _ < (encodeAll crc (pre.drop j ++ r :: post)).length + 1 by
      rw [length_encodeAll, totalLen_append]; omega) 0 [] 0 fs
  refine ⟨e, ?_⟩
  rw [Segment.readFrom, if_neg (by rw [h.base_eq, h.next_eq]; omega)]
  dsimp only
  rw [hstart, run_bind_ok (committedFrom_eq h j), hdrop, ← hstart]
  exact hloop

end Reading

/-- The outcome of opening a directory that holds the records `rs`: an error that leaves it as it
is, or a log with all of them. -/
def Preserves (crc : List UInt8 → UInt32) (d : Dir) (rs : List Record) :
    EStateM.Result Failure Fs Log → Prop
  | .ok log fs => log.startOffset = 0 ∧ log.nextOffset = rs.length ∧
      ∀ o < rs.length, ∀ maxBytes, ∃ run,
        (Log.read crc o maxBytes).run (log, fs) = .ok run (log, fs) ∧ run ≠ [] ∧ run <+: rs.drop o
  | .error (.err _) fs => fs.dir = d
  | .error .panic _ => False

/-- Opening a log under another configuration goes well exactly when all its records fit, or one
that does not is behind the last index entry of a rolled segment, where recovery comes across it. -/
theorem open_other_iff {c₁ c₂ : LogConfig} (hc₁ : c₁.validate = .ok ()) (hc₂ : c₂.validate = .ok ())
    {s : Log × Fs} (h : Lived crc c₁ Loses (.up s)) (clock : Clock) :
    ∃ rs, rs.length ≤ 2 ^ 64 ∧ Refines crc c₁ s rs ∧
      (Preserves crc s.2.dir rs ((Log.openDir crc c₂ clock).run ⟨s.2.dir, [], []⟩) ↔
        (∀ r ∈ rs, c₂.Fits r) ∨ Blocked c₂ s.1.closed rs) := by
  have h₁ := c₁.validate_eq_ok_iff.mp hc₁
  have h₂ := c₂.validate_eq_ok_iff.mp hc₂
  have hw := h₁.widen h₂
  obtain ⟨rs, hrep⟩ := h.ok h₁
  refine ⟨rs, hrep.length_le, hrep.refines h₁, ?_⟩
  obtain ⟨cs, act, hok, rfl⟩ := hrep
  rcases openDir_other h₁ h₂ hok clock with
    ⟨hblocked, e, hrun⟩ | ⟨hnone, log, fs, hrun, rfl, hok'⟩
  · rw [hrun]
    exact ⟨fun _ => .inr hblocked, fun _ => rfl⟩
  rw [hrun, or_iff_left hnone]
  have hstart : log.startOffset = 0 := hok'.startOffset_eq
  have hnext : log.nextOffset = (cs.flatten ++ log.config.fitting act).length := hok'.nextOffset_eq
  constructor
  · rintro ⟨-, hall, hreads⟩
    obtain ⟨post, hsplit, -⟩ := log.config.fitting_split act
    have hpost : post = [] := by
      refine List.eq_nil_of_length_eq_zero ?_
      have hlen := congrArg List.length hsplit
      rw [List.length_append] at hlen
      rw [hall, List.length_append, List.length_append] at hnext
      omega
    rw [hpost, List.append_nil] at hsplit
    rw [← hsplit] at hok'
    -- a segment with a record that does not fit cannot be read at the first of them
    intro r hr
    by_contra hlarge
    obtain ⟨i, hi⟩ := List.mem_iff_getElem?.mp hr
    obtain ⟨seg, base, c, k, hserves, hk, rfl⟩ :=
      hok'.serves_offset (List.getElem?_eq_some_iff.mp hi).1
    rw [hserves.getElem?_eq hk] at hi
    obtain ⟨pre, r', post, rfl, hpre, hr'⟩ := LogConfig.first_oversize
      ⟨r, List.mem_of_getElem? hi, hlarge⟩
    have hfirst : pre.length < (pre ++ r' :: post).length := by simp
    obtain ⟨run, hread, -⟩ := hreads _ (hserves.lt_length hfirst) 0
    obtain ⟨e, hfail⟩ := readFrom_oversize hw hserves.ok hpre hr' 0
    have hthere : (Log.read crc (base + pre.length) 0).run (log, fs) = (MethodM.onFs
        (seg.readFrom crc log.config (base + pre.length) 0) : LogM (List Record)).run (log, fs) :=
      hserves.read_with pre.length hfirst log.config fs 0
    rw [hthere, onFs_run, hfail] at hread
    cases hread
  · intro hfits
    have hall : log.config.fitting act = act :=
      List.takeWhile_eq_self_iff.mpr fun r hr => by
        simpa using hfits r (List.mem_append_right _ hr)
    rw [hall] at hok' hnext
    refine ⟨hstart, hnext, fun o ho maxBytes => ?_⟩
    obtain ⟨seg, base, c, k, hserves, hk, rfl⟩ := hok'.serves_offset ho
    obtain ⟨run, hread, hfrom⟩ := readFrom_spec hw hserves.ok hk maxBytes
    have hsame := readFrom_other h₁ h₂ hserves.ok
      (fun r hr => hfits r (hserves.sublist.subset hr)) hk maxBytes
    have hthere : (Log.read crc (base + k) maxBytes).run (log, fs) = (MethodM.onFs
        (seg.readFrom crc log.config (base + k) maxBytes) : LogM (List Record)).run (log, fs) :=
      hserves.read_with k hk log.config fs maxBytes
    refine ⟨run, ?_, hread.nonempty, hread.isPrefix.trans (hserves.drop_isPrefix hk.le)⟩
    rw [hthere, onFs_run]
    dsimp only
    rw [hsame, hfrom]

section Lowered
open Replog.Library

def flushedOps : List LogOp := [tornOp, .flush ⟨0, 0⟩]

def flushedLog : Log × Fs := (runOps (LogOp.step fun _ => 0) flushedOps emptyLog).2

theorem flushedLog_lived : Lived (fun _ => 0) smallConfig Loses (.up flushedLog) :=
  .stepped (.stepped (.opened .new (show (Log.openDir (fun _ => 0) smallConfig ⟨0, 0⟩).run
    ⟨Dir.empty, [], []⟩ = .ok emptyLog.1 emptyLog.2 from rfl)) (by decide) tornOp) (by decide)
    (.flush ⟨0, 0⟩)

theorem Refines.eq_singleton {crc : List UInt8 → UInt32} {config : LogConfig} {s : Log × Fs}
    {rs : List Record} {r : Record} (hlen : rs.length ≤ 2 ^ 64) (h : Refines crc config s rs)
    (hone : s.1.nextOffset = 1) (hread : (Log.read crc 0 0).run s = .ok [r] s) : rs = [r] := by
  obtain ⟨-, -, hnext, hreads⟩ := h [] hlen
  have hlength : rs.length = 1 := hnext.symm.trans hone
  obtain ⟨run, hrun, hinside⟩ := hreads.inside 0 (show 0 < rs.length by omega) 0
  rw [show (runOps (LogOp.step crc) [] s).2 = s from rfl, hread] at hrun
  cases hrun
  exact (List.IsPrefix.eq_of_length (hinside.isPrefix.trans (List.take_prefix _ rs))
    hlength.symm).symm

theorem flushedLog_records {rs : List Record} (hlen : rs.length ≤ 2 ^ 64)
    (h : Refines (fun _ => 0) smallConfig flushedLog rs) : rs = [⟨0, 0, none, [7]⟩] :=
  h.eq_singleton hlen rfl rfl

/-- Indexes get coarser; the record is still there. -/
theorem open_other_interval : Preserves (fun _ => 0) flushedLog.2.dir [⟨0, 0, none, [7]⟩]
    ((Log.openDir (fun _ => 0) { smallConfig with indexIntervalBytes := 4096 } ⟨0, 0⟩).run
      ⟨flushedLog.2.dir, [], []⟩) := by
  obtain ⟨rs, hlen, hrefines, hiff⟩ := open_other_iff rfl
    (show LogConfig.validate { smallConfig with indexIntervalBytes := 4096 } = .ok () from rfl)
    flushedLog_lived ⟨0, 0⟩
  obtain rfl := flushedLog_records hlen hrefines
  exact hiff.mpr (.inl (by decide))

/-- A valid configuration that no record fits. -/
def lowConfig : LogConfig := { smallConfig with maxRecordBytes := 0 }

/-- The limit is lowered: opening succeeds, and the flushed record is gone. -/
theorem open_other_drops : ∃ c₁ c₂ s clock, c₁.validate = .ok () ∧ c₂.validate = .ok () ∧
    Lived (fun _ => 0) c₁ Loses (.up s) ∧ s.1.durableOffset = some 0 ∧
    ∀ rs, rs.length ≤ 2 ^ 64 → Refines (fun _ => 0) c₁ s rs →
      ¬ Preserves (fun _ => 0) s.2.dir rs
        ((Log.openDir (fun _ => 0) c₂ clock).run ⟨s.2.dir, [], []⟩) := by
  refine ⟨smallConfig, lowConfig, flushedLog, ⟨0, 0⟩, rfl, rfl, flushedLog_lived, rfl,
    fun rs hlen hrefines hpreserves => ?_⟩
  obtain rfl := flushedLog_records hlen hrefines
  have hempty : okValue (fun log _ => log.nextOffset) 1
      ((Log.openDir (fun _ => 0) lowConfig ⟨0, 0⟩).run ⟨flushedLog.2.dir, [], []⟩) = 0 := by
    decide +kernel
  cases hrun : (Log.openDir (fun _ => 0) lowConfig ⟨0, 0⟩).run ⟨flushedLog.2.dir, [], []⟩ with
  | ok log fs =>
    rw [hrun] at hempty hpreserves
    have hnext := hpreserves.2.1
    rw [show log.nextOffset = 0 from hempty] at hnext
    cases hnext
  | error e fs =>
    rw [hrun] at hempty
    cases hempty

end Lowered

end Replog.Storage
