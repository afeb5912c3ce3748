import Replog.Storage.BackedSegments

/-!
# A log under changing configurations

A log is opened, worked on and dropped, and then opened again under another configuration. Whatever
comes of it, the code converts no number to a `u32` that does not fit, and each index names the
positions of the records of its segment.
-/

namespace Replog.Storage
open Replog.Library

variable {crc : List UInt8 → UInt32}

/-- The segments of the log are backed, and so are those of the directory. -/
structure Backs (crc : List UInt8 → UInt32) (s : Log × Fs) : Prop where
  config_valid : s.1.config.Valid
  healthy : s.2.Healthy
  dir : s.2.dir.Backed crc
  segments : ∀ seg ∈ s.1.closed ++ [s.1.active], seg.Backed crc s.2.dir

namespace Backs

variable {log log' : Log} {fs fs' : Fs}

theorem active (h : Backs crc (log, fs)) : log.active.Backed crc fs.dir :=
  h.segments _ (List.mem_append_right _ (List.mem_singleton.mpr rfl))

theorem closed (h : Backs crc (log, fs)) {seg : Segment} (hseg : seg ∈ log.closed) :
    seg.Backed crc fs.dir :=
  h.segments _ (List.mem_append_left _ hseg)

theorem stays (h : Backs crc (log, fs)) (hfs : fs'.Healthy) (hd : ∀ b, fs.dir.Stays fs'.dir b) :
    Backs crc (log, fs') :=
  ⟨h.config_valid, hfs, h.dir.stays hd, fun seg hseg => (h.segments seg hseg).stays (hd _)⟩

theorem fewer (h : Backs crc (log, fs)) (hconfig : log'.config = log.config)
    (hclosed : ∀ seg ∈ log'.closed, seg ∈ log.closed) (hactive : log'.active = log.active) :
    Backs crc (log', fs) := by
  refine ⟨hconfig ▸ h.config_valid, h.healthy, h.dir, fun seg hseg => ?_⟩
  rcases List.mem_append.mp hseg with hseg | hseg
  · exact h.closed (hclosed seg hseg)
  · rw [List.mem_singleton.mp hseg, hactive]
    exact h.active

/-- Only the files of one segment change, and the log knows of it. -/
theorem changed (h : Backs crc (log, fs)) {seg : Segment} (hseg : seg.Backed crc fs'.dir)
    (hfs : fs'.Healthy) (hd : ∀ b, b ≠ seg.baseOffset → fs.dir.Stays fs'.dir b)
    (hconfig : log'.config = log.config)
    (hsegs : ∀ t ∈ log'.closed ++ [log'.active],
      t = seg ∨ t ∈ log.closed ++ [log.active] ∧ t.baseOffset ≠ seg.baseOffset) :
    Backs crc (log', fs') := by
  refine ⟨hconfig ▸ h.config_valid, hfs, h.dir.changed hseg hd, fun t ht => ?_⟩
  rcases hsegs t ht with rfl | ⟨hmem, hne⟩
  · exact hseg
  · exact (h.segments t hmem).stays (hd _ hne)

end Backs

section Runs

variable {conv : ℕ → FsM ℕ} (hconv : ConvExact conv)
include hconv

/-! ## Opening -/

omit hconv in
theorem checkBase_ends (base : ℕ) (expected : Option ℕ) (fs : Fs) :
    Ends (fun _ fs' => fs' = fs) (fun _ fs' => fs' = fs)
      ((Log.checkBase base expected).run fs) := by
  cases expected with
  | none => exact rfl
  | some e =>
    rw [Log.checkBase]
    split_ifs <;> exact rfl

omit hconv in
theorem mem_insertClosed {seg t : Segment} {closed : List Segment}
    (h : t ∈ Log.insertClosed seg closed) : t = seg ∨ t ∈ closed := by
  induction closed with
  | nil => exact .inl (List.mem_singleton.mp h)
  | cons s rest ih =>
    rw [Log.insertClosed] at h
    split_ifs at h
    · exact List.mem_cons.mp h
    · exact (List.mem_cons.mp h).imp_right (List.mem_cons_of_mem s)
    · rcases List.mem_cons.mp h with rfl | h
      · exact .inr List.mem_cons_self
      · exact (ih h).imp_right (List.mem_cons_of_mem s)

private theorem recoverAll_agree {config : LogConfig} (hc : config.Valid) {bases : List ℕ}
    (expected : Option ℕ) {closed : List Segment} {fs : Fs} (hsorted : bases.Pairwise (· < ·))
    (hfs : fs.Healthy) (hdir : fs.dir.Backed crc) (hfiles : ∀ b ∈ bases, (fs.dir.log b).isSome)
    (hclosed : ∀ seg ∈ closed, seg.Backed crc fs.dir ∧ ∀ b ∈ bases, seg.baseOffset ≠ b) :
    Agree (fun r fs' => fs'.Healthy ∧ fs'.dir.Backed crc ∧
        ∀ seg ∈ r.1 ++ r.2.toList, seg.Backed crc fs'.dir)
      (fun _ fs' => fs'.dir.Backed crc)
      ((Log.recoverAllVia conv crc config bases expected closed).run fs)
      ((Log.recoverAll crc config bases expected closed).run fs) := by
  induction bases generalizing expected closed with
  | nil =>
    refine .refl ⟨hfs, hdir, fun seg hseg => (hclosed seg ?_).1⟩
    simpa using hseg
  | cons base rest ih =>
    obtain ⟨hfirst, hrest⟩ := List.pairwise_cons.mp hsorted
    obtain ⟨file, hfile⟩ := Option.isSome_iff_exists.mp (hfiles base List.mem_cons_self)
    have hvia := fun truncate => recoverVia_run crc config hconv base truncate
      fun f hf => hdir.length_lt hf
    rw [Log.recoverAllVia, Log.recoverAll]
    cases rest with
    | nil =>
      obtain ⟨old, chunk, hok, -⟩ := hdir.ok hfile
      obtain ⟨synced, hbytes⟩ := hok.log_file
      obtain ⟨seg, ops, hrun, rfl, hseg, hstays⟩ := recover_newest_backed hc hfs hbytes rfl
        hok.numbered hok.size_le
      simp only [List.isEmpty_nil, if_true]
      refine Agree.bind (fun seg' fs' => seg' = seg ∧ fs' = fs.advance ops)
        ⟨hvia true, by rw [hrun]; exact ⟨rfl, rfl⟩⟩ ?_
      rintro _ _ ⟨rfl, rfl⟩
      have hdir' := hdir.changed hseg hstays
      refine Agree.bind_left _ ((checkBase_ends _ expected _).imp_bad
        fun _ fs' h => h ▸ hdir') ?_
      rintro _ _ rfl
      refine .refl ⟨Fs.advance_healthy _ _, hdir', fun t ht => ?_⟩
      rcases List.mem_append.mp ht with ht | ht
      · obtain ⟨hback, hne⟩ := hclosed t ht
        exact hback.stays (hstays _ (hne _ List.mem_cons_self))
      · rw [show t = _ from by simpa using ht]
        exact hseg
    | cons next rest =>
      simp only [List.isEmpty_cons, Bool.false_eq_true, if_false]
      refine Agree.bind (fun seg fs' => fs' = fs ∧ seg.baseOffset = base ∧ seg.Backed crc fs.dir)
        ⟨hvia false, (recover_closed_backed hc hdir hfile).imp_bad
          fun _ fs' h => h ▸ hdir⟩ ?_
      rintro seg _ ⟨rfl, hbase, hseg⟩
      refine Agree.bind_left _ ((checkBase_ends base expected _).imp_bad
        fun _ fs' h => h ▸ hdir) ?_
      rintro _ _ rfl
      refine ih (some seg.nextOffset) hrest
        (fun b hb => hfiles b (List.mem_cons_of_mem base hb)) fun t ht => ?_
      rcases mem_insertClosed ht with rfl | ht
      · exact ⟨hseg, fun b hb => hbase ▸ (hfirst b hb).ne⟩
      · exact ⟨(hclosed t ht).1, fun b hb => (hclosed t ht).2 b (List.mem_cons_of_mem base hb)⟩

theorem openDir_agree (config : LogConfig) (clock : Clock) {fs : Fs} (hfs : fs.Healthy)
    (hdir : fs.dir.Backed crc) :
    Agree (fun log fs' => Backs crc (log, fs')) (fun _ fs' => fs'.dir.Backed crc)
      ((Log.openDirVia conv crc config clock).run fs) ((Log.openDir crc config clock).run fs) := by
  rw [Log.openDirVia, Log.openDir]
  cases hvalid : config.validate with
  | error e =>
    refine Agree.bind_left (fun _ _ => False) ?_ fun _ _ h => h.elim
    exact hdir
  | ok _ =>
    have hc := config.validate_eq_ok_iff.mp hvalid
    dsimp only
    refine Agree.bind_left (fun fs₁ fs₂ => fs₁ = fs ∧ fs₂ = fs) ⟨rfl, rfl⟩ ?_
    rintro _ _ ⟨rfl, rfl⟩
    rename_i fs
    have hsorted : (fs.dir.logs.keys.insertionSort (· ≤ ·)).Pairwise (· < ·) :=
      ((List.pairwise_insertionSort (· ≤ ·) fs.dir.logs.keys).and
        ((List.perm_insertionSort _ _).nodup_iff.mpr fs.dir.logs.keys_nodup)).imp fun h =>
          lt_of_le_of_ne h.1 h.2
    have hfiles : ∀ b ∈ fs.dir.logs.keys.insertionSort (· ≤ ·), (fs.dir.log b).isSome := by
      intro b hb
      rw [(List.perm_insertionSort (· ≤ ·) _).mem_iff] at hb
      exact (fs.dir.mem_keys_logs b).mp hb
    split_ifs
    · refine Agree.bind_left _ ((create_backed crc hfs 0).imp_bad
        fun _ fs' h => h ▸ hdir) ?_
      rintro seg fs' ⟨hfs', hbase, -, -, hseg, hstays⟩
      refine .refl ⟨hc, hfs', hdir.changed hseg (hbase ▸ hstays), fun t ht => ?_⟩
      rw [show t = seg from by simpa using ht]
      exact hseg
    · refine Agree.bind _ (recoverAll_agree hconv hc none hsorted hfs hdir hfiles
        fun t ht => absurd ht List.not_mem_nil) ?_
      rintro ⟨closed, active⟩ fs' ⟨hfs', hdir', hsegs⟩
      cases active with
      | none => exact .refl hdir'
      | some active => exact .refl ⟨hc, hfs', hdir', hsegs⟩

/-! ## Operations -/

omit hconv in
theorem flush_backs (clock : Clock) {s : Log × Fs} (h : Backs crc s) :
    ∃ info s', (Log.flush clock).run s = .ok info s' ∧ Backs crc s' ∧
      s'.1.closed = s.1.closed ∧ s'.1.active = s.1.active := by
  refine ⟨_, _, flush_run h.healthy clock, ?_, rfl, rfl⟩
  have hstays : ∀ b, s.2.dir.Stays (s.2.advance [.fsyncLog s.1.active.baseOffset]).dir b := by
    intro b
    refine .inr ⟨?_, rfl⟩
    by_cases hb : b = s.1.active.baseOffset
    · subst hb
      simp [Dir.bytes, Function.comp_def]
    · simp [Dir.bytes, hb]
  exact (h.stays (Fs.advance_healthy _ _) hstays).fewer rfl (fun _ ht => ht) rfl

omit hconv in
private theorem roll_backs (clock : Clock) {s : Log × Fs} (h : Backs crc s) (htidy : s.1.Tidy)
    (hsize : 0 < s.1.active.size) :
    Ends (fun _ s' => Backs crc s' ∧ s'.1.active.nextOffset = s.1.active.nextOffset ∧
        s'.1.active.size = 0)
      (fun _ s' => Backs crc s') ((Log.roll clock).run s) := by
  obtain ⟨info, ⟨log, fs⟩, hflush, hbacks, hclosed, hactive⟩ := flush_backs clock h
  dsimp only at hclosed hactive
  have hnext := htidy.counts.base_lt hsize
  rw [Log.roll, run_bind_ok hflush, EStateM.run_bind, MethodM.run_self]
  dsimp only
  rw [hactive]
  refine Ends.bind _ ((onFs_ends (create_backed crc hbacks.healthy _)).imp_bad
    fun _ s' h' => ?_) ?_
  · rw [show s' = (log, fs) from Prod.ext h'.1 h'.2]
    exact hbacks
  rintro seg ⟨_, fs'⟩ ⟨rfl, hfs', hbase, hstart, hempty, hseg, hstays⟩
  refine ⟨hbacks.changed hseg hfs' (hbase ▸ hstays) rfl fun t ht => ?_,
    hstart, hempty⟩
  rcases List.mem_append.mp ht with ht | ht
  · right
    rcases mem_insertClosed ht with rfl | ht
    · refine ⟨by simp, ?_⟩
      rw [hbase, hactive]
      exact hnext.ne
    · refine ⟨List.mem_append_left _ ht, ?_⟩
      have hlt := (htidy.closed_before (hclosed ▸ ht)).1
      rw [hbase]
      exact (hlt.trans hnext).ne
  · exact .inl (List.mem_singleton.mp ht)

/-- The record is the next one of the segment, which has room for it. -/
theorem writeRecord_agree (clock : Clock) {s : Log × Fs} (h : Backs crc s) (htidy : s.1.Tidy)
    {r : Record} (hoffset : r.offset = s.1.active.nextOffset) (hroom : r.offset < 2 ^ 64)
    (hsize : s.1.active.size + r.encodedLen ≤ 2 ^ 30) :
    Agree (fun _ s' => Backs crc s') (fun _ s' => Backs crc s')
      ((Log.writeRecordVia conv crc clock r).run s) ((Log.writeRecord crc clock r).run s) := by
  obtain ⟨log, fs⟩ := s
  dsimp only at htidy hoffset hsize
  have hsmall := h.active.small
  have hrun := @append_run crc log.config fs h.healthy log.active r
  have hvia := segment_appendVia_run crc log.config hconv hsmall
    (show r.offset < log.active.baseOffset + 2 ^ 32 by
      obtain ⟨chunk, hholds, -⟩ := h.active
      have hlen := length_le_totalLen chunk
      have hle := hholds.size_le
      rw [hoffset, hholds.next_eq]
      omega) fs
  let written := (log.active.appended log.config r,
    fs.advance (appendOps crc log.config log.active r))
  have hput : ∀ {x : MethodM Segment ℕ}, x.run (log.active, fs) = .ok r.encodedLen written →
      (MethodM.onField Log.active (fun seg log => { log with active := seg }) x).run (log, fs) =
        .ok r.encodedLen ({ log with active := written.1 }, written.2) :=
    fun hx => MethodM.run_onField hx
  have hgrown : Backs crc ({ log with active := written.1 }, written.2) := by
    refine h.changed (append_backed h.active hoffset hroom hsize) (Fs.advance_healthy _ _)
      (fun b hb => ?_) rfl fun t ht => ?_
    · exact (onlySegment_append crc log.config fs log.active r).stays hb
    · rcases List.mem_append.mp ht with ht | ht
      · exact .inr ⟨List.mem_append_left _ ht, (htidy.closed_before ht).1.ne⟩
      · exact .inl (List.mem_singleton.mp ht)
  rw [Log.writeRecordVia, Log.writeRecord, EStateM.run_bind, EStateM.run_bind, MethodM.run_self]
  dsimp only
  rw [run_bind_ok (hput (hvia.trans hrun)), run_bind_ok (hput hrun)]
  have hflush : Keeps (Backs crc) (Log.flush clock) := by
    intro s hs
    obtain ⟨info, s', hrun, hs', -, -⟩ := flush_backs clock hs
    rw [hrun]
    exact hs'
  have hend : Keeps (Backs crc) (do
      return (⟨r.offset, (← MethodM.self).durableOffset⟩ : AppendInfo) : LogM AppendInfo) :=
    Keeps.bind self_keeps fun _ => Keeps.pure _
  refine .refl (Keeps.bind (fun s hs => ?_) (fun _ => Keeps.bind self_keeps fun _ =>
    Keeps.ite (Keeps.bind hflush fun _ => hend) hend) _ hgrown)
  exact hs.fewer rfl (fun _ ht => ht) rfl

/-- A log rolls before its active segment gets too large. -/
theorem appendRecord_agree (clock : Clock) {s : Log × Fs} (h : Backs crc s) (htidy : s.1.Tidy)
    {r : Record} (hoffset : r.offset = s.1.active.nextOffset) (hroom : r.offset < 2 ^ 64) :
    Agree (fun _ s' => Backs crc s') (fun _ s' => Backs crc s')
      ((Log.appendRecordVia conv crc clock r).run s) ((Log.appendRecord crc clock r).run s) := by
  have hsegment := h.config_valid.segment_le
  have hrecord := h.config_valid.record_le
  rw [Log.appendRecordVia, Log.appendRecord, EStateM.run_bind, EStateM.run_bind, MethodM.run_self]
  dsimp only
  split_ifs with hlarge hroll hroll
  · exact .refl h
  · exact .refl h
  · have hsize : 0 < s.1.active.size := by
      rw [Log.rollDue, Bool.and_eq_true, decide_eq_true_eq] at hroll
      exact hroll.1
    refine Agree.bind_left _ (((roll_backs clock h htidy hsize).and
      (roll_tidy clock htidy hsize)).imp_bad fun _ _ h' => h'.1) ?_
    rintro _ s' ⟨⟨hbacks, hnext, hempty⟩, htidy'⟩
    exact writeRecord_agree hconv clock hbacks htidy' (hoffset.trans hnext.symm) hroom
      (by omega)
  · refine writeRecord_agree hconv clock h htidy hoffset hroom ?_
    simp only [Log.rollDue, Bool.and_eq_true, decide_eq_true_eq, not_and, not_lt] at hroll
    omega

private theorem append_agree (clock : Clock) (key : Option (List UInt8)) (value : List UInt8)
    {s : Log × Fs} (h : Backs crc s) (htidy : s.1.Tidy) (hroom : s.1.nextOffset < 2 ^ 64) :
    Agree (fun _ s' => Backs crc s') (fun _ s' => Backs crc s')
      ((Log.appendVia conv crc clock key value).run s)
      ((Log.append crc clock key value).run s) := by
  rw [Log.appendVia, Log.append, EStateM.run_bind, EStateM.run_bind, MethodM.run_self]
  exact appendRecord_agree hconv clock h htidy rfl hroom

private theorem appendReplicated_agree (clock : Clock) (r : Record) {s : Log × Fs} (h : Backs crc s)
    (htidy : s.1.Tidy) (hroom : s.1.nextOffset < 2 ^ 64) :
    Agree (fun _ s' => Backs crc s') (fun _ s' => Backs crc s')
      ((Log.appendReplicatedVia conv crc clock r).run s)
      ((Log.appendReplicated crc clock r).run s) := by
  rw [Log.appendReplicatedVia, Log.appendReplicated, EStateM.run_bind, EStateM.run_bind,
    MethodM.run_self]
  dsimp only
  split_ifs with hgap
  · exact .refl h
  · have hoffset : r.offset = s.1.active.nextOffset := not_ne_iff.mp hgap
    exact appendRecord_agree hconv clock h htidy hoffset (hoffset.trans_lt hroom)

omit hconv in
/-- Removing a log file leaves no bytes there, and the other files as they are. -/
theorem removeLog_backs {log : Log} {fs : Fs} (h : Backs crc (log, fs)) (base : ℕ) :
    Ends (fun _ s' => s'.1 = log ∧ Backs crc s' ∧ s'.2.dir.log base = none)
      (fun _ s' => s'.1 = log ∧ Backs crc s')
      ((MethodM.onFs (FsM.removeLog base) : LogM Unit).run (log, fs)) := by
  rw [onFs_run]
  cases hfile : fs.dir.log base with
  | none =>
    have hrun : (FsM.removeLog base).run fs = .error (.err .io) fs := by
      simp [FsM.removeLog, EStateM.run, hfile]
    dsimp only
    rw [hrun]
    exact ⟨rfl, h⟩
  | some file =>
    have hrun : (FsM.removeLog base).run fs = .ok () (fs.advance [.removeLog base]) := by
      have hperform := FsM.run_perform h.healthy (.removeLog base)
      simpa [FsM.removeLog, EStateM.run, hfile] using hperform
    dsimp only
    rw [hrun]
    refine ⟨rfl, h.stays (Fs.advance_healthy _ _) fun b => ?_, by simp⟩
    by_cases hb : b = base
    · exact .inl (by simp [Dir.bytes, hb])
    · exact .of_eq (by simp [hb]) rfl

omit hconv in
theorem removeIndex_backs {log : Log} {fs : Fs} (h : Backs crc (log, fs)) {base : ℕ}
    (hgone : fs.dir.log base = none) :
    Ends (fun _ s' => s'.1 = log ∧ Backs crc s') (fun _ s' => s'.1 = log ∧ Backs crc s')
      ((MethodM.onFs (FsM.removeIndex base) : LogM Unit).run (log, fs)) := by
  rw [onFs_run]
  dsimp only
  cases hfile : fs.dir.index base with
  | none =>
    have hrun : (FsM.removeIndex base).run fs = .error (.err .io) fs := by
      simp [FsM.removeIndex, EStateM.run, hfile]
    rw [hrun]
    exact ⟨rfl, h⟩
  | some bytes =>
    have hrun : (FsM.removeIndex base).run fs = .ok () (fs.advance [.removeIndex base]) := by
      have hperform := FsM.run_perform h.healthy (.removeIndex base)
      simpa [FsM.removeIndex, EStateM.run, hfile] using hperform
    rw [hrun]
    refine ⟨rfl, h.stays (Fs.advance_healthy _ _) fun b => ?_⟩
    by_cases hb : b = base
    · exact .inl (by simp [Dir.bytes, hb, hgone])
    · exact .of_eq rfl (by simp [hb])

omit hconv in
private theorem removeDoomed_backs (doomed : List ℕ) : Keeps (Backs crc) (Log.removeDoomed doomed) := by
  induction doomed with
  | nil => exact Keeps.pure ()
  | cons base rest ih =>
    intro s h
    have hfewer : Backs crc ({ s.1 with closed := Log.removeClosed base s.1.closed }, s.2) :=
      h.fewer rfl (fun t ht => List.mem_of_mem_filter ht) rfl
    rw [Log.removeDoomed, EStateM.run_bind, MethodM.run_modifySelf]
    refine Ends.bind _ ((removeLog_backs hfewer base).imp_bad fun _ _ h' => h'.2) ?_
    rintro _ ⟨_, fs⟩ ⟨rfl, hbacks, hgone⟩
    refine Ends.bind _ ((removeIndex_backs hbacks hgone).imp_bad
      fun _ _ h' => h'.2) ?_
    rintro _ s' ⟨-, hbacks'⟩
    exact ih s' hbacks'

/-- The target is cut at one of its records, so it is recovered with those before it. -/
theorem rebuildAt_agree {s : Log × Fs} (h : Backs crc s) {target : Segment}
    (htarget : target ∈ s.1.closed ++ [s.1.active]) (n : ℕ) :
    Agree (fun _ s' => Backs crc s') (fun _ s' => Backs crc s')
      ((Log.rebuildAtVia conv crc target n).run s) ((Log.rebuildAt crc target n).run s) := by
  obtain ⟨log, fs⟩ := s
  obtain ⟨chunk, hholds, hstores⟩ := h.segments target htarget
  rw [Log.rebuildAtVia, Log.rebuildAt, EStateM.run_bind, EStateM.run_bind, MethodM.run_self]
  dsimp only
  rw [positionOfVia_eq crc log.config hconv hholds.small]
  have hsame : ∀ (e : Failure) (s' : Log × Fs), s'.1 = log ∧ s'.2 = fs → Backs crc s' := by
    rintro _ ⟨_, _⟩ ⟨rfl, rfl⟩
    exact h
  refine Agree.bind_left _ ((onFs_ends (positionOf_ends hholds hstores n)).imp_bad
    hsame) ?_
  rintro position ⟨_, _⟩ ⟨rfl, rfl, j, rfl⟩
  refine Agree.bind_left _ ((onFs_ends (readLog_ends target.baseOffset _)).imp_bad
    hsame) ?_
  rintro file ⟨_, _⟩ ⟨rfl, rfl, hfile⟩
  rename_i log fs
  obtain ⟨synced, hbytes⟩ := (hholds.ok hstores hfile).log_file
  have hperform : ∀ {fs : Fs} (op : FsOp), fs.Healthy →
      Ends (fun _ s' => s' = (log, fs.advance [op])) (fun _ s' => Backs crc s')
        ((MethodM.onFs (FsM.perform op) : LogM Unit).run (log, fs)) := by
    intro fs op hfs
    rw [MethodM.run_onFs (FsM.run_perform hfs op)]
    exact rfl
  refine Agree.bind_left _ (hperform (.setLen target.baseOffset (totalLen (chunk.take j)))
    h.healthy) ?_
  rintro _ _ rfl
  refine Agree.bind_left _ (hperform (.fsyncLog target.baseOffset) (Fs.advance_healthy _ _)) ?_
  rintro _ _ rfl
  rw [Fs.advance_advance]
  set cut := fs.advance ([.setLen target.baseOffset (totalLen (chunk.take j))] ++
    [.fsyncLog target.baseOffset]) with hcut
  have hstays : ∀ b, b ≠ target.baseOffset → fs.dir.Stays cut.dir b :=
    fun b hb => .of_eq (by simp [hcut, hb]) rfl
  have hlog : cut.dir.log target.baseOffset =
      some ⟨encodeAll crc (chunk.take j), (encodeAll crc (chunk.take j)).length⟩ := by
    simp [hcut, hbytes, take_encodeAll]
  have hlen := (totalLen_take_le chunk j).trans hholds.size_le
  obtain ⟨seg, ops, hrun, hbase, hseg, hstays'⟩ := recover_newest_backed h.config_valid
    (show cut.Healthy from Fs.advance_healthy _ _) hlog rfl (hholds.numbered.take j) hlen
  have hvia : (Segment.recoverVia conv crc log.config target.baseOffset true).run cut =
      (Segment.recover crc log.config target.baseOffset true).run cut := by
    refine recoverVia_run crc log.config hconv target.baseOffset true fun f hf => ?_
    rw [← Option.some.inj (hlog.symm.trans hf), length_encodeAll]
    omega
  have hrebuilt : ∀ {x : FsM Segment}, x.run cut = .ok seg (cut.advance ops) →
      (MethodM.onFs x : LogM Segment).run (log, cut) = .ok seg (log, cut.advance ops) :=
    MethodM.run_onFs
  rw [run_bind_ok (hrebuilt (hvia.trans hrun)), run_bind_ok (hrebuilt hrun)]
  refine .refl (h.changed hseg (Fs.advance_healthy _ _)
    (fun b hb => (hstays b (hbase ▸ hb)).trans (hstays' b (hbase ▸ hb))) rfl fun t ht => ?_)
  rcases List.mem_append.mp ht with ht | ht
  · obtain ⟨hmem, hne⟩ := List.mem_filter.mp ht
    exact .inr ⟨List.mem_append_left _ hmem, by simpa [hbase] using hne⟩
  · exact .inl (List.mem_singleton.mp ht)

private theorem cutTo_agree {s : Log × Fs} (h : Backs crc s) (htidy : s.1.Tidy) (targetBase n : ℕ) :
    Agree (fun _ s' => Backs crc s') (fun _ s' => Backs crc s')
      ((Log.cutToVia conv crc targetBase n).run s) ((Log.cutTo crc targetBase n).run s) := by
  rw [Log.cutToVia, Log.cutTo, EStateM.run_bind, EStateM.run_bind, MethodM.run_self]
  dsimp only
  refine Agree.bind_left _ (((removeDoomed_backs _ s h).and (removeDoomed_tidy _ s htidy)).imp_bad fun _ _ h' => h'.1) ?_
  rintro _ ⟨log, fs⟩ ⟨hbacks, -, hactive, -⟩
  dsimp only at hactive
  rw [← hactive]
  split_ifs with htarget
  · exact rebuildAt_agree hconv hbacks (List.mem_append_right _ (List.mem_singleton.mpr rfl)) n
  refine Agree.bind_left _ ((removeLog_backs hbacks log.active.baseOffset).imp_bad
    fun _ _ h' => h'.2) ?_
  rintro _ ⟨_, fs₁⟩ ⟨rfl, hbacks₁, hgone⟩
  refine Agree.bind_left _ ((removeIndex_backs hbacks₁ hgone).imp_bad
    fun _ _ h' => h'.2) ?_
  rintro _ ⟨log, fs₂⟩ ⟨rfl, hbacks₂⟩
  rw [EStateM.run_bind, EStateM.run_bind, MethodM.run_self]
  dsimp only
  cases hfind : log.closed.find? (·.baseOffset = targetBase) with
  | none => exact .refl hbacks₂
  | some target =>
    exact rebuildAt_agree hconv hbacks₂
      (List.mem_append_left _ (List.mem_of_find?_eq_some hfind)) n

private theorem truncateSuffix_agree (n : ℕ) {s : Log × Fs} (h : Backs crc s) (htidy : s.1.Tidy) :
    Agree (fun _ s' => Backs crc s') (fun _ s' => Backs crc s')
      ((Log.truncateSuffixVia conv crc n).run s) ((Log.truncateSuffix crc n).run s) := by
  rw [Log.truncateSuffixVia, Log.truncateSuffix, EStateM.run_bind, EStateM.run_bind,
    MethodM.run_self]
  dsimp only
  split_ifs
  · exact .refl h
  · exact .refl h
  · cases s.1.truncateTarget n with
    | none => exact .refl h
    | some targetBase => exact cutTo_agree hconv h htidy targetBase n

private theorem readVia_run (offset maxBytes : ℕ) {s : Log × Fs} (h : Backs crc s) :
    (Log.readVia conv crc offset maxBytes).run s = (Log.read crc offset maxBytes).run s := by
  rw [Log.readVia, Log.read, EStateM.run_bind, EStateM.run_bind, MethodM.run_self]
  dsimp only
  split_ifs
  · rfl
  · rfl
  · rw [readFromVia_eq crc _ hconv h.active.small]
  · cases hfind : Log.lastClosed (· ≤ offset) s.1.closed with
    | none => rfl
    | some seg =>
      have hmem : seg ∈ s.1.closed := List.mem_reverse.mp (List.mem_of_find?_eq_some hfind)
      dsimp only
      rw [readFromVia_eq crc _ hconv (h.closed hmem).small]

/-- The operations convert nothing that does not fit, and keep the segments backed. After a
reopening that fails the old log is of no use any more. -/
theorem execVia_run (op : LogOp) {s : Log × Fs} (h : Backs crc s) (htidy : s.1.Tidy)
    (hroom : s.1.nextOffset < 2 ^ 64) :
    (op.execVia conv crc).run s = (op.exec crc).run s ∧
      ((∀ clock, op ≠ .reopen clock) →
        Ends (fun _ s' => Backs crc s') (fun _ s' => Backs crc s') ((op.exec crc).run s)) := by
  have hreply : ∀ (reply : Option ℕ) s', Backs crc s' →
      Agree (fun _ s' => Backs crc s') (fun _ s' => Backs crc s')
        ((pure reply : LogM (Option ℕ)).run s') ((pure reply : LogM (Option ℕ)).run s') :=
    fun _ _ hs' => .refl hs'
  cases op with
  | append clock key value =>
    have hagree := Agree.bind _ (append_agree hconv clock key value h htidy hroom)
      fun info s' hs' => hreply (some info.offset) s' hs'
    exact ⟨hagree.1, fun _ => hagree.2⟩
  | appendReplicated clock r =>
    have hagree := Agree.bind _ (appendReplicated_agree hconv clock r h htidy hroom)
      fun info s' hs' => hreply (some info.offset) s' hs'
    exact ⟨hagree.1, fun _ => hagree.2⟩
  | flush clock =>
    obtain ⟨info, s', hrun, hs', -⟩ := flush_backs clock h
    refine ⟨rfl, fun _ => ?_⟩
    rw [LogOp.exec, run_bind_ok hrun]
    exact hs'
  | truncateSuffix n =>
    have hagree := Agree.bind _ (truncateSuffix_agree hconv n h htidy)
      fun _ s' hs' => hreply none s' hs'
    exact ⟨hagree.1, fun _ => hagree.2⟩
  | reopen clock =>
    obtain ⟨log, fs⟩ := s
    refine ⟨?_, fun hop => absurd rfl (hop clock)⟩
    rw [LogOp.execVia, LogOp.exec, EStateM.run_bind, EStateM.run_bind, MethodM.run_self]
    dsimp only
    rw [EStateM.run_bind, EStateM.run_bind, onFs_run, onFs_run,
      (openDir_agree hconv log.config clock h.healthy h.dir).1]

end Runs

/-! ## Runs -/

/-- The logs that come about where no file operation fails and each opening brings a configuration
of its own. A log is dropped before its directory is opened again. -/
inductive Reconfigured (crc : List UInt8 → UInt32) : LogPhase → Prop
  | new : Reconfigured crc (.down .empty)
  | opened {d : Dir} {config : LogConfig} {clock : Clock} {log : Log} {fs : Fs}
      (h : Reconfigured crc (.down d))
      (hrun : (Log.openDir crc config clock).run ⟨d, [], []⟩ = .ok log fs) :
      Reconfigured crc (.up (log, fs))
  | refused {d : Dir} {config : LogConfig} {clock : Clock} {e : Failure} {fs : Fs}
      (h : Reconfigured crc (.down d))
      (hrun : (Log.openDir crc config clock).run ⟨d, [], []⟩ = .error e fs) :
      Reconfigured crc (.down fs.dir)
  | stepped {s : Log × Fs} (h : Reconfigured crc (.up s)) (hroom : s.1.nextOffset < 2 ^ 64)
      (op : LogOp) (hop : ∀ clock, op ≠ .reopen clock) : Reconfigured crc (.up (op.step crc s).2)
  | dropped {s : Log × Fs} (h : Reconfigured crc (.up s)) : Reconfigured crc (.down s.2.dir)

/-- What holds of a log at any time, and of its directory. -/
def LogPhase.Backed (crc : List UInt8 → UInt32) : LogPhase → Prop
  | .up s => Backs crc s ∧ s.1.Tidy
  | .down d => d.Backed crc

theorem Reconfigured.backed {phase : LogPhase} (h : Reconfigured crc phase) :
    phase.Backed crc := by
  induction h with
  | new => exact fun b hb => absurd rfl hb
  | @opened d config clock log fs _ hrun ih =>
    have hends := (openDir_agree castU32_exact config clock
      (show Fs.Healthy ⟨d, [], []⟩ from rfl) ih).2
    have htidy := openDir_tidy crc config clock ⟨d, [], []⟩
    rw [hrun] at hends htidy
    exact ⟨hends, htidy⟩
  | @refused d config clock e fs _ hrun ih =>
    have hends := (openDir_agree castU32_exact config clock
      (show Fs.Healthy ⟨d, [], []⟩ from rfl) ih).2
    rw [hrun] at hends
    exact hends
  | @stepped s _ hroom op hop ih =>
    obtain ⟨hbacks, htidy⟩ := ih
    have hends := ((execVia_run castU32_exact op hbacks htidy hroom).2 hop).and
      (op.exec_tidy crc s htidy)
    rw [LogOp.step]
    cases hrun : (op.exec crc).run s with
    | ok reply s' =>
      rw [hrun] at hends
      exact hends
    | error e s' =>
      rw [hrun] at hends
      exact hends
  | dropped _ ih => exact ih.1.dir

/-- Entries that go up, each of which names the position of the record with its relative offset. -/
structure Names (base : ℕ) (chunk : List Record) (entries : List (ℕ × ℕ)) : Prop where
  ascending : entries.Pairwise fun a b => a.1 < b.1 ∧ a.2 < b.2
  position : ∀ e ∈ entries, ∃ r, chunk[e.1]? = some r ∧ r.offset = base + e.1 ∧
    e.2 = totalLen (chunk.take e.1)

theorem Segment.Holds.names {seg : Segment} {chunk : List Record} (h : seg.Holds chunk) :
    Names seg.baseOffset chunk seg.index.entries := by
  refine ⟨h.index_ok.both_ascending, fun e he => ?_⟩
  have hr : chunk[e.1]? = some _ := List.getElem?_eq_getElem (h.behind e he)
  exact ⟨_, hr, h.numbered.offset_eq hr, (h.index_ok.position e he).2⟩

/-- Each log file has an index file, which names the positions in it. -/
def Dir.Indexed (crc : List UInt8 → UInt32) (d : Dir) : Prop :=
  ∀ b file, d.log b = some file → ∃ chunk entries, file.bytes = encodeAll crc chunk ∧
    d.index b = some (SparseIndex.encodeEntries entries) ∧ Names b chunk entries

/-- The index of a segment names the positions of the records that the segment counts, and that its
file holds. -/
def Segment.Indexed (crc : List UInt8 → UInt32) (d : Dir) (seg : Segment) : Prop :=
  ∃ chunk, seg.nextOffset = seg.baseOffset + chunk.length ∧ seg.size = totalLen chunk ∧
    Names seg.baseOffset chunk seg.index.entries ∧
    d.Stores crc seg.baseOffset chunk seg.index.entries

theorem Dir.Backed.indexed {d : Dir} (h : d.Backed crc) : d.Indexed crc := by
  intro b file hfile
  have hbytes : d.bytes b = some file.bytes := by rw [Dir.bytes, hfile, Option.map_some]
  obtain ⟨seg, rfl, chunk, hholds, hstores⟩ := h b (hbytes ▸ Option.some_ne_none _)
  rcases hstores with hgone | ⟨hsame, hindex⟩
  · rw [hbytes] at hgone
    cases hgone
  · exact ⟨chunk, seg.index.entries, Option.some.inj (hbytes.symm.trans hsame), hindex,
      hholds.names⟩

/-- All indexes, of the open log and in the directory. -/
def LogPhase.Indexed (crc : List UInt8 → UInt32) : LogPhase → Prop
  | .up s => s.2.dir.Indexed crc ∧
      ∀ seg ∈ s.1.closed ++ [s.1.active], seg.Indexed crc s.2.dir
  | .down d => d.Indexed crc

/-- Nothing that comes next depends on what becomes of a number that does not fit a `u32`. -/
def LogPhase.Converts (crc : List UInt8 → UInt32) : LogPhase → Prop
  | .up s => ∀ conv, ConvExact conv →
      (s.1.nextOffset < 2 ^ 64 → ∀ op : LogOp,
        (op.execVia conv crc).run s = (op.exec crc).run s) ∧
      ∀ offset maxBytes,
        (Log.readVia conv crc offset maxBytes).run s = (Log.read crc offset maxBytes).run s
  | .down d => ∀ conv, ConvExact conv → ∀ config clock,
      (Log.openDirVia conv crc config clock).run ⟨d, [], []⟩ =
        (Log.openDir crc config clock).run ⟨d, [], []⟩

/-- Whatever configurations a log goes through, its conversions to `u32` are exact, and its indexes
name the positions of the records. -/
theorem Reconfigured.conversions_exact {phase : LogPhase} (h : Reconfigured crc phase) :
    phase.Converts crc ∧ phase.Indexed crc := by
  have hbacked := h.backed
  cases phase with
  | up s =>
    obtain ⟨hbacks, htidy⟩ := hbacked
    refine ⟨fun conv hconv => ⟨fun hroom op => (execVia_run hconv op hbacks htidy hroom).1,
      fun offset maxBytes => readVia_run hconv offset maxBytes hbacks⟩, hbacks.dir.indexed,
      fun seg hseg => ?_⟩
    obtain ⟨chunk, hholds, hstores⟩ := hbacks.segments seg hseg
    exact ⟨chunk, hholds.next_eq, hholds.size_eq, hholds.names, hstores⟩
  | down d =>
    refine ⟨fun conv hconv config clock => ?_, hbacked.indexed⟩
    exact (openDir_agree hconv config clock (show Fs.Healthy ⟨d, [], []⟩ from rfl) hbacked).1

section Third

/-- A log with three records, the third of which has an entry in the index. -/
def thirdLog : Log × Fs :=
  (runOps (LogOp.step fun _ => 0) [tornOp, tornOp, tornOp] emptyLog).2

theorem conversions_exact_third : thirdLog.1.active.index.entries ≠ [] ∧
    (LogPhase.up thirdLog).Converts (fun _ => 0) ∧ (LogPhase.up thirdLog).Indexed (fun _ => 0) := by
  have hop : ∀ clock, tornOp ≠ .reopen clock := by
    intro clock h
    cases h
  exact ⟨by decide, Reconfigured.conversions_exact
    (.stepped (.stepped (.stepped (.opened .new (show (Log.openDir (fun _ => 0) smallConfig
      ⟨0, 0⟩).run ⟨Dir.empty, [], []⟩ = .ok emptyLog.1 emptyLog.2 from rfl))
      (by decide) tornOp hop) (by decide) tornOp hop) (by decide) tornOp hop)⟩

end Third

end Replog.Storage
