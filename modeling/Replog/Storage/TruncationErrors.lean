import Replog.Storage.LogShape
import Replog.Storage.Serving
import Replog.Storage.TruncationCrashes
import Replog.Storage.Twins

/-!
# A truncation that fails

A truncation drops segments before it looks for the position to cut at, and it cuts before it
rebuilds. When it fails, the log is as it was only if the failure comes before all that.
-/

namespace Replog.Storage
open Replog.Library

variable {crc : List UInt8 → UInt32} {config : LogConfig}

/-- What a read returns, if it returns anything. -/
def readable (crc : List UInt8 → UInt32) (s : Log × Fs) (o maxBytes : ℕ) : Option (List Record) :=
  match (Log.read crc o maxBytes).run s with
  | .ok rs _ => some rs
  | .error _ _ => none

/-- The log that opening a directory gives, if it gives one. -/
def found (crc : List UInt8 → UInt32) (config : LogConfig) (clock : Clock) (d : Dir) :
    Option Log :=
  match (Log.openDir crc config clock).run ⟨d, [], []⟩ with
  | .ok log _ => some log
  | .error _ _ => none

/-- Nobody sees a difference, neither now nor after opening the directory again. -/
structure Alike (crc : List UInt8 → UInt32) (s s' : Log × Fs) : Prop where
  reads : ∀ o maxBytes, readable crc s' o maxBytes = readable crc s o maxBytes
  next : s'.1.nextOffset = s.1.nextOffset
  found : ∀ config clock, found crc config clock s'.2.dir = found crc config clock s.2.dir

/-- A truncation to `n` that fails does so before anything has changed. -/
inductive FailsFirst (crc : List UInt8 → UInt32) (s : Log × Fs) (n : ℕ) : Prop
  | outOfRange (h : n < s.1.startOffset)
  /-- Nothing has to go, and there is no position to cut at, or the cut fails. -/
  | cutting (hbehind : s.1.behind n = [])
      (h : (∃ e fs, (s.1.active.positionOf crc s.1.config n).run s.2 = .error e fs) ∨ s.2.Failing)
  /-- Only the active segment has to go, and its `.log` file cannot be removed. -/
  | removing (hbehind : s.1.behind n = [s.1.active.baseOffset])
      (h : s.2.dir.log s.1.active.baseOffset = none ∨ s.2.Failing)

/-! ## Finding a position -/

/-- Decoding forward meets the record with offset `n` after `d` bytes. -/
inductive Leads (crc : List UInt8 → UInt32) (maxRecordBytes n : ℕ) : List UInt8 → ℕ → Prop
  | here {buf : List UInt8} {r : Record} {c : ℕ}
      (hdecode : Record.decode crc buf maxRecordBytes = .record r c) (hr : r.offset = n) :
      Leads crc maxRecordBytes n buf 0
  | next {buf : List UInt8} {r : Record} {c d : ℕ}
      (hdecode : Record.decode crc buf maxRecordBytes = .record r c) (hr : r.offset ≠ n)
      (h : Leads crc maxRecordBytes n (buf.drop c) d) : Leads crc maxRecordBytes n buf (c + d)

private theorem positionLoop_leads {n start fuel pos p : ℕ} {buf : List UInt8} {fs fs' : Fs}
    (h : (Segment.positionLoop crc config n start fuel buf pos).run fs = .ok p fs') :
    ∃ d, Leads crc config.maxRecordBytes n buf d ∧ p = start + pos + d := by
  induction fuel generalizing buf pos with
  | zero => cases h
  | succ fuel ih =>
    rw [Segment.positionLoop] at h
    split at h
    · rename_i r c hdecode
      split_ifs at h with hr
      · cases h
        exact ⟨0, .here hdecode hr, rfl⟩
      · obtain ⟨d, hleads, rfl⟩ := ih h
        exact ⟨c + d, .next hdecode hr hleads, by omega⟩
    · cases h

theorem decode_consumed {buf : List UInt8} {maxRecordBytes c : ℕ} {r : Record}
    (h : Record.decode crc buf maxRecordBytes = .record r c) : 0 < c ∧ c ≤ buf.length := by
  obtain ⟨hc, -, -, hle, -⟩ := Record.decode_eq_record_iff.mp h
  exact ⟨by rw [hc, LEN_FIELD_BYTES]; omega, hle⟩

private theorem readLoop_keeps_mem {seg : Segment} {offset maxBytes start fuel pos outBytes : ℕ}
    {buf : List UInt8} {out list : List Record} {fs fs' : Fs}
    (h : (seg.readLoop crc config offset maxBytes start fuel buf pos out outBytes).run fs =
      .ok list fs') {r : Record} (hr : r ∈ out) : r ∈ list := by
  induction fuel generalizing buf pos out outBytes with
  | zero =>
    cases h
    exact hr
  | succ fuel ih =>
    rw [Segment.readLoop] at h
    split at h
    · split_ifs at h
      · exact ih h hr
      · cases h
        exact hr
      · cases h
        exact List.mem_append_left _ hr
      · exact ih h (List.mem_append_left _ hr)
    · cases h
      exact hr
    · cases h

private theorem Leads.mem_readLoop {n d : ℕ} {buf : List UInt8}
    (h : Leads crc config.maxRecordBytes n buf d) {seg : Segment}
    {maxBytes start fuel pos outBytes : ℕ} {out list : List Record} {fs fs' : Fs}
    (hfuel : buf.length < fuel) (hroom : outBytes + buf.length < maxBytes)
    (hrun : (seg.readLoop crc config n maxBytes start fuel buf pos out outBytes).run fs =
      .ok list fs') : ∃ r ∈ list, r.offset = n := by
  induction h generalizing fuel pos out outBytes with
  | @here buf r c hdecode hr =>
    obtain ⟨hpos, hle⟩ := decode_consumed hdecode
    obtain ⟨fuel, rfl⟩ : ∃ k, fuel = k + 1 := ⟨fuel - 1, by omega⟩
    simp only [Segment.readLoop, hdecode] at hrun
    rw [if_neg (by omega), if_neg (by omega), if_neg (by omega)] at hrun
    exact ⟨r, readLoop_keeps_mem hrun (by simp), hr⟩
  | @next buf r c d hdecode hr _ ih =>
    obtain ⟨hpos, hle⟩ := decode_consumed hdecode
    obtain ⟨fuel, rfl⟩ : ∃ k, fuel = k + 1 := ⟨fuel - 1, by omega⟩
    have hlen : (buf.drop c).length = buf.length - c := List.length_drop
    simp only [Segment.readLoop, hdecode] at hrun
    by_cases hbelow : r.offset < n
    · rw [if_pos hbelow] at hrun
      exact ih (by omega) (by omega) hrun
    · rw [if_neg hbelow, if_neg (by omega), if_neg (by omega)] at hrun
      exact ih (by omega) (by omega) hrun

private theorem Leads.readLoop_take {n d : ℕ} {buf : List UInt8}
    (h : Leads crc config.maxRecordBytes n buf d) {k : ℕ} (hk : k ≤ d) (seg : Segment)
    (maxBytes start fuel pos outBytes : ℕ) {out : List Record} (hout : ∀ r ∈ out, r.offset ≠ n)
    (fs : Fs) :
    ∃ list, (seg.readLoop crc config n maxBytes start fuel (buf.take k) pos out outBytes).run fs =
      .ok list fs ∧ ∀ r ∈ list, r.offset ≠ n := by
  induction h generalizing k fuel pos out outBytes with
  | here hdecode hr =>
    cases fuel with
    | zero => exact ⟨out, rfl, hout⟩
    | succ fuel =>
      have hnone := Record.decode_take hdecode k
      rw [if_neg (by have := decode_consumed hdecode; omega)] at hnone
      exact ⟨out, by simp only [Segment.readLoop, hnone]; rfl, hout⟩
  | @next buf r c d hdecode hr _ ih =>
    cases fuel with
    | zero => exact ⟨out, rfl, hout⟩
    | succ fuel =>
      have htake := Record.decode_take hdecode k
      by_cases hshort : c ≤ k
      · rw [if_pos hshort] at htake
        have hmore : ∀ r' ∈ out ++ [r], r'.offset ≠ n := by
          intro r' hr'
          rcases List.mem_append.mp hr' with hr' | hr'
          · exact hout r' hr'
          · rw [List.mem_singleton.mp hr']
            exact hr
        simp only [Segment.readLoop, htake, List.drop_take]
        split_ifs
        · exact ih (by omega) _ _ _ hout
        · exact ⟨out, rfl, hout⟩
        · exact ⟨_, rfl, hmore⟩
        · exact ih (by omega) _ _ _ hmore
      · rw [if_neg hshort] at htake
        exact ⟨out, by simp only [Segment.readLoop, htake]; rfl, hout⟩

/-- The position a segment gives for an offset in its middle is where decoding meets it. -/
theorem positionOf_leads {seg : Segment} {n p : ℕ} {fs fs' : Fs}
    (hrun : (seg.positionOf crc config n).run fs = .ok p fs') (hn : n < seg.nextOffset) :
    seg.baseOffset ≤ n ∧ fs' = fs ∧ ∃ file, fs.dir.log seg.baseOffset = some file ∧
      seg.startPos n ≤ seg.size ∧
      ∃ d, Leads crc config.maxRecordBytes n
        ((file.bytes.drop (seg.startPos n)).take (seg.size - seg.startPos n)) d ∧
        p = seg.startPos n + d := by
  have hstay : fs' = fs := (positionOf_keeps (Q := (· = fs)) crc config seg n).of_ok rfl hrun
  rw [Segment.positionOf] at hrun
  split_ifs at hrun with hrange hend
  · cases hrun
  · omega
  · have hlt := not_or.mp hrange
    cases hfile : fs.dir.log seg.baseOffset with
    | none =>
      have hread : (FsM.readLog seg.baseOffset).run fs = .error (.err .io) fs := by
        simp [FsM.readLog, EStateM.run, hfile]
      simp only [Segment.committedFrom, EStateM.run_bind, hread] at hrun
      cases hrun
    | some file =>
      by_cases hle : seg.startPos n ≤ seg.size
      · simp only [Segment.committedFrom, EStateM.run_bind, FsM.run_readLog hfile,
          FsM.run_checkedSub hle, EStateM.run_pure] at hrun
        obtain ⟨d, hleads, hp⟩ := positionLoop_leads hrun
        exact ⟨by omega, hstay, file, rfl, hle, d, hleads, by omega⟩
      · have hpanic : (FsM.checkedSub seg.size (seg.startPos n)).run fs = .error .panic fs := by
          rw [FsM.checkedSub, if_neg hle]
          rfl
        simp only [Segment.committedFrom, EStateM.run_bind, FsM.run_readLog hfile, hpanic] at hrun
        cases hrun

/-! ## How a truncation fails -/

/-- The file has its first `p` bytes at most. -/
def CutAt (base : ℕ) (bytes : List UInt8) (p : ℕ) (d : Dir) : Prop :=
  ∃ k ≤ p, ∃ synced, d.log base = some ⟨bytes.take k, synced⟩

theorem CutAt.recovers (base : ℕ) (bytes : List UInt8) (p : ℕ) :
    DirRecovers (CutAt base bytes p) base where
  createIndex := .of_apply (fun _ hd => hd) fun _ _ => rfl
  writeIndex more := ⟨fun _ hd => by simpa [CutAt] using hd, fun n _ hd => by
    simpa [CutAt, FsOp.applyFailed] using hd⟩
  setLen n := .of_apply (fun d ⟨k, hk, synced, hfile⟩ => ⟨min n k, by omega, min synced n, by
    rw [FsOp.log_setLen, if_pos rfl, hfile, Option.map_some, List.take_take]⟩) fun _ _ => rfl
  fsyncLog := .of_apply (fun d ⟨k, hk, synced, hfile⟩ => ⟨k, hk, (bytes.take k).length, by
    rw [FsOp.log_fsyncLog, if_pos rfl, hfile, Option.map_some]⟩) fun _ _ => rfl

/-- How the last part of a truncation fails: the log in memory is as it was, and either the
directory is, too, or the file of the segment has been cut at the position found. -/
theorem rebuildAt_error {target : Segment} {n : ℕ} {log : Log} {fs : Fs} {e : Failure}
    {s' : Log × Fs} (hrun : (Log.rebuildAt crc target n).run (log, fs) = .error e s') :
    s'.1 = log ∧
      ((s'.2.dir = fs.dir ∧ ((∃ e fs', (target.positionOf crc log.config n).run fs = .error e fs') ∨
          fs.dir.log target.baseOffset = none ∨ fs.Failing)) ∨
        ∃ p file, (target.positionOf crc log.config n).run fs = .ok p fs ∧ ¬ fs.Failing ∧
          fs.dir.log target.baseOffset = some file ∧
          CutAt target.baseOffset file.bytes p s'.2.dir) := by
  rw [Log.rebuildAt, EStateM.run_bind, MethodM.run_self] at hrun
  dsimp only at hrun
  have hstay := positionOf_keeps (Q := (· = fs)) crc log.config target n
  rcases onFs_bind_error hrun with ⟨fs', hpos, rfl⟩ | ⟨p, fs', hpos, hfound⟩
  · obtain rfl : fs' = fs := hstay.of_error rfl hpos
    exact ⟨rfl, .inl ⟨rfl, .inl ⟨e, _, hpos⟩⟩⟩
  obtain rfl : fs' = fs := hstay.of_ok rfl hpos
  rcases onFs_bind_error hfound with ⟨fs'', hread, rfl⟩ | ⟨file, fs'', hread, hopened⟩
  · cases hfile : fs'.dir.log target.baseOffset with
    | none =>
      simp only [FsM.readLog, EStateM.run, hfile] at hread
      cases hread
      exact ⟨rfl, .inl ⟨rfl, .inr (.inl rfl)⟩⟩
    | some file =>
      rw [FsM.run_readLog hfile] at hread
      cases hread
  have hfile : fs'.dir.log target.baseOffset = some file ∧ fs'' = fs' := by
    cases hfile : fs'.dir.log target.baseOffset with
    | none =>
      simp only [FsM.readLog, EStateM.run, hfile] at hread
      cases hread
    | some file' =>
      rw [FsM.run_readLog hfile] at hread
      cases hread
      exact ⟨rfl, rfl⟩
  obtain ⟨hfile, rfl⟩ := hfile
  rcases run_perform_cases (.setLen target.baseOffset p) fs'' with
    ⟨hfailing, m, fs₁, hset, hdir⟩ | ⟨hgoes, fs₁, hset, hdir⟩
  · rcases onFs_bind_error hopened with ⟨fs₂, hset', rfl⟩ | ⟨u, fs₂, hset', -⟩
    · rw [hset] at hset'
      cases hset'
      exact ⟨rfl, .inl ⟨hdir, .inr (.inr hfailing)⟩⟩
    · rw [hset] at hset'
      cases hset'
  have hcut : CutAt target.baseOffset file.bytes p fs₁.dir := by
    rw [hdir]
    exact ⟨p, le_rfl, min file.synced p, by simp [hfile]⟩
  have hrecovers := (CutAt.recovers target.baseOffset file.bytes p).recovers
  suffices hend : s'.1 = log ∧ CutAt target.baseOffset file.bytes p s'.2.dir from
    ⟨hend.1, .inr ⟨p, file, hpos, hgoes, hfile, hend.2⟩⟩
  rcases onFs_bind_error hopened with ⟨fs₂, hset', rfl⟩ | ⟨u, fs₂, hset', hshort⟩
  · rw [hset] at hset'
    cases hset'
  rw [hset] at hset'
  cases hset'
  have hsync := hrecovers.fsyncLog
  rcases onFs_bind_error hshort with ⟨fs₂, hfsync, rfl⟩ | ⟨u, fs₂, hfsync, hdurable⟩
  · exact ⟨rfl, hsync.of_error hcut hfsync⟩
  have hsynced := hsync.of_ok hcut hfsync
  rcases onFs_bind_error hdurable with ⟨fs₃, hrecover, rfl⟩ | ⟨rebuilt, fs₃, -, hend⟩
  · exact ⟨rfl, (recover_keeps crc log.config hrecovers true).of_error hsynced hrecover⟩
  · cases hend

private theorem rebuildAt_error_gone {target : Segment} {b n : ℕ} {log : Log} {fs : Fs} {e : Failure}
    {s' : Log × Fs} (hne : b ≠ target.baseOffset) (hgone : fs.dir.log b = none)
    (hrun : (Log.rebuildAt crc target n).run (log, fs) = .error e s') : s'.2.dir.log b = none := by
  have hrecovers := (recovers_other hne none).recovers
  have honFs : ∀ {α : Type} {x : FsM α}, KeepsDir (fun d => d.log b = none) x →
      Keeps (fun s : Log × Fs => s.2.dir.log b = none) (MethodM.onFs x) := fun hx => onFs_keeps hx
  have hkeeps : Keeps (fun s : Log × Fs => s.2.dir.log b = none) (Log.rebuildAt crc target n) :=
    Keeps.bind (fun s hs => hs) fun log => Keeps.bind (honFs (positionOf_keeps _ _ _ _)) fun _ =>
      Keeps.bind (honFs (readLog_keeps _)) fun _ =>
        Keeps.bind (honFs (hrecovers.setLen _)) fun _ =>
          Keeps.bind (honFs hrecovers.fsyncLog) fun _ =>
            Keeps.bind (honFs (recover_keeps _ _ hrecovers true)) fun _ => fun s hs => hs
  exact hkeeps.of_error hgone hrun

/-! ## What has to go -/

/-- The closed segments behind the one at `target`. -/
def Log.doomed (log : Log) (target : ℕ) : List ℕ :=
  (log.closed.map Segment.baseOffset).filter (target < ·)

private theorem Log.Tidy.ends_le {log : Log} (h : log.Tidy) {seg : Segment} (hseg : seg ∈ log.closed)
    {b : ℕ} (hb : b ∈ log.closed.map Segment.baseOffset ++ [log.active.baseOffset])
    (hlt : seg.baseOffset < b) : seg.nextOffset ≤ b := by
  rw [← List.map_singleton, ← List.map_append] at hb
  obtain ⟨t, ht, rfl⟩ := List.mem_map.mp hb
  exact Log.Tidy.ends h.pairwise (List.mem_append_left _ hseg) ht hlt

theorem Log.Tidy.closed_lt {log : Log} (h : log.Tidy) {seg : Segment} (hseg : seg ∈ log.closed) :
    seg.baseOffset < log.active.baseOffset :=
  (List.pairwise_append.mp h.sorted).2.2 _ (List.mem_map_of_mem hseg) _ (List.mem_singleton.mpr rfl)

/-- A rolled segment that keeps the tail: what is behind it are the closed segments to go and the
active one. -/
theorem Log.Tidy.behind_split {log : Log} (h : log.Tidy) {n : ℕ} {pre post : List Segment}
    {seg : Segment} (hclosed : log.closed = pre ++ seg :: post)
    (hseg : ¬ (n ≤ seg.baseOffset ∧ log.startOffset < seg.baseOffset))
    (hpost : ∀ b ∈ post.map Segment.baseOffset ++ [log.active.baseOffset],
      n ≤ b ∧ log.startOffset < b) :
    log.behind n = log.doomed seg.baseOffset ++ [log.active.baseOffset] := by
  have hsorted := h.sorted
  rw [hclosed, List.map_append, List.map_cons, List.append_assoc, List.cons_append] at hsorted
  obtain ⟨-, htail, hbefore⟩ := List.pairwise_append.mp hsorted
  have hafter := (List.pairwise_cons.mp htail).1
  have hpre : ∀ b ∈ pre.map Segment.baseOffset, b < seg.baseOffset := fun b hb =>
    hbefore b hb _ List.mem_cons_self
  have hbehind : log.behind n = post.map Segment.baseOffset ++ [log.active.baseOffset] := by
    rw [Log.behind, hclosed, List.map_append, List.map_cons, List.append_assoc, List.cons_append,
      List.filter_append, List.filter_cons_of_neg (by simpa using hseg),
      List.filter_eq_nil_iff.mpr, List.filter_eq_self.mpr, List.nil_append]
    · simpa using hpost
    · intro b hb
      have hlt := hpre b hb
      simp only [decide_eq_true_eq]
      omega
  have hdoomed : log.doomed seg.baseOffset = post.map Segment.baseOffset := by
    rw [Log.doomed, hclosed, List.map_append, List.map_cons, List.filter_append,
      List.filter_cons_of_neg (by simp), List.filter_eq_nil_iff.mpr, List.filter_eq_self.mpr,
      List.nil_append]
    · intro b hb
      simpa using hafter b (List.mem_append_left _ hb)
    · intro b hb
      simpa using (hpre b hb).le
  rw [hbehind, hdoomed]

private theorem Log.Tidy.target_cases {log : Log} (h : log.Tidy) {n target : ℕ}
    (hn : log.startOffset ≤ n) (htarget : log.truncateTarget n = some target) :
    (log.active.baseOffset = target ∧ log.doomed target = [] ∧ log.behind n = []) ∨
      (target < log.active.baseOffset ∧
        log.behind n = log.doomed target ++ [log.active.baseOffset]) := by
  have hactive : ∀ b ∈ log.closed.map Segment.baseOffset ++ [log.active.baseOffset],
      b ≤ log.active.baseOffset := by
    intro b hb
    rcases List.mem_append.mp hb with hb | hb
    · obtain ⟨seg, hseg, rfl⟩ := List.mem_map.mp hb
      exact (h.closed_lt hseg).le
    · exact (List.mem_singleton.mp hb).le
  have hlast : log.doomed log.active.baseOffset = [] :=
    List.filter_eq_nil_iff.mpr fun b hb => by
      simpa using hactive b (List.mem_append_left _ hb)
  rw [Log.truncateTarget] at htarget
  split_ifs at htarget with hstart hbelow
  · cases htarget
    cases hclosed : log.closed with
    | nil =>
      have hbase : log.startOffset = log.active.baseOffset := by rw [Log.startOffset, hclosed]
      refine .inl ⟨hbase.symm, hbase ▸ hlast, List.filter_eq_nil_iff.mpr fun b hb => ?_⟩
      have hle := hactive b hb
      simp only [decide_eq_true_eq]
      omega
    | cons seg post =>
      have hbase : log.startOffset = seg.baseOffset := by rw [Log.startOffset, hclosed]
      have hsorted := h.sorted
      rw [hclosed, List.map_cons, List.cons_append] at hsorted
      rw [hbase]
      refine .inr ⟨h.closed_lt (hclosed ▸ List.mem_cons_self),
        h.behind_split (show log.closed = [] ++ seg :: post from hclosed) (by omega) fun b hb => ?_⟩
      have hlt := (List.pairwise_cons.mp hsorted).1 b hb
      omega
  · cases htarget
    refine .inl ⟨rfl, hlast, List.filter_eq_nil_iff.mpr fun b hb => ?_⟩
    have hle := hactive b hb
    simp only [decide_eq_true_eq]
    omega
  · obtain ⟨seg, hfind, rfl⟩ := Option.map_eq_some_iff.mp htarget
    obtain ⟨hp, later, earlier, hsplit, hlater⟩ := List.find?_eq_some_iff_append.mp hfind
    have hclosed : log.closed = earlier.reverse ++ seg :: later.reverse := by
      have hrev := congrArg List.reverse hsplit
      simpa using hrev
    have hlt : seg.baseOffset < n := by simpa using hp
    refine .inr ⟨h.closed_lt (by rw [hclosed]; simp), h.behind_split hclosed (by omega)
      fun b hb => ?_⟩
    have hle : n ≤ b := by
      rcases List.mem_append.mp hb with hb | hb
      · obtain ⟨t, ht, rfl⟩ := List.mem_map.mp hb
        simpa using hlater t (List.mem_reverse.mp ht)
      · rw [List.mem_singleton.mp hb]
        omega
    omega

/-- What a truncation to `n` has broken when it fails too late. -/
inductive Damage (crc : List UInt8 → UInt32) (s : Log × Fs) (n : ℕ) (s' : Log × Fs) : Prop
  /-- The first closed segment to go is no longer in the log. -/
  | dropped {b : ℕ} (hb : (s.1.behind n).head? = some b) (hlt : b < s.1.active.baseOffset)
      (hactive : s'.1.active = s.1.active)
      (hclosed : ∀ seg ∈ s'.1.closed, seg ∈ s.1.closed ∧ seg.baseOffset ≠ b)
  /-- The file of the active segment is gone. -/
  | removed (hb : s.1.behind n = [s.1.active.baseOffset]) (hlog : s'.1 = s.1)
      (hgone : s'.2.dir.log s.1.active.baseOffset = none)
  /-- The file of the active segment is cut. -/
  | cut {p : ℕ} {file : LogFile} (hlog : s'.1 = s.1)
      (hpos : (s.1.active.positionOf crc s.1.config n).run s.2 = .ok p s.2)
      (hfile : s.2.dir.log s.1.active.baseOffset = some file)
      (hcut : CutAt s.1.active.baseOffset file.bytes p s'.2.dir)

/-- The active segment stays, and the closed one at `b` is gone. -/
def Fewer (b : ℕ) (log log' : Log) : Prop :=
  log'.active = log.active ∧ ∀ seg ∈ log'.closed, seg ∈ log.closed ∧ seg.baseOffset ≠ b

private theorem removeDoomed_fewer (b : ℕ) (log : Log) (bases : List ℕ) :
    Keeps (fun s => Fewer b log s.1) (Log.removeDoomed bases) := by
  induction bases with
  | nil => exact Keeps.pure ()
  | cons base bases ih =>
    refine Keeps.bind (fun s hs => ?_) fun _ =>
      Keeps.bind (onFs_keeps_self _) fun _ => Keeps.bind (onFs_keeps_self _) fun _ => ih
    exact ⟨hs.1, fun seg hseg => hs.2 seg (List.mem_of_mem_filter hseg)⟩

private theorem removeDoomed_drops (b : ℕ) (rest : List ℕ) (s : Log × Fs) :
    Ends (fun _ s' => Fewer b s.1 s'.1) (fun _ s' => Fewer b s.1 s'.1)
      ((Log.removeDoomed (b :: rest)).run s) := by
  have hstart : Fewer b s.1 { s.1 with closed := Log.removeClosed b s.1.closed } := by
    refine ⟨rfl, fun seg hseg => ?_⟩
    obtain ⟨hmem, hne⟩ := List.mem_filter.mp hseg
    exact ⟨hmem, by simpa using hne⟩
  refine Ends.bind (fun _ (s' : Log × Fs) => Fewer b s.1 s'.1) hstart fun _ s' hs' => ?_
  exact (Keeps.bind (onFs_keeps_self _) fun _ => Keeps.bind (onFs_keeps_self _) fun _ =>
    removeDoomed_fewer b s.1 rest) s' hs'

/-- Where the part of a truncation fails that follows the removal of the closed segments. -/
theorem cutTo_error {s s' : Log × Fs} {target n : ℕ} {e : StorageError}
    (hrun : (Log.cutTo crc target n).run s = .error (.err e) s') :
    (Log.removeDoomed (s.1.doomed target)).run s = .error (.err e) s' ∨
      ∃ log fs, (Log.removeDoomed (s.1.doomed target)).run s = .ok () (log, fs) ∧ s'.1 = log ∧
        ((s.1.active.baseOffset = target ∧
            (Log.rebuildAt crc s.1.active n).run (log, fs) = .error (.err e) s') ∨
          (s.1.active.baseOffset ≠ target ∧
            ((∃ fs', (FsM.removeLog s.1.active.baseOffset).run fs = .error (.err e) fs' ∧
                s' = (log, fs')) ∨
              ∃ fs', (FsM.removeLog s.1.active.baseOffset).run fs = .ok () fs' ∧
                (fs'.dir.log s.1.active.baseOffset = none →
                  s'.2.dir.log s.1.active.baseOffset = none)))) := by
  rw [Log.cutTo, EStateM.run_bind, MethodM.run_self] at hrun
  dsimp only at hrun
  rw [EStateM.run_bind] at hrun
  have hlist : (s.1.closed.map Segment.baseOffset).filter (target < ·) = s.1.doomed target := rfl
  rw [hlist] at hrun
  cases hremove : (Log.removeDoomed (s.1.doomed target)).run s with
  | error e' s₁ =>
    rw [hremove] at hrun
    cases hrun
    exact .inl rfl
  | ok u s₁ =>
    obtain ⟨log, fs⟩ := s₁
    rw [hremove] at hrun
    dsimp only at hrun
    refine .inr ⟨log, fs, rfl, ?_⟩
    split_ifs at hrun with htarget
    · exact ⟨(rebuildAt_error hrun).1, .inl ⟨htarget, hrun⟩⟩
    rcases onFs_bind_error hrun with ⟨fs', hfail, rfl⟩ | ⟨u, fs₂, hlog, hrun₂⟩
    · exact ⟨rfl, .inr ⟨htarget, .inl ⟨fs', hfail, rfl⟩⟩⟩
    have hremove : (FsOp.removeIndex s.1.active.baseOffset).Keeps
        (fun d => d.log s.1.active.baseOffset = none) := .of_apply (fun _ hd => hd) fun _ _ => rfl
    have hindex : KeepsDir (fun d => d.log s.1.active.baseOffset = none)
        (FsM.removeIndex s.1.active.baseOffset) := removeIndex_keeps (perform_keeps hremove)
    suffices hgone : s'.1 = log ∧ (fs₂.dir.log s.1.active.baseOffset = none →
        s'.2.dir.log s.1.active.baseOffset = none) from
      ⟨hgone.1, .inr ⟨htarget, .inr ⟨fs₂, hlog, hgone.2⟩⟩⟩
    rcases onFs_bind_error hrun₂ with ⟨fs₃, hfail, rfl⟩ | ⟨u, fs₃, hremoved, hrun₃⟩
    · exact ⟨rfl, fun hnone => hindex.of_error hnone hfail⟩
    rw [EStateM.run_bind, MethodM.run_self] at hrun₃
    dsimp only at hrun₃
    split at hrun₃
    · cases hrun₃
    · rename_i target' hfind
      have hbase : target'.baseOffset = target := by simpa using List.find?_some hfind
      refine ⟨(rebuildAt_error hrun₃).1, fun hnone => ?_⟩
      have hne : s.1.active.baseOffset ≠ target'.baseOffset := hbase ▸ htarget
      exact rebuildAt_error_gone hne (hindex.of_ok hnone hremoved) hrun₃

/-- Either nothing has changed, or there is damage. -/
def Outcome (crc : List UInt8 → UInt32) (s : Log × Fs) (n : ℕ) (s' : Log × Fs) : Prop :=
  (FailsFirst crc s n ∧ s'.1 = s.1 ∧ s'.2.dir = s.2.dir) ∨
    (¬ FailsFirst crc s n ∧ Damage crc s n s')

section Outcome

variable {s s' : Log × Fs} {n target : ℕ} {e : StorageError}

private theorem outcome_active (hstart : s.1.startOffset ≤ n) (hnext : n < s.1.nextOffset)
    (hbase : s.1.active.baseOffset = target) (hdoomed : s.1.doomed target = [])
    (hbehind : s.1.behind n = [])
    (hrun : (Log.cutTo crc target n).run s = .error (.err e) s') : Outcome crc s n s' := by
  have hcases := cutTo_error hrun
  rw [hdoomed] at hcases
  rcases hcases with hfail | ⟨log, fs, hnothing, -, ⟨-, hrebuild⟩ | ⟨hne, -⟩⟩
  · cases hfail
  · obtain ⟨rfl, rfl⟩ : s.1 = log ∧ s.2 = fs := by
      cases hnothing
      exact ⟨rfl, rfl⟩
    obtain ⟨hlog, ⟨hdir, hwhy⟩ | ⟨p, file, hpos, hgoes, hfile, hcut⟩⟩ := rebuildAt_error hrebuild
    · refine .inl ⟨.cutting hbehind ?_, hlog, hdir⟩
      rcases hwhy with hpos | hnone | hfailing
      · exact .inl hpos
      · cases hpos : (s.1.active.positionOf crc s.1.config n).run s.2 with
        | error e fs' => exact .inl ⟨e, fs', rfl⟩
        | ok p fs' =>
          obtain ⟨-, -, file, hfile, -⟩ := positionOf_leads hpos hnext
          rw [hnone] at hfile
          cases hfile
      · exact .inr hfailing
    · refine .inr ⟨fun hfirst => ?_, .cut hlog hpos hfile hcut⟩
      cases hfirst with
      | outOfRange hlow => omega
      | cutting _ hwhy =>
        rcases hwhy with ⟨e', fs', hpos'⟩ | hfailing
        · rw [hpos] at hpos'
          cases hpos'
        · exact hgoes hfailing
      | removing hactive =>
        rw [hbehind] at hactive
        cases hactive
  · exact absurd hbase hne

private theorem outcome_doomed (h : s.1.Tidy) (hstart : s.1.startOffset ≤ n) {b : ℕ}
    {rest : List ℕ} (hdoomed : s.1.doomed target = b :: rest)
    (hbehind : s.1.behind n = b :: rest ++ [s.1.active.baseOffset])
    (hrun : (Log.cutTo crc target n).run s = .error (.err e) s') : Outcome crc s n s' := by
  refine .inr ⟨fun hfirst => ?_, ?_⟩
  · cases hfirst with
    | outOfRange hlow => omega
    | cutting hnone =>
      rw [hbehind] at hnone
      cases hnone
    | removing hone =>
      rw [hbehind] at hone
      simp at hone
  · have hb : b ∈ s.1.closed.map Segment.baseOffset :=
      List.mem_of_mem_filter (hdoomed ▸ List.mem_cons_self (a := b))
    obtain ⟨seg, hseg, hsegBase⟩ := List.mem_map.mp hb
    have hdrops := removeDoomed_drops b rest s
    rw [← hdoomed] at hdrops
    have hfewer : Fewer b s.1 s'.1 := by
      rcases cutTo_error hrun with hfail | ⟨log, fs, hremoved, hlog, -⟩
      · rw [hfail] at hdrops
        exact hdrops
      · rw [hremoved] at hdrops
        exact hlog ▸ hdrops
    exact .dropped (by rw [hbehind]; rfl) (hsegBase ▸ h.closed_lt hseg) hfewer.1 hfewer.2

private theorem outcome_last (hstart : s.1.startOffset ≤ n) (hlt : target < s.1.active.baseOffset)
    (hdoomed : s.1.doomed target = []) (hbehind : s.1.behind n = [s.1.active.baseOffset])
    (hrun : (Log.cutTo crc target n).run s = .error (.err e) s') : Outcome crc s n s' := by
  have hcases := cutTo_error hrun
  rw [hdoomed] at hcases
  rcases hcases with hfail | ⟨log, fs, hnothing, hlog, ⟨hbase, -⟩ | ⟨-, hremove⟩⟩
  · cases hfail
  · omega
  obtain ⟨rfl, rfl⟩ : s.1 = log ∧ s.2 = fs := by
    cases hnothing
    exact ⟨rfl, rfl⟩
  by_cases hsome : (s.2.dir.log s.1.active.baseOffset).isSome
  · have hperform : (FsM.removeLog s.1.active.baseOffset).run s.2 =
        (FsM.perform (.removeLog s.1.active.baseOffset)).run s.2 := by
      simp only [FsM.removeLog, EStateM.run, hsome, if_true]
    rw [hperform] at hremove
    rcases run_perform_cases (.removeLog s.1.active.baseOffset) s.2 with
      ⟨hfailing, m, fs₁, hfails, hdir⟩ | ⟨hgoes, fs₁, hdone, hdir⟩
    · rcases hremove with ⟨fs', hfail, rfl⟩ | ⟨fs', hok, -⟩
      · rw [hfails] at hfail
        cases hfail
        exact .inl ⟨.removing hbehind (.inr hfailing), rfl, hdir⟩
      · rw [hfails] at hok
        cases hok
    · rcases hremove with ⟨fs', hfail, rfl⟩ | ⟨fs', hok, hgone⟩
      · rw [hdone] at hfail
        cases hfail
      · rw [hdone] at hok
        cases hok
        refine .inr ⟨fun hfirst => ?_, .removed hbehind hlog (hgone (by rw [hdir]; simp))⟩
        cases hfirst with
        | outOfRange hlow => omega
        | cutting hnone =>
          rw [hbehind] at hnone
          cases hnone
        | removing _ hwhy =>
          rcases hwhy with hnone | hfailing
          · rw [hnone] at hsome
            cases hsome
          · exact hgoes hfailing
  · have hmissing : (FsM.removeLog s.1.active.baseOffset).run s.2 = .error (.err .io) s.2 := by
      simp only [FsM.removeLog, EStateM.run, hsome]
      rfl
    rw [hmissing] at hremove
    rcases hremove with ⟨fs', hfail, rfl⟩ | ⟨fs', hok, -⟩
    · cases hfail
      have hnone : s.2.dir.log s.1.active.baseOffset = none := by simpa using hsome
      exact .inl ⟨.removing hbehind (.inl hnone), rfl, rfl⟩
    · cases hok

private theorem truncateSuffix_error (h : s.1.Tidy)
    (hrun : (Log.truncateSuffix crc n).run s = .error (.err e) s') :
    Outcome crc s n s' ∧ (FailsFirst crc s n ∨ s.1.startOffset ≤ n ∧ n < s.1.nextOffset) := by
  rw [Log.truncateSuffix, EStateM.run_bind, MethodM.run_self] at hrun
  dsimp only at hrun
  split_ifs at hrun with hpast hlow
  · cases hrun
  · cases hrun
    exact ⟨.inl ⟨.outOfRange hlow, rfl, rfl⟩, .inl (.outOfRange hlow)⟩
  split at hrun
  · cases hrun
  rename_i target htarget
  have hstart : s.1.startOffset ≤ n := not_lt.mp hlow
  have hnext : n < s.1.nextOffset := not_le.mp hpast
  refine ⟨?_, .inr ⟨hstart, hnext⟩⟩
  rcases h.target_cases hstart htarget with ⟨hbase, hdoomed, hbehind⟩ | ⟨hlt, hbehind⟩
  · exact outcome_active hstart hnext hbase hdoomed hbehind hrun
  · cases hdoomed : s.1.doomed target with
    | cons b rest =>
      rw [hdoomed] at hbehind
      exact outcome_doomed h hstart hdoomed hbehind hrun
    | nil =>
      rw [hdoomed, List.nil_append] at hbehind
      exact outcome_last hstart hlt hdoomed hbehind hrun

end Outcome

/-! ## What a read sees of it -/

theorem readable_eq_some {s : Log × Fs} {o maxBytes : ℕ} {rs : List Record} :
    readable crc s o maxBytes = some rs ↔ ∃ s', (Log.read crc o maxBytes).run s = .ok rs s' := by
  rw [readable]
  cases (Log.read crc o maxBytes).run s with
  | ok rs' s' => simp
  | error => simp

private theorem readable_congr {s s' : Log × Fs} (hlog : s'.1 = s.1) (hdir : s'.2.dir = s.2.dir)
    (o maxBytes : ℕ) : readable crc s' o maxBytes = readable crc s o maxBytes := by
  have honly : ∀ {t t' : Log × Fs}, t.1 = t'.1 → t.2.dir = t'.2.dir → ∀ rs,
      readable crc t o maxBytes = some rs → readable crc t' o maxBytes = some rs := by
    intro t t' hself hsame rs hrs
    obtain ⟨t₁, hrun⟩ := readable_eq_some.mp hrs
    obtain ⟨t₂, hrun', -⟩ := read_follows crc (R := fun fs fs' => fs.dir = fs'.dir)
      (fun fs fs' heq b => by rw [heq]) o maxBytes t t' ⟨hself, hsame⟩ rs t₁ hrun
    exact readable_eq_some.mpr ⟨t₂, hrun'⟩
  exact Option.ext fun rs => ⟨honly hlog hdir rs, honly hlog.symm hdir.symm rs⟩

theorem Alike.of_eq {s s' : Log × Fs} (hlog : s'.1 = s.1) (hdir : s'.2.dir = s.2.dir) :
    Alike crc s s' :=
  ⟨readable_congr hlog hdir, by rw [hlog], fun config clock => by rw [hdir]⟩

/-- A read in the active segment is a read of its file. -/
theorem readable_active {s : Log × Fs} {o : ℕ} (hstart : s.1.startOffset ≤ o)
    (hbase : s.1.active.baseOffset ≤ o) (hnext : o < s.1.nextOffset) (maxBytes : ℕ) :
    readable crc s o maxBytes =
      match (s.1.active.readFrom crc s.1.config o maxBytes).run s.2 with
      | .ok rs _ => some rs
      | .error _ _ => none := by
  rw [readable, Log.read, EStateM.run_bind, MethodM.run_self]
  dsimp only
  rw [if_neg (by omega), if_neg (by omega), if_pos hbase]
  rw [onFs_run]
  cases (s.1.active.readFrom crc s.1.config o maxBytes).run s.2 <;> rfl

private theorem not_alike_of_cut {s s' : Log × Fs} {n p : ℕ} {file : LogFile}
    (hstart : s.1.startOffset ≤ n) (hnext : n < s.1.nextOffset) (hlog : s'.1 = s.1)
    (hpos : (s.1.active.positionOf crc s.1.config n).run s.2 = .ok p s.2)
    (hfile : s.2.dir.log s.1.active.baseOffset = some file)
    (hcut : CutAt s.1.active.baseOffset file.bytes p s'.2.dir) : ¬ Alike crc s s' := by
  intro halike
  obtain ⟨hbase, -, file', hfile', hle, d, hleads, rfl⟩ := positionOf_leads hpos hnext
  rw [hfile] at hfile'
  cases hfile'
  obtain ⟨k, hk, synced, hfile'⟩ := hcut
  let buf := (file.bytes.drop (s.1.active.startPos n)).take
    (s.1.active.size - s.1.active.startPos n)
  have hsame := halike.reads n (buf.length + 1)
  rw [readable_active (hlog ▸ hstart) (hlog ▸ hbase) (hlog ▸ hnext), hlog,
    readable_active hstart hbase hnext, readFrom_run hfile' hbase hnext hle,
    readFrom_run hfile hbase hnext hle] at hsame
  have hshort : ((file.bytes.take k).drop (s.1.active.startPos n)).take
      (s.1.active.size - s.1.active.startPos n) = buf.take (k - s.1.active.startPos n) := by
    rw [List.drop_take, List.take_take, List.take_take, Nat.min_comm]
  rw [hshort] at hsame
  obtain ⟨list, hafter, hwithout⟩ := hleads.readLoop_take (k := k - s.1.active.startPos n)
    (by omega) s.1.active (buf.length + 1) (s.1.active.startPos n)
    ((buf.take (k - s.1.active.startPos n)).length + 1) 0 0
    (show ∀ r ∈ ([] : List Record), r.offset ≠ n from nofun) s'.2
  rw [hafter] at hsame
  cases hbefore : (s.1.active.readLoop crc s.1.config n (buf.length + 1) (s.1.active.startPos n)
      (buf.length + 1) buf 0 [] 0).run s.2 with
  | error e fs =>
    rw [hbefore] at hsame
    cases hsame
  | ok list' fs =>
    rw [hbefore] at hsame
    cases hsame
    obtain ⟨r, hr, hoffset⟩ := hleads.mem_readLoop (Nat.lt_succ_self _)
      (by rw [Nat.zero_add]; exact Nat.lt_succ_self _) hbefore
    exact hwithout r hr hoffset

/-- The first segment behind the one that keeps the tail has a record that can be read. -/
def FirstBehindReadable (crc : List UInt8 → UInt32) (s : Log × Fs) (n : ℕ) : Prop :=
  ∀ b, (s.1.behind n).head? = some b →
    ∃ maxBytes r rs, readable crc s b maxBytes = some (r :: rs)

private theorem Damage.not_alike {s s' : Log × Fs} (h : s.1.Tidy) {n : ℕ}
    (hdamage : Damage crc s n s') (hstart : s.1.startOffset ≤ n) (hnext : n < s.1.nextOffset)
    (hreadable : FirstBehindReadable crc s n) : ¬ Alike crc s s' := by
  cases hdamage with
  | @dropped b hb hlt hactive hclosed =>
    intro halike
    obtain ⟨maxBytes, r, rs, hread⟩ := hreadable b hb
    rw [← halike.reads, readable_eq_some] at hread
    obtain ⟨s₁, hread⟩ := hread
    have hmem : b ∈ s.1.closed.map Segment.baseOffset ++ [s.1.active.baseOffset] :=
      List.mem_of_mem_filter (List.mem_of_head? hb)
    rw [Log.read, EStateM.run_bind, MethodM.run_self] at hread
    dsimp only at hread
    rw [hactive] at hread
    split_ifs at hread with hrange hend hin
    · cases hread
    · cases hread
    · omega
    · split at hread
      · cases hread
      · rename_i seg hfind
        have hle : seg.baseOffset ≤ b := by simpa using List.find?_some hfind
        obtain ⟨hseg, hne⟩ := hclosed seg (List.mem_reverse.mp (List.mem_of_find?_eq_some hfind))
        have hends := h.ends_le hseg hmem (by omega)
        rw [Segment.readFrom, if_pos (.inr hends)] at hread
        cases hread
  | removed hb hlog hgone =>
    intro halike
    obtain ⟨maxBytes, r, rs, hread⟩ := hreadable s.1.active.baseOffset (by rw [hb]; rfl)
    rw [← halike.reads, readable_eq_some] at hread
    obtain ⟨s₁, hread⟩ := hread
    rw [Log.read, EStateM.run_bind, MethodM.run_self] at hread
    dsimp only at hread
    rw [hlog, if_pos (le_refl s.1.active.baseOffset)] at hread
    have hmissing : (FsM.readLog s.1.active.baseOffset).run s'.2 = .error (.err .io) s'.2 := by
      simp [FsM.readLog, EStateM.run, hgone]
    split_ifs at hread with hrange hend
    · cases hread
    · cases hread
    · rw [onFs_run, Segment.readFrom] at hread
      split_ifs at hread
      · cases hread
      · simp only [Segment.committedFrom, EStateM.run_bind, hmissing] at hread
        cases hread
  | cut hlog hpos hfile hcut => exact not_alike_of_cut hstart hnext hlog hpos hfile hcut

/-- Nobody sees a truncation that fails before anything has changed. One that fails later shows: it
has dropped segments or cut a file, unless there was nothing to read behind the tail. -/
theorem truncation_error_iff {s s' : Log × Fs} (h : Handled crc s) {n : ℕ} {e : StorageError}
    (hrun : (Log.truncateSuffix crc n).run s = .error (.err e) s') :
    (FailsFirst crc s n → Alike crc s s') ∧
      (FirstBehindReadable crc s n → Alike crc s s' → FailsFirst crc s n) := by
  obtain ⟨houtcome, hrange⟩ := truncateSuffix_error h.tidy hrun
  constructor
  · intro hfirst
    rcases houtcome with ⟨-, hlog, hdir⟩ | ⟨hnot, -⟩
    · exact .of_eq hlog hdir
    · exact absurd hfirst hnot
  · intro hreadable halike
    rcases houtcome with ⟨hfirst, -⟩ | ⟨-, hdamage⟩
    · exact hfirst
    rcases hrange with hfirst | ⟨hstart, hnext⟩
    · exact hfirst
    · exact absurd halike (hdamage.not_alike h.tidy hstart hnext hreadable)

private theorem segmented_handled (n : ℕ) : Handled (fun _ => 0) (segmented n) := by
  induction n with
  | zero =>
    exact .opened (show (Log.openDir (fun _ => 0) smallConfig ⟨0, 0⟩).run ⟨Dir.empty, [], []⟩ =
      .ok emptyLog.1 emptyLog.2 from rfl)
  | succ n ih => exact .stepped ih largeAppend

/-- Three segments, after something has happened to their files. -/
def segmentedAfter (op : FsOp) : Log × Fs :=
  ((segmented 3).1, { (segmented 3).2 with dir := op.apply (segmented 3).2.dir })

theorem segmentedAfter_handled (op : FsOp) : Handled (fun _ => 0) (segmentedAfter op) :=
  .disturbed (segmented_handled 3) _

theorem run_error_resultState {α : Type} {x : LogM α} {s : Log × Fs}
    (h : (match x.run s with
      | .error (.err _) _ => true
      | _ => false) = true) : ∃ e, x.run s = .error (.err e) (resultState (x.run s)) := by
  split at h
  · rename_i e s' hrun
    exact ⟨e, by rw [hrun, resultState]⟩
  · cases h

/-- The newest file is missing: the truncation that has to remove it fails at once. -/
theorem truncation_error_segmented :
    ∃ e s', (Log.truncateSuffix (fun _ => 0) 2).run (segmentedAfter (.removeLog 2)) =
        .error (.err e) s' ∧ Alike (fun _ => 0) (segmentedAfter (.removeLog 2)) s' := by
  obtain ⟨e, hrun⟩ := run_error_resultState (x := Log.truncateSuffix (fun _ => 0) 2)
    (s := segmentedAfter (.removeLog 2)) (by decide +kernel)
  refine ⟨_, _, hrun, (truncation_error_iff (segmentedAfter_handled _) hrun).1 ?_⟩
  exact .removing (by decide +kernel) (.inl (by decide +kernel))

/-- The file of the first segment is short: the truncation to its start removes the other two
before it finds that out. -/
theorem truncation_error_drops :
    ∃ s n e s', Handled (fun _ => 0) s ∧
      (Log.truncateSuffix (fun _ => 0) n).run s = .error (.err e) s' ∧
      ¬ Alike (fun _ => 0) s s' := by
  obtain ⟨e, hrun⟩ := run_error_resultState (x := Log.truncateSuffix (fun _ => 0) 0)
    (s := segmentedAfter (.setLen 0 10)) (by decide +kernel)
  refine ⟨_, 0, e, _, segmentedAfter_handled _, hrun, fun halike => ?_⟩
  have hlength := congrArg (Option.map List.length) (halike.reads 1 1024)
  exact absurd hlength (by decide +kernel)

end Replog.Storage
