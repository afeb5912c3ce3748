import Replog.Storage.ExposedIndexes
import Replog.Storage.TruncationCrashes

/-!
# Whether the index is a cache

The index files of a directory are replaced, or taken away. As a cache the index would not show: a
log that opens would answer every call the same. It does so exactly where every rolled segment has
an index file that does not load, or a sound one.
-/

namespace Replog.Storage
open Replog.Library

variable {crc : List UInt8 → UInt32} {config : LogConfig}

/-- What the calls on a log that is opened in the directory return, and what it reads as then. -/
def answers (crc : List UInt8 → UInt32) (config : LogConfig) (clock : Clock) (ops : List LogOp)
    (d : Dir) : Except Failure (List Reply × (ℕ → ℕ → Except Failure (List Record))) :=
  match (Log.openDir crc config clock).run ⟨d, [], []⟩ with
  | .ok log fs => .ok ((runOps (LogOp.step crc) ops (log, fs)).1, fun o maxBytes =>
      outcome ((Log.read crc o maxBytes).run (runOps (LogOp.step crc) ops (log, fs)).2))
  | .error e _ => .error e

/-- With these index files every log over the directory answers as without any. Offsets are below
`2 ^ 64`. -/
def PureCache (crc : List UInt8 → UInt32) (config : LogConfig) (d : Dir)
    (indexes : AList fun _ : ℕ => List UInt8) : Prop :=
  ∀ clock ops, (∀ op ∈ ops, op.Call) →
    (∀ log fs, (Log.openDir crc config clock).run ⟨{ d with indexes := ∅ }, [], []⟩ = .ok log fs →
      log.nextOffset + ops.length ≤ 2 ^ 64) →
    answers crc config clock ops { d with indexes } =
      answers crc config clock ops { d with indexes := ∅ }

theorem answers_of_openDir {clock : Clock} {ops : List LogOp} {d : Dir} {log : Log} {fs : Fs}
    (h : (Log.openDir crc config clock).run ⟨d, [], []⟩ = .ok log fs) :
    answers crc config clock ops d = .ok ((runOps (LogOp.step crc) ops (log, fs)).1,
      fun o maxBytes =>
        outcome ((Log.read crc o maxBytes).run (runOps (LogOp.step crc) ops (log, fs)).2)) := by
  rw [answers, h]

private theorem answers_of_error {clock : Clock} {d : Dir} {e : Failure} {fs : Fs}
    (h : (Log.openDir crc config clock).run ⟨d, [], []⟩ = .error e fs) (ops : List LogOp) :
    answers crc config clock ops d = .error e := by
  rw [answers, h]

/-! ## Trusted indexes do not show -/

section Directory

variable {d : Dir} {cs : List (List Record)} {act : List Record} {tail : List UInt8}
  {indexes : AList fun _ : ℕ => List UInt8} {s t : Log × Fs}

private theorem CrashDir.mem_closed (hd : CrashDir crc config d cs act tail)
    (hok : LogOk crc config s cs act) {seg : Segment} (hseg : seg ∈ s.1.closed) :
    ∃ chunk synced, SegmentOk crc config s.2.dir seg seg.baseOffset chunk ∧ chunk ≠ [] ∧
      d.log seg.baseOffset = some ⟨encodeAll crc chunk, synced⟩ ∧
      (d.log (seg.baseOffset + chunk.length)).isSome ∧
      chunk <+: (cs.flatten ++ act).drop seg.baseOffset := by
  obtain ⟨preC, chunk, postC, rfl, hsegOk⟩ := hok.closed.mem_split hseg
  obtain ⟨-, hne, hfile, -⟩ := tiled_append.mp hd.closed
  rw [Nat.zero_add] at hsegOk hfile
  obtain ⟨synced, hlog⟩ := hfile.log_file
  rw [hsegOk.base_eq]
  exact ⟨chunk, synced, hsegOk, hne, hlog, hd.next_isSome, chunk_isPrefix preC postC chunk act⟩

private theorem Apart.agreeing (hc : config.Valid) (hd : CrashDir crc config d cs act tail)
    (hok : LogOk crc config s cs act)
    (h : Apart config (Stored crc config { d with indexes }) Level s t)
    (htrusted : TrustedRolled crc config { d with indexes }) :
    Apart config (Agreeing crc config (cs.flatten ++ act)) Level s t := by
  refine ⟨h.config_eq, h.rest, ?_, h.fs⟩
  have hmem := (List.forall₂_and_left _ _).mpr ⟨fun seg hseg => hseg, h.closed⟩
  refine hmem.imp fun {seg seg'} ⟨hseg, hstored⟩ => ?_
  obtain ⟨chunk, synced, hsegOk, hne, hlog, hnext, hpre⟩ := hd.mem_closed hok hseg
  have hpos := List.length_pos_of_ne_nil hne
  rw [Stored] at hstored
  split at hstored
  · exact .inl hstored.symm
  · rename_i idx hload
    have hsound := htrusted _ _ (by omega) hnext idx _ hload hlog
    refine .inr ⟨_, chunk, hsegOk.faithful hc, ⟨hstored.base_eq, ?_, ?_, hsegOk.numbered,
      hsegOk.size_le, ?_⟩, hpre⟩
    · rw [hstored.next_eq, hsegOk.next_eq]
    · rw [hstored.size_eq, hsegOk.size_eq]
    · rw [hstored.index_eq]
      exact hsound

/-- What opening makes of a directory without segments. -/
def freshLog (config : LogConfig) (clock : Clock) : FsM Log := do
  let active ← Segment.create 0
  return {
    config, closed := [], active, durableOffset := none, dirtyBytes := 0
    lastFlush := clock.instantMs }

theorem openDir_fresh (hc : config.Valid) (clock : Clock)
    (indexes : AList fun _ : ℕ => List UInt8) :
    (Log.openDir crc config clock).run ⟨{ Dir.empty with indexes }, [], []⟩ =
      (freshLog config clock).run ⟨{ Dir.empty with indexes }, [], []⟩ := by
  have hvalid := config.validate_eq_ok_iff.mpr hc
  have hget : (get : FsM Fs).run ⟨{ Dir.empty with indexes }, [], []⟩ =
    .ok ⟨{ Dir.empty with indexes }, [], []⟩ ⟨{ Dir.empty with indexes }, [], []⟩ := rfl
  have hempty : (({ Dir.empty with indexes } : Dir).logs.keys.insertionSort (· ≤ ·)).isEmpty =
    true := rfl
  simp only [Log.openDir, hvalid, EStateM.run_bind, hget, hempty, if_true]
  rfl

private theorem twinned_fresh (hc : config.Valid) {clock : Clock} {log : Log} {fs : Fs}
    (hrun : (Log.openDir crc config clock).run ⟨{ Dir.empty with indexes := ∅ }, [], []⟩ =
      .ok log fs) :
    ∃ log' fs', (Log.openDir crc config clock).run ⟨{ Dir.empty with indexes }, [], []⟩ =
        .ok log' fs' ∧ Twinned crc config [] (log, fs) (log', fs') := by
  have hfollows : Follows Level (freshLog config clock) (freshLog config clock) :=
    .bind (create_follows level_carried 0) fun _ => .pure _
  have hrun₁ := hrun
  rw [openDir_fresh hc] at hrun₁
  obtain ⟨fs', hrun', hlevel⟩ :=
    hfollows _ _ (level_withoutIndexes Dir.empty indexes) log fs hrun₁
  obtain ⟨log₀, hrun₀, hok, -⟩ := openDir_empty_run crc hc clock
  obtain ⟨rfl, rfl⟩ : log = log₀ ∧ fs = _ := by
    have hsame := hrun.symm.trans hrun₀
    cases hsame
    exact ⟨rfl, rfl⟩
  have hclosed : log.closed = [] := by
    have hsegs := hok.closed
    cases hlist : log.closed with
    | nil => rfl
    | cons seg rest =>
      rw [hlist] at hsegs
      exact hsegs.elim
  refine ⟨log, fs', (openDir_fresh hc clock indexes).trans hrun', ⟨[], [], hok, rfl⟩,
    hok.config_eq, rfl, ?_, hlevel⟩
  rw [hclosed]
  exact .nil

theorem trustedRolled_withoutIndexes (d : Dir) :
    TrustedRolled crc config { d with indexes := ∅ } := by
  intro base base' _ _ idx file hload
  cases hload

private theorem Remains.twinned (hc : config.Valid) (h : Remains crc config d)
    (htrusted : TrustedRolled crc config { d with indexes }) {clock : Clock} {log : Log} {fs : Fs}
    (hrun : (Log.openDir crc config clock).run ⟨{ d with indexes := ∅ }, [], []⟩ = .ok log fs) :
    ∃ rs log' fs', (Log.openDir crc config clock).run ⟨{ d with indexes }, [], []⟩ =
        .ok log' fs' ∧ Twinned crc config rs (log, fs) (log', fs') := by
  cases h with
  | none => exact ⟨[], twinned_fresh hc hrun⟩
  | opens hleft =>
    obtain ⟨cs, act, tail, -, hd⟩ := hleft
    obtain ⟨log', fs', hrun'⟩ := openDir_trusted hc hd htrusted clock
    obtain ⟨log₀, fs₀, hrun₀, hok, hapart⟩ := openDir_stored hc hd hrun'
    rw [hrun] at hrun₀
    cases hrun₀
    exact ⟨_, log', fs', hrun', ⟨cs, act, hok, rfl⟩, hapart.agreeing hc hd hok htrusted⟩
  | gap h => exact absurd hrun (h.openDir_trusted hc (trustedRolled_withoutIndexes d))

/-- A directory opens without its index files, or it has a gap. -/
theorem Remains.openable (hc : config.Valid) (h : Remains crc config d) (clock : Clock) :
    (∃ log fs, (Log.openDir crc config clock).run ⟨{ d with indexes := ∅ }, [], []⟩ =
        .ok log fs) ∨ ∃ cs, Gap crc config d cs := by
  cases h with
  | none =>
    obtain ⟨log, hrun, -⟩ := openDir_empty_run crc hc clock
    exact .inl ⟨log, _, hrun⟩
  | opens hleft =>
    obtain ⟨cs, act, tail, -, hd⟩ := hleft
    obtain ⟨log, fs, hrun, -⟩ := openDir_spec hc
      (show Fs.Healthy ⟨{ d with indexes := ∅ }, [], []⟩ from rfl) hd.withoutIndexes clock
    exact .inl ⟨log, fs, hrun⟩
  | gap h => exact .inr ⟨_, h⟩

private theorem Remains.pureCache (hc : config.Valid) (h : Remains crc config d)
    (hgap : ∀ cs, ¬ Gap crc config d cs)
    (htrusted : TrustedRolled crc config { d with indexes }) : PureCache crc config d indexes := by
  intro clock ops hops hroom
  rcases h.openable hc clock with ⟨log, fs, hrun⟩ | ⟨cs, hcs⟩
  · obtain ⟨rs, log', fs', hrun', htwin⟩ := h.twinned hc htrusted hrun
    have hlen := hroom log fs hrun
    rw [htwin.1.nextOffset_eq] at hlen
    obtain ⟨hreplies, hreads⟩ := htwin.run hc hlen hops
    rw [answers_of_openDir hrun, answers_of_openDir hrun', hreplies]
    congr 2
    funext o maxBytes
    exact hreads o maxBytes
  · exact absurd hcs (hgap cs)

/-! ## Other indexes do -/

theorem run_truncateSuffix_op {u v : Log × Fs} {n : ℕ}
    (h : (Log.truncateSuffix crc n).run u = .ok () v) :
    (LogOp.truncateSuffix n).step crc u = (.ok none, v) := by
  rw [LogOp.step, LogOp.exec, run_bind_ok h]
  rfl

/-- What calls return on logs that answer the same. -/
theorem PureCache.answers_eq (h : PureCache crc config d indexes) {clock : Clock}
    {log log' : Log} {fs fs' : Fs}
    (hrun : (Log.openDir crc config clock).run ⟨{ d with indexes := ∅ }, [], []⟩ = .ok log fs)
    (hrun' : (Log.openDir crc config clock).run ⟨{ d with indexes }, [], []⟩ = .ok log' fs')
    {ops : List LogOp} (hops : ∀ op ∈ ops, op.Call)
    (hroom : log.nextOffset + ops.length ≤ 2 ^ 64) (o maxBytes : ℕ) :
    outcome ((Log.read crc o maxBytes).run (runOps (LogOp.step crc) ops (log', fs')).2) =
      outcome ((Log.read crc o maxBytes).run (runOps (LogOp.step crc) ops (log, fs)).2) := by
  have hsame := h clock ops hops fun log₀ fs₀ hrun₀ => by
    rw [hrun] at hrun₀
    cases hrun₀
    exact hroom
  rw [answers_of_openDir hrun, answers_of_openDir hrun'] at hsame
  exact congrFun (congrFun (Prod.mk.inj (Except.ok.inj hsame)).2 o) maxBytes

section Answers

variable {preC postC : List (List Record)} {c : List Record} {pre post : List Segment}
  {seg : Segment} {idx : SparseIndex} {k : ℕ}

/-- A read of all that is left of a segment shows that the record is found, and not behind its
place. -/
private theorem found_of_read (hc : config.Valid) (hok : LogOk crc config s cs act)
    (hapart : Apart config (Stored crc config { d with indexes }) Level s t)
    (hread : ∀ o maxBytes, outcome ((Log.read crc o maxBytes).run t) =
      outcome ((Log.read crc o maxBytes).run s))
    (hcov : Covers crc config s.2.dir 0 (nextBase preC + k) s.1.closed cs pre seg post preC c postC)
    (hload : SparseIndex.loaded (indexes.lookup (nextBase preC)) = some idx) {seg' : Segment}
    (hresumed : Resumed crc config { d with indexes } idx seg seg') :
    ∃ q r used, LeadsTo crc config.maxRecordBytes (encodeAll crc c) (nextBase preC + k)
        (seg'.startPos (nextBase preC + k)) q ∧
      Record.decode crc ((encodeAll crc c).drop q) config.maxRecordBytes = .record r used ∧
      r.offset = nextBase preC + k ∧ q ≤ totalLen (c.take k) := by
  have hsegOk := hcov.ok
  have hlt := hcov.lt_end
  rw [Nat.zero_add] at hsegOk hlt
  have hk : k < c.length := by omega
  have hload' : SparseIndex.loaded (({ d with indexes } : Dir).index seg.baseOffset) = some idx := by
    rw [hsegOk.base_eq]
    exact hload
  -- what the read returns where the index is known to be right
  obtain ⟨seg₁, rfl, hreadS⟩ := read_paired (P := Eq) (fun h => h ▸ rfl) hok
    (show Apart config Eq Level s s from
      ⟨hok.config_eq, rfl, List.forall₂_same.mpr fun _ _ => rfl, fun _ => rfl, fun _ h => h,
        hok.healthy⟩) hcov (totalLen c)
  obtain ⟨synced, hfile⟩ := hsegOk.log_file
  obtain ⟨run, hreadRun, hrunS⟩ := (hsegOk.faithful hc).readFrom hc hfile hk (totalLen c)
  have hsplit : totalLen (c.take k) + totalLen (c.drop k) = totalLen c := by
    rw [← totalLen_append, List.take_append_drop]
  obtain rfl := hreadRun.all (show totalLen (c.drop k) ≤ totalLen c by omega)
  -- and where it is that of the file
  obtain ⟨seg₂, hstored, hreadT⟩ := read_paired (fun h => Stored.base_eq h) hok hapart hcov
    (totalLen c)
  have hresumed₂ := hstored.resumed hload'
  have hsame := hread (nextBase preC + k) (totalLen c)
  rw [hreadS, hreadT, MethodM.run_onFs hrunS, onFs_run] at hsame
  cases hrunT : (seg₂.readFrom crc config (nextBase preC + k) (totalLen c)).run t.2 with
  | error e fs₂ =>
    rw [hrunT] at hsame
    cases hsame
  | ok found fs₂ =>
    rw [hrunT] at hsame
    obtain rfl : found = c.drop k := Except.ok.inj hsame
    rw [List.drop_eq_getElem_cons hk] at hrunT
    have hfileT : t.2.dir.log seg₂.baseOffset = some ⟨encodeAll crc c, synced⟩ := by
      rw [hresumed₂.base_eq, hsegOk.base_eq, ← hapart.fs.log_eq]
      exact hfile
    obtain ⟨q, used, hleads, hdecode, hend⟩ := readFrom_first hfileT
      (by rw [hresumed₂.size_eq, hsegOk.size_eq, length_encodeAll]) hrunT
    rw [← List.drop_eq_getElem_cons hk, length_encodeAll] at hend
    refine ⟨q, _, used, hresumed.startPos_eq hresumed₂ _ ▸ hleads, hdecode, ?_, by omega⟩
    exact hsegOk.numbered.offset_eq (List.getElem?_eq_getElem hk)

/-- A cut before a record and a read at the new end show that it was not found before its place
either. -/
private theorem le_of_cut (hc : config.Valid) (hok : LogOk crc config s cs act)
    (hapart : Apart config (Stored crc config { d with indexes }) Level s t)
    (hread : ∀ o maxBytes,
      outcome ((Log.read crc o maxBytes).run
        ((LogOp.truncateSuffix (nextBase preC + (k + 1))).step crc t).2) =
      outcome ((Log.read crc o maxBytes).run
        ((LogOp.truncateSuffix (nextBase preC + (k + 1))).step crc s).2))
    (hcov : Covers crc config s.2.dir 0 (nextBase preC + k) s.1.closed cs pre seg post preC c postC)
    (hk : k + 1 < c.length)
    (hload : SparseIndex.loaded (indexes.lookup (nextBase preC)) = some idx) {seg' : Segment}
    (hresumed : Resumed crc config { d with indexes } idx seg seg') {q used : ℕ} {r : Record}
    (hleads : LeadsTo crc config.maxRecordBytes (encodeAll crc c) (nextBase preC + (k + 1))
      (seg'.startPos (nextBase preC + (k + 1))) q)
    (hdecode : Record.decode crc ((encodeAll crc c).drop q) config.maxRecordBytes = .record r used)
    (hoffset : r.offset = nextBase preC + (k + 1)) : totalLen (c.take (k + 1)) ≤ q := by
  have hsegOk := hcov.ok
  rw [Nat.zero_add] at hsegOk
  have hload' : SparseIndex.loaded (({ d with indexes } : Dir).index seg.baseOffset) = some idx := by
    rw [hsegOk.base_eq]
    exact hload
  have hlen : (cs.flatten ++ act).length = nextBase cs + act.length := List.length_append
  have hend : nextBase cs = nextBase preC + (c.length + nextBase postC) := by
    rw [hcov.chunks_eq, nextBase_append, nextBase_cons]
  -- without index files nothing is left at the new end
  obtain ⟨log, ops, cs', act', hrunS, hok', hflat, -⟩ :=
    truncateSuffix_spec hc hok (n := nextBase preC + (k + 1)) (by omega)
  have hendS := @read_end crc config _ _ _ hok' 0
  rw [hflat, List.length_take, Nat.min_eq_left (by omega)] at hendS
  -- with them the records before the position that was found are
  obtain ⟨seg₂, t₁, hstored, hconfig, hhealthy, hlogs, hrunT⟩ :=
    truncateSuffix_paired (fun h => Stored.base_eq h) hc hok hapart hcov hk
  have hresumed₂ := hstored.resumed hload'
  have hshape := hresumed₂.shape hsegOk hlogs
  rw [hresumed.startPos_eq hresumed₂] at hleads
  have hposition := hshape.positionOf hk hleads hdecode hoffset
  obtain ⟨synced, hfile⟩ := hshape.log_file
  have hbase := hshape.base_eq
  obtain ⟨t', hrebuilt, hnext⟩ := rebuildAt_found hc hconfig hhealthy (hbase.symm ▸ hfile)
    (hbase.symm ▸ hsegOk.numbered) hsegOk.size_le hposition
  rw [hbase] at hnext
  have hsame := hread (nextBase preC + (k + 1)) 0
  rw [run_truncateSuffix_op hrunS, run_truncateSuffix_op (hrunT.trans hrebuilt), hendS] at hsame
  have hin : k + 1 ≤ (whole q c).length := by
    by_contra hgt
    rw [Log.read, run_bind_ok (MethodM.run_self t'), if_pos (.inr (by omega))] at hsame
    cases hsame
  have htake : c.take (k + 1) = (whole q c).take (k + 1) := by
    obtain ⟨more, hmore⟩ := whole_isPrefix q c
    conv_lhs => rw [← hmore]
    exact List.take_append_of_le_length hin
  rw [htake]
  exact (totalLen_take_le (whole q c) (k + 1)).trans (totalLen_whole_le q c)

end Answers

private theorem PureCache.trustedRolled (hc : config.Valid) (hd : CrashDir crc config d cs act tail)
    (h : PureCache crc config d indexes) {clock : Clock} {log : Log} {fs : Fs}
    (hrun : (Log.openDir crc config clock).run ⟨{ d with indexes := ∅ }, [], []⟩ = .ok log fs)
    (hroom : log.nextOffset < 2 ^ 64) : TrustedRolled crc config { d with indexes } := by
  obtain ⟨log', fs', hrun'⟩ : ∃ log' fs',
      (Log.openDir crc config clock).run ⟨{ d with indexes }, [], []⟩ = .ok log' fs' := by
    have hsame := h clock [] (fun _ hop => absurd hop List.not_mem_nil) fun log₀ fs₀ hrun₀ => by
      rw [hrun] at hrun₀
      cases hrun₀
      exact hroom.le
    rw [answers_of_openDir hrun, answers] at hsame
    split at hsame
    · exact ⟨_, _, ‹_›⟩
    · cases hsame
  obtain ⟨log₀, fs₀, hrun₀, hok, hapart⟩ := openDir_stored hc hd hrun'
  rw [hrun] at hrun₀
  cases hrun₀
  intro base base' hlt hsome idx file hload hfile
  -- the segment of the index
  have hmem : base ∈ basesOf 0 cs := by
    have hle := hd.base_le hsome
    rcases (hd.files base).mp (Option.isSome_iff_exists.mpr ⟨file, hfile⟩) with hmem | heq
    · exact hmem
    · omega
  obtain ⟨pre, seg, post, preC, c, postC, hcov, rfl⟩ := hok.closed.covers_base hmem
  have hsegOk := hcov.ok
  have hpos := hcov.lt_end
  rw [Nat.zero_add] at hsegOk hpos
  have hclosed := hd.closed
  rw [hcov.chunks_eq] at hclosed
  obtain ⟨-, -, hfileOk, -⟩ := tiled_append.mp hclosed
  rw [Nat.zero_add] at hfileOk
  obtain ⟨synced, hlog⟩ := hfileOk.log_file
  obtain rfl : file = ⟨encodeAll crc c, synced⟩ := Option.some.inj (hfile.symm.trans hlog)
  obtain ⟨seg', hstored, -⟩ := read_paired (fun h => Stored.base_eq h) hok hapart hcov 0
  rw [← hsegOk.base_eq] at hload hfile ⊢
  have hresumed := hstored.resumed hload
  rw [hsegOk.base_eq] at hload
  have hreads : ∀ o maxBytes, outcome ((Log.read crc o maxBytes).run (log', fs')) =
      outcome ((Log.read crc o maxBytes).run (log, fs)) :=
    h.answers_eq hrun hrun'
      (show ∀ op ∈ ([] : List LogOp), op.Call from fun _ hop => absurd hop List.not_mem_nil)
      hroom.le
  refine hresumed.sound hc (hsegOk.base_eq.symm ▸ hsegOk) hfile (by rw [hsegOk.base_eq]; exact hload)
    fun k hk => ?_
  rw [hsegOk.base_eq]
  have hcovAt : ∀ j < c.length, Covers crc config fs.dir 0 (nextBase preC + j) log.closed cs pre seg
      post preC c postC := fun j hj =>
    { hcov with base_le := by omega, lt_end := by omega }
  obtain ⟨q, r, used, hleads, hdecode, hoffset, hle⟩ :=
    found_of_read hc hok hapart hreads (hcovAt k hk) hload hresumed
  suffices hge : totalLen (c.take k) ≤ q by
    rw [← le_antisymm hle hge]
    exact hleads
  cases k with
  | zero => exact Nat.zero_le q
  | succ k =>
    refine le_of_cut hc hok hapart (fun o maxBytes => ?_) (hcovAt k (by omega)) hk hload hresumed
      hleads hdecode hoffset
    have hcall : ∀ op ∈ [LogOp.truncateSuffix (nextBase preC + (k + 1))], op.Call := by
      intro op hop
      rw [List.mem_singleton.mp hop]
      trivial
    exact h.answers_eq hrun hrun' hcall hroom o maxBytes

end Directory

/-! ## Where the index is a pure cache -/

/-- A directory that opens without its index files: it opens and answers the same with others if
and only if these do not load or are sound, for every rolled segment. One that does not open
without them does not open with sound ones either. -/
theorem pureCache_iff (hconfig : config.validate = .ok ()) {d : Dir}
    (hlived : Lived crc config Loses (.down d)) (indexes : AList fun _ : ℕ => List UInt8) :
    (∀ clock log fs,
      (Log.openDir crc config clock).run ⟨{ d with indexes := ∅ }, [], []⟩ = .ok log fs →
      log.nextOffset < 2 ^ 64 →
      (PureCache crc config d indexes ↔ TrustedRolled crc config { d with indexes })) ∧
    ((∀ clock log fs,
      (Log.openDir crc config clock).run ⟨{ d with indexes := ∅ }, [], []⟩ ≠ .ok log fs) →
      TrustedRolled crc config { d with indexes } → ∀ clock log fs,
      (Log.openDir crc config clock).run ⟨{ d with indexes }, [], []⟩ ≠ .ok log fs) := by
  have hc := config.validate_eq_ok_iff.mp hconfig
  have hremains : Remains crc config d := hlived.ok hc
  refine ⟨fun clock log fs hrun hroom => ?_, fun hnever htrusted clock log fs hrun => ?_⟩
  · have hgap : ∀ cs, ¬ Gap crc config d cs := fun cs h =>
      h.openDir_trusted hc (trustedRolled_withoutIndexes d) hrun
    refine ⟨fun h => ?_, hremains.pureCache hc hgap⟩
    cases hremains with
    | none =>
      intro base base' _ hsome
      cases hsome
    | opens hleft =>
      obtain ⟨cs, act, tail, -, hd⟩ := hleft
      exact h.trustedRolled hc hd hrun hroom
    | gap hcs => exact absurd hcs (hgap _)
  · rcases hremains.openable hc clock with ⟨log₀, fs₀, hrun₀⟩ | ⟨cs, hcs⟩
    · exact hnever clock log₀ fs₀ hrun₀
    · exact hcs.openDir_trusted hc htrusted hrun

section Segments

/-- The index files of two segments, where that of the first one holds these entries. -/
def firstIndex (es : List (ℕ × ℕ)) : AList fun _ : ℕ => List UInt8 :=
  (∅ : AList fun _ : ℕ => List UInt8).insert 0 (SparseIndex.encodeEntries es)

theorem segmented_down : Lived (fun _ => 0) smallConfig Loses (.down (segmented 2).2.dir) :=
  .crashed (segmented_lived (by decide +kernel)) (by decide +kernel) (.flush ⟨0, 0⟩)
    ⟨[.fsyncLog 1], by decide +kernel, .before _ _⟩ (.inl rfl)

theorem segmented_opens : ∃ log fs, (Log.openDir (fun _ => 0) smallConfig ⟨0, 0⟩).run
    ⟨{ (segmented 2).2.dir with indexes := ∅ }, [], []⟩ = .ok log fs ∧ log.nextOffset = 2 := by
  have hcomputed : okValue (fun log _ => some log.nextOffset) none
      ((Log.openDir (fun _ => 0) smallConfig ⟨0, 0⟩).run
        ⟨{ (segmented 2).2.dir with indexes := ∅ }, [], []⟩) = some 2 := by decide +kernel
  cases hrun : (Log.openDir (fun _ => 0) smallConfig ⟨0, 0⟩).run
      ⟨{ (segmented 2).2.dir with indexes := ∅ }, [], []⟩ with
  | error e fs =>
    rw [hrun] at hcomputed
    cases hcomputed
  | ok log fs =>
    rw [hrun] at hcomputed
    exact ⟨log, fs, rfl, Option.some.inj hcomputed⟩

/-- An index without entries is as good as none. -/
theorem pureCache_segmented : PureCache (fun _ => 0) smallConfig (segmented 2).2.dir
    (firstIndex []) := by
  obtain ⟨log, fs, hrun, hnext⟩ := segmented_opens
  refine ((pureCache_iff rfl segmented_down (firstIndex [])).1 _ log fs hrun (by omega)).mpr ?_
  intro base base' _ _ idx file hload _
  have hnil : idx.entries = [] := by
    by_cases hbase : base = 0
    · subst hbase
      have hfirst : SparseIndex.loaded ((firstIndex []).lookup 0) = some ⟨[]⟩ := by
        decide +kernel
      obtain rfl := Option.some.inj (hload.symm.trans hfirst)
      rfl
    · have hnone : (firstIndex []).lookup base = none := by
        rw [firstIndex, AList.lookup_insert_ne hbase]
        rfl
      have hload' : SparseIndex.loaded ((firstIndex []).lookup base) = some idx := hload
      rw [hnone] at hload'
      cases hload'
  exact ⟨by rw [hnil]; exact nofun, by rw [hnil]; exact nofun⟩

/-- The only entry of the first index says that offset 1 is at position 0. -/
theorem index_shows : ∃ d indexes clock log fs, Lived (fun _ => 0) smallConfig Loses (.down d) ∧
    (∀ b, (indexes.lookup b).isSome → (d.index b).isSome) ∧
    (Log.openDir (fun _ => 0) smallConfig clock).run ⟨{ d with indexes := ∅ }, [], []⟩ =
      .ok log fs ∧ log.nextOffset < 2 ^ 64 ∧ ¬ PureCache (fun _ => 0) smallConfig d indexes := by
  obtain ⟨log, fs, hrun, hnext⟩ := segmented_opens
  refine ⟨(segmented 2).2.dir, firstIndex [(1, 0)], ⟨0, 0⟩, log, fs, segmented_down, fun b hb => ?_,
    hrun, by omega, fun h => ?_⟩
  · by_cases hb0 : b = 0
    · subst hb0
      decide +kernel
    · rw [firstIndex, AList.lookup_insert_ne hb0] at hb
      cases hb
  · have hsame := h ⟨0, 0⟩ [] (fun _ hop => absurd hop List.not_mem_nil) fun log₀ fs₀ hrun₀ => by
      rw [hrun] at hrun₀
      cases hrun₀
      rw [hnext]
      decide
    have hfails : okValue (fun _ _ => true) false ((Log.openDir (fun _ => 0) smallConfig
        ⟨0, 0⟩).run ⟨{ (segmented 2).2.dir with indexes := firstIndex [(1, 0)] }, [], []⟩) =
          false := by
      decide +kernel
    cases hrun' : (Log.openDir (fun _ => 0) smallConfig ⟨0, 0⟩).run
        ⟨{ (segmented 2).2.dir with indexes := firstIndex [(1, 0)] }, [], []⟩ with
    | ok log' fs' =>
      rw [hrun'] at hfails
      cases hfails
    | error e fs' =>
      have hboth := (answers_of_error hrun' []).symm.trans
        (hsame.trans (answers_of_openDir hrun))
      cases hboth

end Segments

end Replog.Storage
