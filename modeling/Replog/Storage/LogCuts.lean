import Replog.Storage.Cutting
import Replog.Storage.LogRuns

/-!
# Reads and truncation of an open log

Both first find the segment an offset lies in: the last one whose base is not above it. A read
returns records of that segment only; a truncation drops the segments after it and rebuilds
it as the active one.
-/

namespace Replog.Storage

variable {crc : List UInt8 → UInt32} {config : LogConfig}

/-- The rolled segment that holds offset `o`, with the segments before and after it. -/
structure Covers (crc : List UInt8 → UInt32) (config : LogConfig) (dir : Dir) (b o : ℕ)
    (segs : List Segment) (cs : List (List Record)) (pre : List Segment) (seg : Segment)
    (post : List Segment) (preC : List (List Record)) (c : List Record)
    (postC : List (List Record)) : Prop where
  segs_eq : segs = pre ++ seg :: post
  chunks_eq : cs = preC ++ c :: postC
  before : SegsOk crc config dir b pre preC
  ok : SegmentOk crc config dir seg (b + nextBase preC) c
  after : SegsOk crc config dir (b + nextBase preC + c.length) post postC
  base_le : b + nextBase preC ≤ o
  lt_end : o < b + nextBase preC + c.length

theorem SegsOk.covers {dir : Dir} {b o : ℕ} {segs : List Segment} {cs : List (List Record)}
    (h : SegsOk crc config dir b segs cs) (hb : b ≤ o) (ho : o < b + nextBase cs) :
    ∃ pre seg post preC c postC, Covers crc config dir b o segs cs pre seg post preC c postC := by
  induction cs generalizing b segs with
  | nil =>
    simp only [nextBase_nil] at ho
    omega
  | cons c cs ih =>
    cases segs with
    | nil => exact h.elim
    | cons seg segs =>
      obtain ⟨hne, hseg, hrest⟩ := h
      by_cases hin : o < b + c.length
      · exact ⟨[], seg, segs, [], c, cs, rfl, rfl, trivial, by simpa using hseg,
          by simpa using hrest, by simpa using hb, by simpa using hin⟩
      · rw [nextBase_cons] at ho
        obtain ⟨pre, t, post, preC, c', postC, hcov⟩ := ih hrest (by omega) (by omega)
        have hshift : b + nextBase (c :: preC) = b + c.length + nextBase preC := by
          rw [nextBase_cons, Nat.add_assoc]
        exact ⟨seg :: pre, t, post, c :: preC, c', postC, by rw [hcov.segs_eq]; rfl,
          by rw [hcov.chunks_eq]; rfl, ⟨hne, hseg, hcov.before⟩, hshift ▸ hcov.ok,
          hshift ▸ hcov.after, hshift ▸ hcov.base_le, hshift ▸ hcov.lt_end⟩

theorem SegsOk.le_base {dir : Dir} {b : ℕ} {segs : List Segment} {cs : List (List Record)}
    (h : SegsOk crc config dir b segs cs) {s : Segment} (hs : s ∈ segs) : b ≤ s.baseOffset := by
  have hmem := List.mem_map_of_mem (f := Segment.baseOffset) hs
  rw [h.bases_eq] at hmem
  exact le_of_mem_basesOf hmem

theorem SegsOk.base_lt {dir : Dir} {b : ℕ} {segs : List Segment} {cs : List (List Record)}
    (h : SegsOk crc config dir b segs cs) {s : Segment} (hs : s ∈ segs) :
    s.baseOffset < b + nextBase cs := by
  have hmem := List.mem_map_of_mem (f := Segment.baseOffset) hs
  rw [h.bases_eq] at hmem
  exact h.tiled.lt_end hmem

/-- A base is that of the segment which covers it. -/
theorem SegsOk.covers_base {dir : Dir} {base : ℕ} {segs : List Segment} {cs : List (List Record)}
    (h : SegsOk crc config dir 0 segs cs) (hmem : base ∈ basesOf 0 cs) :
    ∃ pre seg post preC c postC,
      Covers crc config dir 0 base segs cs pre seg post preC c postC ∧ base = nextBase preC := by
  have hlt := h.tiled.lt_end hmem
  obtain ⟨pre, seg, post, preC, c, postC, hcov⟩ := h.covers (Nat.zero_le base) hlt
  have hle := hcov.base_le
  have hend := hcov.lt_end
  refine ⟨pre, seg, post, preC, c, postC, hcov, ?_⟩
  rw [hcov.chunks_eq, basesOf_append, basesOf, List.mem_append, List.mem_cons] at hmem
  rcases hmem with hmem | rfl | hmem
  · have hbefore := hcov.before.tiled.lt_end hmem
    omega
  · exact Nat.zero_add _
  · have hafter := le_of_mem_basesOf hmem
    omega

/-- The last rolled segment with a base below a bound, where the bound cuts after the segment
that covers `o`. -/
theorem Covers.lastClosed_eq {dir : Dir} {b o : ℕ} {segs pre post : List Segment}
    {cs preC postC : List (List Record)} {seg : Segment} {c : List Record}
    (h : Covers crc config dir b o segs cs pre seg post preC c postC) {p : ℕ → Prop}
    [DecidablePred p] (hp : ∀ b', p b' ↔ b' ≤ o) : Log.lastClosed p segs = some seg := by
  have hpost : ∀ s ∈ post, ¬ p s.baseOffset := by
    intro s hs
    have hle := h.after.le_base hs
    have hlt := h.lt_end
    rw [hp]
    omega
  have hseg : p seg.baseOffset := (hp _).mpr (h.ok.base_eq ▸ h.base_le)
  rw [Log.lastClosed, h.segs_eq, List.reverse_append, List.reverse_cons, List.append_assoc,
    List.find?_append, List.find?_eq_none.mpr (by simpa using hpost)]
  simp [hseg]

/-- Where the segment of offset `o` ends: at the next segment's base, or at the log's end. -/
def Log.segmentEnd (log : Log) (o : ℕ) : ℕ :=
  ((log.closed.map Segment.baseOffset ++ [log.active.baseOffset]).find? (o < ·)).getD
    log.nextOffset

/-- The records from offset `o` to the end of its segment. -/
def Log.segmentTail (log : Log) (rs : List Record) (o : ℕ) : List Record :=
  (rs.drop o).take (log.segmentEnd o - o)

theorem find?_bases_append {bs : List ℕ} {o b : ℕ} (hbs : ∀ b' ∈ bs, b' ≤ o) (hb : o < b)
    (rest : List ℕ) : (bs ++ b :: rest).find? (o < ·) = some b := by
  rw [List.find?_append, List.find?_eq_none.mpr (by simpa using hbs)]
  simp [hb]

theorem LogOk.startOffset_eq {s : Log × Fs} {cs : List (List Record)} {act : List Record}
    (h : LogOk crc config s cs act) : s.1.startOffset = 0 := by
  have hbases := h.closed.bases_eq
  have hactive := h.active.base_eq
  cases cs with
  | nil =>
    have hnil : s.1.closed = [] := by simpa [basesOf] using hbases
    rw [Log.startOffset, hnil]
    exact hactive
  | cons c cs =>
    obtain ⟨seg, rest, hclosed⟩ : ∃ seg rest, s.1.closed = seg :: rest := by
      cases hclosed : s.1.closed with
      | nil => simp [hclosed, basesOf] at hbases
      | cons seg rest => exact ⟨seg, rest, rfl⟩
    rw [hclosed] at hbases
    rw [Log.startOffset, hclosed]
    exact (List.cons.inj hbases).1

theorem LogOk.nextOffset_eq {s : Log × Fs} {cs : List (List Record)} {act : List Record}
    (h : LogOk crc config s cs act) : s.1.nextOffset = (cs.flatten ++ act).length := by
  rw [Log.nextOffset, h.active.next_eq, List.length_append]
  rfl

/-- The rolled segment that an offset lies in, and what it holds from there on. -/
theorem LogOk.segmentTail_closed {s : Log × Fs} {cs : List (List Record)} {act : List Record}
    (h : LogOk crc config s cs act) {o : ℕ} (ho : o < nextBase cs) :
    ∃ seg base c k, SegmentOk crc config s.2.dir seg base c ∧ k < c.length ∧ o = base + k ∧
      Log.lastClosed (· ≤ o) s.1.closed = some seg ∧
      s.1.segmentTail (cs.flatten ++ act) o = c.drop k := by
  obtain ⟨pre, seg, post, preC, c, postC, hcov⟩ := h.closed.covers (Nat.zero_le o) (by omega)
  have hle := hcov.base_le
  have hlt := hcov.lt_end
  simp only [Nat.zero_add] at hle hlt
  obtain ⟨k, rfl⟩ := Nat.exists_eq_add_of_le hle
  have hok := hcov.ok
  rw [Nat.zero_add] at hok
  have hlast := hcov.lastClosed_eq (p := (· ≤ nextBase preC + k)) fun _ => Iff.rfl
  refine ⟨seg, nextBase preC, c, k, hok, by omega, rfl, hlast, ?_⟩
  have hend : s.1.segmentEnd (nextBase preC + k) = nextBase preC + c.length := by
    have hbefore : ∀ b' ∈ (pre ++ [seg]).map Segment.baseOffset, b' ≤ nextBase preC + k := by
      intro b' hb'
      simp only [List.map_append, List.mem_append, List.mem_map, List.map_cons, List.map_nil,
        List.mem_singleton] at hb'
      rcases hb' with ⟨t, ht, rfl⟩ | rfl
      · have hlt' := hcov.before.base_lt ht
        omega
      · rw [hok.base_eq]
        omega
    have hafter := hcov.after
    rw [Nat.zero_add] at hafter
    have hsplit : s.1.closed.map Segment.baseOffset ++ [s.1.active.baseOffset] =
        (pre ++ [seg]).map Segment.baseOffset ++
          (post.map Segment.baseOffset ++ [s.1.active.baseOffset]) := by
      rw [hcov.segs_eq]
      simp
    have hactive : s.1.active.baseOffset = nextBase preC + c.length + nextBase postC := by
      rw [h.active.base_eq, hcov.chunks_eq, nextBase_append, nextBase_cons, Nat.add_assoc]
    rw [Log.segmentEnd, hsplit, hafter.bases_eq, hactive]
    cases postC with
    | nil =>
      rw [basesOf, List.nil_append, nextBase_nil, find?_bases_append hbefore (by omega)]
      rfl
    | cons d ds =>
      rw [basesOf, List.cons_append, find?_bases_append hbefore (by omega)]
      rfl
  have hpre : preC.flatten.length = nextBase preC := rfl
  rw [Log.segmentTail, hend, hcov.chunks_eq, List.flatten_append, List.flatten_cons]
  rw [List.append_assoc, List.append_assoc, ← List.drop_drop, List.drop_left' hpre,
    List.drop_append_of_le_length (by omega), List.take_left']
  rw [List.length_drop]
  omega

/-- What the active segment holds from an offset on. -/
theorem LogOk.segmentTail_active {s : Log × Fs} {cs : List (List Record)} {act : List Record}
    (h : LogOk crc config s cs act) (k : ℕ) :
    s.1.segmentTail (cs.flatten ++ act) (nextBase cs + k) = act.drop k := by
  have hnext := h.nextOffset_eq
  have hlen : (cs.flatten ++ act).length = nextBase cs + act.length := List.length_append
  have hend : s.1.segmentEnd (nextBase cs + k) = nextBase cs + act.length := by
    rw [Log.segmentEnd, h.closed.bases_eq, List.find?_eq_none.mpr, hnext, hlen]
    · rfl
    · intro b hb
      rw [List.mem_append, List.mem_singleton] at hb
      rcases hb with hb | rfl
      · have hlt := h.closed.tiled.lt_end hb
        simp only [decide_eq_true_eq]
        omega
      · simp [h.active.base_eq]
  have hflat : cs.flatten.length = nextBase cs := rfl
  rw [Log.segmentTail, hend, ← List.drop_drop, List.drop_left' hflat,
    List.take_of_length_le (by rw [List.length_drop]; omega)]

private theorem read_closed (hc : config.Valid) {s : Log × Fs} {cs : List (List Record)}
    {act : List Record} (h : LogOk crc config s cs act) {o : ℕ} (ho : o < nextBase cs)
    (maxBytes : ℕ) :
    ∃ run, (Log.read crc o maxBytes).run s = .ok run s ∧
      ReadRun maxBytes (s.1.segmentTail (cs.flatten ++ act) o) run := by
  obtain ⟨seg, base, c, k, hok, hk, rfl, hlast, htail⟩ := h.segmentTail_closed ho
  obtain ⟨run, hrun, hread⟩ := readFrom_spec hc hok hk maxBytes
  refine ⟨run, ?_, htail ▸ hrun⟩
  have hnext := h.nextOffset_eq
  have hlen : (cs.flatten ++ act).length = nextBase cs + act.length := List.length_append
  simp only [Log.read, EStateM.run_bind, MethodM.run_self]
  rw [if_neg (by rw [h.startOffset_eq]; omega), if_neg (by omega),
    if_neg (by rw [h.active.base_eq]; omega), hlast]
  exact MethodM.run_onFs (h.config_eq ▸ hread)

/-- A read inside the log returns the run of its segment from there, and changes nothing. -/
theorem read_spec (hc : config.Valid) {s : Log × Fs} {cs : List (List Record)}
    {act : List Record} (h : LogOk crc config s cs act) {o : ℕ}
    (ho : o < (cs.flatten ++ act).length) (maxBytes : ℕ) :
    ∃ run, (Log.read crc o maxBytes).run s = .ok run s ∧
      ReadRun maxBytes (s.1.segmentTail (cs.flatten ++ act) o) run := by
  by_cases hclosed : o < nextBase cs
  · exact read_closed hc h hclosed maxBytes
  have hnext := h.nextOffset_eq
  have hlen : (cs.flatten ++ act).length = nextBase cs + act.length := List.length_append
  obtain ⟨k, rfl⟩ := Nat.exists_eq_add_of_le (Nat.le_of_not_lt hclosed)
  obtain ⟨run, hrun, hread⟩ := readFrom_spec hc h.active (k := k) (by omega) maxBytes
  refine ⟨run, ?_, h.segmentTail_active k ▸ hrun⟩
  simp only [Log.read, EStateM.run_bind, MethodM.run_self]
  rw [if_neg (by rw [h.startOffset_eq]; omega), if_neg (by omega),
    if_pos (by rw [h.active.base_eq]; omega)]
  exact MethodM.run_onFs (h.config_eq ▸ hread)

/-- No read has more than a gibibyte in front of it. -/
theorem LogOk.totalLen_segmentTail_le {s : Log × Fs} {cs : List (List Record)}
    {act : List Record} (h : LogOk crc config s cs act) (o : ℕ) :
    totalLen (s.1.segmentTail (cs.flatten ++ act) o) ≤ 2 ^ 30 := by
  have hdrop : ∀ (c : List Record) k, totalLen (c.drop k) ≤ totalLen c := by
    intro c k
    have hsplit := totalLen_append (c.take k) (c.drop k)
    rw [List.take_append_drop] at hsplit
    omega
  by_cases hclosed : o < nextBase cs
  · obtain ⟨seg, base, c, k, hok, -, -, -, htail⟩ := h.segmentTail_closed hclosed
    rw [htail]
    exact (hdrop c k).trans hok.size_le
  · obtain ⟨k, rfl⟩ := Nat.exists_eq_add_of_le (Nat.le_of_not_lt hclosed)
    rw [h.segmentTail_active]
    exact (hdrop act k).trans h.active.size_le

/-- A read at the log's end finds nothing, past it there is nothing to read. -/
theorem read_end {s : Log × Fs} {cs : List (List Record)} {act : List Record}
    (h : LogOk crc config s cs act) (maxBytes : ℕ) :
    (Log.read crc (cs.flatten ++ act).length maxBytes).run s = .ok [] s := by
  simp only [Log.read, EStateM.run_bind, MethodM.run_self]
  rw [if_neg (by rw [h.startOffset_eq, h.nextOffset_eq]; omega), if_pos h.nextOffset_eq.symm]
  rfl

theorem read_past {s : Log × Fs} {cs : List (List Record)} {act : List Record}
    (h : LogOk crc config s cs act) {o : ℕ} (ho : (cs.flatten ++ act).length < o)
    (maxBytes : ℕ) :
    (Log.read crc o maxBytes).run s = .error (.err (.offsetOutOfRange o)) s := by
  simp only [Log.read, EStateM.run_bind, MethodM.run_self]
  rw [if_pos (by rw [h.nextOffset_eq]; omega)]
  rfl

theorem FsM.run_removeLog {fs : Fs} (h : fs.Healthy) {base : ℕ}
    (hfile : (fs.dir.log base).isSome) :
    (FsM.removeLog base).run fs = .ok () (fs.advance [.removeLog base]) := by
  have hrun := FsM.run_perform h (.removeLog base)
  simpa [FsM.removeLog, EStateM.run, hfile] using hrun

theorem FsM.run_removeIndex {fs : Fs} (h : fs.Healthy) (base : ℕ)
    (hfile : (fs.dir.index base).isSome) :
    (FsM.removeIndex base).run fs = .ok () (fs.advance [.removeIndex base]) := by
  have hrun := FsM.run_perform h (.removeIndex base)
  simpa [FsM.removeIndex, EStateM.run, hfile] using hrun

private theorem removeDoomed_spec (log : Log) {fs : Fs} (hfs : fs.Healthy) {bs : List ℕ}
    (hlogs : ∀ b ∈ bs, (fs.dir.log b).isSome) (hindexes : ∀ b ∈ bs, (fs.dir.index b).isSome)
    (hnodup : bs.Nodup) :
    (Log.removeDoomed bs).run (log, fs) =
        .ok () ({ log with closed := log.closed.filter fun s => s.baseOffset ∉ bs },
          fs.advance (removeOps bs)) ∧
      (∀ b, (fs.advance (removeOps bs)).dir.log b = if b ∈ bs then none else fs.dir.log b) ∧
      ∀ b, (fs.advance (removeOps bs)).dir.index b =
        if b ∈ bs then none else fs.dir.index b := by
  induction bs generalizing log fs with
  | nil =>
    refine ⟨?_, fun b => by simp [removeOps], fun b => by simp [removeOps]⟩
    rw [removeOps, List.flatMap_nil, Fs.advance_nil hfs]
    simp [Log.removeDoomed]
  | cons base bs ih =>
    obtain ⟨hnotMem, hrest⟩ := List.nodup_cons.mp hnodup
    have hne : ∀ b ∈ bs, b ≠ base := fun b hb heq => hnotMem (heq ▸ hb)
    have hlog := FsM.run_removeLog hfs (hlogs base List.mem_cons_self)
    have hindex := FsM.run_removeIndex (Fs.advance_healthy fs [.removeLog base]) base
      (hindexes base List.mem_cons_self)
    rw [Fs.advance_advance] at hindex
    obtain ⟨hrun, hlogOut, hindexOut⟩ := ih
      { log with closed := Log.removeClosed base log.closed }
      (Fs.advance_healthy fs [.removeLog base, .removeIndex base])
      (fun b hb => by simp [hne b hb, hlogs b (List.mem_cons_of_mem _ hb)])
      (fun b hb => by simp [hne b hb, hindexes b (List.mem_cons_of_mem _ hb)]) hrest
    rw [Fs.advance_advance] at hrun hlogOut hindexOut
    rw [removeOps, List.flatMap_cons]
    refine ⟨?_, fun b => ?_, fun b => ?_⟩
    · simp only [Log.removeDoomed, EStateM.run_bind, MethodM.run_modifySelf,
        MethodM.run_onFs hlog, MethodM.run_onFs hindex]
      rw [List.cons_append, List.nil_append, hrun]
      congr 3
      simp [Log.removeClosed, List.filter_filter, Bool.and_comm]
    · refine (hlogOut b).trans ?_
      by_cases hb : b = base <;> simp [hb]
    · refine (hindexOut b).trans ?_
      by_cases hb : b = base <;> simp [hb]

/-- Cutting a segment before relative offset `k` leaves its first `k` records. -/
theorem rebuildAt_spec (hc : config.Valid) {log : Log} {fs : Fs} (hfs : fs.Healthy)
    (hconfig : log.config = config) {seg : Segment} {base k : ℕ} {chunk : List Record}
    (h : SegmentOk crc config fs.dir seg base chunk) (hk : k ≤ chunk.length) :
    ∃ log' ops, (Log.rebuildAt crc seg (base + k)).run (log, fs) =
        .ok () (log', fs.advance ops) ∧
      log'.config = config ∧ log'.closed = Log.removeClosed base log.closed ∧
      SegmentOk crc config (fs.advance ops).dir log'.active base (chunk.take k) ∧
      OnlySegment base fs (fs.advance ops) ∧
      Passes (fun d => d = fs.dir ∨ Shortened base (encodeAll crc (chunk.take k)) fs.dir d) fs
        ops := by
  obtain ⟨synced, hfile⟩ := h.log_file
  have hposition := positionOf_spec hc h hk
  have hcutFile : (fs.advance [.setLen base (totalLen (chunk.take k)), .fsyncLog base]).dir.log
      base = some ⟨encodeAll crc (chunk.take k) ++ [], totalLen (chunk.take k)⟩ := by
    simp [hfile, take_encodeAll]
  have hcutOnly : OnlySegment base fs
      (fs.advance [.setLen base (totalLen (chunk.take k)), .fsyncLog base]) :=
    ⟨fun b hb => by simp [hb], fun _ _ => rfl⟩
  have hsynced : Shortened base (encodeAll crc (chunk.take k)) fs.dir
      (fs.advance [.setLen base (totalLen (chunk.take k)), .fsyncLog base]).dir :=
    ⟨hcutOnly.log_eq, hcutOnly.index_eq, _, by rw [hcutFile, List.append_nil]⟩
  obtain ⟨rebuilt, ops, hrecover, hok, honly, hpasses⟩ := recover_newest_spec hc
    (Fs.advance_healthy _ _) hcutFile (h.numbered.take k)
    ((totalLen_take_le chunk k).trans h.size_le) (.inl rfl)
  rw [Fs.advance_advance] at hrecover hok honly
  have hread := FsM.run_readLog hfile
  refine ⟨{ log with
    closed := Log.removeClosed base log.closed
    active := rebuilt
    durableOffset := Log.durableBelow (base + k) log.durableOffset }, _, ?_, hconfig, rfl, hok,
    hcutOnly.trans honly, Passes.append ?_ (hpasses.imp fun d hd => .inr (hd.shortened ?_))⟩
  rotate_left
  · have hset : Shortened base (encodeAll crc (chunk.take k)) fs.dir
        ((FsOp.setLen base (totalLen (chunk.take k))).apply fs.dir) :=
      ⟨fun b hb => by simp [hb], fun _ _ => rfl, min synced (totalLen (chunk.take k)),
        by simp [hfile, take_encodeAll]⟩
    exact .cons (.inl rfl) (fun _ => .inl rfl)
      (.cons (.inr hset) (fun _ => .inr hset) (.nil (.inr hsynced)))
  · exact hsynced
  simp only [Log.rebuildAt, EStateM.run_bind, MethodM.run_self, h.base_eq, hconfig,
    MethodM.run_onFs hposition, MethodM.run_onFs hread, MethodM.run_onFs (FsM.run_perform hfs _),
    MethodM.run_onFs (FsM.run_perform (Fs.advance_healthy _ _) _), Fs.advance_advance,
    List.cons_append, List.nil_append, MethodM.run_onFs hrecover, MethodM.run_modifySelf]

private theorem find?_base {pre rest : List Segment} {seg : Segment}
    (hpre : ∀ s ∈ pre, s.baseOffset ≠ seg.baseOffset) :
    (pre ++ seg :: rest).find? (·.baseOffset = seg.baseOffset) = some seg := by
  rw [List.find?_append, List.find?_eq_none.mpr (by simpa using hpre)]
  simp

theorem filter_base_eq {pre : List Segment} {p : ℕ → Prop} [DecidablePred p]
    (hpre : ∀ s ∈ pre, p s.baseOffset) : pre.filter (fun s => p s.baseOffset) = pre :=
  List.filter_eq_self.mpr (by simpa using hpre)

theorem filter_base_nil {post : List Segment} {p : ℕ → Prop} [DecidablePred p]
    (hpost : ∀ s ∈ post, ¬ p s.baseOffset) : post.filter (fun s => p s.baseOffset) = [] :=
  List.filter_eq_nil_iff.mpr (by simpa using hpost)

theorem SegsOk.files {dir : Dir} {b : ℕ} {segs : List Segment} {cs : List (List Record)}
    (h : SegsOk crc config dir b segs cs) {s : Segment} (hs : s ∈ segs) :
    (dir.log s.baseOffset).isSome ∧ (dir.index s.baseOffset).isSome := by
  induction cs generalizing b segs with
  | nil =>
    cases segs with
    | nil => simp at hs
    | cons => exact h.elim
  | cons c cs ih =>
    cases segs with
    | nil => exact h.elim
    | cons t segs =>
      rcases List.mem_cons.mp hs with rfl | hs
      · obtain ⟨_, hfile⟩ := h.2.1.log_file
        rw [h.2.1.base_eq, hfile, h.2.1.index_file]
        exact ⟨rfl, rfl⟩
      · exact ih h.2.2 hs

theorem LogOk.target {s : Log × Fs} {cs : List (List Record)} {act : List Record}
    (h : LogOk crc config s cs act) : Target crc config (cs.flatten ++ act) s.2.dir cs act := by
  refine ⟨h.active.log_file, fun b hb hsome => ?_, List.prefix_refl _, .inl List.length_append⟩
  rcases (h.files b).mp hsome with hin | heq
  · exact hin
  · omega

private theorem cutTo_active (hc : config.Valid) {s : Log × Fs} {cs : List (List Record)}
    {act : List Record} (h : LogOk crc config s cs act) {k : ℕ} (hk : k ≤ act.length) :
    ∃ log ops, (Log.cutTo crc (nextBase cs) (nextBase cs + k)).run s =
        .ok () (log, s.2.advance ops) ∧
      LogOk crc config (log, s.2.advance ops) cs (act.take k) ∧
      Passes (Cutting crc config (cs.flatten ++ act) (nextBase cs + k) s.2.dir) s.2 ops ∧
      Cuts crc config (cs.flatten ++ act) (nextBase cs + k) s.2 [] ops := by
  obtain ⟨log, ops, hrun, hconfig, hclosed, hok, honly, hpasses⟩ :=
    rebuildAt_spec hc h.healthy h.config_eq h.active hk
  have hbelow : ∀ t ∈ s.1.closed, t.baseOffset < nextBase cs := fun t ht => by
    simpa using h.closed.base_lt ht
  have hdoomed : (s.1.closed.map Segment.baseOffset).filter (nextBase cs < ·) = [] := by
    refine List.filter_eq_nil_iff.mpr fun b hb => ?_
    obtain ⟨t, ht, rfl⟩ := List.mem_map.mp hb
    have hlt := hbelow t ht
    simp only [decide_eq_true_eq]
    omega
  have hkeep : Log.removeClosed (nextBase cs) s.1.closed = s.1.closed :=
    filter_base_eq (p := (· ≠ nextBase cs)) fun t ht => (hbelow t ht).ne
  have hleft : Passes (fun d => ∃ k', k ≤ k' ∧ k' ≤ act.length ∧
      CrashDir crc config d cs (act.take k') []) s.2 ops := by
    refine hpasses.imp fun d hd => ?_
    rcases hd with rfl | hshort
    · exact ⟨act.length, hk, le_rfl, (List.take_length (l := act)).symm ▸ h.crashDir⟩
    · exact ⟨k, le_rfl, hk, h.crashDir.shortened hshort⟩
  have hopens : Passes (Opens crc config (cs.flatten ++ act) (nextBase cs + k)) s.2 ops :=
    hleft.imp fun d ⟨k', hle, hk', hd⟩ => h.target.opens hk' hd (by omega)
  have hnil : s.2.advance (removeOps []) = s.2 := Fs.advance_nil h.healthy
  refine ⟨log, ops, ?_, ⟨hconfig, Fs.advance_healthy _ _, ?_, hok, fun b => ?_⟩,
    hleft.imp fun d ⟨k', hle, hk', hd⟩ => h.target.cutting hk' hd (by omega),
    ⟨ops, rfl, hnil ▸ hopens⟩, fun j _ => ?_, fun j hpos hj => ?_⟩
  · simp only [Log.cutTo, EStateM.run_bind, MethodM.run_self, hdoomed, Log.removeDoomed,
      EStateM.run_pure, h.active.base_eq, if_true]
    exact hrun
  · rw [hclosed, hkeep]
    refine h.closed.frame fun b hb => ?_
    have hlt := h.closed.tiled.lt_end hb
    exact ⟨honly.log_eq b (by omega), honly.index_eq b (by omega)⟩
  · by_cases hb : b = nextBase cs
    · obtain ⟨_, hfile⟩ := hok.log_file
      rw [hb, hfile]
      simp
    · rw [honly.log_eq b hb, h.files b]
  · rw [removeOps, List.flatMap_nil, List.take_nil, Fs.advance_nil h.healthy]
    exact hopens _ (.before _ _)
  · rw [List.length_nil] at hj
    omega

section Rolled

variable {s : Log × Fs} {cs preC postC : List (List Record)} {act c : List Record} {o : ℕ}
  {pre post : List Segment} {seg : Segment}

private theorem Covers.pre_lt
    (h : Covers crc config s.2.dir 0 o s.1.closed cs pre seg post preC c postC) {t : Segment}
    (ht : t ∈ pre) : t.baseOffset < nextBase preC := by
  simpa using h.before.base_lt ht

private theorem Covers.lt_post
    (h : Covers crc config s.2.dir 0 o s.1.closed cs pre seg post preC c postC) {t : Segment}
    (ht : t ∈ post) : nextBase preC < t.baseOffset := by
  have hle := h.after.le_base ht
  have hlo := h.base_le
  have hhi := h.lt_end
  omega

private theorem Covers.base_le_of_mem
    (h : Covers crc config s.2.dir 0 o s.1.closed cs pre seg post preC c postC) {t : Segment}
    (ht : t ∈ pre ++ [seg]) : t.baseOffset ≤ nextBase preC := by
  rcases List.mem_append.mp ht with hin | heq
  · exact (h.pre_lt hin).le
  · rw [List.mem_singleton.mp heq, h.ok.base_eq, Nat.zero_add]

private theorem Covers.closed_eq
    (h : Covers crc config s.2.dir 0 o s.1.closed cs pre seg post preC c postC) :
    s.1.closed = (pre ++ [seg]) ++ post := by
  rw [h.segs_eq, List.append_assoc, List.singleton_append]

private theorem Covers.doomed_eq
    (h : Covers crc config s.2.dir 0 o s.1.closed cs pre seg post preC c postC) :
    (s.1.closed.map Segment.baseOffset).filter (nextBase preC < ·) =
      post.map Segment.baseOffset := by
  have hdrop : (pre ++ [seg]).filter (fun t => nextBase preC < t.baseOffset) = [] :=
    filter_base_nil (p := (nextBase preC < ·)) fun t ht => (h.base_le_of_mem ht).not_gt
  have hkeep : post.filter (fun t => nextBase preC < t.baseOffset) = post :=
    filter_base_eq (p := (nextBase preC < ·)) fun t ht => h.lt_post ht
  rw [h.closed_eq, List.filter_map, List.filter_append]
  simp only [Function.comp_def, hdrop, hkeep, List.nil_append]

private theorem Covers.closed_filter
    (h : Covers crc config s.2.dir 0 o s.1.closed cs pre seg post preC c postC) :
    s.1.closed.filter (fun t => t.baseOffset ∉ post.map Segment.baseOffset) = pre ++ [seg] := by
  rw [h.closed_eq, List.filter_append,
    filter_base_nil (p := (· ∉ post.map Segment.baseOffset)) fun t ht hnot =>
      hnot (List.mem_map_of_mem ht), List.append_nil]
  refine filter_base_eq (p := (· ∉ post.map Segment.baseOffset)) fun t ht hmem => ?_
  obtain ⟨u, hu, heq⟩ := List.mem_map.mp hmem
  have hlt := h.lt_post hu
  have hle := h.base_le_of_mem ht
  omega

private theorem Covers.removeClosed_eq
    (h : Covers crc config s.2.dir 0 o s.1.closed cs pre seg post preC c postC) :
    Log.removeClosed (nextBase preC) (pre ++ [seg]) = pre := by
  have hbase : seg.baseOffset = nextBase preC := by simpa using h.ok.base_eq
  rw [Log.removeClosed, List.filter_append,
    filter_base_eq (p := (· ≠ nextBase preC)) fun t ht => (h.pre_lt ht).ne,
    filter_base_nil (p := (· ≠ nextBase preC)) fun t ht hne =>
      hne (by rw [List.mem_singleton.mp ht, hbase]), List.append_nil]

private theorem Covers.active_eq
    (hcov : Covers crc config s.2.dir 0 o s.1.closed cs pre seg post preC c postC)
    (h : LogOk crc config s cs act) :
    s.1.active.baseOffset = nextBase preC + c.length + nextBase postC := by
  rw [h.active.base_eq, hcov.chunks_eq, nextBase_append, nextBase_cons, Nat.add_assoc]

private theorem Covers.bases_behind
    (hcov : Covers crc config s.2.dir 0 o s.1.closed cs pre seg post preC c postC)
    (h : LogOk crc config s cs act) :
    post.map Segment.baseOffset ++ [s.1.active.baseOffset] =
      basesOf (nextBase preC + c.length) postC ++ [nextBase preC + c.length + nextBase postC] := by
  rw [hcov.active_eq h, hcov.after.bases_eq, Nat.zero_add]

private theorem Covers.lt_of_behind
    (hcov : Covers crc config s.2.dir 0 o s.1.closed cs pre seg post preC c postC)
    (h : LogOk crc config s cs act) {b : ℕ}
    (hb : b ∈ post.map Segment.baseOffset ++ [s.1.active.baseOffset]) : nextBase preC < b := by
  rcases List.mem_append.mp hb with hin | heq
  · obtain ⟨t, ht, rfl⟩ := List.mem_map.mp hin
    exact hcov.lt_post ht
  · have hactive := hcov.active_eq h
    have hlo := hcov.base_le
    have hhi := hcov.lt_end
    rw [List.mem_singleton.mp heq]
    omega

private theorem Covers.run_cutTo
    (hcov : Covers crc config s.2.dir 0 o s.1.closed cs pre seg post preC c postC)
    (h : LogOk crc config s cs act) (n : ℕ) :
    (Log.cutTo crc (nextBase preC) n).run s = (Log.rebuildAt crc seg n).run
      ({ s.1 with closed := pre ++ [seg] },
        s.2.advance (removeOps (post.map Segment.baseOffset ++ [s.1.active.baseOffset]))) := by
  have hafter := hcov.after
  rw [Nat.zero_add] at hafter
  have hfiles : ∀ b ∈ post.map Segment.baseOffset,
      (s.2.dir.log b).isSome ∧ (s.2.dir.index b).isSome := by
    intro b hb
    obtain ⟨t, ht, rfl⟩ := List.mem_map.mp hb
    exact h.closed.files (by rw [hcov.segs_eq]; simp [ht])
  have hnodup : (post.map Segment.baseOffset).Nodup := by
    rw [hafter.bases_eq]
    exact (List.pairwise_append.mp hafter.tiled.pairwise).1.imp Nat.ne_of_lt
  have hnotMem : s.1.active.baseOffset ∉ post.map Segment.baseOffset := by
    rw [hafter.bases_eq, hcov.active_eq h]
    intro hmem
    exact Nat.lt_irrefl _ (hafter.tiled.lt_end hmem)
  obtain ⟨hremove, hlogs, hindexes⟩ := removeDoomed_spec s.1 h.healthy
    (fun b hb => (hfiles b hb).1) (fun b hb => (hfiles b hb).2) hnodup
  have hactiveLog : ((s.2.advance (removeOps (post.map Segment.baseOffset))).dir.log
      s.1.active.baseOffset).isSome := by
    obtain ⟨_, hfile⟩ := h.active.log_file
    rw [hlogs, if_neg hnotMem, h.active.base_eq, hfile]
    rfl
  have hactiveIndex : ((s.2.advance (removeOps (post.map Segment.baseOffset))).dir.index
      s.1.active.baseOffset).isSome := by
    rw [hindexes, if_neg hnotMem, h.active.base_eq, h.active.index_file]
    rfl
  have hremoveLog := FsM.run_removeLog (Fs.advance_healthy _ _) hactiveLog
  have hremoveIndex := FsM.run_removeIndex
    (Fs.advance_healthy (s.2.advance (removeOps (post.map Segment.baseOffset)))
      [.removeLog s.1.active.baseOffset]) s.1.active.baseOffset hactiveIndex
  have hfound : (pre ++ [seg]).find? (·.baseOffset = nextBase preC) = some seg := by
    have hbase : seg.baseOffset = nextBase preC := by simpa using hcov.ok.base_eq
    rw [← hbase]
    exact find?_base fun t ht => (hbase ▸ hcov.pre_lt ht).ne
  have hne : s.1.active.baseOffset ≠ nextBase preC :=
    (hcov.lt_of_behind h (List.mem_append_right _ List.mem_cons_self)).ne'
  simp only [Log.cutTo, EStateM.run_bind, MethodM.run_self, hcov.doomed_eq]
  rw [hremove]
  simp only [hcov.closed_filter, hne, if_false, EStateM.run_bind, MethodM.run_onFs hremoveLog,
    MethodM.run_onFs hremoveIndex, MethodM.run_self, hfound]
  rw [removeOps_append, Fs.advance_advance, Fs.advance_advance]
  rfl

private theorem dir_removeOps {fs : Fs} (bs : List ℕ) {b : ℕ} (hb : b ∉ bs) :
    (fs.advance (removeOps bs)).dir.log b = fs.dir.log b ∧
      (fs.advance (removeOps bs)).dir.index b = fs.dir.index b := by
  rw [Fs.dir_advance]
  generalize fs.dir = d
  induction bs generalizing d with
  | nil => exact ⟨rfl, rfl⟩
  | cons base bs ih =>
    have hne : b ≠ base := fun heq => hb (heq ▸ List.mem_cons_self)
    have hnot : b ∉ bs := fun hin => hb (List.mem_cons_of_mem _ hin)
    obtain ⟨hlog, hindex⟩ := ih hnot ((FsOp.removeIndex base).apply ((FsOp.removeLog base).apply d))
    rw [removeOps, List.flatMap_cons]
    refine ⟨hlog.trans ?_, hindex.trans ?_⟩
    · simp [hne]
    · simp [hne]

private theorem cutTo_closed (hc : config.Valid) (h : LogOk crc config s cs act) {k : ℕ}
    (hcov : Covers crc config s.2.dir 0 o s.1.closed cs pre seg post preC c postC)
    (hk : k ≤ c.length) :
    ∃ log ops, (Log.cutTo crc (nextBase preC) (nextBase preC + k)).run s =
        .ok () (log, s.2.advance ops) ∧
      LogOk crc config (log, s.2.advance ops) preC (c.take k) ∧
      Passes (Cutting crc config (cs.flatten ++ act) (nextBase preC + k) s.2.dir) s.2 ops ∧
      Cuts crc config (cs.flatten ++ act) (nextBase preC + k) s.2
        (post.map Segment.baseOffset ++ [s.1.active.baseOffset]) ops := by
  have hbases := hcov.bases_behind h
  have hcrash := h.crashDir
  rw [hcov.chunks_eq] at hcrash
  have hflat : (preC ++ c :: postC).flatten ++ act = cs.flatten ++ act := by rw [hcov.chunks_eq]
  have htarget := hcrash.target hflat
  obtain ⟨hremoved, hleft⟩ := hcrash.removeOps_cutting (n := nextBase preC + k) hflat (by omega)
    hbases
  have hstopped := hcrash.removeOps_take (n := nextBase preC + k) hflat (by omega) hbases
  have hrun' := hcov.run_cutTo h (nextBase preC + k)
  have hbehind := fun b hb => hcov.lt_of_behind h (b := b) hb
  generalize post.map Segment.baseOffset ++ [s.1.active.baseOffset] = behind at *
  have hsame : ∀ b ≤ nextBase preC, (s.2.advance (removeOps behind)).dir.log b = s.2.dir.log b ∧
      (s.2.advance (removeOps behind)).dir.index b = s.2.dir.index b :=
    fun b hb => dir_removeOps behind fun hmem => (hbehind b hmem).not_ge hb
  -- the target is cut and takes over
  have hok := hcov.ok
  rw [Nat.zero_add] at hok
  obtain ⟨log, more, hrun, hconfig, hclosed, hrebuilt, honly, hpasses⟩ := rebuildAt_spec hc
    (Fs.advance_healthy s.2 (removeOps behind))
    (show Log.config { s.1 with closed := pre ++ [seg] } = config from h.config_eq)
    (hok.frame (hsame _ le_rfl).1 (hsame _ le_rfl).2) hk
  rw [Fs.advance_advance] at hrun hrebuilt honly
  have hrest : Passes (fun d => ∃ k', k ≤ k' ∧ k' ≤ c.length ∧
      CrashDir crc config d preC (c.take k') []) (s.2.advance (removeOps behind)) more := by
    refine hpasses.imp fun d hd => ?_
    rcases hd with rfl | hshort
    · exact ⟨c.length, hk, le_rfl, (List.take_length (l := c)).symm ▸ hleft⟩
    · exact ⟨k, le_rfl, hk, hleft.shortened hshort⟩
  refine ⟨log, _, hrun'.trans hrun, ⟨hconfig, Fs.advance_healthy _ _, ?_, hrebuilt, fun b => ?_⟩,
    hremoved.append (hrest.imp fun d ⟨k', hle, hk', hd⟩ => htarget.cutting hk' hd (by omega)),
    ⟨more, rfl, ?_⟩, fun j => (hstopped j).1, fun j => (hstopped j).2⟩
  · rw [hclosed, hcov.removeClosed_eq]
    refine hcov.before.frame fun b hb => ?_
    have hlt := hcov.before.tiled.lt_end hb
    obtain ⟨hlog, hindex⟩ := hsame b (by omega)
    exact ⟨(honly.log_eq b (by omega)).trans hlog, (honly.index_eq b (by omega)).trans hindex⟩
  · by_cases hb : b = nextBase preC
    · obtain ⟨_, hfile⟩ := hrebuilt.log_file
      rw [hb, hfile]
      simp
    · rw [honly.log_eq b hb, hleft.files b]
  · exact hrest.imp fun d ⟨k', hle, hk', hd⟩ => htarget.opens hk' hd (by omega)

end Rolled

theorem take_flatten_append (cs : List (List Record)) (rs : List Record) (k : ℕ) :
    (cs.flatten ++ rs).take (nextBase cs + k) = cs.flatten ++ rs.take k :=
  List.take_length_add_append k

/-- The bases of the segments behind the one that keeps the tail of a cut to `newNext`. -/
def Log.behind (log : Log) (newNext : ℕ) : List ℕ :=
  (log.closed.map Segment.baseOffset ++ [log.active.baseOffset]).filter
    fun b => newNext ≤ b ∧ log.startOffset < b

private theorem Covers.behind_eq {s : Log × Fs} {cs preC postC : List (List Record)} {act c : List Record}
    {n : ℕ} {pre post : List Segment} {seg : Segment}
    (hcov : Covers crc config s.2.dir 0 (n - 1) s.1.closed cs pre seg post preC c postC)
    (h : LogOk crc config s cs act) (hlo : nextBase preC < n ∨ n = 0 ∧ nextBase preC = 0)
    (hhi : n ≤ nextBase preC + c.length) :
    s.1.behind n = post.map Segment.baseOffset ++ [s.1.active.baseOffset] := by
  have hok := hcov.ok
  have hafter := hcov.after
  have hlt := hcov.lt_end
  rw [Nat.zero_add] at hok hafter hlt
  have hactive : s.1.active.baseOffset = nextBase preC + c.length + nextBase postC := by
    rw [h.active.base_eq, hcov.chunks_eq, nextBase_append, nextBase_cons, Nat.add_assoc]
  have hsplit : s.1.closed.map Segment.baseOffset ++ [s.1.active.baseOffset] =
      (pre ++ [seg]).map Segment.baseOffset ++
        (post.map Segment.baseOffset ++ [s.1.active.baseOffset]) := by
    rw [hcov.segs_eq]
    simp
  rw [Log.behind, h.startOffset_eq, hsplit, List.filter_append, List.filter_eq_nil_iff.mpr,
    List.filter_eq_self.mpr, List.nil_append]
  · intro b hb
    have hle : nextBase preC + c.length ≤ b := by
      rw [List.mem_append, List.mem_singleton, hafter.bases_eq] at hb
      rcases hb with hin | rfl
      · exact le_of_mem_basesOf hin
      · omega
    simp only [decide_eq_true_eq]
    omega
  · intro b hb
    have hle : b ≤ nextBase preC := by
      rw [List.map_append, List.mem_append] at hb
      rcases hb with hin | hin
      · rw [hcov.before.bases_eq] at hin
        have hlt' := hcov.before.tiled.lt_end hin
        omega
      · rw [List.map_singleton, List.mem_singleton, hok.base_eq] at hin
        omega
    simp only [decide_eq_true_eq]
    omega

/-- Truncating inside the log keeps exactly the records below the new end. -/
theorem truncateSuffix_cuts (hc : config.Valid) {s : Log × Fs} {cs : List (List Record)}
    {act : List Record} (h : LogOk crc config s cs act) {n : ℕ}
    (hn : n < (cs.flatten ++ act).length) :
    ∃ log ops cs' act', (Log.truncateSuffix crc n).run s = .ok () (log, s.2.advance ops) ∧
      LogOk crc config (log, s.2.advance ops) cs' act' ∧
      cs'.flatten ++ act' = (cs.flatten ++ act).take n ∧
      Passes (Cutting crc config (cs.flatten ++ act) n s.2.dir) s.2 ops ∧
      Cuts crc config (cs.flatten ++ act) n s.2 (s.1.behind n) ops := by
  have hlen : (cs.flatten ++ act).length = nextBase cs + act.length := List.length_append
  have hstart := h.startOffset_eq
  have hnext := h.nextOffset_eq
  suffices hcut : ∃ target log ops cs' act', s.1.truncateTarget n = some target ∧
      (Log.cutTo crc target n).run s = .ok () (log, s.2.advance ops) ∧
      LogOk crc config (log, s.2.advance ops) cs' act' ∧
      cs'.flatten ++ act' = (cs.flatten ++ act).take n ∧
      Passes (Cutting crc config (cs.flatten ++ act) n s.2.dir) s.2 ops ∧
      Cuts crc config (cs.flatten ++ act) n s.2 (s.1.behind n) ops by
    obtain ⟨target, log, ops, cs', act', htarget, hrun, hok, hflat, hpasses⟩ := hcut
    refine ⟨log, ops, cs', act', ?_, hok, hflat, hpasses⟩
    simp only [Log.truncateSuffix, EStateM.run_bind, MethodM.run_self]
    rw [if_neg (by omega), if_neg (by omega), htarget]
    exact hrun
  -- the segment that holds the last record kept, or the first one
  by_cases hactive : nextBase cs < n ∨ cs = []
  · obtain ⟨k, rfl⟩ := Nat.exists_eq_add_of_le (show nextBase cs ≤ n by
      rcases hactive with hlt | rfl
      · exact hlt.le
      · exact Nat.zero_le n)
    obtain ⟨log, ops, hrun, hok, hpasses, hcuts⟩ := cutTo_active hc h (k := k) (by omega)
    have hbehind : s.1.behind (nextBase cs + k) = [] := by
      rw [Log.behind, h.closed.bases_eq, h.active.base_eq, hstart, List.filter_eq_nil_iff]
      intro b hb
      simp only [decide_eq_true_eq]
      rcases hactive with hlt | rfl
      · rcases List.mem_append.mp hb with hb | hb
        · have hlt' := h.closed.tiled.lt_end hb
          omega
        · rw [List.mem_singleton.mp hb]
          omega
      · rw [basesOf, List.nil_append, List.mem_singleton, nextBase_nil] at hb
        omega
    refine ⟨nextBase cs, log, ops, cs, act.take k, ?_, hrun, hok, ?_, hpasses, hbehind ▸ hcuts⟩
    · rw [Log.truncateTarget, hstart, h.active.base_eq]
      rcases hactive with hlt | rfl
      · rw [if_neg (by omega), if_pos hlt]
      · by_cases hk : k = 0 <;> simp [hk]
    · exact (take_flatten_append cs act k).symm
  · simp only [not_or, not_lt] at hactive
    obtain ⟨hle, hne⟩ := hactive
    have hpos : 0 < nextBase cs := by
      cases cs with
      | nil => exact absurd rfl hne
      | cons c cs =>
        have hpos := List.length_pos_of_ne_nil h.closed.tiled.1
        rw [nextBase_cons]
        omega
    obtain ⟨pre, seg, post, preC, c, postC, hcov⟩ :=
      h.closed.covers (o := n - 1) (Nat.zero_le _) (by omega)
    have hlo := hcov.base_le
    have hhi := hcov.lt_end
    rw [Nat.zero_add] at hlo hhi
    obtain ⟨k, hk⟩ := Nat.exists_eq_add_of_le (show nextBase preC ≤ n by omega)
    obtain ⟨log, ops, hrun, hok, hpasses, hcuts⟩ := cutTo_closed hc h hcov (k := k) (by omega)
    rw [← hk] at hrun hpasses hcuts
    rw [← hcov.behind_eq h (by omega) (by omega)] at hcuts
    refine ⟨nextBase preC, log, ops, preC, c.take k, ?_, hrun, hok, ?_, hpasses, hcuts⟩
    · rw [Log.truncateTarget, hstart, h.active.base_eq]
      by_cases hzero : n = 0
      · rw [if_pos hzero, show nextBase preC = 0 by omega]
      · rw [if_neg hzero, if_neg (by omega),
          hcov.lastClosed_eq (p := (· < n)) fun b => by omega]
        simp [hcov.ok.base_eq]
    · rw [hcov.chunks_eq, List.flatten_append, List.flatten_cons, List.append_assoc,
        List.append_assoc, hk, take_flatten_append, List.take_append_of_le_length (by omega)]

theorem truncateSuffix_spec (hc : config.Valid) {s : Log × Fs} {cs : List (List Record)}
    {act : List Record} (h : LogOk crc config s cs act) {n : ℕ}
    (hn : n < (cs.flatten ++ act).length) :
    ∃ log ops cs' act', (Log.truncateSuffix crc n).run s = .ok () (log, s.2.advance ops) ∧
      LogOk crc config (log, s.2.advance ops) cs' act' ∧
      cs'.flatten ++ act' = (cs.flatten ++ act).take n ∧
      Passes (Cutting crc config (cs.flatten ++ act) n s.2.dir) s.2 ops := by
  obtain ⟨log, ops, cs', act', hrun, hok, hflat, hpasses, -⟩ := truncateSuffix_cuts hc h hn
  exact ⟨log, ops, cs', act', hrun, hok, hflat, hpasses⟩

/-- Truncating at or past the end does nothing. -/
theorem truncateSuffix_past {s : Log × Fs} {cs : List (List Record)} {act : List Record}
    (h : LogOk crc config s cs act) {n : ℕ} (hn : (cs.flatten ++ act).length ≤ n) :
    (Log.truncateSuffix crc n).run s = .ok () s := by
  simp only [Log.truncateSuffix, EStateM.run_bind, MethodM.run_self]
  rw [if_pos (by rw [h.nextOffset_eq]; exact hn)]
  rfl

end Replog.Storage
