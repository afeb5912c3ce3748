import Replog.Storage.LogLives
import Replog.Storage.Recovering

/-!
# Which segment serves an offset

Every offset of a log belongs to one segment, and reading there is reading that segment's file.
-/

namespace Replog.Storage

variable {crc : List UInt8 → UInt32} {config : LogConfig}

/-- A read in a segment decodes the committed bytes from its start position on. -/
theorem readFrom_run {seg : Segment} {fs : Fs} {file : LogFile} {o : ℕ}
    (hfile : fs.dir.log seg.baseOffset = some file) (hbase : seg.baseOffset ≤ o)
    (hnext : o < seg.nextOffset) (hle : seg.startPos o ≤ seg.size) (maxBytes : ℕ) :
    (seg.readFrom crc config o maxBytes).run fs =
      (seg.readLoop crc config o maxBytes (seg.startPos o)
        (((file.bytes.drop (seg.startPos o)).take (seg.size - seg.startPos o)).length + 1)
        ((file.bytes.drop (seg.startPos o)).take (seg.size - seg.startPos o)) 0 [] 0).run fs := by
  rw [Segment.readFrom, if_neg (by omega)]
  simp only [Segment.committedFrom, EStateM.run_bind, FsM.run_readLog hfile,
    FsM.run_checkedSub hle, EStateM.run_pure]

private theorem Log.read_active {log : Log} {o : ℕ} (hstart : log.startOffset ≤ o)
    (hbase : log.active.baseOffset ≤ o) (hlt : o < log.nextOffset) (fs : Fs) (maxBytes : ℕ) :
    (Log.read crc o maxBytes).run (log, fs) =
      (MethodM.onFs (log.active.readFrom crc log.config o maxBytes) : LogM (List Record)).run
        (log, fs) := by
  rw [Log.read, EStateM.run_bind, MethodM.run_self]
  dsimp only
  rw [if_neg (by omega), if_neg (by omega), if_pos hbase]

theorem Log.read_closed {log : Log} {seg : Segment} {o : ℕ} (hstart : log.startOffset ≤ o)
    (hbase : o < log.active.baseOffset) (hlt : o < log.nextOffset)
    (hlast : Log.lastClosed (· ≤ o) log.closed = some seg) (fs : Fs) (maxBytes : ℕ) :
    (Log.read crc o maxBytes).run (log, fs) =
      (MethodM.onFs (seg.readFrom crc log.config o maxBytes) : LogM (List Record)).run
        (log, fs) := by
  rw [Log.read, EStateM.run_bind, MethodM.run_self]
  dsimp only
  rw [if_neg (by omega), if_neg (by omega), if_neg (by omega), hlast]

/-- Of the records `rs` of the log those of `c` are in the segment at `base`, and reads go there,
whatever its file holds and whatever configuration is used. -/
structure SegmentServes (crc : List UInt8 → UInt32) (config : LogConfig) (s : Log × Fs)
    (rs : List Record) (seg : Segment) (base : ℕ) (c : List Record) : Prop where
  config_eq : s.1.config = config
  ok : SegmentOk crc config s.2.dir seg base c
  split : ∃ before after, rs = before ++ (c ++ after) ∧ before.length = base
  read_with : ∀ k < c.length, ∀ config' fs maxBytes,
    (Log.read crc (base + k) maxBytes).run ({ s.1 with config := config' }, fs) =
      (MethodM.onFs (seg.readFrom crc config' (base + k) maxBytes) : LogM (List Record)).run
        ({ s.1 with config := config' }, fs)

namespace SegmentServes

variable {s : Log × Fs} {rs : List Record} {seg : Segment} {base : ℕ} {c : List Record}

theorem read (h : SegmentServes crc config s rs seg base c) {k : ℕ} (hk : k < c.length) (fs : Fs)
    (maxBytes : ℕ) : (Log.read crc (base + k) maxBytes).run (s.1, fs) =
      (MethodM.onFs (seg.readFrom crc config (base + k) maxBytes) : LogM (List Record)).run
        (s.1, fs) := by
  obtain rfl := h.config_eq
  exact h.read_with k hk s.1.config fs maxBytes

theorem drop_isPrefix (h : SegmentServes crc config s rs seg base c) {k : ℕ} (hk : k ≤ c.length) :
    c.drop k <+: rs.drop (base + k) := by
  obtain ⟨before, after, rfl, rfl⟩ := h.split
  rw [← List.drop_drop, List.drop_left, List.drop_append_of_le_length hk]
  exact List.prefix_append _ _

theorem lt_length (h : SegmentServes crc config s rs seg base c) {k : ℕ} (hk : k < c.length) :
    base + k < rs.length := by
  obtain ⟨before, after, rfl, rfl⟩ := h.split
  simp only [List.length_append]
  omega

theorem sublist (h : SegmentServes crc config s rs seg base c) : c.Sublist rs := by
  obtain ⟨before, after, rfl, -⟩ := h.split
  exact (List.sublist_append_left c after).trans (List.sublist_append_right before _)

theorem getElem?_eq (h : SegmentServes crc config s rs seg base c) {k : ℕ} (hk : k < c.length) :
    rs[base + k]? = (c)[k]? := by
  obtain ⟨before, after, rfl, rfl⟩ := h.split
  rw [List.getElem?_append_right (by omega), Nat.add_sub_cancel_left,
    List.getElem?_append_left hk]

end SegmentServes

section Log

variable {s : Log × Fs} {cs : List (List Record)} {act : List Record}

theorem LogOk.serves_active (h : LogOk crc config s cs act) :
    SegmentServes crc config s (cs.flatten ++ act) s.1.active (nextBase cs) act := by
  have hnext := h.nextOffset_eq
  have hlen : (cs.flatten ++ act).length = nextBase cs + act.length := List.length_append
  refine ⟨h.config_eq, h.active, ⟨cs.flatten, [], by rw [List.append_nil], rfl⟩,
    fun k hk config' fs maxBytes => ?_⟩
  have hstart := h.startOffset_eq
  have hbase := h.active.base_eq
  have hge : s.1.startOffset ≤ nextBase cs + k := by omega
  have hin : s.1.active.baseOffset ≤ nextBase cs + k := by omega
  have hlt : nextBase cs + k < s.1.nextOffset := by omega
  exact @Log.read_active crc { s.1 with config := config' } _ hge hin hlt fs maxBytes

theorem LogOk.serves_closed (h : LogOk crc config s cs act) {o : ℕ} {pre post : List Segment}
    {seg : Segment} {preC postC : List (List Record)} {c : List Record}
    (hcov : Covers crc config s.2.dir 0 o s.1.closed cs pre seg post preC c postC) :
    SegmentServes crc config s (cs.flatten ++ act) seg (nextBase preC) c := by
  have hok := hcov.ok
  rw [Nat.zero_add] at hok
  have hnext := h.nextOffset_eq
  have hlen : (cs.flatten ++ act).length = nextBase cs + act.length := List.length_append
  have hbase : nextBase cs = nextBase preC + (c.length + nextBase postC) := by
    rw [hcov.chunks_eq, nextBase_append, nextBase_cons]
  refine ⟨h.config_eq, hok, ⟨preC.flatten, postC.flatten ++ act, ?_, rfl⟩,
    fun k hk config' fs maxBytes => ?_⟩
  · rw [hcov.chunks_eq, List.flatten_append, List.flatten_cons, List.append_assoc,
      List.append_assoc]
  have hcov' : Covers crc config s.2.dir 0 (nextBase preC + k) s.1.closed cs pre seg post preC c
      postC :=
    { hcov with base_le := by omega, lt_end := by omega }
  have hlast := hcov'.lastClosed_eq (p := (· ≤ nextBase preC + k)) fun _ => Iff.rfl
  have hstart := h.startOffset_eq
  have hactive := h.active.base_eq
  have hge : s.1.startOffset ≤ nextBase preC + k := by omega
  have hbelow : nextBase preC + k < s.1.active.baseOffset := by omega
  have hlt : nextBase preC + k < s.1.nextOffset := by omega
  exact @Log.read_closed crc { s.1 with config := config' } _ _ hge hbelow hlt hlast fs maxBytes

theorem LogOk.serves_offset (h : LogOk crc config s cs act) {o : ℕ}
    (ho : o < (cs.flatten ++ act).length) :
    ∃ seg base c k, SegmentServes crc config s (cs.flatten ++ act) seg base c ∧ k < c.length ∧
      o = base + k := by
  have hlen : (cs.flatten ++ act).length = nextBase cs + act.length := List.length_append
  by_cases hclosed : o < nextBase cs
  · obtain ⟨pre, seg, post, preC, c, postC, hcov⟩ := h.closed.covers (Nat.zero_le o) (by omega)
    have hle := hcov.base_le
    have hlt := hcov.lt_end
    exact ⟨seg, _, c, o - nextBase preC, h.serves_closed hcov, by omega, by omega⟩
  · exact ⟨_, _, act, o - nextBase cs, h.serves_active, by omega, by omega⟩

theorem LogOk.serves_file (h : LogOk crc config s cs act) {b : ℕ}
    (hb : (s.2.dir.log b).isSome) :
    ∃ seg c, SegmentServes crc config s (cs.flatten ++ act) seg b c := by
  rcases (h.files b).mp hb with hmem | rfl
  · obtain ⟨pre, seg, post, preC, c, postC, hcov, hbase⟩ := h.closed.covers_base hmem
    exact ⟨seg, c, hbase ▸ h.serves_closed hcov⟩
  · exact ⟨_, act, h.serves_active⟩

end Log

end Replog.Storage
