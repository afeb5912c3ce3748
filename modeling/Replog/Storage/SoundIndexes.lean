import Replog.Storage.LogsAlike

/-!
# Calls on logs with sound indexes

Two logs over the same segments whose rolled segments have sound indexes, whatever these are:
every call is answered alike and leaves two such logs again.
-/

namespace Replog.Storage
open Replog.Library

variable {crc : List UInt8 → UInt32} {config : LogConfig}

/-- The same segment, or two over the same records of the log, each with a sound index. -/
def Agreeing (crc : List UInt8 → UInt32) (config : LogConfig) (rs : List Record)
    (seg seg' : Segment) : Prop :=
  seg = seg' ∨ ∃ base chunk, Faithful crc config base chunk seg ∧
    Faithful crc config base chunk seg' ∧ chunk <+: rs.drop base

theorem agreeing_paired (crc : List UInt8 → UInt32) (config : LogConfig) (rs : List Record) :
    Paired (Agreeing crc config rs) := by
  refine ⟨fun seg => .inl rfl, fun h => ?_⟩
  rcases h with rfl | ⟨base, chunk, hseg, hseg', -⟩
  · rfl
  · rw [hseg.base_eq, hseg'.base_eq]

theorem SegsOk.mem_split {dir : Dir} {b : ℕ} {segs : List Segment} {cs : List (List Record)}
    (h : SegsOk crc config dir b segs cs) {seg : Segment} (hseg : seg ∈ segs) :
    ∃ preC chunk postC, cs = preC ++ chunk :: postC ∧
      SegmentOk crc config dir seg (b + nextBase preC) chunk := by
  induction cs generalizing b segs with
  | nil =>
    cases segs with
    | nil => cases hseg
    | cons => exact h.elim
  | cons c cs ih =>
    cases segs with
    | nil => exact h.elim
    | cons first rest =>
      obtain ⟨-, hfirst, hrest⟩ := h
      rcases List.mem_cons.mp hseg with rfl | hin
      · exact ⟨[], c, cs, rfl, hfirst⟩
      · obtain ⟨preC, chunk, postC, rfl, hok⟩ := ih hrest hin
        refine ⟨c :: preC, chunk, postC, rfl, ?_⟩
        rw [nextBase_cons, ← Nat.add_assoc]
        exact hok

theorem chunk_isPrefix (preC postC : List (List Record)) (chunk act : List Record) :
    chunk <+: ((preC ++ chunk :: postC).flatten ++ act).drop (nextBase preC) := by
  have hpre : preC.flatten.length = nextBase preC := rfl
  rw [List.flatten_append, List.flatten_cons, List.append_assoc, List.append_assoc,
    List.drop_left' hpre]
  exact List.prefix_append _ _

theorem LogOk.closed_chunk {s : Log × Fs} {cs : List (List Record)} {act : List Record}
    (h : LogOk crc config s cs act) {seg : Segment} (hseg : seg ∈ s.1.closed) :
    ∃ chunk, SegmentOk crc config s.2.dir seg seg.baseOffset chunk ∧
      chunk <+: (cs.flatten ++ act).drop seg.baseOffset := by
  obtain ⟨preC, chunk, postC, rfl, hok⟩ := h.closed.mem_split hseg
  rw [Nat.zero_add] at hok
  rw [hok.base_eq]
  exact ⟨chunk, hok, chunk_isPrefix preC postC chunk act⟩

theorem isPrefix_drop {α : Type} {l l' : List α} (h : l <+: l') (n : ℕ) :
    l.drop n <+: l'.drop n := by
  obtain ⟨more, rfl⟩ := h
  rw [List.drop_append]
  exact List.prefix_append _ _

/-- A segment has no other records than those its log has for it. -/
theorem Faithful.chunk_eq {base : ℕ} {chunk chunk' rs rs' : List Record} {seg : Segment}
    (h : Faithful crc config base chunk seg) (hchunk : chunk <+: rs.drop base) {dir : Dir}
    (hok : SegmentOk crc config dir seg seg.baseOffset chunk')
    (hchunk' : chunk' <+: rs'.drop seg.baseOffset) (hrs : rs <+: rs' ∨ rs' <+: rs) :
    chunk = chunk' := by
  have hbase := h.base_eq
  have hnext := h.next_eq
  have hnext' := hok.next_eq
  have hlen : chunk.length = chunk'.length := by omega
  rw [hbase] at hchunk'
  rcases hrs with hle | hle
  · have hboth := hchunk.trans (isPrefix_drop hle base)
    exact (List.prefix_of_prefix_length_le hboth hchunk' hlen.le).eq_of_length hlen
  · have hboth := hchunk'.trans (isPrefix_drop hle base)
    exact (List.prefix_of_prefix_length_le hchunk hboth hlen.le).eq_of_length hlen

/-- The records of a rolled segment stay when others come and go behind it. -/
theorem Apart.grown {R : Fs → Fs → Prop} {s t : Log × Fs} {cs : List (List Record)}
    {act rs : List Record} (hapart : Apart config (Agreeing crc config rs) R s t)
    (h : LogOk crc config s cs act)
    (hrs : rs <+: cs.flatten ++ act ∨ cs.flatten ++ act <+: rs) :
    Apart config (Agreeing crc config (cs.flatten ++ act)) R s t := by
  refine ⟨hapart.config_eq, hapart.rest, ?_, hapart.fs⟩
  have hmem := (List.forall₂_and_left _ _).mpr ⟨fun seg hseg => hseg, hapart.closed⟩
  refine hmem.imp fun {seg seg'} ⟨hseg, hagree⟩ => ?_
  rcases hagree with rfl | ⟨base, chunk, hfaithful, hfaithful', hchunk⟩
  · exact .inl rfl
  · obtain ⟨chunk', hok, hchunk'⟩ := h.closed_chunk hseg
    obtain rfl := hfaithful.chunk_eq hchunk hok hchunk' hrs
    exact .inr ⟨base, chunk, hfaithful, hfaithful', hfaithful.base_eq ▸ hchunk'⟩

section Calls

variable {s t : Log × Fs} {cs : List (List Record)} {act : List Record}

/-! ## Reads -/

/-- What a call returns, without the state. -/
def outcome {ε σ α : Type} : EStateM.Result ε σ α → Except ε α
  | .ok a _ => .ok a
  | .error e _ => .error e

private theorem read_agreeing (hc : config.Valid) (h : LogOk crc config s cs act)
    (hapart : Apart config (Agreeing crc config (cs.flatten ++ act)) Level s t) (o maxBytes : ℕ) :
    outcome ((Log.read crc o maxBytes).run t) = outcome ((Log.read crc o maxBytes).run s) := by
  have hpaired := agreeing_paired crc config (cs.flatten ++ act)
  have hconfig : t.1.config = s.1.config := by rw [hapart.rest]
  have hactive : t.1.active = s.1.active := by rw [hapart.rest]
  have hlen : (cs.flatten ++ act).length = nextBase cs + act.length := List.length_append
  have hnext := h.nextOffset_eq
  rw [Log.read, run_bind_ok (MethodM.run_self t), run_bind_ok (MethodM.run_self s),
    hapart.startOffset_eq hpaired.base_eq, hapart.nextOffset_eq, hconfig, hactive]
  split_ifs with hout hend hin
  · rfl
  · rfl
  · obtain ⟨run, hrun, hread⟩ := read_spec hc h (o := o) (by omega) maxBytes
    rw [Log.read, run_bind_ok (MethodM.run_self s), if_neg hout, if_neg hend, if_pos hin] at hrun
    obtain ⟨t', hrun', -⟩ := onFs_apart (readFrom_follows crc s.1.config level_carried.sameLogs
      s.1.active o maxBytes) s t hapart run s hrun
    rw [hrun, hrun']
    rfl
  · have hclosed : o < nextBase cs := by
      have hbaseEq := h.active.base_eq
      omega
    rcases lastClosed_paired hpaired.base_eq hapart.closed (· ≤ o) with
      ⟨hs, ht⟩ | ⟨seg, seg', hagree, hs, ht⟩
    · rw [hs, ht]
      rfl
    · rw [hs, ht]
      dsimp only
      rcases hagree with rfl | ⟨base, chunk, hfaithful, hfaithful', hchunk⟩
      · obtain ⟨run, hrun, hread⟩ := read_spec hc h (o := o) (by omega) maxBytes
        rw [Log.read, run_bind_ok (MethodM.run_self s), if_neg hout, if_neg hend, if_neg hin, hs]
          at hrun
        dsimp only at hrun
        obtain ⟨t', hrun', -⟩ := onFs_apart (readFrom_follows crc s.1.config
          level_carried.sameLogs seg o maxBytes) s t hapart run s hrun
        rw [hrun, hrun']
        rfl
      · obtain ⟨seg₁, base₁, chunk₁, k, hok, hk, rfl, hlast, -⟩ := h.segmentTail_closed hclosed
        rw [hs] at hlast
        cases hlast
        have hseg : seg ∈ s.1.closed := List.mem_reverse.mp (List.mem_of_find?_eq_some hs)
        obtain ⟨chunk', hok', hchunk'⟩ := h.closed_chunk hseg
        obtain rfl := hfaithful.chunk_eq hchunk hok' hchunk' (.inl (List.prefix_refl _))
        obtain ⟨synced, hfile⟩ := hok'.log_file
        have hin : k < chunk.length := by
          have hlen := hok.next_eq
          have hlen' := hok'.next_eq
          have hsame := hok.base_eq
          omega
        obtain rfl : base₁ = base := hok.base_eq.symm.trans hfaithful.base_eq
        rw [hfaithful.base_eq] at hfile
        have hfile' := (hapart.fs.log_eq base₁).symm.trans hfile
        obtain ⟨run, hread, hrun⟩ := hfaithful.readFrom hc hfile hin maxBytes
        obtain ⟨run', hread', hrun'⟩ := hfaithful'.readFrom hc hfile' hin maxBytes
        obtain rfl := hread.unique hread'
        rw [h.config_eq, MethodM.run_onFs hrun, MethodM.run_onFs hrun']
        rfl

/-! ## Truncation -/

theorem LogOk.eq_of_base (h : LogOk crc config s cs act) {seg seg' : Segment}
    (hseg : seg ∈ s.1.closed) (hseg' : seg' ∈ s.1.closed)
    (hbase : seg.baseOffset = seg'.baseOffset) : seg = seg' := by
  have hsorted := (List.pairwise_append.mp h.closed.tiled.pairwise).1
  have hnodup : (s.1.closed.map Segment.baseOffset).Nodup := by
    rw [h.closed.bases_eq]
    exact hsorted.imp fun hlt => Nat.ne_of_lt hlt
  exact List.inj_on_of_nodup_map hnodup hseg hseg' hbase

private theorem LogOk.truncateTarget_spec (h : LogOk crc config s cs act) {n target : ℕ}
    (htarget : s.1.truncateTarget n = some target) (hne : s.1.active.baseOffset ≠ target) :
    target ≤ n ∧ target < s.1.active.baseOffset ∧
      ∀ seg ∈ s.1.closed, seg.baseOffset = target → n ≤ seg.nextOffset := by
  have hbase := h.active.base_eq
  have hstart := h.startOffset_eq
  rw [Log.truncateTarget] at htarget
  split_ifs at htarget with hzero hactive
  · cases htarget
    exact ⟨by omega, by omega, fun seg _ _ => by omega⟩
  · cases htarget
    exact absurd rfl hne
  · obtain ⟨seg, hlast, rfl⟩ := Option.map_eq_some_iff.mp htarget
    have hseg : seg ∈ s.1.closed := List.mem_reverse.mp (List.mem_of_find?_eq_some hlast)
    have hlt := h.closed.base_lt hseg
    have hlo : seg.baseOffset < n := by simpa using List.find?_some hlast
    refine ⟨by omega, by omega, fun seg' hseg' heq => ?_⟩
    obtain rfl := h.eq_of_base hseg' hseg heq
    obtain ⟨seg₁, base, chunk, k, hok, hk, hn, hlast₁, -⟩ :=
      h.segmentTail_closed (o := n - 1) (by omega)
    have hboth : Log.lastClosed (· ≤ n - 1) s.1.closed = some seg' := by
      rw [← hlast, Log.lastClosed, Log.lastClosed]
      congr 1
      funext seg
      simp only [decide_eq_decide]
      omega
    rw [hlast₁] at hboth
    cases hboth
    have hnext := hok.next_eq
    omega

/-- The second directory is level with the first one, whose segment files up to `n` are those of
`d`. -/
def LevelTo (n : ℕ) (d : Dir) (fs fs' : Fs) : Prop :=
  Level fs fs' ∧ ∀ b ≤ n, fs.dir.log b = d.log b

theorem levelTo_removeLog {n b : ℕ} {d : Dir} (hb : n < b) :
    Follows (LevelTo n d) (FsM.removeLog b) (FsM.removeLog b) := by
  intro fs fs' h u fs₁ hrun
  obtain ⟨fs₁', hrun', hlevel⟩ := removeLog_follows level_carried b fs fs' h.1 u fs₁ hrun
  refine ⟨fs₁', hrun', hlevel, fun b' hb' => ?_⟩
  rw [← h.2 b' hb']
  simp only [FsM.removeLog, FsM.perform, EStateM.run] at hrun
  split_ifs at hrun
  split at hrun
  · cases hrun
  · cases hrun
    have hne : b' ≠ b := by omega
    simp [hne]

theorem levelTo_removeIndex {n b : ℕ} {d : Dir} :
    Follows (LevelTo n d) (FsM.removeIndex b) (FsM.removeIndex b) := by
  intro fs fs' h u fs₁ hrun
  obtain ⟨fs₁', hrun', hlevel⟩ := level_carried.removeIndex b fs fs' h.1 u fs₁ hrun
  refine ⟨fs₁', hrun', hlevel, fun b' hb' => ?_⟩
  rw [← h.2 b' hb']
  simp only [FsM.removeIndex, FsM.perform, EStateM.run] at hrun
  split_ifs at hrun
  split at hrun
  · cases hrun
  · cases hrun
    simp

private theorem LogOk.log_closed (h : LogOk crc config s cs act) {seg : Segment} {base : ℕ}
    {chunk : List Record} (hseg : seg ∈ s.1.closed) (hfaithful : Faithful crc config base chunk seg)
    (hchunk : chunk <+: (cs.flatten ++ act).drop base) :
    ∃ synced, s.2.dir.log base = some ⟨encodeAll crc chunk, synced⟩ := by
  obtain ⟨chunk', hok, hchunk'⟩ := h.closed_chunk hseg
  obtain rfl := hfaithful.chunk_eq hchunk hok hchunk' (.inl (List.prefix_refl _))
  rw [← hfaithful.base_eq]
  exact hok.log_file

/-- The end of a cut that leaves the active segment. -/
def Log.rebuildFound (crc : List UInt8 → UInt32) (target n : ℕ) : LogM Unit := do
  match (← MethodM.self).closed.find? (·.baseOffset = target) with
  | none => throw .panic
  | some seg => Log.rebuildAt crc seg n

/-- A cut of a rolled segment on two logs with paired segments: what is behind it goes on both
sides, and then the segments of the pair are rebuilt. -/
theorem cutTo_paired {P : Segment → Segment → Prop}
    (hbase : ∀ {seg seg'}, P seg seg' → seg'.baseOffset = seg.baseOffset)
    (hapart : Apart config P Level s t) {n target : ℕ} (hlt : target < s.1.active.baseOffset)
    {s' : Log × Fs} (hrun : (Log.cutTo crc target n).run s = .ok () s') :
    ∃ s₁ t₁ seg seg', seg ∈ s.1.closed ∧ seg.baseOffset = target ∧ P seg seg' ∧
      Apart config P Level s₁ t₁ ∧ (∀ b ≤ target, s₁.2.dir.log b = s.2.dir.log b) ∧
      (Log.rebuildAt crc seg n).run s₁ = .ok () s' ∧
      (Log.cutTo crc target n).run t = (Log.rebuildAt crc seg' n).run t₁ := by
  -- the segments are remembered as those of the log before the cut
  let P' : Segment → Segment → Prop := fun seg seg' => seg ∈ s.1.closed ∧ P seg seg'
  have hbase' : ∀ {seg seg'}, P' seg seg' → seg'.baseOffset = seg.baseOffset := fun hP => hbase hP.2
  have hbefore : Apart config P' (LevelTo target s.2.dir) s t :=
    ⟨hapart.config_eq, hapart.rest,
      (List.forall₂_and_left _ _).mpr ⟨fun seg hseg => hseg, hapart.closed⟩, hapart.fs,
      fun _ _ => rfl⟩
  have hbases := bases_paired hbase hapart.closed
  have hactive : t.1.active = s.1.active := by rw [hapart.rest]
  let doomed := (s.1.closed.map Segment.baseOffset).filter (target < ·)
  have hdoomed : ∀ b ∈ doomed, target < b := fun b hb => by
    simpa using (List.mem_filter.mp hb).2
  let prepare : LogM Unit := do
    Log.removeDoomed doomed
    MethodM.onFs (FsM.removeLog s.1.active.baseOffset)
    MethodM.onFs (FsM.removeIndex s.1.active.baseOffset)
  have hprepare : Follows (Apart config P' (LevelTo target s.2.dir)) prepare prepare :=
    .bind (removeDoomed_apart hbase' (fun b hb => levelTo_removeLog (hdoomed b hb))
        fun b _ => levelTo_removeIndex) fun _ =>
      .bind (onFs_apart (levelTo_removeLog hlt)) fun _ => onFs_apart levelTo_removeIndex
  have hsplit : ∀ r : Log × Fs, r.1.closed.map Segment.baseOffset =
      s.1.closed.map Segment.baseOffset → r.1.active = s.1.active →
      (Log.cutTo crc target n).run r =
        (prepare >>= fun _ => Log.rebuildFound crc target n).run r := by
    intro r hr hr'
    rw [Log.cutTo, run_bind_ok (MethodM.run_self r), hr, hr', if_neg hlt.ne']
    simp only [prepare, bind_assoc]
    rfl
  rw [hsplit s rfl rfl, EStateM.run_bind] at hrun
  rw [hsplit t hbases hactive, EStateM.run_bind]
  cases hfirst : prepare.run s with
  | error e s₁ =>
    rw [hfirst] at hrun
    cases hrun
  | ok u s₁ =>
    obtain ⟨t₁, hfirst', happart₁⟩ := hprepare s t hbefore u s₁ hfirst
    rw [hfirst] at hrun
    rw [hfirst']
    dsimp only at hrun ⊢
    rw [Log.rebuildFound, run_bind_ok (MethodM.run_self _)] at hrun ⊢
    rcases find?_paired hbase' happart₁.closed (· = target) with
      ⟨hs, ht⟩ | ⟨seg, seg', ⟨hseg, hP⟩, hs, ht⟩
    · rw [hs] at hrun
      cases hrun
    · rw [hs] at hrun
      rw [ht]
      have hsegBase : seg.baseOffset = target := by simpa using List.find?_some hs
      exact ⟨s₁, t₁, seg, seg', hseg, hsegBase, hP, ⟨happart₁.config_eq, happart₁.rest,
        happart₁.closed.imp fun _ _ hpair => hpair.2, happart₁.fs.1⟩, happart₁.fs.2, hrun, rfl⟩

private theorem cutTo_agreeing (hc : config.Valid) (h : LogOk crc config s cs act)
    (hapart : Apart config (Agreeing crc config (cs.flatten ++ act)) Level s t) {n target : ℕ}
    (htarget : s.1.truncateTarget n = some target) (hne : s.1.active.baseOffset ≠ target)
    {s' : Log × Fs} (hrun : (Log.cutTo crc target n).run s = .ok () s') :
    ∃ t', (Log.cutTo crc target n).run t = .ok () t' ∧
      Apart config (Agreeing crc config (cs.flatten ++ act)) Level s' t' := by
  obtain ⟨hle, hlt, hend⟩ := h.truncateTarget_spec htarget hne
  have hpaired := agreeing_paired crc config (cs.flatten ++ act)
  obtain ⟨s₁, t₁, seg, seg', hseg, hsegBase, hagree, happart₁, hlogs, hrun₁, hcut⟩ :=
    cutTo_paired hpaired.base_eq hapart hlt hrun
  rw [hcut]
  rcases hagree with rfl | ⟨base, chunk, hfaithful, hfaithful', hchunk⟩
  · exact rebuildAt_apart hpaired.base_eq level_carried seg n s₁ t₁ happart₁ () s' hrun₁
  · obtain ⟨synced, hfile⟩ := h.log_closed hseg hfaithful hchunk
    have hsame := hfaithful.base_eq
    have hin := hend seg hseg hsegBase
    have hnext := hfaithful.next_eq
    obtain ⟨k, rfl⟩ := Nat.exists_eq_add_of_le (show base ≤ n by omega)
    have hfile₁ := (hlogs base (by omega)).trans hfile
    have hfile₂ := (happart₁.fs.log_eq base).symm.trans hfile₁
    exact rebuildAt_paired hpaired.base_eq level_carried happart₁
      (hfaithful'.base_eq.trans hfaithful.base_eq.symm)
      (hfaithful.positionOf hc hfile₁ (by omega)) (hfaithful'.positionOf hc hfile₂ (by omega)) hrun₁

private theorem truncateSuffix_agreeing (hc : config.Valid) (h : LogOk crc config s cs act)
    (hapart : Apart config (Agreeing crc config (cs.flatten ++ act)) Level s t) {n : ℕ}
    {s' : Log × Fs} (hrun : (Log.truncateSuffix crc n).run s = .ok () s') :
    ∃ t', (Log.truncateSuffix crc n).run t = .ok () t' ∧
      Apart config (Agreeing crc config (cs.flatten ++ act)) Level s' t' := by
  have hpaired := agreeing_paired crc config (cs.flatten ++ act)
  have hactive : t.1.active = s.1.active := by rw [hapart.rest]
  rw [Log.truncateSuffix, run_bind_ok (MethodM.run_self _)] at hrun ⊢
  rw [hapart.nextOffset_eq, hapart.startOffset_eq hpaired.base_eq,
    hapart.truncateTarget_eq hpaired.base_eq]
  split_ifs at hrun ⊢ with hpast hbelow
  · cases hrun
    exact ⟨t, rfl, hapart⟩
  · cases hrun
  · cases htarget : s.1.truncateTarget n with
    | none =>
      rw [htarget] at hrun
      cases hrun
    | some target =>
      rw [htarget] at hrun
      dsimp only at hrun ⊢
      by_cases hne : s.1.active.baseOffset = target
      · -- nothing is behind the active segment
        have hfollows : Follows (Apart config (Agreeing crc config (cs.flatten ++ act)) Level)
            (do
              Log.removeDoomed ((s.1.closed.map Segment.baseOffset).filter (target < ·))
              Log.rebuildAt crc s.1.active n)
            (do
              Log.removeDoomed ((s.1.closed.map Segment.baseOffset).filter (target < ·))
              Log.rebuildAt crc s.1.active n) :=
          .bind (removeDoomed_apart hpaired.base_eq
              (fun b _ => removeLog_follows level_carried b)
              fun b _ => level_carried.removeIndex b) fun _ =>
            rebuildAt_apart hpaired.base_eq level_carried _ _
        rw [Log.cutTo, run_bind_ok (MethodM.run_self _), if_pos hne] at hrun
        rw [Log.cutTo, run_bind_ok (MethodM.run_self _), hactive, if_pos hne,
          bases_paired hpaired.base_eq hapart.closed]
        exact hfollows s t hapart () s' hrun
      · exact cutTo_agreeing hc h hapart htarget hne hrun

/-! ## Runs -/

def LogOp.Call : LogOp → Prop
  | .reopen _ => False
  | _ => True

theorem appendRecord_large {r : Record} (hlarge : s.1.config.maxRecordBytes < r.encodedLen)
    (clock : Clock) : (Log.appendRecord crc clock r).run s =
      .error (.err (.recordTooLarge r.encodedLen)) s := by
  rw [Log.appendRecord, run_bind_ok (MethodM.run_self s), if_pos hlarge]
  rfl

private theorem execRecord_apart {P : Segment → Segment → Prop} (hP : Paired P) (clock : Clock)
    (r : Record) : Follows (Apart config P Level) (LogOp.execRecord crc clock r)
      (LogOp.execRecord crc clock r) :=
  .bind (appendRecord_apart hP level_carried clock r) fun _ => .pure _

/-- Appends of a record in its place, where it is too large or not. -/
theorem execRecord_agreeing (hc : config.Valid) (h : LogOk crc config s cs act) {r : Record}
    (hoffset : r.offset = (cs.flatten ++ act).length)
    (hroom : (cs.flatten ++ act).length < 2 ^ 64) (clock : Clock)
    (hapart : Apart config (Agreeing crc config (cs.flatten ++ act)) Level s t) :
    outcome ((LogOp.execRecord crc clock r).run t) =
        outcome ((LogOp.execRecord crc clock r).run s) ∧
      Apart config (Agreeing crc config (cs.flatten ++ act)) Level
        (resultState ((LogOp.execRecord crc clock r).run s))
        (resultState ((LogOp.execRecord crc clock r).run t)) := by
  have hconfig : t.1.config = config := by
    rw [hapart.rest]
    exact h.config_eq
  rcases appendRecord_refines hc h hoffset hroom clock with
    ⟨hlarge, -⟩ | ⟨-, info, log, ops, hrun, -⟩
  · have hs := @appendRecord_large crc s _ (h.config_eq.symm ▸ hlarge) clock
    have ht := @appendRecord_large crc t _ (hconfig.symm ▸ hlarge) clock
    rw [LogOp.execRecord, EStateM.run_bind, EStateM.run_bind, hs, ht]
    exact ⟨rfl, hapart⟩
  · have hdone : (LogOp.execRecord crc clock r).run s =
        .ok (some info.offset) (log, s.2.advance ops) := by
      rw [LogOp.execRecord, run_bind_ok hrun]
      rfl
    obtain ⟨t', ht, happart'⟩ :=
      execRecord_apart (agreeing_paired crc config _) clock r s t hapart _ _ hdone
    rw [hdone, ht]
    exact ⟨rfl, happart'⟩

private theorem exec_agreeing (hc : config.Valid) (h : LogOk crc config s cs act)
    (hroom : (cs.flatten ++ act).length < 2 ^ 64)
    (hapart : Apart config (Agreeing crc config (cs.flatten ++ act)) Level s t) {op : LogOp}
    (hop : op.Call) :
    outcome ((op.exec crc).run t) = outcome ((op.exec crc).run s) ∧
      Apart config (Agreeing crc config (cs.flatten ++ act)) Level
        (resultState ((op.exec crc).run s)) (resultState ((op.exec crc).run t)) := by
  have hpaired := agreeing_paired crc config (cs.flatten ++ act)
  have hnext : s.1.nextOffset = (cs.flatten ++ act).length := h.nextOffset_eq
  have hnext' := hapart.nextOffset_eq.trans hnext
  cases op with
  | append clock key value =>
    rw [LogOp.exec_append hnext, LogOp.exec_append hnext']
    exact execRecord_agreeing hc h rfl hroom clock hapart
  | appendReplicated clock r =>
    by_cases hoffset : r.offset = (cs.flatten ++ act).length
    · rw [LogOp.exec_appendReplicated hnext clock hoffset,
        LogOp.exec_appendReplicated hnext' clock hoffset]
      exact execRecord_agreeing hc h hoffset hroom clock hapart
    · rw [LogOp.exec_appendReplicated_gap crc hnext clock hoffset,
        LogOp.exec_appendReplicated_gap crc hnext' clock hoffset]
      exact ⟨rfl, hapart⟩
  | flush clock =>
    obtain ⟨log, hrun, -⟩ := flush_spec h clock
    have hdone : ((LogOp.flush clock).exec crc).run s =
        .ok none (log, s.2.advance [.fsyncLog s.1.active.baseOffset]) := by
      rw [LogOp.exec, run_bind_ok hrun]
      rfl
    have hfollows : Follows (Apart config (Agreeing crc config (cs.flatten ++ act)) Level)
        ((LogOp.flush clock).exec crc) ((LogOp.flush clock).exec crc) :=
      .bind (flush_apart level_carried clock) fun _ => .pure _
    obtain ⟨t', ht, happart'⟩ := hfollows s t hapart _ _ hdone
    rw [hdone, ht]
    exact ⟨rfl, happart'⟩
  | truncateSuffix n =>
    obtain ⟨s', hrun⟩ : ∃ s', (Log.truncateSuffix crc n).run s = .ok () s' := by
      by_cases hin : n < (cs.flatten ++ act).length
      · obtain ⟨log, ops, -, -, hrun, -⟩ := truncateSuffix_spec hc h hin
        exact ⟨_, hrun⟩
      · exact ⟨s, truncateSuffix_past h (by omega)⟩
    obtain ⟨t', hrun', happart'⟩ := truncateSuffix_agreeing hc h hapart hrun
    rw [LogOp.exec, run_bind_ok hrun, run_bind_ok hrun']
    exact ⟨rfl, happart'⟩
  | reopen => exact hop.elim

end Calls

theorem LogOp.step_eq_outcome (op : LogOp) (s : Log × Fs) :
    op.step crc s = (outcome ((op.exec crc).run s), resultState ((op.exec crc).run s)) := by
  rw [LogOp.step]
  cases (op.exec crc).run s <;> rfl

private theorem LogOp.spec_comparable (op : LogOp) (rs : List Record) :
    rs <+: (op.spec config rs).2 ∨ (op.spec config rs).2 <+: rs := by
  have happend : ∀ r, rs <+: (LogOp.specAppend config r rs).2 := fun r => by
    rw [LogOp.specAppend]
    split_ifs
    · exact List.prefix_refl rs
    · exact List.prefix_append rs [r]
  cases op with
  | append => exact .inl (happend _)
  | appendReplicated =>
    rw [LogOp.spec]
    split_ifs
    · exact .inl (List.prefix_refl rs)
    · exact .inl (happend _)
  | flush => exact .inl (List.prefix_refl rs)
  | truncateSuffix n => exact .inr (List.take_prefix n rs)
  | reopen => exact .inl (List.prefix_refl rs)

/-- The logs are alike, and the first one stands for the records. -/
def Twinned (crc : List UInt8 → UInt32) (config : LogConfig) (rs : List Record)
    (s t : Log × Fs) : Prop :=
  Represents crc config s rs ∧ Apart config (Agreeing crc config rs) Level s t

theorem Twinned.step (hc : config.Valid) {n : ℕ} {rs : List Record} {s t : Log × Fs}
    (h : Twinned crc config rs s t) (hroom : rs.length + (n + 1) ≤ 2 ^ 64) {op : LogOp}
    (hop : op.Call) :
    (op.step crc t).1 = (op.step crc s).1 ∧
      Twinned crc config (op.spec config rs).2 (op.step crc s).2 (op.step crc t).2 ∧
      (op.spec config rs).2.length + n ≤ 2 ^ 64 := by
  obtain ⟨hrep, hapart⟩ := h
  obtain ⟨-, ⟨hafter, hroom'⟩⟩ := step_refines hc n op s rs ⟨hrep, hroom⟩
  obtain ⟨cs, act, hok, rfl⟩ := hrep
  obtain ⟨hreply, happart'⟩ := exec_agreeing hc hok (by omega) hapart hop
  rw [LogOp.step_eq_outcome] at hafter
  rw [LogOp.step_eq_outcome, LogOp.step_eq_outcome]
  refine ⟨hreply, ⟨hafter, ?_⟩, hroom'⟩
  obtain ⟨cs', act', hok', hrs⟩ := hafter
  have hcomparable := @LogOp.spec_comparable config op (cs.flatten ++ act)
  rw [← hrs] at hcomparable ⊢
  exact happart'.grown hok' hcomparable

/-- Twin logs give the same replies, and the same reads afterwards. -/
theorem Twinned.run (hc : config.Valid) {rs : List Record} {s t : Log × Fs}
    (h : Twinned crc config rs s t) {ops : List LogOp} (hroom : rs.length + ops.length ≤ 2 ^ 64)
    (hops : ∀ op ∈ ops, op.Call) :
    (runOps (LogOp.step crc) ops t).1 = (runOps (LogOp.step crc) ops s).1 ∧
      ∀ o maxBytes, outcome ((Log.read crc o maxBytes).run (runOps (LogOp.step crc) ops t).2) =
        outcome ((Log.read crc o maxBytes).run (runOps (LogOp.step crc) ops s).2) := by
  obtain ⟨hreplies, rs', ⟨⟨cs, act, hok, rfl⟩, hapart⟩, -⟩ := run_related
    (R := fun n t s => ∃ rs, Twinned crc config rs s t ∧ rs.length + n ≤ 2 ^ 64)
    (P := LogOp.Call) (fun n op t s hop ⟨rs, htwin, hroom⟩ => by
      obtain ⟨hreply, htwin', hroom'⟩ := htwin.step hc hroom hop
      exact ⟨hreply, _, htwin', hroom'⟩) ops hops (n := 0) ⟨rs, h, by omega⟩
  exact ⟨hreplies, fun o maxBytes => read_agreeing hc hok hapart o maxBytes⟩

end Replog.Storage
