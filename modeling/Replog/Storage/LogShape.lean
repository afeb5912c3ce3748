import Replog.Storage.LogLives
import Replog.Storage.Recovering

/-!
# The shape of a log in memory

Whatever its files hold and whichever file operations fail, the segments of a log come in order,
none of them reaches into a later one, and the active one counts a record once it has bytes.
-/

namespace Replog.Storage
open Replog.Library

/-- One segment comes before another. -/
def Segment.Before (s t : Segment) : Prop :=
  s.baseOffset < t.baseOffset ∧ s.nextOffset ≤ t.baseOffset

/-- A segment with bytes has a record. -/
structure Segment.Counts (seg : Segment) : Prop where
  base_le : seg.baseOffset ≤ seg.nextOffset
  base_lt : 0 < seg.size → seg.baseOffset < seg.nextOffset

structure Log.Tidy (log : Log) : Prop where
  pairwise : (log.closed ++ [log.active]).Pairwise Segment.Before
  counts : log.active.Counts

namespace Log.Tidy

variable {log : Log}

theorem closed_before (h : log.Tidy) {s : Segment} (hs : s ∈ log.closed) : s.Before log.active :=
  (List.pairwise_append.mp h.pairwise).2.2 s hs log.active (List.mem_singleton.mpr rfl)

theorem sorted (h : log.Tidy) :
    (log.closed.map Segment.baseOffset ++ [log.active.baseOffset]).Pairwise (· < ·) := by
  have hmap := h.pairwise.map (S := (· < ·)) Segment.baseOffset fun _ _ hst => hst.1
  rwa [List.map_append, List.map_singleton] at hmap

/-- Of two segments the one with the lower base ends before the other one. -/
theorem ends {segs : List Segment} (h : segs.Pairwise Segment.Before) {s t : Segment}
    (hs : s ∈ segs) (ht : t ∈ segs) (hlt : s.baseOffset < t.baseOffset) :
    s.nextOffset ≤ t.baseOffset := by
  induction segs with
  | nil => cases hs
  | cons u segs ih =>
    obtain ⟨hfirst, hrest⟩ := List.pairwise_cons.mp h
    rcases List.mem_cons.mp hs with rfl | hs' <;> rcases List.mem_cons.mp ht with rfl | ht'
    · exact absurd hlt (Nat.lt_irrefl _)
    · exact (hfirst t ht').2
    · exact absurd hlt (Nat.lt_asymm (hfirst s hs').1)
    · exact ih hrest hs' ht'

theorem sublist {log' : Log} (h : log.Tidy) (hclosed : log'.closed.Sublist log.closed)
    (hactive : log'.active = log.active) : log'.Tidy := by
  refine ⟨?_, hactive ▸ h.counts⟩
  rw [hactive]
  exact h.pairwise.sublist (hclosed.append_right _)

theorem grown {log' : Log} (h : log.Tidy) (hclosed : log'.closed = log.closed)
    (hbase : log'.active.baseOffset = log.active.baseOffset) (hcounts : log'.active.Counts) :
    log'.Tidy := by
  refine ⟨?_, hcounts⟩
  obtain ⟨hpair, -, hbefore⟩ := List.pairwise_append.mp h.pairwise
  rw [hclosed, List.pairwise_append]
  refine ⟨hpair, List.pairwise_singleton _ _, fun s hs t ht => ?_⟩
  rw [List.mem_singleton.mp ht, Segment.Before, hbase]
  exact hbefore s hs log.active (List.mem_singleton.mpr rfl)

end Log.Tidy

/-! ## Segments -/

section Segments

variable (crc : List UInt8 → UInt32) (config : LogConfig)

private theorem scan_counts {base : ℕ} (truncate rebuild : Bool) (fuel : ℕ) (buf : List UInt8)
    (st : Segment.Scan) (hbase : base ≤ st.nextOffset)
    (hcounted : 0 < st.validEnd → base < st.nextOffset) (fs : Fs) :
    Ends (fun st' _ => base ≤ st'.nextOffset ∧ (0 < st'.validEnd → base < st'.nextOffset))
      (fun _ _ => True) ((Segment.scan crc config base truncate rebuild fuel buf st).run fs) := by
  induction fuel generalizing buf st fs with
  | zero => exact ⟨hbase, hcounted⟩
  | succ fuel ih =>
    rw [Segment.scan]
    split
    · split_ifs
      · trivial
      · exact Ends.bind (fun _ _ => True) (Keeps.trivial _ fs True.intro) fun _ fs' _ =>
          ih _ _ (by dsimp only; omega) (fun _ => by dsimp only; omega) fs'
      · exact ih _ _ (by dsimp only; omega) (fun _ => by dsimp only; omega) fs
    · split_ifs
      · exact ⟨hbase, hcounted⟩
      · trivial
    · split_ifs
      · exact ⟨hbase, hcounted⟩
      · trivial

theorem recover_shape (base : ℕ) (fs : Fs) :
    Ends (fun seg _ => seg.baseOffset = base ∧ seg.Counts) (fun _ _ => True)
      ((Segment.recover crc config base true).run fs) := by
  rw [Segment.recover]
  refine Ends.bind (fun start _ => start.2.1 = 0 ∧ start.2.2.1 = base) ?_ ?_
  · rw [Segment.recoverStart, if_pos rfl]
    exact Ends.bind (fun _ _ => True) (Keeps.trivial _ fs True.intro) fun _ _ _ => ⟨rfl, rfl⟩
  rintro ⟨index, scanPos, scanOffset, rebuild⟩ fs₁ ⟨rfl, rfl⟩
  dsimp only
  refine Ends.bind (fun _ _ => True) (Keeps.trivial _ fs₁ True.intro) fun file fs₂ _ => ?_
  refine Ends.bind (fun _ _ => True) (Keeps.trivial _ fs₂ True.intro) fun capacity fs₃ _ => ?_
  refine Ends.bind _ (scan_counts crc config true rebuild (capacity + 1) _ _ le_rfl
    (fun h => absurd h (Nat.lt_irrefl 0)) fs₃) fun st fs₄ hst => ?_
  exact Ends.bind (fun _ _ => True) (Keeps.trivial _ fs₄ True.intro) fun _ _ _ =>
    ⟨rfl, hst.1, hst.2⟩

/-- Every recovered segment is the one at its base. -/
theorem recover_base (base : ℕ) (truncate : Bool) (fs : Fs) :
    Ends (fun seg _ => seg.baseOffset = base) (fun _ _ => True)
      ((Segment.recover crc config base truncate).run fs) := by
  rw [Segment.recover]
  refine Ends.bind (fun _ _ => True) (Keeps.trivial _ fs True.intro) ?_
  rintro ⟨index, scanPos, scanOffset, rebuild⟩ fs₁ -
  refine Ends.bind (fun _ _ => True) (Keeps.trivial _ fs₁ True.intro) fun file fs₂ _ => ?_
  refine Ends.bind (fun _ _ => True) (Keeps.trivial _ fs₂ True.intro) fun capacity fs₃ _ => ?_
  refine Ends.bind (fun _ _ => True) (Keeps.trivial _ fs₃ True.intro) fun st fs₄ _ => ?_
  exact Ends.bind (fun _ _ => True) (Keeps.trivial _ fs₄ True.intro) fun _ _ _ => rfl

end Segments

/-! ## Opening -/

/-- The closed segments recovered so far come in order, and the last one ends where the next has to
start. -/
structure Recovered (closed : List Segment) (expected : Option ℕ) : Prop where
  pairwise : closed.Pairwise Segment.Before
  isSome : closed ≠ [] → expected.isSome
  ends : ∀ s ∈ closed, expected = some s.nextOffset ∨ ∃ t ∈ closed, s.nextOffset ≤ t.baseOffset

theorem Recovered.nil : Recovered [] none := ⟨.nil, nofun, nofun⟩

private theorem checkBase_before {closed : List Segment} {expected : Option ℕ} {base : ℕ}
    (h : Recovered closed expected) (hbelow : ∀ s ∈ closed, s.baseOffset < base) (fs : Fs) :
    Ends (fun _ _ => ∀ s ∈ closed, s.baseOffset < base ∧ s.nextOffset ≤ base) (fun _ _ => True)
      ((Log.checkBase base expected).run fs) := by
  cases expected with
  | none =>
    intro s hs
    have hsome := h.isSome (List.ne_nil_of_mem hs)
    cases hsome
  | some b =>
    rw [Log.checkBase]
    split_ifs with hne
    · trivial
    · intro s hs
      refine ⟨hbelow s hs, ?_⟩
      rcases h.ends s hs with hlast | ⟨t, ht, hle⟩
      · cases hlast
        omega
      · have hlt := hbelow t ht
        omega

private theorem recoverAll_tidy (crc : List UInt8 → UInt32) (config : LogConfig) {bases : List ℕ}
    {expected : Option ℕ} {closed : List Segment} (hsorted : bases.Pairwise (· < ·))
    (h : Recovered closed expected) (hbelow : ∀ s ∈ closed, ∀ b ∈ bases, s.baseOffset < b)
    (fs : Fs) :
    Ends (fun r _ => ∀ active, r.2 = some active →
        (r.1 ++ [active]).Pairwise Segment.Before ∧ active.Counts)
      (fun _ _ => True) ((Log.recoverAll crc config bases expected closed).run fs) := by
  induction bases generalizing expected closed fs with
  | nil =>
    intro active hactive
    cases hactive
  | cons base rest ih =>
    obtain ⟨hfirst, hrest⟩ := List.pairwise_cons.mp hsorted
    have hcheck := checkBase_before h fun s hs => hbelow s hs base List.mem_cons_self
    have hsnoc : ∀ seg : Segment, seg.baseOffset = base →
        (∀ s ∈ closed, s.baseOffset < base ∧ s.nextOffset ≤ base) →
        (closed ++ [seg]).Pairwise Segment.Before := by
      intro seg hbase hseg
      refine List.pairwise_append.mpr ⟨h.pairwise, List.pairwise_singleton _ _, fun s hs t ht => ?_⟩
      rw [List.mem_singleton.mp ht, Segment.Before, hbase]
      exact hseg s hs
    rw [Log.recoverAll]
    cases rest with
    | nil =>
      refine Ends.bind _ (recover_shape crc config base fs) fun seg fs₁ hshape => ?_
      obtain ⟨hbase, hcounts⟩ := hshape
      refine Ends.bind _ (hcheck fs₁) fun _ fs₂ hbefore => ?_
      intro active hactive
      cases hactive
      exact ⟨hsnoc seg hbase hbefore, hcounts⟩
    | cons next rest =>
      refine Ends.bind _ (recover_base crc config base _ fs) fun seg fs₁ hbase => ?_
      refine Ends.bind _ (hcheck fs₁) fun _ fs₂ hbefore => ?_
      have hinsert : Log.insertClosed seg closed = closed ++ [seg] :=
        insertClosed_of_lt fun s hs => hbase ▸ (hbefore s hs).1
      rw [hinsert]
      refine ih hrest ⟨hsnoc seg hbase hbefore, fun _ => rfl, fun s hs => ?_⟩
        (fun s hs b hb => ?_) fs₂
      · rcases List.mem_append.mp hs with hs | hs
        · exact .inr ⟨seg, by simp, hbase ▸ (hbefore s hs).2⟩
        · rw [List.mem_singleton.mp hs]
          exact .inl rfl
      · rcases List.mem_append.mp hs with hs | hs
        · exact hbelow s hs b (List.mem_cons_of_mem base hb)
        · rw [List.mem_singleton.mp hs, hbase]
          exact hfirst b hb

theorem create_shape (base : ℕ) (fs : Fs) :
    Ends (fun seg _ => seg.baseOffset = base ∧ seg.Counts) (fun _ _ => True)
      ((Segment.create base).run fs) := by
  refine Ends.bind (fun _ _ => True) (Keeps.trivial _ fs True.intro) fun _ fs₁ _ => ?_
  exact Ends.bind (fun _ _ => True) (Keeps.trivial _ fs₁ True.intro) fun _ _ _ =>
    ⟨rfl, le_rfl, fun h => absurd h (Nat.lt_irrefl 0)⟩

/-- Whatever a directory holds, a log that it opens with is in shape. -/
theorem openDir_tidy (crc : List UInt8 → UInt32) (config : LogConfig) (clock : Clock) (fs : Fs) :
    Ends (fun log _ => log.Tidy) (fun _ _ => True) ((Log.openDir crc config clock).run fs) := by
  rw [Log.openDir]
  split
  · exact True.intro
  refine Ends.bind (fun bases s => bases = s) (rfl : fs = fs) ?_
  rintro fs₂ _ rfl
  have hsorted : (fs₂.dir.logs.keys.insertionSort (· ≤ ·)).Pairwise (· < ·) :=
    ((List.pairwise_insertionSort (· ≤ ·) fs₂.dir.logs.keys).and
      ((List.perm_insertionSort _ _).nodup_iff.mpr fs₂.dir.logs.keys_nodup)).imp fun h =>
        lt_of_le_of_ne h.1 h.2
  have hrecover := recoverAll_tidy crc config hsorted .nil fun _ h => absurd h List.not_mem_nil
  dsimp only
  split_ifs
  · refine Ends.bind _ (create_shape 0 fs₂) fun seg fs₃ hshape => ?_
    exact ⟨List.pairwise_singleton _ _, hshape.2⟩
  · refine Ends.bind _ (hrecover fs₂) ?_
    rintro ⟨closed, active⟩ fs₃ htidy
    cases active with
    | none => trivial
    | some active =>
      obtain ⟨hpair, hcounts⟩ := htidy active rfl
      exact ⟨hpair, hcounts⟩

/-! ## Operations -/

section Operations

variable (crc : List UInt8 → UInt32)

abbrev KeepsTidy {α : Type} (x : LogM α) : Prop := Keeps (fun s => s.1.Tidy) x

theorem flush_keeps_segments {P : List Segment → Segment → Prop} (clock : Clock) :
    Keeps (fun s : Log × Fs => P s.1.closed s.1.active) (Log.flush clock) :=
  Keeps.bind self_keeps fun _ =>
    Keeps.bind (onFs_keeps_self (P := fun log : Log => P log.closed log.active) _) fun _ =>
      Keeps.bind (modifySelf_keeps (P := fun log : Log => P log.closed log.active)
        fun _ h => h) fun _ => Keeps.bind self_keeps fun _ => Keeps.pure _

theorem flush_tidy (clock : Clock) : KeepsTidy (Log.flush clock) := by
  have hsegments := flush_keeps_segments (P := fun closed active =>
    (closed ++ [active]).Pairwise Segment.Before ∧ active.Counts) clock
  exact fun s hs => (hsegments s ⟨hs.pairwise, hs.counts⟩).imp (fun _ _ h => ⟨h.1, h.2⟩)
    fun _ _ h => ⟨h.1, h.2⟩

/-- A log rolls only when its active segment has bytes. -/
theorem roll_tidy (clock : Clock) {s : Log × Fs} (h : s.1.Tidy) (hsize : 0 < s.1.active.size) :
    Ends (fun _ s' => s'.1.Tidy) (fun _ s' => s'.1.Tidy) ((Log.roll clock).run s) := by
  have hflush := flush_keeps_segments (P := fun closed active =>
    ((closed ++ [active]).Pairwise Segment.Before ∧ active.Counts) ∧ 0 < active.size) clock
  rw [Log.roll]
  refine Ends.bind _ ((hflush s ⟨⟨h.pairwise, h.counts⟩, hsize⟩).imp_bad
    fun _ _ h => ⟨h.1.1, h.1.2⟩) ?_
  rintro _ ⟨log, fs⟩ ⟨⟨hpair, hcounts⟩, hsize⟩
  have htidy : log.Tidy := ⟨hpair, hcounts⟩
  refine Ends.bind (fun a s' => a = log ∧ s' = (log, fs)) ⟨rfl, rfl⟩ ?_
  rintro _ _ ⟨rfl, rfl⟩
  refine Ends.bind _ ((onFs_ends (create_shape _ fs)).imp_bad fun _ s' h => ?_) ?_
  · rw [h.1]
    exact htidy
  rintro seg ⟨log', fs'⟩ ⟨rfl, hbase, hnew⟩
  have hinsert : Log.insertClosed log'.active log'.closed = log'.closed ++ [log'.active] :=
    insertClosed_of_lt fun s hs => (htidy.closed_before hs).1
  have hrolled := hcounts.base_lt hsize
  refine ⟨?_, hnew⟩
  dsimp only
  rw [hinsert, List.pairwise_append]
  refine ⟨htidy.pairwise, List.pairwise_singleton _ _, fun s hs t ht => ?_⟩
  rw [List.mem_singleton.mp ht, Segment.Before, hbase]
  rcases List.mem_append.mp hs with hs | hs
  · obtain ⟨hlt, hle⟩ := htidy.closed_before hs
    exact ⟨hlt.trans hrolled, hle.trans hrolled.le⟩
  · rw [List.mem_singleton.mp hs]
    exact ⟨hrolled, le_rfl⟩

private theorem segment_append_shape (config : LogConfig) (r : Record) (base : ℕ) :
    Keeps (fun s : Segment × Fs => s.1.baseOffset = base ∧ s.1.Counts)
      (Segment.append crc config r) := by
  have hfs : ∀ {α : Type} (x : FsM α),
      Keeps (fun s : Segment × Fs => s.1.baseOffset = base ∧ s.1.Counts) (MethodM.onFs x) :=
    onFs_keeps_self (P := fun seg : Segment => seg.baseOffset = base ∧ seg.Counts)
  have hwrite : ∀ seg : Segment, Keeps (fun s : Segment × Fs => s.1.baseOffset = base ∧ s.1.Counts)
      (do
        MethodM.onFs (FsM.perform (.writeLog seg.baseOffset (r.encode crc)))
        MethodM.modifySelf fun s : Segment => { s with
          size := s.size + (r.encode crc).length
          bytesSinceIndex := s.bytesSinceIndex + (r.encode crc).length
          nextOffset := s.nextOffset + 1 }
        return (r.encode crc).length) := by
    intro seg
    refine Keeps.bind (hfs _) fun _ => Keeps.bind ?_ fun _ => Keeps.pure _
    refine modifySelf_keeps (P := fun seg : Segment => seg.baseOffset = base ∧ seg.Counts)
      fun seg h => ⟨h.1, ?_, fun _ => ?_⟩
    · exact le_trans h.2.base_le (Nat.le_succ _)
    · exact Nat.lt_succ_of_le h.2.base_le
  rw [Segment.append]
  refine Keeps.bind self_keeps fun seg => Keeps.ite (Keeps.bind (hfs _) fun index => ?_) (hwrite seg)
  refine Keeps.bind ?_ fun _ => hwrite seg
  exact modifySelf_keeps (P := fun seg : Segment => seg.baseOffset = base ∧ seg.Counts)
    fun _ h => ⟨h.1, h.2.base_le, h.2.base_lt⟩

private theorem writeRecord_tidy (clock : Clock) (r : Record) :
    KeepsTidy (Log.writeRecord crc clock r) := by
  have hend : KeepsTidy (do
      return (⟨r.offset, (← MethodM.self).durableOffset⟩ : AppendInfo) : LogM AppendInfo) :=
    Keeps.bind self_keeps fun _ => Keeps.pure _
  rw [Log.writeRecord]
  refine Keeps.bind self_keeps fun log => Keeps.bind ?_ fun written =>
    Keeps.bind (modifySelf_keeps fun _ h => h.grown rfl rfl h.counts) fun _ =>
      Keeps.bind self_keeps fun _ => Keeps.ite (Keeps.bind (flush_tidy clock) fun _ => hend) hend
  rintro ⟨log', fs⟩ h
  have hput : ∀ s' : Log × Fs, (∃ seg, s'.1 = { log' with active := seg } ∧
      seg.baseOffset = log'.active.baseOffset ∧ seg.Counts) → s'.1.Tidy := by
    rintro s' ⟨seg, hself, hbase, hcounts⟩
    rw [hself]
    exact h.grown rfl hbase hcounts
  exact (onField_ends (segment_append_shape crc log.config r log'.active.baseOffset
    (log'.active, fs) ⟨rfl, h.counts⟩)).imp (fun _ s' h => hput s' h) fun _ s' h => hput s' h

theorem appendRecord_tidy (clock : Clock) (r : Record) :
    KeepsTidy (Log.appendRecord crc clock r) := by
  rintro ⟨log, fs⟩ h
  have hwrite := writeRecord_tidy crc clock r
  rw [Log.appendRecord, EStateM.run_bind, MethodM.run_self]
  dsimp only
  split_ifs with hlarge hroll hroll
  · exact h
  · exact h
  · refine Ends.bind _ (roll_tidy clock h ?_) fun _ s' h' => hwrite s' h'
    rw [Log.rollDue, Bool.and_eq_true, decide_eq_true_eq] at hroll
    exact hroll.1
  · exact hwrite _ h

private theorem append_tidy (clock : Clock) (key : Option (List UInt8)) (value : List UInt8) :
    KeepsTidy (Log.append crc clock key value) :=
  Keeps.bind self_keeps fun _ => appendRecord_tidy crc clock _

private theorem appendReplicated_tidy (clock : Clock) (r : Record) :
    KeepsTidy (Log.appendReplicated crc clock r) := by
  have hrecord := appendRecord_tidy crc clock r
  rw [Log.appendReplicated]
  exact Keeps.bind self_keeps fun log =>
    Keeps.ite (Keeps.bind (onFs_keeps_self _) fun _ => hrecord) hrecord

/-- Removing closed segments leaves the active one. -/
theorem removeDoomed_tidy (doomed : List ℕ) (s : Log × Fs) (h : s.1.Tidy) :
    Ends (fun _ s' => s'.1.Tidy ∧ s'.1.active = s.1.active ∧
        ∀ seg ∈ s'.1.closed, seg ∈ s.1.closed ∧ seg.baseOffset ∉ doomed)
      (fun _ s' => s'.1.Tidy) ((Log.removeDoomed doomed).run s) := by
  induction doomed generalizing s with
  | nil => exact ⟨h, rfl, fun seg hseg => ⟨hseg, List.not_mem_nil⟩⟩
  | cons base rest ih =>
    let fewer : Log := { s.1 with closed := Log.removeClosed base s.1.closed }
    have htidy : fewer.Tidy := h.sublist List.filter_sublist rfl
    have hfs : ∀ (x : FsM Unit) (fs : Fs), Ends (fun _ s' => s'.1 = fewer) (fun _ s' => s'.1.Tidy)
        ((MethodM.onFs x : LogM Unit).run (fewer, fs)) := fun x fs =>
      (onFs_ends (a := fewer) (Keeps.trivial x fs True.intro)).imp (fun _ _ h => h.1)
        fun _ s' h' => by
          rw [h'.1]
          exact htidy
    rw [Log.removeDoomed, EStateM.run_bind, MethodM.run_modifySelf]
    refine Ends.bind _ (hfs _ s.2) ?_
    rintro _ ⟨_, fs₁⟩ rfl
    refine Ends.bind _ (hfs _ fs₁) ?_
    rintro _ ⟨_, fs₂⟩ rfl
    refine (ih (fewer, fs₂) htidy).imp (fun _ s' h' => ⟨h'.1, h'.2.1, fun seg hseg => ?_⟩)
      fun _ _ h' => h'
    obtain ⟨hmem, hrest⟩ := h'.2.2 seg hseg
    obtain ⟨hmem, hne⟩ := List.mem_filter.mp hmem
    exact ⟨hmem, fun hin => (List.mem_cons.mp hin).elim (by simpa using hne) hrest⟩

/-- The tail is kept in the segment at `target`. -/
theorem rebuildAt_tidy {log : Log} (h : log.Tidy) {target : Segment}
    (hmem : target ∈ log.closed ++ [log.active])
    (hlast : ∀ seg ∈ log.closed, seg.baseOffset ≤ target.baseOffset) (n : ℕ) (fs : Fs) :
    Ends (fun _ s' => s'.1.Tidy) (fun _ s' => s'.1.Tidy)
      ((Log.rebuildAt crc target n).run (log, fs)) := by
  have hsame : ∀ s' : Log × Fs, s'.1 = log → s'.1.Tidy := by
    intro s' hlog
    rw [hlog]
    exact h
  have hfs : ∀ {α : Type} (x : FsM α) (fs : Fs), Ends (fun _ s' => s'.1 = log)
      (fun _ s' => s'.1.Tidy) ((MethodM.onFs x : LogM α).run (log, fs)) := fun x fs =>
    (onFs_ends (a := log) (Keeps.trivial x fs True.intro)).imp (fun _ _ h => h.1)
      fun _ s' h => hsame s' h.1
  rw [Log.rebuildAt]
  rw [EStateM.run_bind, MethodM.run_self]
  dsimp only
  refine Ends.bind _ (hfs _ fs) ?_
  rintro p ⟨_, fs₂⟩ rfl
  refine Ends.bind _ (hfs _ fs₂) ?_
  rintro _ ⟨_, fs₃⟩ rfl
  refine Ends.bind _ (hfs _ fs₃) ?_
  rintro _ ⟨_, fs₄⟩ rfl
  refine Ends.bind _ (hfs _ fs₄) ?_
  rintro _ ⟨log, fs₅⟩ rfl
  refine Ends.bind _ ((onFs_ends (recover_shape crc _ _ fs₅)).imp_bad
    fun _ s' h => hsame s' h.1) ?_
  rintro rebuilt ⟨_, fs₆⟩ ⟨rfl, hbase, hcounts⟩
  refine ⟨?_, hcounts⟩
  dsimp only
  rw [List.pairwise_append]
  refine ⟨(List.pairwise_append.mp h.pairwise).1.sublist List.filter_sublist,
    List.pairwise_singleton _ _, fun s hs t ht => ?_⟩
  rw [List.mem_singleton.mp ht, Segment.Before, hbase]
  obtain ⟨hs, hne⟩ := List.mem_filter.mp hs
  have hle := hlast s hs
  have hlt : s.baseOffset < target.baseOffset := lt_of_le_of_ne hle (by simpa using hne)
  exact ⟨hlt, Log.Tidy.ends h.pairwise (List.mem_append_left _ hs) hmem hlt⟩

private theorem cutTo_tidy {s : Log × Fs} (h : s.1.Tidy) (target n : ℕ) :
    Ends (fun _ s' => s'.1.Tidy) (fun _ s' => s'.1.Tidy) ((Log.cutTo crc target n).run s) := by
  rw [Log.cutTo, EStateM.run_bind, MethodM.run_self]
  dsimp only
  refine Ends.bind _ (removeDoomed_tidy _ s h) ?_
  rintro _ ⟨log, fs⟩ ⟨htidy, hactive, hleft⟩
  split_ifs with htarget
  · rw [← hactive]
    exact rebuildAt_tidy crc htidy (by simp) (fun seg hseg => (htidy.closed_before hseg).1.le) n fs
  have hfs : ∀ (x : FsM Unit) (fs : Fs), Ends (fun _ s' => s'.1 = log) (fun _ s' => s'.1.Tidy)
      ((MethodM.onFs x : LogM Unit).run (log, fs)) := fun x fs =>
    (onFs_ends (a := log) (Keeps.trivial x fs True.intro)).imp (fun _ _ h => h.1)
      fun _ s' h' => by
        rw [h'.1]
        exact htidy
  refine Ends.bind _ (hfs _ fs) ?_
  rintro _ ⟨log, fs₁⟩ rfl
  refine Ends.bind _ (hfs _ fs₁) ?_
  rintro _ ⟨log, fs₂⟩ rfl
  rw [EStateM.run_bind, MethodM.run_self]
  dsimp only
  split
  · exact htidy
  · rename_i seg hfind
    have hbase : seg.baseOffset = target := by simpa using List.find?_some hfind
    refine rebuildAt_tidy crc htidy (List.mem_append_left _ (List.mem_of_find?_eq_some hfind))
      (fun t ht => ?_) n fs₂
    obtain ⟨hmem, hstays⟩ := hleft t ht
    by_contra hbehind
    exact hstays (List.mem_filter.mpr ⟨List.mem_map_of_mem hmem, by simpa [hbase] using hbehind⟩)

private theorem truncateSuffix_tidy (n : ℕ) : KeepsTidy (Log.truncateSuffix crc n) := by
  intro s h
  rw [Log.truncateSuffix, EStateM.run_bind, MethodM.run_self]
  dsimp only
  split_ifs
  · exact h
  · exact h
  · split
    · exact h
    · exact cutTo_tidy crc h _ n

theorem LogOp.exec_tidy (op : LogOp) : KeepsTidy (op.exec crc) := by
  cases op with
  | append clock key value =>
    exact Keeps.bind (append_tidy crc clock key value) fun _ => Keeps.pure _
  | appendReplicated clock r =>
    exact Keeps.bind (appendReplicated_tidy crc clock r) fun _ => Keeps.pure _
  | flush clock => exact Keeps.bind (flush_tidy clock) fun _ => Keeps.pure _
  | truncateSuffix n => exact Keeps.bind (truncateSuffix_tidy crc n) fun _ => Keeps.pure _
  | reopen clock =>
    rintro ⟨log, fs⟩ h
    rw [LogOp.exec, EStateM.run_bind, MethodM.run_self]
    dsimp only
    refine Ends.bind (fun reopened _ => reopened.Tidy) ?_ fun reopened s' hreopened => hreopened
    refine (onFs_ends (openDir_tidy crc log.config clock fs)).imp (fun _ _ h' => h'.2)
      fun _ s' h' => ?_
    rw [h'.1]
    exact h

end Operations

/-! ## Runs -/

/-- The logs that come about in a process while the directory may change in any way and file
operations fail at will. -/
inductive Handled (crc : List UInt8 → UInt32) : Log × Fs → Prop
  | opened {config : LogConfig} {clock : Clock} {fs fs' : Fs} {log : Log}
      (hrun : (Log.openDir crc config clock).run fs = .ok log fs') : Handled crc (log, fs')
  | stepped {s : Log × Fs} (h : Handled crc s) (op : LogOp) : Handled crc (op.step crc s).2
  | disturbed {s : Log × Fs} (h : Handled crc s) (fs : Fs) : Handled crc (s.1, fs)

theorem Handled.tidy {crc : List UInt8 → UInt32} {s : Log × Fs} (h : Handled crc s) :
    s.1.Tidy := by
  induction h with
  | @opened config clock fs fs' log hrun =>
    have hends := openDir_tidy crc config clock fs
    rw [hrun] at hends
    exact hends
  | @stepped s _ op ih =>
    have hends := op.exec_tidy crc s ih
    rw [LogOp.step]
    cases hrun : (op.exec crc).run s with
    | ok a s' =>
      rw [hrun] at hends
      exact hends
    | error e s' =>
      rw [hrun] at hends
      exact hends
  | disturbed _ _ ih => exact ih

end Replog.Storage
