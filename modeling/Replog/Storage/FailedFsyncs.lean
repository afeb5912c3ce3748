import Replog.Storage.DurableOffset
import Replog.Storage.IoFaults

/-!
# Appends whose fsync fails

Of the operations of an append only an fsync fails here: that of the segment it rolls, or the flush
after its record. The first leaves the log as it was. The second leaves it with the record, and with
a durable offset that does not cover it.
-/

namespace Replog.Storage

variable {crc : List UInt8 → UInt32} {config : LogConfig} {size : LogFile → ℕ}

def FsOp.IsFsync : FsOp → Prop
  | .fsyncLog _ => True
  | _ => False

private theorem appendOps_not_fsync (crc : List UInt8 → UInt32) (config : LogConfig) (seg : Segment)
    (r : Record) : ∀ op ∈ appendOps crc config seg r, ¬ op.IsFsync := by
  rw [appendOps]
  split_ifs <;> simp [FsOp.IsFsync]

private theorem hit_behind {ops more : List FsOp} {faults : List (Option ℕ)} {op : FsOp}
    (hops : ∀ op ∈ ops, ¬ op.IsFsync) (hop : op.IsFsync)
    (h : hit (ops ++ more) faults = some op) :
    hit ops faults = none ∧ hit more (faults.drop ops.length) = some op := by
  rw [hit_append] at h
  cases hfirst : hit ops faults with
  | none =>
    rw [hfirst] at h
    exact ⟨rfl, h⟩
  | some first =>
    rw [hfirst] at h
    cases h
    exact absurd hop (hops _ (mem_of_hit hfirst))

theorem flush_hit (log : Log) (fs : Fs) (clock : Clock) {faults : List (Option ℕ)} {op : FsOp}
    (h : hit [.fsyncLog log.active.baseOffset] faults = some op) :
    ∃ rest, (Log.flush clock).run (log, fs.under faults) =
      .error (.err .io) (log, fs.under rest) := by
  cases faults with
  | nil => cases h
  | cons fault faults =>
    cases fault with
    | none => simp [hit] at h
    | some n => exact ⟨faults, rfl⟩

private theorem roll_hit (log : Log) (fs : Fs) (clock : Clock) {faults : List (Option ℕ)} {op : FsOp}
    (h : hit (rollOps log) faults = some op) (hop : op.IsFsync) :
    ∃ rest, (Log.roll clock).run (log, fs.under faults) =
      .error (.err .io) (log, fs.under rest) := by
  have hflush : hit [.fsyncLog log.active.baseOffset] faults = some op := by
    rw [rollOps, ← List.singleton_append, hit_append] at h
    cases hfirst : hit [.fsyncLog log.active.baseOffset] faults with
    | some first =>
      rw [hfirst] at h
      exact h
    | none =>
      rw [hfirst] at h
      have hmem := mem_of_hit h
      simp only [List.mem_cons, List.not_mem_nil, or_false] at hmem
      rcases hmem with rfl | rfl <;> exact hop.elim
  obtain ⟨rest, hrun⟩ := flush_hit log fs clock hflush
  refine ⟨rest, ?_⟩
  rw [Log.roll, EStateM.run_bind, hrun]

/-! ## What an append performs -/

section Plan

variable {s : Log × Fs} {cs : List (List Record)} {act : List Record} {r : Record}

/-- What a record that has been written leaves for the flush. -/
theorem writeOps_eq {log : Log} {fs : Fs} (h : LogOk crc config s cs act)
    (hok : LogOk crc config (log, fs) cs (act ++ [r]))
    (hdirty : log.dirtyBytes = s.1.dirtyBytes + r.encodedLen)
    (hlast : log.lastFlush = s.1.lastFlush) (clock : Clock) :
    writeOps crc clock s.1 r = appendOps crc config s.1.active r ++ flushOps clock log := by
  have hconfig : log.config = config := hok.config_eq
  have hbase : log.active.baseOffset = nextBase cs := hok.active.base_eq
  simp only [writeOps, flushOps, Log.flushDue, h.config_eq, h.active.base_eq, hconfig, hbase,
    hdirty, hlast]

theorem writeRecord_plan (h : LogOk crc config s cs act)
    (hnum : Numbered config (nextBase cs + act.length) [r])
    (hfits : totalLen (act ++ [r]) ≤ 2 ^ 30) (clock : Clock) :
    ∃ info log, (Log.writeRecord crc clock r).run s =
      .ok info (log, s.2.advance (writeOps crc clock s.1 r)) := by
  obtain ⟨log, -, hdirty, hlast, hok, hrun⟩ := written_spec h hnum hfits clock
  rw [writeOps_eq h hok hdirty hlast, hrun]
  simp only [EStateM.run_bind, MethodM.run_self, flushOps]
  split_ifs
  · obtain ⟨log', hflush, -⟩ := flush_spec hok clock
    rw [Fs.advance_advance] at hflush
    simp only [EStateM.run_bind, hflush, MethodM.run_self, EStateM.run_pure]
    exact ⟨_, _, rfl⟩
  · rw [List.append_nil]
    exact ⟨_, _, rfl⟩

/-- A roll and what it performs, whatever fails after that. -/
theorem roll_under (h : LogOk crc config s cs act) (hne : act ≠ []) (clock : Clock) :
    LogOk crc config (s.1.rolled clock, s.2.advance (rollOps s.1)) (cs ++ [act]) [] ∧
      ∀ faults, hit (rollOps s.1) faults = none →
        (Log.roll clock).run (s.1, s.2.under faults) = .ok () (s.1.rolled clock,
          (s.2.advance (rollOps s.1)).under (faults.drop (rollOps s.1).length)) := by
  obtain ⟨log, hrun, -, hok⟩ := roll_spec h hne clock
  have hrolled := roll_counts clock s
  rw [hrun] at hrolled
  obtain rfl : log = s.1.rolled clock := hrolled
  obtain ⟨ops, hops, hsame⟩ := roll_undisturbed clock s h.healthy _ _ hrun
  obtain rfl := Fs.advance_inj hops
  exact ⟨hok, hsame⟩

/-- An append that rolls, or one that does not. -/
theorem appendRecord_rolls (hc : config.Valid) (h : LogOk crc config s cs act)
    (hmax : r.encodedLen ≤ config.maxRecordBytes) (clock : Clock) :
    (act ≠ [] ∧ appendPlan crc clock s.1 r =
        rollOps s.1 ++ writeOps crc clock (s.1.rolled clock) r ∧
      ∀ faults, (Log.appendRecord crc clock r).run (s.1, s.2.under faults) =
        (Log.roll clock >>= fun _ => Log.writeRecord crc clock r).run (s.1, s.2.under faults)) ∨
    (totalLen (act ++ [r]) ≤ 2 ^ 30 ∧ appendPlan crc clock s.1 r = writeOps crc clock s.1 r ∧
      ∀ faults, (Log.appendRecord crc clock r).run (s.1, s.2.under faults) =
        (Log.writeRecord crc clock r).run (s.1, s.2.under faults)) := by
  simp only [Log.appendRecord, EStateM.run_bind, MethodM.run_self, h.config_eq]
  rw [if_neg (by omega), appendPlan]
  by_cases hroll : s.1.rollDue r.encodedLen = true
  · refine .inl ⟨h.ne_nil_of_rollDue hroll, if_pos hroll, fun faults => ?_⟩
    simp only [hroll, if_true, EStateM.run_bind]
  · exact .inr ⟨h.fits_of_not_rollDue hc hmax hroll, if_neg hroll, fun faults => by
      rw [if_neg hroll]⟩

theorem appendRecord_plan (hc : config.Valid) (h : LogOk crc config s cs act)
    (hnum : Numbered config (nextBase cs + act.length) [r]) (clock : Clock) :
    ∃ info log, (Log.appendRecord crc clock r).run s =
      .ok info (log, s.2.advance (appendPlan crc clock s.1 r)) := by
  have hmax := hnum.2.2.1
  have hrecord := hc.record_le
  rcases appendRecord_rolls hc h hmax clock with ⟨hne, hplan, hrun⟩ | ⟨hfits, hplan, hrun⟩
  · obtain ⟨hok, hroll⟩ := roll_under h hne clock
    obtain ⟨info, log, hwrite⟩ := writeRecord_plan hok (r := r) (by simpa using hnum)
      (by simp; omega) clock
    have hroll := hroll [] (hit_healthy _)
    have hrun := hrun []
    rw [List.drop_nil, (Fs.advance_healthy _ _).under_nil, h.healthy.under_nil] at hroll
    rw [h.healthy.under_nil, EStateM.run_bind, hroll] at hrun
    refine ⟨info, log, ?_⟩
    rw [hplan, ← Fs.advance_advance]
    exact hrun.trans hwrite
  · obtain ⟨info, log, hwrite⟩ := writeRecord_plan h hnum hfits clock
    have hrun := hrun []
    rw [h.healthy.under_nil] at hrun
    exact ⟨info, log, by rw [hplan]; exact hrun.trans hwrite⟩

end Plan

/-! ## Failed appends -/

/-- An append that stops at a failed fsync, with the records `more` written. -/
def Halts (crc : List UInt8 → UInt32) (config : LogConfig) (size : LogFile → ℕ) (s : Log × Fs)
    (rs more : List Record) (k : ℕ) (res : EStateM.Result Failure (Log × Fs) AppendInfo) : Prop :=
  ∃ log ops rest, res = .error (.err .io) (log, (s.2.advance ops).under rest) ∧
    Represents crc config (log, s.2.advance ops) (rs ++ more) ∧
    KeptBy size (rs ++ more) k s (log, s.2.advance ops) ops ∧
    SyncedBehind (s.2.advance ops).dir

section Halts

variable {s : Log × Fs} {cs : List (List Record)} {act : List Record} {r : Record} {k : ℕ}
  {faults : List (Option ℕ)} {op : FsOp}

theorem writeRecord_hit (hsize : Enduring size) (h : LogOk crc config s cs act)
    (hnum : Numbered config (nextBase cs + act.length) [r])
    (hfits : totalLen (act ++ [r]) ≤ 2 ^ 30) (hk : k ≤ (cs.flatten ++ act).length)
    (hkept : Kept size (cs.flatten ++ act) k s.2.dir) (hb : SyncedBehind s.2.dir) (clock : Clock)
    (hhit : hit (writeOps crc clock s.1 r) faults = some op) (hop : op.IsFsync) :
    Halts crc config size s (cs.flatten ++ act) [r] k
      ((Log.writeRecord crc clock r).run (s.1, s.2.under faults)) := by
  obtain ⟨log, hdurable, hdirty, hlast, hok, hrun⟩ := written_under h hnum hfits clock
  have hops := appendOps_extends crc config s.1.active r
  have hkept' := hkept.append hk [r]
  rw [writeOps_eq h hok hdirty hlast] at hhit
  obtain ⟨hclear, hflush⟩ :=
    hit_behind (appendOps_not_fsync crc config s.1.active r) hop hhit
  rw [flushOps] at hflush
  split_ifs at hflush with hdue
  · obtain ⟨rest, hfails⟩ :=
      flush_hit log (s.2.advance (appendOps crc config s.1.active r)) clock hflush
    refine ⟨log, appendOps crc config s.1.active r, rest, ?_,
      ⟨cs, act ++ [r], hok, by rw [List.append_assoc]⟩,
      ⟨hkept'.passes hsize hops, .inl ⟨hdurable, hkept'.advance hsize hops⟩⟩,
      (hb.passes_append h r).last⟩
    rw [hrun faults hclear]
    simp only [EStateM.run_bind, MethodM.run_self]
    rw [if_pos hdue, EStateM.run_bind, hfails]
  · rw [hit_nil] at hflush
    cases hflush

/-- An append whose fsync fails has written its record or nothing. -/
theorem appendRecord_hit (hsize : Enduring size) (hc : config.Valid)
    (h : LogOk crc config s cs act) (hnum : Numbered config (nextBase cs + act.length) [r])
    (hk : k ≤ (cs.flatten ++ act).length) (hkept : Kept size (cs.flatten ++ act) k s.2.dir)
    (hb : SyncedBehind s.2.dir) (clock : Clock)
    (hhit : hit (appendPlan crc clock s.1 r) faults = some op) (hop : op.IsFsync) :
    ∃ more, Halts crc config size s (cs.flatten ++ act) more k
      ((Log.appendRecord crc clock r).run (s.1, s.2.under faults)) := by
  have hmax := hnum.2.2.1
  have hrecord := hc.record_le
  rcases appendRecord_rolls hc h hmax clock with ⟨hne, hplan, hrun⟩ | ⟨hfits, hplan, hrun⟩
  · obtain ⟨hok, hroll⟩ := roll_under h hne clock
    rw [hplan, hit_append] at hhit
    rw [hrun faults, EStateM.run_bind]
    cases hfirst : hit (rollOps s.1) faults with
    | some first =>
      rw [hfirst] at hhit
      cases hhit
      obtain ⟨rest, hfails⟩ := roll_hit s.1 s.2 clock hfirst hop
      refine ⟨[], s.1, [], rest, ?_⟩
      rw [hfails, Fs.advance_nil h.healthy, List.append_nil]
      exact ⟨rfl, ⟨cs, act, h, rfl⟩, ⟨.nil hkept, .inl ⟨rfl, hkept⟩⟩, hb⟩
    | none =>
      rw [hfirst] at hhit
      rw [hroll faults hfirst]
      obtain ⟨-, hall⟩ := roll_kept hsize h hne hk hkept
      have hflat : (cs ++ [act]).flatten ++ [] = cs.flatten ++ act := by simp
      obtain ⟨log, ops, rest, hres, hrep, hby, hbehind⟩ := @writeRecord_hit _ _ _
        (s.1.rolled clock, s.2.advance (rollOps s.1)) (cs ++ [act]) [] r
        (cs.flatten ++ act).length _ op hsize hok (by simpa using hnum) (by simp; omega)
        (by rw [hflat]) (by rw [hflat]; exact hall) (hb.passes_roll h).last clock hhit hop
      rw [hflat, Fs.advance_advance] at hrep hby
      rw [Fs.advance_advance] at hres hbehind
      exact ⟨[r], log, rollOps s.1 ++ ops, rest, hres, hrep,
        hby.rolled hsize h hne hk hkept rfl, hbehind⟩
  · obtain ⟨log, ops, rest, hres, hrest⟩ :=
      writeRecord_hit hsize h hnum hfits hk hkept hb clock (hplan ▸ hhit) hop
    exact ⟨[r], log, ops, rest, (hrun faults).trans hres, hrest⟩

end Halts

/-! ## What the medium has -/

/-- The bytes that failed fsyncs have lost, by file and position. -/
abbrev Gone := List (ℕ × ℕ)

/-- Bytes that are cut off are not missed any more. -/
def FsOp.forget : FsOp → Gone → Gone
  | .createLog base, gone => gone.filter fun p => p.1 ≠ base
  | .removeLog base, gone => gone.filter fun p => p.1 ≠ base
  | .setLen base len, gone => gone.filter fun p => p.1 ≠ base ∨ p.2 < len
  | _, gone => gone

/-- The byte belongs to the record at offset `o`. -/
def IsByteOf (rs : List Record) (o : ℕ) (p : ℕ × ℕ) : Prop :=
  p.1 ≤ o ∧ needed rs o p.1 ≤ p.2 ∧ p.2 < needed rs (o + 1) p.1

/-- The record at offset `o` is on the medium: it is in the synced part of its file, and no byte of
it was lost before that. -/
def OnMedium (crc : List UInt8 → UInt32) (d : Dir) (gone : Gone) (rs : List Record) (o : ℕ) :
    Prop :=
  InSynced crc d rs o ∧ ∀ p ∈ gone, ¬ IsByteOf rs o p

/-- The bytes are bytes of files that are there. -/
def Gone.Inside (gone : Gone) (d : Dir) : Prop :=
  ∀ p ∈ gone, ∃ f, d.log p.1 = some f ∧ p.2 < f.bytes.length

theorem Gone.Inside.append {gone more : Gone} {d : Dir} (h : gone.Inside d) (hmore : more.Inside d) :
    Gone.Inside (gone ++ more) d := by
  intro p hp
  rcases List.mem_append.mp hp with hold | hnew
  · exact h p hold
  · exact hmore p hnew

theorem mem_of_mem_forget {op : FsOp} {gone : Gone} {p : ℕ × ℕ} (h : p ∈ op.forget gone) :
    p ∈ gone := by
  cases op <;> first | exact h | exact (List.mem_filter.mp h).1

/-- An operation only adds bytes to the files whose bytes stay missed. -/
theorem Gone.Inside.forget {gone : Gone} {d : Dir} (h : gone.Inside d) (op : FsOp) :
    Gone.Inside (op.forget gone) (op.apply d) := by
  intro p hp
  obtain ⟨f, hf, hlt⟩ := h p (mem_of_mem_forget hp)
  cases op with
  | createLog base =>
    have hne : p.1 ≠ base := of_decide_eq_true (List.mem_filter.mp hp).2
    exact ⟨f, by rw [FsOp.log_createLog, if_neg hne, hf], hlt⟩
  | removeLog base =>
    have hne : p.1 ≠ base := of_decide_eq_true (List.mem_filter.mp hp).2
    exact ⟨f, by rw [FsOp.log_removeLog, if_neg hne, hf], hlt⟩
  | setLen base len =>
    have hkept : p.1 ≠ base ∨ p.2 < len := of_decide_eq_true (List.mem_filter.mp hp).2
    rw [FsOp.log_setLen]
    split_ifs with heq
    · refine ⟨_, by rw [← heq, hf, Option.map_some], ?_⟩
      rw [List.length_take]
      exact lt_min (hkept.resolve_left (not_not.mpr heq)) hlt
    · exact ⟨f, hf, hlt⟩
  | writeLog base bytes =>
    rw [FsOp.log_writeLog]
    split_ifs with heq
    · refine ⟨_, by rw [← heq, hf, Option.map_some], ?_⟩
      rw [List.length_append]
      exact hlt.trans_le (Nat.le_add_right _ _)
    · exact ⟨f, hf, hlt⟩
  | fsyncLog base =>
    rw [FsOp.log_fsyncLog]
    split_ifs with heq
    · exact ⟨{ f with synced := f.bytes.length }, by rw [← heq, hf, Option.map_some], hlt⟩
    · exact ⟨f, hf, hlt⟩
  | createIndex | writeIndex | removeIndex => exact ⟨f, hf, hlt⟩

section Forgets

variable {gone : Gone} (ops : List FsOp)

theorem mem_of_mem_forgets {p : ℕ × ℕ}
    (h : p ∈ ops.foldl (fun gone op => op.forget gone) gone) : p ∈ gone := by
  induction ops generalizing gone with
  | nil => exact h
  | cons op ops ih => exact mem_of_mem_forget (ih h)

theorem Gone.Inside.advance {fs : Fs} (h : gone.Inside fs.dir) :
    Gone.Inside (ops.foldl (fun gone op => op.forget gone) gone) (fs.advance ops).dir := by
  rw [Fs.dir_advance]
  generalize fs.dir = d at h ⊢
  induction ops generalizing gone d with
  | nil => exact h
  | cons op ops ih => exact ih _ (h.forget op)

end Forgets

/-- Where a record's bytes are does not depend on the records behind it. -/
theorem isByteOf_append {rs : List Record} {o : ℕ} (ho : o < rs.length) (more : List Record)
    (p : ℕ × ℕ) : IsByteOf (rs ++ more) o p ↔ IsByteOf rs o p := by
  rw [IsByteOf, IsByteOf, needed_append ho.le, needed_append ho]

private theorem Represents.length_le_needed {s : Log × Fs} {rs : List Record}
    (h : Represents crc config s rs) {b : ℕ} {f : LogFile} (hf : s.2.dir.log b = some f) :
    f.bytes.length ≤ needed rs rs.length b := by
  obtain ⟨cs, act, hok, rfl⟩ := h
  obtain ⟨seg, c, hserves⟩ := hok.serves_file (b := b) (by rw [hf]; rfl)
  obtain ⟨synced, hfile⟩ := hserves.ok.log_file
  rw [hf] at hfile
  obtain rfl := Option.some.inj hfile
  obtain ⟨rest, hrest⟩ := hserves.drop_isPrefix (Nat.zero_le c.length)
  rw [List.drop_zero, Nat.add_zero] at hrest
  rw [needed, List.take_of_length_le (by rw [List.length_drop]), ← hrest, totalLen_append,
    length_encodeAll]
  exact Nat.le_add_right _ _

/-- Bytes that are in the files do not belong to records that are still to be written. -/
theorem Gone.Inside.not_isByteOf {s : Log × Fs} {rs : List Record} {gone : Gone}
    (h : gone.Inside s.2.dir) (hrep : Represents crc config s rs) (more : List Record) {o : ℕ}
    (ho : rs.length ≤ o) : ∀ p ∈ gone, ¬ IsByteOf (rs ++ more) o p := by
  rintro p hp ⟨-, hge, -⟩
  obtain ⟨f, hf, hlt⟩ := h p hp
  have hbound := hrep.length_le_needed hf
  have hmono := needed_mono ho (rs ++ more) p.1
  rw [needed_append le_rfl] at hmono
  omega

end Replog.Storage
