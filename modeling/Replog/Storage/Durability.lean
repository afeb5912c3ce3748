import Replog.Storage.CrashRecovery

/-!
# What a crash cannot take

A crash may shorten the newest segment file, but not below a part that depends on the crash:
after a power failure the synced bytes are left, when only the process dies all of them are. The
records inside that part stay, while the log is written to and while it is opened again.
-/

namespace Replog.Storage

variable {crc : List UInt8 → UInt32} {config : LogConfig}

/-- A part of a segment file that no file operation but a cut makes smaller. -/
structure Enduring (size : LogFile → ℕ) : Prop where
  le : ∀ f, size f ≤ f.bytes.length
  append : ∀ f bytes, size f ≤ size { f with bytes := f.bytes ++ bytes }
  synced : ∀ bytes, size ⟨bytes, bytes.length⟩ = bytes.length
  cut : ∀ valid tail synced synced', min synced valid.length ≤ synced' →
    min (size ⟨valid ++ tail, synced⟩) valid.length ≤ size ⟨valid, synced'⟩

namespace LogFile

def stable (f : LogFile) : ℕ := min f.synced f.bytes.length

def length (f : LogFile) : ℕ := f.bytes.length

theorem enduring_stable : Enduring stable where
  le f := Nat.min_le_right _ _
  append f bytes := by
    simp only [stable, List.length_append]
    omega
  synced bytes := Nat.min_self _
  cut valid tail synced synced' h := by
    simp only [stable, List.length_append]
    omega

theorem enduring_length : Enduring length where
  le f := le_rfl
  append f bytes := by simp [length]
  synced bytes := rfl
  cut valid tail synced synced' h := Nat.min_le_right _ _

end LogFile

/-- The bytes from offset `b` on of the first `k` records. -/
def needed (rs : List Record) (k b : ℕ) : ℕ := totalLen ((rs.drop b).take (k - b))

theorem needed_append {rs : List Record} {k : ℕ} (hk : k ≤ rs.length) (more : List Record)
    (b : ℕ) : needed (rs ++ more) k b = needed rs k b := by
  rw [needed, needed]
  rcases Nat.le_total b rs.length with hb | hb
  · rw [List.drop_append_of_le_length hb,
      List.take_append_of_le_length (by rw [List.length_drop]; omega)]
  · rw [show k - b = 0 by omega]
    rfl

private theorem needed_of_le {rs : List Record} {k b : ℕ} (h : k ≤ b) : needed rs k b = 0 := by
  rw [needed, show k - b = 0 by omega]
  rfl

theorem needed_mono {k k' : ℕ} (h : k ≤ k') (rs : List Record) (b : ℕ) :
    needed rs k b ≤ needed rs k' b := by
  have hle := totalLen_take_le ((rs.drop b).take (k' - b)) (k - b)
  rwa [List.take_take, Nat.min_eq_left (by omega)] at hle

theorem needed_nextBase (cs : List (List Record)) (act : List Record) (k : ℕ) :
    needed (cs.flatten ++ act) k (nextBase cs) = totalLen (act.take (k - nextBase cs)) := by
  rw [needed, List.drop_left' (show cs.flatten.length = nextBase cs from rfl)]

/-- The newest file has the first `k` of the records `rs` in the part that stays. -/
def Kept (size : LogFile → ℕ) (rs : List Record) (k : ℕ) (d : Dir) : Prop :=
  ∃ b f, d.log b = some f ∧ (∀ b', (d.log b').isSome → b' ≤ b) ∧ needed rs k b ≤ size f

/-- No file appears or goes, and none gets a smaller part that stays. -/
structure Grows (size : LogFile → ℕ) (d d' : Dir) : Prop where
  files : ∀ b, (d'.log b).isSome = (d.log b).isSome
  size_le : ∀ b f f', d.log b = some f → d'.log b = some f' → size f ≤ size f'

def FsOp.Extends : FsOp → Prop
  | createIndex _ | writeLog .. | writeIndex .. | fsyncLog _ | removeIndex _ => True
  | _ => False

variable {size : LogFile → ℕ}

private theorem Enduring.le_synced (hsize : Enduring size) (f : LogFile) :
    size f ≤ size { f with synced := f.bytes.length } := by
  rw [hsize.synced]
  exact hsize.le f

theorem Grows.of_log_eq {d d' : Dir} (h : ∀ b, d'.log b = d.log b) : Grows size d d' := by
  refine ⟨fun b => by rw [h b], fun b f f' hf hf' => ?_⟩
  rw [h b, hf, Option.some.injEq] at hf'
  rw [hf']

/-- Changing one file so that its part that stays does not shrink. -/
theorem Grows.of_map {d d' : Dir} (base : ℕ) {g : LogFile → LogFile} (hg : ∀ f, size f ≤ size (g f))
    (h : ∀ b, d'.log b = if b = base then (d.log base).map g else d.log b) : Grows size d d' := by
  refine ⟨fun b => ?_, fun b f f' hf hf' => ?_⟩
  · rw [h b]
    split
    · rename_i hb
      rw [hb, Option.isSome_map]
    · rfl
  · rw [h b] at hf'
    split at hf'
    · rename_i hb
      rw [← hb, hf, Option.map_some, Option.some.injEq] at hf'
      rw [← hf']
      exact hg f
    · rw [hf, Option.some.injEq] at hf'
      rw [hf']

theorem FsOp.Extends.grows (hsize : Enduring size) {op : FsOp} (hop : op.Extends) (d : Dir) :
    Grows size d (op.apply d) := by
  cases op with
  | createIndex base => exact .of_log_eq fun b => by simp
  | writeLog base bytes => exact .of_map base (fun f => hsize.append f bytes) fun b => by simp
  | writeIndex base bytes => exact .of_log_eq fun b => by simp
  | fsyncLog base => exact .of_map base (fun f => hsize.le_synced f) fun b => by simp
  | removeIndex base => exact .of_log_eq fun b => by simp
  | createLog => exact hop.elim
  | setLen => exact hop.elim
  | removeLog => exact hop.elim

private theorem FsOp.Extends.grows_failed (hsize : Enduring size) {op : FsOp} (hop : op.Extends) (n : ℕ)
    (d : Dir) : Grows size d (op.applyFailed n d) := by
  cases op with
  | writeLog base bytes =>
    exact @FsOp.Extends.grows _ hsize (.writeLog base (bytes.take n)) trivial d
  | writeIndex base bytes =>
    exact @FsOp.Extends.grows _ hsize (.writeIndex base (bytes.take n)) trivial d
  | _ => exact .of_log_eq fun _ => rfl

theorem Kept.grows {rs : List Record} {k : ℕ} {d d' : Dir} (h : Kept size rs k d)
    (hgrows : Grows size d d') : Kept size rs k d' := by
  obtain ⟨b, f, hf, hmax, hneeded⟩ := h
  have hsome : (d'.log b).isSome = true := by rw [hgrows.files b, hf]; rfl
  obtain ⟨f', hf'⟩ := Option.isSome_iff_exists.mp hsome
  exact ⟨b, f', hf', fun b' hb' => hmax b' (hgrows.files b' ▸ hb'),
    hneeded.trans (hgrows.size_le b f f' hf hf')⟩

theorem Kept.mono {rs : List Record} {k k' : ℕ} {d : Dir} (h : Kept size rs k' d) (hk : k ≤ k') :
    Kept size rs k d := by
  obtain ⟨b, f, hf, hmax, hneeded⟩ := h
  exact ⟨b, f, hf, hmax, (needed_mono hk rs b).trans hneeded⟩

theorem Kept.append {rs : List Record} {k : ℕ} {d : Dir} (h : Kept size rs k d)
    (hk : k ≤ rs.length) (more : List Record) : Kept size (rs ++ more) k d := by
  obtain ⟨b, f, hf, hmax, hneeded⟩ := h
  exact ⟨b, f, hf, hmax, needed_append hk more b ▸ hneeded⟩

theorem Kept.passes (hsize : Enduring size) {rs : List Record} {k : ℕ} {fs : Fs} {ops : List FsOp}
    (h : Kept size rs k fs.dir) (hops : ∀ op ∈ ops, op.Extends) :
    Passes (Kept size rs k) fs ops := by
  induction ops generalizing fs with
  | nil => exact .nil h
  | cons op ops ih =>
    obtain ⟨hop, hrest⟩ := List.forall_mem_cons.mp hops
    exact .cons h (fun n => h.grows (hop.grows_failed hsize n _))
      (ih (h.grows (hop.grows hsize _)) hrest)

theorem Kept.advance (hsize : Enduring size) {rs : List Record} {k : ℕ} {fs : Fs} {ops : List FsOp}
    (h : Kept size rs k fs.dir) (hops : ∀ op ∈ ops, op.Extends) :
    Kept size rs k (fs.advance ops).dir := by
  induction ops generalizing fs with
  | nil => exact h
  | cons op ops ih =>
    obtain ⟨hop, hrest⟩ := List.forall_mem_cons.mp hops
    exact @ih (fs.advance [op]) (h.grows (hop.grows hsize _)) hrest

theorem checkedPred_eq_some {n d : ℕ} (h : Log.checkedPred n = some d) : d < n := by
  cases n with
  | zero => cases h
  | succ n =>
    cases h
    exact Nat.lt_succ_self _

/-! ## Writing -/

theorem appendOps_extends (crc : List UInt8 → UInt32) (config : LogConfig) (seg : Segment)
    (r : Record) : ∀ op ∈ appendOps crc config seg r, op.Extends := by
  rw [appendOps]
  split_ifs <;> simp [FsOp.Extends]

private theorem kept_created {rs : List Record} {k b : ℕ} {d : Dir} (hk : k ≤ b)
    (hmax : ∀ b', (d.log b').isSome → b' < b) : Kept size rs k ((FsOp.createLog b).apply d) := by
  refine ⟨b, ⟨[], 0⟩, by simp, fun b' hb' => ?_, by simp [needed_of_le hk]⟩
  by_cases heq : b' = b
  · exact heq.le
  · rw [FsOp.log_createLog, if_neg heq] at hb'
    exact (hmax b' hb').le

theorem LogOk.base_le {s : Log × Fs} {cs : List (List Record)} {act : List Record}
    (h : LogOk crc config s cs act) {b : ℕ} (hb : (s.2.dir.log b).isSome) : b ≤ nextBase cs := by
  rcases (h.files b).mp hb with hmem | rfl
  · have hlt := h.closed.tiled.lt_end hmem
    omega
  · exact le_rfl

/-- Once the active segment is synced everything stays. -/
theorem LogOk.kept_synced (hsize : Enduring size) {s : Log × Fs} {cs : List (List Record)}
    {act : List Record} (h : LogOk crc config s cs act) :
    Kept size (cs.flatten ++ act) (cs.flatten ++ act).length
      ((FsOp.fsyncLog s.1.active.baseOffset).apply s.2.dir) := by
  obtain ⟨synced, hfile⟩ := h.active.log_file
  have hbase := h.active.base_eq
  refine ⟨nextBase cs, ⟨encodeAll crc act, (encodeAll crc act).length⟩, by simp [hbase, hfile],
    fun b hb => ?_, ?_⟩
  · by_cases heq : b = nextBase cs
    · exact heq.le
    · rw [FsOp.log_fsyncLog, hbase, if_neg heq] at hb
      exact h.base_le hb
  · rw [hsize.synced, length_encodeAll, needed_nextBase]
    exact totalLen_take_le act _

theorem roll_kept (hsize : Enduring size) {s : Log × Fs} {cs : List (List Record)}
    {act : List Record} (h : LogOk crc config s cs act) (hne : act ≠ []) {k : ℕ}
    (hk : k ≤ (cs.flatten ++ act).length) (hkept : Kept size (cs.flatten ++ act) k s.2.dir) :
    Passes (Kept size (cs.flatten ++ act) k) s.2 (rollOps s.1) ∧
      Kept size (cs.flatten ++ act) (cs.flatten ++ act).length
        (s.2.advance (rollOps s.1)).dir := by
  have hlen : (cs.flatten ++ act).length = s.1.active.nextOffset := by
    rw [h.active.next_eq]
    exact List.length_append
  have hpos := List.length_pos_of_ne_nil hne
  have hnext := h.active.next_eq
  obtain ⟨log, -, hactive, -, -, hflushed⟩ := flush_spec h ⟨0, 0⟩
  have hcreated : ∀ {k}, k ≤ s.1.active.nextOffset → Kept size (cs.flatten ++ act) k
      ((FsOp.createLog s.1.active.nextOffset).apply
        (s.2.advance [.fsyncLog s.1.active.baseOffset]).dir) :=
    fun hk => kept_created hk fun b' hb' => by
      have hle := hflushed.base_le hb'
      omega
  constructor
  · refine @Passes.append _ _ [.fsyncLog s.1.active.baseOffset] _
      (hkept.passes hsize (by simp [FsOp.Extends])) ?_
    have hsynced : Kept size (cs.flatten ++ act) k
        (s.2.advance [.fsyncLog s.1.active.baseOffset]).dir :=
      hkept.advance hsize (by simp [FsOp.Extends])
    refine .cons hsynced (fun _ => hsynced) ?_
    exact Kept.passes hsize (hcreated (by omega)) (by simp [FsOp.Extends])
  · exact (hcreated hlen.le).grows
      (@FsOp.Extends.grows _ hsize (.createIndex s.1.active.nextOffset) trivial _)

/-- What an append does to what stays: nothing of it is lost on the way, and what the log takes
for durable is as before or what stays now. -/
structure KeptBy (size : LogFile → ℕ) (rs : List Record) (k : ℕ) (s s' : Log × Fs)
    (ops : List FsOp) : Prop where
  passes : Passes (Kept size rs k) s.2 ops
  durable : (s'.1.durableOffset = s.1.durableOffset ∧ Kept size rs k s'.2.dir) ∨
    ∃ k', k ≤ k' ∧ k' ≤ rs.length ∧ s'.1.durableOffset = Log.checkedPred k' ∧
      Kept size rs k' s'.2.dir

theorem writeRecord_kept (hsize : Enduring size) {s : Log × Fs} {cs : List (List Record)}
    {act : List Record} (h : LogOk crc config s cs act) {r : Record}
    (hnum : Numbered config (nextBase cs + act.length) [r])
    (hfits : totalLen (act ++ [r]) ≤ 2 ^ 30) {k : ℕ} (hk : k ≤ (cs.flatten ++ act).length)
    (hkept : Kept size (cs.flatten ++ act) k s.2.dir) (clock : Clock) :
    ∃ info log ops, (Log.writeRecord crc clock r).run s = .ok info (log, s.2.advance ops) ∧
      KeptBy size (cs.flatten ++ act ++ [r]) k s (log, s.2.advance ops) ops := by
  obtain ⟨log, hdurable, -, -, hok, hrun⟩ := written_spec h hnum hfits clock
  have hops := appendOps_extends crc config s.1.active r
  have hkept' := hkept.append hk [r]
  have hwritten := hkept'.advance hsize hops
  have hassoc : cs.flatten ++ (act ++ [r]) = cs.flatten ++ act ++ [r] := by simp
  rw [hrun]
  simp only [EStateM.run_bind, MethodM.run_self]
  split_ifs
  · obtain ⟨log', hflush, -, -, hdurable', hflushed⟩ := flush_spec hok clock
    have hall := hok.kept_synced hsize
    rw [hassoc] at hall
    have hlen : log.active.nextOffset = (cs.flatten ++ act ++ [r]).length := by
      rw [hok.active.next_eq, ← hassoc]
      exact List.length_append.symm
    rw [Fs.advance_advance] at hflush
    refine ⟨⟨r.offset, log'.durableOffset⟩, log',
      appendOps crc config s.1.active r ++ [.fsyncLog log.active.baseOffset], ?_, ?_,
      .inr ⟨_, ?_, le_rfl, ?_, ?_⟩⟩
    · simp only [EStateM.run_bind, hflush, MethodM.run_self, EStateM.run_pure]
    · exact (hkept'.passes hsize hops).append (hwritten.passes hsize (by simp [FsOp.Extends]))
    · rw [List.length_append]
      exact hk.trans (Nat.le_add_right _ _)
    · rw [hdurable', hlen]
    · rw [← Fs.advance_advance]
      exact hall
  · exact ⟨_, log, _, rfl, hkept'.passes hsize hops, .inl ⟨hdurable, hwritten⟩⟩

theorem KeptBy.rolled (hsize : Enduring size) {s : Log × Fs} {cs : List (List Record)}
    {act : List Record} (h : LogOk crc config s cs act) (hne : act ≠ []) {k : ℕ}
    (hk : k ≤ (cs.flatten ++ act).length) (hkept : Kept size (cs.flatten ++ act) k s.2.dir)
    {log log' : Log} {ops : List FsOp} {more : List Record}
    (hdurable : log.durableOffset = Log.checkedPred s.1.active.nextOffset)
    (hby : KeptBy size (cs.flatten ++ act ++ more) (cs.flatten ++ act).length
      (log, s.2.advance (rollOps s.1)) (log', s.2.advance (rollOps s.1 ++ ops)) ops) :
    KeptBy size (cs.flatten ++ act ++ more) k s (log', s.2.advance (rollOps s.1 ++ ops))
      (rollOps s.1 ++ ops) := by
  obtain ⟨hpasses, -⟩ := roll_kept hsize h hne hk hkept
  have hlen : (cs.flatten ++ act).length = s.1.active.nextOffset := by
    rw [h.active.next_eq]
    exact List.length_append
  refine ⟨(hpasses.imp fun d hd => hd.append hk more).append
    (hby.passes.imp fun d hd => hd.mono hk), ?_⟩
  rcases hby.durable with ⟨hsame, hkept'⟩ | ⟨k', hle, hle', hdurable', hkept'⟩
  · refine .inr ⟨_, hk, ?_, ?_, hkept'⟩
    · exact (List.prefix_append _ more).length_le
    · rw [hsame, hdurable, hlen]
  · exact .inr ⟨k', hk.trans hle, hle', hdurable', hkept'⟩

private theorem appendRecord_kept (hsize : Enduring size) (hc : config.Valid) {s : Log × Fs}
    {cs : List (List Record)} {act : List Record} (h : LogOk crc config s cs act) {r : Record}
    (hnum : Numbered config (nextBase cs + act.length) [r]) {k : ℕ}
    (hk : k ≤ (cs.flatten ++ act).length) (hkept : Kept size (cs.flatten ++ act) k s.2.dir)
    (clock : Clock) :
    ∃ info log ops, (Log.appendRecord crc clock r).run s = .ok info (log, s.2.advance ops) ∧
      KeptBy size (cs.flatten ++ act ++ [r]) k s (log, s.2.advance ops) ops := by
  rcases appendRecord_cases hc h hnum clock with ⟨hne, log, hroll, hrun⟩ | ⟨hfits, hrun⟩
  · obtain ⟨log', hroll', hdurable, hok⟩ := roll_spec h hne clock
    rw [hroll] at hroll'
    cases hroll'
    obtain ⟨-, hall⟩ := roll_kept hsize h hne hk hkept
    have hflat : (cs ++ [act]).flatten ++ [] = cs.flatten ++ act := by simp
    have hmax := hnum.2.2.1
    have hrecord := hc.record_le
    obtain ⟨info, log', ops, hwrite, hby⟩ := writeRecord_kept hsize hok (r := r)
      (by simpa using hnum) (by simp; omega) (k := (cs.flatten ++ act).length) (by rw [hflat])
      (by rw [hflat]; exact hall) clock
    rw [hflat, Fs.advance_advance] at hby
    exact ⟨info, log', rollOps s.1 ++ ops, by rw [hrun, hwrite, Fs.advance_advance],
      hby.rolled hsize h hne hk hkept hdurable⟩
  · rw [hrun]
    exact writeRecord_kept hsize h hnum hfits hk hkept clock

/-- An append goes through with the next offset, or fails and leaves everything alone. -/
inductive Appended (crc : List UInt8 → UInt32) (config : LogConfig) (size : LogFile → ℕ)
    (s : Log × Fs) (rs : List Record) (k : ℕ) (r : Record) :
    EStateM.Result Failure (Log × Fs) AppendInfo → Prop where
  | failed (e : StorageError) : Appended crc config size s rs k r (.error (.err e) s)
  | done (info : AppendInfo) (log : Log) (ops : List FsOp) (hinfo : info.offset = rs.length)
      (hrep : Represents crc config (log, s.2.advance ops) (rs ++ [r]))
      (hpasses : Passes (Reaches crc config (rs ++ [r])) s.2 ops)
      (hkept : KeptBy size (rs ++ [r]) k s (log, s.2.advance ops) ops) :
      Appended crc config size s rs k r (.ok info (log, s.2.advance ops))

theorem appendRecord_appended (hsize : Enduring size) (hc : config.Valid) {s : Log × Fs}
    {rs : List Record} (h : Represents crc config s rs) {k : ℕ} (hk : k ≤ rs.length)
    (hkept : Kept size rs k s.2.dir) {r : Record} (hoffset : r.offset = rs.length)
    (hroom : rs.length < 2 ^ 64) (clock : Clock) :
    Appended crc config size s rs k r ((Log.appendRecord crc clock r).run s) := by
  obtain ⟨cs, act, hok, rfl⟩ := h
  rcases appendRecord_refines hc hok hoffset hroom clock with
    ⟨-, hrun⟩ | ⟨hfits, info, log, ops, hrun, hinfo, hpasses, cs', act', hcs, hok'⟩
  · rw [hrun]
    exact .failed _
  · have hnum : Numbered config (nextBase cs + act.length) [r] :=
      ⟨hoffset.trans List.length_append, lt_of_eq_of_lt List.length_append.symm hroom, hfits,
        trivial⟩
    obtain ⟨info', log', ops', hrun', hby⟩ := appendRecord_kept hsize hc hok hnum hk hkept clock
    rw [hrun, EStateM.Result.ok.injEq, Prod.mk.injEq] at hrun'
    obtain ⟨-, rfl, hfs⟩ := hrun'
    obtain rfl := Fs.advance_inj hfs
    rw [hrun]
    exact .done info log ops (hinfo.trans hoffset) ⟨cs', act', hok', hcs⟩ hpasses hby

theorem append_appended (hsize : Enduring size) (hc : config.Valid) {s : Log × Fs}
    {rs : List Record} (h : Represents crc config s rs) {k : ℕ} (hk : k ≤ rs.length)
    (hkept : Kept size rs k s.2.dir) (hroom : rs.length < 2 ^ 64) (clock : Clock)
    (key : Option (List UInt8)) (value : List UInt8) :
    Appended crc config size s rs k
      { offset := rs.length, timestampMs := clock.wallMs, key, value }
      ((Log.append crc clock key value).run s) := by
  have hnext : s.1.active.nextOffset = rs.length := h.nextOffset_eq
  have hrun : (Log.append crc clock key value).run s = (Log.appendRecord crc clock
      { offset := rs.length, timestampMs := clock.wallMs, key, value }).run s := by
    simp only [Log.append, EStateM.run_bind, MethodM.run_self, hnext]
  rw [hrun]
  exact appendRecord_appended hsize hc h hk hkept rfl hroom clock

theorem flush_kept (hsize : Enduring size) {s : Log × Fs} {cs : List (List Record)}
    {act : List Record} (h : LogOk crc config s cs act) {k : ℕ}
    (hk : k ≤ (cs.flatten ++ act).length) (hkept : Kept size (cs.flatten ++ act) k s.2.dir)
    (clock : Clock) :
    ∃ log, (Log.flush clock).run s = .ok log.durableOffset
        (log, s.2.advance [.fsyncLog s.1.active.baseOffset]) ∧
      LogOk crc config (log, s.2.advance [.fsyncLog s.1.active.baseOffset]) cs act ∧
      KeptBy size (cs.flatten ++ act) k s (log, s.2.advance [.fsyncLog s.1.active.baseOffset])
        [.fsyncLog s.1.active.baseOffset] := by
  obtain ⟨log, hrun, -, -, hdurable, hok⟩ := flush_spec h clock
  have hlen : s.1.active.nextOffset = (cs.flatten ++ act).length := by
    rw [h.active.next_eq]
    exact List.length_append.symm
  rw [hlen] at hdurable
  exact ⟨log, hrun, hok, hkept.passes hsize (by simp [FsOp.Extends]),
    .inr ⟨_, hk, le_rfl, hdurable, h.kept_synced hsize⟩⟩

/-! ## Opening -/

theorem left_nil {d : Dir} (h : ∀ b, d.log b = if b = 0 then some ⟨[], 0⟩ else none) :
    Left crc config [] d ∧ Kept size [] 0 d := by
  have hzero : d.log 0 = some ⟨[], 0⟩ := by rw [h, if_pos rfl]
  have hfiles : ∀ b, (d.log b).isSome ↔ b = 0 := fun b => by
    rw [h]
    split_ifs with hb <;> simp [hb]
  exact ⟨⟨[], [], [], rfl, trivial, ⟨0, hzero⟩, trivial, Nat.zero_le _, .inl rfl,
      fun b => by simp [hfiles, basesOf, nextBase]⟩,
    0, _, hzero, fun b hb => ((hfiles b).mp hb).le, by simp [needed]⟩

/-- The newest file is the one with the largest base. -/
theorem Kept.needed_le {rs : List Record} {k b : ℕ} {d : Dir} {f : LogFile}
    (h : Kept size rs k d) (hf : d.log b = some f) (hmax : ∀ b', (d.log b').isSome → b' ≤ b) :
    needed rs k b ≤ size f := by
  obtain ⟨b', f', hf', hmax', hneeded⟩ := h
  obtain rfl : b = b' := le_antisymm (hmax' b (by rw [hf]; rfl)) (hmax b' (by rw [hf']; rfl))
  rw [hf, Option.some.injEq] at hf'
  exact hf' ▸ hneeded

theorem Reopening.left {cs : List (List Record)} {act : List Record} {tail : List UInt8}
    {synced : ℕ} {d d' : Dir} (hd : CrashDir crc config d cs act tail)
    (hnewest : d.log (nextBase cs) = some ⟨encodeAll crc act ++ tail, synced⟩)
    (h : Reopening crc config 0 cs act synced d d') :
    Left crc config (cs.flatten ++ act) d' := by
  have hnewest' := h.newest
  rw [Nat.zero_add, hnewest] at hnewest'
  have hfiles : ∀ b, (d'.log b).isSome ↔ b ∈ basesOf 0 cs ∨ b = nextBase cs := fun b => by
    rw [h.files b, hd.files b]
  rcases hnewest' with hsame | ⟨synced', -, hcut⟩
  · exact ⟨cs, act, tail, rfl, h.closed, ⟨synced, hsame⟩, hd.numbered, hd.size_le, hd.torn, hfiles⟩
  · exact ⟨cs, act, [], rfl, h.closed, ⟨synced', by rw [List.append_nil, hcut]⟩, hd.numbered,
      hd.size_le, .inl rfl, hfiles⟩

theorem Reopening.kept (hsize : Enduring size) {cs : List (List Record)} {act : List Record}
    {tail : List UInt8} {synced k : ℕ} {d d' : Dir} (hd : CrashDir crc config d cs act tail)
    (hnewest : d.log (nextBase cs) = some ⟨encodeAll crc act ++ tail, synced⟩)
    (h : Reopening crc config 0 cs act synced d d') (hkept : Kept size (cs.flatten ++ act) k d) :
    Kept size (cs.flatten ++ act) k d' := by
  have hneeded := hkept.needed_le hnewest fun b hb => hd.base_le hb
  have hmax : ∀ b, (d'.log b).isSome → b ≤ nextBase cs := fun b hb =>
    hd.base_le (h.files b ▸ hb)
  have hnewest' := h.newest
  rw [Nat.zero_add, hnewest] at hnewest'
  rcases hnewest' with hsame | ⟨synced', hle, hcut⟩
  · exact ⟨nextBase cs, _, hsame, hmax, hneeded⟩
  · refine ⟨nextBase cs, _, hcut, hmax, ?_⟩
    have hshort : needed (cs.flatten ++ act) k (nextBase cs) ≤ totalLen act := by
      rw [needed_nextBase]
      exact totalLen_take_le act _
    rw [← length_encodeAll crc] at hle hshort
    have hcutSize := hsize.cut (encodeAll crc act) tail synced synced' hle
    omega

theorem Represents.left {s : Log × Fs} {rs : List Record} (h : Represents crc config s rs) :
    Left crc config rs s.2.dir := by
  obtain ⟨cs, act, hok, rfl⟩ := h
  exact ⟨cs, act, [], rfl, hok.crashDir⟩

theorem Left.kept_zero {rs : List Record} {d : Dir} (h : Left crc config rs d) :
    Kept size rs 0 d := by
  obtain ⟨cs, act, tail, -, hd⟩ := h
  obtain ⟨synced, hfile⟩ := hd.newest
  exact ⟨nextBase cs, _, hfile, fun b hb => hd.base_le hb, by simp [needed]⟩

/-- Opening a directory a crash has left: what stays still does, at every point on the way, and
the log takes what it found for durable. -/
theorem Left.open (hsize : Enduring size) (hc : config.Valid) {rs : List Record} {k : ℕ} {d : Dir}
    (h : Left crc config rs d) (hkept : Kept size rs k d) (clock : Clock) :
    ∃ log ops, (Log.openDir crc config clock).run ⟨d, [], []⟩ =
        .ok log (Fs.advance ⟨d, [], []⟩ ops) ∧
      Represents crc config (log, Fs.advance ⟨d, [], []⟩ ops) rs ∧
      log.durableOffset = Log.checkedPred rs.length ∧
      Passes (fun d' => Left crc config rs d' ∧ Kept size rs k d') ⟨d, [], []⟩ ops := by
  obtain ⟨cs, act, tail, rfl, hd⟩ := h
  obtain ⟨synced, hnewest⟩ := hd.newest
  obtain ⟨log, ops, hrun, hok, hdurable, hpasses⟩ :=
    openDir_passes hc (show Fs.Healthy ⟨d, [], []⟩ from rfl) hd hnewest clock
  refine ⟨log, ops, hrun, ⟨cs, act, hok, rfl⟩, ?_, hpasses.imp fun d' hd' =>
    ⟨hd'.left hd hnewest, hd'.kept hsize hd hnewest hkept⟩⟩
  rw [hdurable, hok.nextOffset_eq]

/-! ## Losing what is not kept -/

private theorem take_isPrefix_whole {rs : List Record} {j n : ℕ} (h : totalLen (rs.take j) ≤ n) :
    rs.take j <+: whole n rs := by
  induction rs generalizing j n with
  | nil => simp [whole]
  | cons r rs ih =>
    cases j with
    | zero => exact List.nil_prefix
    | succ j =>
      rw [List.take_succ_cons, totalLen_cons] at h
      rw [List.take_succ_cons, whole, if_pos (by omega)]
      exact List.cons_prefix_cons.mpr ⟨rfl, ih (by omega)⟩

/-- The records of a segment that are whole in its first `n` bytes, behind the rolled ones, are
some of the records, and among them all that have to stay. -/
theorem whole_kept {cs : List (List Record)} {live : List Record} {k n : ℕ}
    (hk : k ≤ (cs.flatten ++ live).length) (hn : needed (cs.flatten ++ live) k (nextBase cs) ≤ n) :
    cs.flatten ++ whole n live <+: cs.flatten ++ live ∧
      k ≤ (cs.flatten ++ whole n live).length ∧
      ∀ b, needed (cs.flatten ++ whole n live) k b = needed (cs.flatten ++ live) k b := by
  rw [needed_nextBase] at hn
  have hpre := whole_isPrefix n live
  have htake := take_isPrefix_whole hn
  have hlen := htake.length_le
  rw [List.length_take] at hlen
  rw [List.length_append] at hk
  have hcs : cs.flatten.length = nextBase cs := rfl
  have hle : k ≤ (cs.flatten ++ whole n live).length := by
    rw [List.length_append]
    omega
  refine ⟨(List.prefix_append_right_inj _).mpr hpre, hle, fun b => ?_⟩
  obtain ⟨rest, hrest⟩ := (List.prefix_append_right_inj cs.flatten).mpr hpre
  rw [← hrest, needed_append hle]

/-- Whatever a log operation leaves, opening finds the records that are whole. -/
theorem Reaches.left (hsize : Enduring size) (hc : config.Valid) {rs : List Record} {k : ℕ}
    {d : Dir}
    (h : Reaches crc config rs d) (hkept : Kept size rs k d) (hk : k ≤ rs.length) :
    ∃ rs', rs' <+: rs ∧ k ≤ rs'.length ∧ Left crc config rs' d ∧ Kept size rs' k d := by
  obtain ⟨cs, live, n, rfl, hd⟩ := h
  obtain ⟨synced, hnewest⟩ := hd.newest
  have hmax : ∀ b, (d.log b).isSome → b ≤ nextBase cs := fun b hb => by
    rcases (hd.files b).mp hb with hmem | rfl
    · have hlt := hd.closed.lt_end hmem
      omega
    · exact le_rfl
  have hneeded := hkept.needed_le hnewest hmax
  have hlen := hsize.le ⟨(encodeAll crc live).take n, synced⟩
  simp only [List.length_take] at hlen
  obtain ⟨hpre, hle, hsame⟩ := whole_kept hk (show _ ≤ n by omega)
  obtain ⟨tail, hcrash⟩ := hd.crashDir hc
  exact ⟨_, hpre, hle, ⟨cs, _, tail, rfl, hcrash⟩, nextBase cs, _, hnewest, hmax,
    (hsame _).trans_le hneeded⟩

/-- A power failure takes bytes of the newest segment that are not synced, and any bytes off the
end of an index. -/
def PowerLoss (d d' : Dir) : Prop :=
  ∃ newest n, Damaged d d' newest n ∧
    ∀ f f', d.log newest = some f → d'.log newest = some f' → f.synced ≤ f'.synced

theorem Torn.take {tail : List UInt8} (h : Torn crc config tail) (n : ℕ) :
    Torn crc config (tail.take n) := by
  rcases h with rfl | ⟨r, hr, hmax, m, hm, rfl⟩
  · exact .inl List.take_nil
  · exact .inr ⟨r, hr, hmax, min n m, by omega, by rw [List.take_take]⟩

theorem CrashDir.damaged (hc : config.Valid) {d d' : Dir} {cs : List (List Record)}
    {act : List Record} {tail : List UInt8} {n : ℕ} (h : CrashDir crc config d cs act tail)
    (hd : Damaged d d' (nextBase cs) n) :
    ∃ tail', CrashDir crc config d' cs (whole n act) tail' := by
  obtain ⟨synced, hlast⟩ := h.newest
  obtain ⟨f, synced', hf, -, hn, hf'⟩ := hd.newest_log
  rw [hlast, Option.some.injEq] at hf
  subst hf
  have hcut : ∃ tail', (encodeAll crc act ++ tail).take n = encodeAll crc (whole n act) ++ tail' ∧
      Torn crc config tail' := by
    rcases Nat.le_total n (totalLen act) with hle | hle
    · rw [List.take_append_of_le_length (by rwa [length_encodeAll])]
      exact take_encodeAll_whole crc hc h.numbered n
    · rw [whole_of_totalLen_le hle, List.take_append, List.take_of_length_le (by
        rwa [length_encodeAll])]
      exact ⟨_, rfl, h.torn.take _⟩
  obtain ⟨tail', hbytes, htorn⟩ := hcut
  refine ⟨tail', h.closed.imp fun b hb c hfile => ?_, ⟨synced', hbytes ▸ hf'⟩,
    h.numbered.ofPrefix (whole_isPrefix n act), ?_, htorn, fun b => ?_⟩
  · have hlt := h.closed.lt_end hb
    obtain ⟨k, hindex⟩ := hd.indexes b
    exact ⟨hd.closed_log b (by omega) ▸ hfile.log_file, hindex ▸ hfile.index_file.cut k,
      hfile.numbered, hfile.size_le⟩
  · obtain ⟨rest, hrest⟩ := whole_isPrefix n act
    have hsplit : totalLen (whole n act) + totalLen rest = totalLen act := by
      rw [← totalLen_append, hrest]
    have hle := h.size_le
    omega
  · by_cases hb : b = nextBase cs
    · simp [hb, hf']
    · rw [hd.closed_log b hb, h.files b]

theorem Left.damaged (hc : config.Valid) {rs : List Record} {d d' : Dir} {newest n : ℕ}
    (h : Left crc config rs d) (hdamage : Damaged d d' newest n) :
    ∃ rs', Left crc config rs' d' := by
  obtain ⟨cs, act, tail, -, hd⟩ := h
  obtain ⟨f, synced, hf, -⟩ := hdamage.newest_log
  obtain ⟨_, hlast⟩ := hd.newest
  obtain rfl : newest = nextBase cs := le_antisymm (hd.base_le (by rw [hf]; rfl))
    (hdamage.newest_max _ (by rw [hlast]; rfl))
  obtain ⟨tail', hcrash⟩ := hd.damaged hc hdamage
  exact ⟨_, cs, _, tail', rfl, hcrash⟩

/-- Of the records a power failure leaves those whose bytes were synced. -/
theorem Left.powerLoss (hc : config.Valid) {rs : List Record} {k : ℕ} {d d' : Dir}
    (h : Left crc config rs d) (hkept : Kept LogFile.stable rs k d) (hk : k ≤ rs.length)
    (hloss : PowerLoss d d') :
    ∃ rs', rs' <+: rs ∧ k ≤ rs'.length ∧ Left crc config rs' d' ∧
      Kept LogFile.stable rs' k d' := by
  obtain ⟨cs, act, tail, rfl, hd⟩ := h
  obtain ⟨newest, n, hdamage, hsynced⟩ := hloss
  obtain ⟨synced, hlast⟩ := hd.newest
  obtain ⟨f, synced', hf, hstable, hn, hf'⟩ := hdamage.newest_log
  obtain rfl : newest = nextBase cs := le_antisymm (hd.base_le (by rw [hf]; rfl))
    (hdamage.newest_max _ (by rw [hlast]; rfl))
  have hneeded := hkept.needed_le hf fun b hb => hd.base_le hb
  have hle' : f.synced ≤ synced' := hsynced f _ hf hf'
  simp only [LogFile.stable] at hneeded
  obtain ⟨tail', hcrash⟩ := hd.damaged hc hdamage
  obtain ⟨hpre, hle, hsame⟩ := whole_kept hk (show _ ≤ n by omega)
  refine ⟨_, hpre, hle, ⟨cs, _, tail', rfl, hcrash⟩, nextBase cs, _, hf',
    fun b hb => hcrash.base_le hb, ?_⟩
  rw [hsame]
  simp only [LogFile.stable, List.length_take]
  omega

end Replog.Storage
