import Replog.Partition.LogWrites
import Replog.Storage.EpochFile

/-!
# The checkpoint of a partition through crashes

The log and its epoch checkpoint are files of their own. A command that cuts both does so one
after the other, and a crash between the two leaves a checkpoint that is ahead of its log.
-/

namespace Replog.Partition
open Replog.Storage

/-- What the thread of a partition takes up. -/
inductive Input where
  | command (cmd : Cmd) (clock : ℕ → Clock) (now : ℕ)
  | timeout (clock : Clock)
  | disconnect (clock : Clock)

namespace Input

/-- The number of records that come in. -/
def records : Input → ℕ
  | command (.append produce _) _ _ => produce.records.length
  | command (.appendReplicated records) _ _ => records.length
  | _ => 0

/-- Offsets are `u64`. -/
def Fits (i : Input) (t : Thread) : Prop := t.log.nextOffset + i.records < 2 ^ 64

instance (i : Input) (t : Thread) : Decidable (i.Fits t) := Nat.decLt _ _

end Input

def Thread.step (crc : List UInt8 → UInt32) (policy : FsyncPolicy) (t : Thread) : Input → Thread
  | .command cmd clock now => (t.handle crc policy cmd clock now).2
  | .timeout clock => (t.timeout policy clock).2
  | .disconnect clock => (t.flush clock).2

/-- A partition that runs, or the files of one that does not. -/
inductive Life where
  | up (t : Thread)
  | down (d : Dir) (epochFile : Option (List UInt8))

/-- The thread ends once nobody can send to it. -/
def Input.next (t : Thread) : Input → Life
  | .disconnect _ => .down t.fs.dir t.epochFile
  | _ => .up t

/-- The files a process leaves that dies between `t` and `t'`. The log is written first; after it
the checkpoint is replaced as a whole, or bytes are appended to it. -/
inductive CrashIn (t t' : Thread) (spares : Dir → Prop) : Dir → Option (List UInt8) → Prop
  | log {ops : List FsOp} {d : Dir} (htrace : t'.fs.trace = t.fs.trace ++ ops)
      (hcrash : CrashPoint t.fs.dir ops d) (hspares : spares d) :
      CrashIn t t' spares d t.epochFile
  | replaced : CrashIn t t' spares t'.fs.dir t'.epochFile
  | appended (n : ℕ) (hold : t.epochFile.getD [] <+: t'.epochFile.getD [])
      (hn : (t.epochFile.getD []).length ≤ n) :
      CrashIn t t' spares t'.fs.dir (some ((t'.epochFile.getD []).take n))

/-- The runs of a partition in which the crashes satisfy `spares`. -/
inductive Run (crc : List UInt8 → UInt32) (config : LogConfig)
    (spares : Thread → Input → Dir → Prop) : Life → Prop
  | new : Run crc config spares (.down .empty none)
  | started {d : Dir} {file : Option (List UInt8)} {clock : Clock} {t : Thread}
      (h : Run crc config spares (.down d file))
      (hspawn : Thread.spawn crc config clock d file = some t) : Run crc config spares (.up t)
  | stepped {t : Thread} (h : Run crc config spares (.up t)) {i : Input} (hfits : i.Fits t) :
      Run crc config spares (i.next (t.step crc config.fsync i))
  | crashed {t : Thread} (h : Run crc config spares (.up t)) {i : Input} (hfits : i.Fits t)
      {d : Dir} {file : Option (List UInt8)}
      (hcrash : CrashIn t (t.step crc config.fsync i) (spares t i) d file) :
      Run crc config spares (.down d file)
  | crashedStarting {d d' : Dir} {file : Option (List UInt8)} {clock : Clock} {t : Thread}
      (h : Run crc config spares (.down d file))
      (hspawn : Thread.spawn crc config clock d file = some t)
      (hcrash : CrashPoint d t.fs.trace d') : Run crc config spares (.down d' file)

/-- Between two segment files that a cut found, the first is gone and the second is not. -/
def Gapped (d d' : Dir) : Prop :=
  ∃ b b', b < b' ∧ (d.log b).isSome ∧ d'.log b = none ∧ (d'.log b').isSome

/-- A crash in a cut that has not got to the checkpoint yet spares an entry if the entry does not
start past the cut or the files with the records before its start are untouched, and every entry
if the log does not open any more. -/
def Spares (t : Thread) : Input → Dir → Prop
  | .command (.truncateTo offset) _ _, d =>
    Gapped t.fs.dir d ∨ ∀ e ∈ t.epochs.entries, e.2 ≤ offset ∨ Untouched e.2 t.fs.dir d
  | _, _ => True

/-- The checkpoint goes with the log, and the next epoch is recorded at the log's end. -/
structure Thread.Checkpointed (t : Thread) : Prop where
  sound : t.epochs.Sound t.log.nextOffset
  recorded : ∀ epoch : UInt64, t.epochs.currentEpoch < epoch.toNat → t.recordEpoch epoch =
    { t with
      epochs := ⟨t.epochs.entries ++ [(epoch.toNat, t.log.nextOffset)]⟩
      epochFile := some (t.epochFile.getD [] ++
        EpochCheckpoint.encodeEntry (epoch.toNat, t.log.nextOffset)) }

/-! ## The invariant -/

variable {crc : List UInt8 → UInt32} {config : LogConfig}

/-- The log and the checkpoint, in memory and as files. -/
structure Records (crc : List UInt8 → UInt32) (config : LogConfig) (t : Thread)
    (rs : List Record) : Prop where
  represents : Represents crc config t.state rs
  sound : t.epochs.Sound rs.length
  fits : t.epochs.Fits
  stored : t.epochs.Stored t.epochFile

/-- Files that open as a log with its checkpoint, or do not open. -/
inductive Files (crc : List UInt8 → UInt32) (config : LogConfig) (d : Dir) :
    Option (List UInt8) → Prop
  | opens {rs : List Record} {ck : EpochCheckpoint} {file : Option (List UInt8)}
      (hdir : d = .empty ∧ rs = [] ∨ Left crc config rs d) (hsound : ck.Sound rs.length)
      (hfits : ck.Fits) (hstored : ck.Stored file) : Files crc config d file
  | torn {file : Option (List UInt8)} (h : EpochCheckpoint.load file = none) :
      Files crc config d file
  | gap {cs : List (List Record)} (h : Gap crc config d cs) {file : Option (List UInt8)} :
      Files crc config d file

/-- What matters of a thread for its files. -/
def Thread.files (t : Thread) : (Log × Fs) × EpochCheckpoint × Option (List UInt8) :=
  (t.state, t.epochs, t.epochFile)

/-- A step writes to the log, then to the checkpoint; a crash on the way leaves good files. -/
def Steps (crc : List UInt8 → UInt32) (config : LogConfig) (t : Thread) (spares : Dir → Prop)
    (t' : Thread) : Prop :=
  ∃ rs ops, t'.fs = t.fs.advance ops ∧ Records crc config t' rs ∧
    Passes (fun d => spares d → Files crc config d t.epochFile) t.fs ops

theorem Records.grows (hc : config.Valid) {t t' : Thread} {rs : List Record}
    (h : Records crc config t rs)
    {s : Log × Fs} {more : List Record} {k opened : ℕ} {ops : List FsOp} {spares : Dir → Prop}
    (hfiles : t'.files = (s, t.epochs, t.epochFile)) (hfs : s.2 = t.fs.advance ops)
    (hlog : LogInv crc config LogFile.length s (rs ++ more) k opened)
    (hpasses : Passes (Writing crc config LogFile.length rs rs.length) t.fs ops) :
    Steps crc config t spares t' := by
  obtain ⟨hstate, hepochs, hfile⟩ : t'.state = s ∧ t'.epochs = t.epochs ∧
      t'.epochFile = t.epochFile := by simpa [Thread.files] using hfiles
  have hfs' : t'.fs = s.2 := congrArg Prod.snd hstate
  refine ⟨rs ++ more, ops, hfs'.trans hfs, ⟨hstate ▸ hlog.represents, ?_, hepochs ▸ h.fits,
    hepochs ▸ hfile ▸ h.stored⟩, fun d hd _ => ?_⟩
  · rw [hepochs]
    exact h.sound.mono (by simp)
  · obtain ⟨more', hreaches, hkept⟩ := hpasses d hd
    obtain ⟨rs', -, hle, hleft, -⟩ :=
      hreaches.left LogFile.enduring_length hc hkept (by simp)
    exact .opens (.inr hleft) (h.sound.mono hle) h.fits h.stored

theorem Records.logInv {t : Thread} {rs : List Record} (h : Records crc config t rs) :
    ∃ opened, LogInv crc config LogFile.length t.state rs rs.length opened := by
  obtain ⟨cs, act, hok, hrs⟩ := h.represents
  refine ⟨t.log.durableOffset.getD 0 + 1, h.represents, ?_, le_rfl, fun d hd => ?_⟩
  · obtain ⟨synced, hfile⟩ := hok.active.log_file
    refine ⟨nextBase cs, _, hfile, fun b hb => hok.base_le hb, ?_⟩
    rw [← hrs, needed_nextBase, LogFile.length, length_encodeAll]
    exact totalLen_take_le act _
  · have hd' : t.log.durableOffset = some d := hd
    rw [hd']
    exact .inr (Nat.lt_succ_self d)

/-! ## The commands -/

private theorem answerAppend_files (policy : FsyncPolicy) (produce : Produce) (p : Thread.Progress)
    (t : Thread) : (t.answerAppend policy produce p).2.files = t.files := by
  simp only [Thread.answerAppend]
  split
  · rfl
  · rfl
  · split_ifs <;> rfl

theorem append_files (policy : FsyncPolicy) (produce : Produce) (answered : Bool)
    (clock : ℕ → Clock) (now : ℕ) (t : Thread) :
    (t.append crc policy produce answered clock now).2.files =
      ((Thread.appendAll crc produce.records clock ⟨none, 0, none⟩ t.state).2, t.epochs,
        t.epochFile) := by
  simp only [Thread.append]
  generalize Thread.appendAll crc produce.records clock ⟨none, 0, none⟩ t.state = result
  obtain ⟨p, s⟩ := result
  cases answered with
  | false => rfl
  | true => exact answerAppend_files _ _ _ _

private theorem append_steps (hc : config.Valid) {t : Thread} {rs : List Record}
    (h : Records crc config t rs) {produce : Produce}
    (hroom : rs.length + produce.records.length ≤ 2 ^ 64) (policy : FsyncPolicy) (answered : Bool)
    (clock : ℕ → Clock) (now : ℕ) (spares : Dir → Prop) :
    Steps crc config t spares (t.append crc policy produce answered clock now).2 := by
  obtain ⟨opened, hlog⟩ := h.logInv
  obtain ⟨more, k, ops, hfs, -, hlog', hpasses, -⟩ :=
    appendAll_inv LogFile.enduring_length hc clock ⟨none, 0, none⟩ hlog hroom
  exact h.grows hc (append_files policy produce answered clock now t) hfs hlog' hpasses

private theorem appendReplicated_steps (hc : config.Valid) {t : Thread} {rs records : List Record}
    (h : Records crc config t rs) (hroom : rs.length + records.length ≤ 2 ^ 64)
    (clock : ℕ → Clock) (now : ℕ) (spares : Dir → Prop) :
    Steps crc config t spares (t.appendReplicated crc records clock now).2 := by
  obtain ⟨opened, hlog⟩ := h.logInv
  obtain ⟨more, k, ops, hfs, -, hlog', hpasses⟩ :=
    appendReplicatedAll_inv LogFile.enduring_length hc clock hlog hroom
  refine h.grows hc ?_ hfs hlog' hpasses
  simp only [Thread.appendReplicated]
  rfl

theorem flush_steps (hc : config.Valid) {t : Thread} {rs : List Record}
    (h : Records crc config t rs) (clock : Clock) (spares : Dir → Prop) :
    Steps crc config t spares (t.flush clock).2 := by
  obtain ⟨opened, hlog⟩ := h.logInv
  obtain ⟨log, k, hrun, -, hlog', hpasses⟩ := flush_inv LogFile.enduring_length hlog clock
  have hlog'' : LogInv crc config LogFile.length _ (rs ++ []) k opened :=
    (List.append_nil rs).symm ▸ hlog'
  refine h.grows hc ?_ rfl hlog'' hpasses
  simp only [Thread.flush, hrun]
  rfl

theorem Records.unchanged (hc : config.Valid) {t t' : Thread} {rs : List Record}
    (h : Records crc config t rs) (hfiles : t'.files = t.files) (spares : Dir → Prop) :
    Steps crc config t spares t' := by
  obtain ⟨opened, hlog⟩ := h.logInv
  obtain ⟨more, k, ops, hfs, -, hlog', hpasses⟩ := hlog.unchanged
  exact h.grows hc hfiles hfs hlog' hpasses

private theorem read_steps (hc : config.Valid) {t : Thread} {rs : List Record}
    (h : Records crc config t rs) (offset maxBytes : ℕ) (spares : Dir → Prop) :
    Steps crc config t spares (t.read crc offset maxBytes).2 := by
  have hreads := h.represents.reads hc
  refine h.unchanged hc ?_ spares
  simp only [Thread.read]
  rcases Nat.lt_trichotomy offset rs.length with hlt | rfl | hgt
  · obtain ⟨run, hrun, -⟩ := hreads.inside offset hlt maxBytes
    rw [hrun]
    rfl
  · rw [hreads.atEnd maxBytes]
    rfl
  · rw [hreads.past offset hgt maxBytes]
    rfl

theorem Records.down {t : Thread} {rs : List Record} (h : Records crc config t rs) :
    Files crc config t.fs.dir t.epochFile :=
  .opens (.inr (h.represents.left)) h.sound h.fits h.stored

theorem truncateEpochs_epochs (offset : ℕ) (t : Thread) :
    (t.truncateEpochs offset).epochs = t.epochs.truncateTo offset := by
  rw [Thread.truncateEpochs]
  split_ifs with hsame
  · exact hsame.symm
  · rfl

theorem truncateEpochs_records {t : Thread} {rs : List Record} {offset n : ℕ}
    (hrep : Represents crc config t.state rs) (hsound : t.epochs.Sound n) (hfits : t.epochs.Fits)
    (hstored : t.epochs.Stored t.epochFile) (hle : min offset n ≤ rs.length) :
    Records crc config (t.truncateEpochs offset) rs := by
  have hstate : (t.truncateEpochs offset).state = t.state := by
    rw [Thread.truncateEpochs]
    split_ifs <;> rfl
  refine ⟨hstate ▸ hrep, ?_, ?_, ?_⟩
  · rw [truncateEpochs_epochs]
    exact (hsound.truncateTo offset).mono hle
  · rw [truncateEpochs_epochs]
    exact fun e he => hfits e ((List.takeWhile_sublist _).subset he)
  · rw [Thread.truncateEpochs]
    split_ifs
    · exact hstored
    · rfl

private theorem truncateTo_steps (hc : config.Valid) {t : Thread} {rs : List Record}
    (h : Records crc config t rs) (offset : ℕ) (clock : ℕ → Clock) (now : ℕ) :
    Steps crc config t (Spares t (.command (.truncateTo offset) clock now))
      (t.truncateTo crc offset).2 := by
  obtain ⟨cs, act, hok, hrs⟩ := h.represents
  rcases Nat.lt_or_ge offset rs.length with hin | hpast
  · obtain ⟨log, ops, cs', act', hrun, hok', hflat, hpasses⟩ :=
      truncateSuffix_spec hc hok (hrs ▸ hin)
    rw [hrs] at hflat hpasses
    simp only [Thread.truncateTo, hrun]
    refine ⟨rs.take offset, ops, ?_, truncateEpochs_records ⟨cs', act', hok', hflat⟩ h.sound h.fits
      h.stored ?_, hpasses.imp fun d hd hspares => ?_⟩
    · rw [Thread.truncateEpochs]
      split_ifs <;> rfl
    · rw [List.length_take]
    · cases hd with
      | gap hgap => exact .gap hgap
      | @opens rs' hleft hpre hn hkept hfiles =>
        rcases hspares with ⟨b, b', hlt, hsome, hgone, hsome'⟩ | hentries
        · have hstill := hfiles b b' hlt hsome hsome'
          rw [hgone] at hstill
          cases hstill
        · refine .opens (.inr hleft) (h.sound.of_le fun e he => ?_) h.fits h.stored
          rcases hentries e he with hle | hsame
          · exact hle.trans hn
          · exact hkept e.2 (h.sound.start_le e he) hsame
  · have hrun : (Log.truncateSuffix crc offset).run t.state = .ok () t.state :=
      truncateSuffix_past hok (hrs ▸ hpast)
    simp only [Thread.truncateTo, hrun]
    refine ⟨rs, [], ?_, truncateEpochs_records h.represents h.sound h.fits h.stored (by omega),
      .nil fun _ => h.down⟩
    refine Eq.trans ?_ (show t.fs = t.fs.advance [] from
      (Fs.advance_nil h.represents.healthy).symm)
    rw [Thread.truncateEpochs]
    split_ifs <;> rfl

theorem recordEpoch_eq {t : Thread} {rs : List Record} (h : Records crc config t rs)
    {epoch : UInt64} (hlater : t.epochs.currentEpoch < epoch.toNat) :
    t.recordEpoch epoch =
      { t with
        epochs := ⟨t.epochs.entries ++ [(epoch.toNat, t.log.nextOffset)]⟩
        epochFile := some (t.epochFile.getD [] ++
          EpochCheckpoint.encodeEntry (epoch.toNat, t.log.nextOffset)) } := by
  have hnext : t.log.nextOffset = rs.length := h.represents.nextOffset_eq
  have happend := h.sound.append_eq hlater
  rw [← hnext] at happend
  rw [Thread.recordEpoch, if_pos hlater, happend]

private theorem recordEpoch_steps (hc : config.Valid) {t : Thread} {rs : List Record}
    (h : Records crc config t rs) (hroom : t.log.nextOffset < 2 ^ 64) (epoch : UInt64)
    (spares : Dir → Prop) : Steps crc config t spares (t.recordEpoch epoch) := by
  by_cases hlater : t.epochs.currentEpoch < epoch.toNat
  · have hnext : t.log.nextOffset = rs.length := h.represents.nextOffset_eq
    rw [recordEpoch_eq h hlater]
    refine ⟨rs, [], (Fs.advance_nil h.represents.healthy).symm, ⟨h.represents, ?_, ?_, ?_⟩,
      .nil fun _ => h.down⟩
    · rw [hnext]
      exact h.sound.snoc hlater
    · intro e he
      rcases List.mem_append.mp he with hin | hin
      · exact h.fits e hin
      · rw [List.mem_singleton.mp hin]
        exact ⟨epoch.toNat_lt, hroom⟩
    · have hstored : t.epochFile.getD [] = t.epochs.encode := h.stored
      simp [EpochCheckpoint.Stored, EpochCheckpoint.encode, hstored]
  · rw [Thread.recordEpoch, if_neg hlater]
    exact h.unchanged hc rfl spares

theorem step_steps (hc : config.Valid) (policy : FsyncPolicy) {t : Thread} {rs : List Record}
    (h : Records crc config t rs) {i : Input} (hfits : i.Fits t) :
    Steps crc config t (Spares t i) (t.step crc policy i) := by
  have hnext : t.log.nextOffset = rs.length := h.represents.nextOffset_eq
  cases i with
  | command cmd clock now =>
    cases cmd with
    | append produce answered =>
      exact append_steps hc h (by rw [← hnext]; exact hfits.le) policy answered clock now _
    | read offset maxBytes => exact read_steps hc h offset maxBytes _
    | appendReplicated records =>
      exact appendReplicated_steps hc h (by rw [← hnext]; exact hfits.le) clock now _
    | truncateTo offset => exact truncateTo_steps hc h offset clock now
    | recordEpoch epoch =>
      exact recordEpoch_steps hc h ((Nat.le_add_right _ _).trans_lt hfits) epoch _
    | epochStatus => exact h.unchanged hc rfl _
    | epochEndFor epoch => exact h.unchanged hc rfl _
  | timeout clock =>
    simp only [Thread.step, Thread.timeout]
    split
    · split_ifs
      · exact flush_steps hc h clock _
      · exact h.unchanged hc rfl _
    · exact h.unchanged hc rfl _
  | disconnect clock => exact flush_steps hc h clock _

/-! ## Runs -/

private theorem Steps.crashIn {t t' : Thread} {spares : Dir → Prop} (h : Steps crc config t spares t')
    {d : Dir} {file : Option (List UInt8)} (hcrash : CrashIn t t' spares d file) :
    Files crc config d file := by
  obtain ⟨rs, ops, hfs, hrecords, hpasses⟩ := h
  cases hcrash with
  | log htrace hcrash hspares =>
    rw [hfs] at htrace
    obtain rfl := List.append_cancel_left htrace
    exact hpasses d hcrash hspares
  | replaced => exact hrecords.down
  | appended n _ _ =>
    have hstored : t'.epochFile.getD [] = t'.epochs.encode := hrecords.stored
    rw [hstored]
    rcases t'.epochs.take_stored n with ⟨j, hj⟩ | htorn
    · refine .opens (.inr (hrecords.represents.left)) (hrecords.sound.take j)
        (fun e he => hrecords.fits e (List.mem_of_mem_take he)) hj
    · exact .torn htorn

private theorem spawn_eq_some {clock : Clock} {d : Dir} {file : Option (List UInt8)} {t : Thread}
    (h : Thread.spawn crc config clock d file = some t) :
    ∃ log fs ck, (Log.openDir crc (logConfig config) clock).run ⟨d, [], []⟩ = .ok log fs ∧
      EpochCheckpoint.load file = some ck ∧
      t = { log, fs, epochs := ck, epochFile := file, pending := [], dirtySince := none } := by
  rw [Thread.spawn] at h
  split at h
  · rename_i log fs hrun
    obtain ⟨ck, hload, rfl⟩ := Option.map_eq_some_iff.mp h
    exact ⟨log, fs, ck, hrun, hload, rfl⟩
  · cases h

private theorem made_passes {file : Option (List UInt8)} {ck : EpochCheckpoint}
    (hsound : ck.Sound ([] : List Record).length) (hfits : ck.Fits) (hstored : ck.Stored file) :
    Passes (fun d => Files crc config d file) ⟨Dir.empty, [], []⟩
      [.createLog 0, .createIndex 0] := by
  have hempty : Files crc config Dir.empty file :=
    .opens (.inl ⟨rfl, rfl⟩) hsound hfits hstored
  have hmade : ∀ {d : Dir}, (∀ b, d.log b = if b = 0 then some ⟨[], 0⟩ else none) →
      Files crc config d file := fun h =>
    .opens (.inr (@left_nil crc config LogFile.length _ h).1) hsound hfits hstored
  have hcreated : Files crc config ((FsOp.createLog 0).apply .empty) file := hmade fun b => by simp
  exact .cons hempty (fun _ => hempty)
    (.cons hcreated (fun _ => hcreated) (.nil (hmade fun b => by simp)))

/-- What opens is a log with its checkpoint, and stays one while it is opened. -/
theorem Files.spawn (hvalid : config.Valid) {clock : Clock} {d : Dir}
    {file : Option (List UInt8)} (h : Files crc (logConfig config) d file) {t : Thread}
    (hspawn : Thread.spawn crc config clock d file = some t) :
    (∃ rs, Records crc (logConfig config) t rs) ∧
      ∀ d', CrashPoint d t.fs.trace d' → Files crc (logConfig config) d' file := by
  have hc := logConfig_valid hvalid
  obtain ⟨log, fs, ck, hrun, hload, rfl⟩ := spawn_eq_some hspawn
  cases h with
  | torn htorn =>
    rw [htorn] at hload
    cases hload
  | gap hgap =>
    obtain ⟨e, fs', herror⟩ := hgap.openDir hc clock
    rw [hrun] at herror
    cases herror
  | @opens rs ck' _ hdir hsound hfits hstored =>
    rw [hsound.load_stored hfits hstored] at hload
    cases hload
    rcases hdir with ⟨rfl, rfl⟩ | hleft
    · obtain ⟨log', hrun', hok, -⟩ := openDir_empty_run crc hc clock
      rw [hrun] at hrun'
      cases hrun'
      exact ⟨⟨[], ⟨[], [], hok, rfl⟩, hsound, hfits, hstored⟩, made_passes hsound hfits hstored⟩
    · obtain ⟨log', ops, hrun', hrep, -, hpasses⟩ :=
        hleft.open LogFile.enduring_length hc hleft.kept_zero clock
      rw [hrun] at hrun'
      cases hrun'
      exact ⟨⟨rs, hrep, hsound, hfits, hstored⟩, fun d' hd' =>
        .opens (.inr (hpasses d' hd').1) hsound hfits hstored⟩

def Life.Ok (crc : List UInt8 → UInt32) (config : LogConfig) : Life → Prop
  | .up t => ∃ rs, Records crc config t rs
  | .down d file => Files crc config d file

theorem Run.ok (hvalid : config.Valid) {life : Life} (h : Run crc config Spares life) :
    life.Ok crc (logConfig config) := by
  have hc := logConfig_valid hvalid
  induction h with
  | new =>
    exact .opens (.inl ⟨rfl, rfl⟩) (.nil : EpochCheckpoint.Sound _ ([] : List Record).length) nofun
      rfl
  | started _ hspawn ih => exact (Files.spawn hvalid ih hspawn).1
  | stepped _ hfits ih =>
    rename_i t i
    obtain ⟨rs, hrecords⟩ := ih
    obtain ⟨rs', ops, -, hrecords', -⟩ := step_steps hc config.fsync hrecords hfits
    cases i with
    | disconnect => exact hrecords'.down
    | command => exact ⟨rs', hrecords'⟩
    | timeout => exact ⟨rs', hrecords'⟩
  | crashed _ hfits hcrash ih =>
    obtain ⟨rs, hrecords⟩ := ih
    exact (step_steps hc config.fsync hrecords hfits).crashIn hcrash
  | crashedStarting _ hspawn hcrash ih => exact (Files.spawn hvalid ih hspawn).2 _ hcrash

/-- In a run whose crashes spare the checkpoint, it always goes with the log. -/
theorem checkpoint_spared (hconfig : config.validate = .ok ()) {t : Thread}
    (h : Run crc config Spares (.up t)) : t.Checkpointed := by
  obtain ⟨rs, hrecords⟩ := h.ok (config.validate_eq_ok_iff.mp hconfig)
  have hnext : t.log.nextOffset = rs.length := hrecords.represents.nextOffset_eq
  exact ⟨hnext ▸ hrecords.sound, fun epoch hlater => recordEpoch_eq hrecords hlater⟩

section Ahead

/-- A partition that has just been started. -/
def emptyPartition : Thread :=
  { log := emptyLog.1, fs := emptyLog.2, epochs := ⟨[]⟩, epochFile := none, pending := []
    dirtySince := none }

def inputAt (cmd : Cmd) : Input := .command cmd (fun _ => ⟨0, 0⟩) 0

def afterInputs (inputs : List Input) : Thread :=
  inputs.foldl (Thread.step (fun _ => 0) smallConfig.fsync) emptyPartition

/-- Two epochs, the second of which starts behind the first record. -/
def twoEpochs : Thread :=
  afterInputs [inputAt (.recordEpoch 1), inputAt (.append ⟨[(none, [7])], .written⟩ true),
    inputAt (.recordEpoch 2)]

/-- The files once the log has been cut and the checkpoint has not. -/
def halfCut : Dir × Option (List UInt8) :=
  ((twoEpochs.step (fun _ => 0) smallConfig.fsync (inputAt (.truncateTo 0))).fs.dir,
    twoEpochs.epochFile)

def restarted : Thread :=
  (Thread.spawn (fun _ => 0) smallConfig ⟨0, 0⟩ halfCut.1 halfCut.2).getD emptyPartition

theorem twoEpochs_run (spares : Thread → Input → Dir → Prop) :
    Run (fun _ => 0) smallConfig spares (.up twoEpochs) := by
  have hempty : Run (fun _ => 0) smallConfig spares (.up emptyPartition) :=
    @Run.started _ _ _ _ _ ⟨0, 0⟩ _ .new rfl
  have hone := hempty.stepped (i := inputAt (.recordEpoch 1)) (by decide)
  have htwo := hone.stepped (i := inputAt (.append ⟨[(none, [7])], .written⟩ true)) (by decide)
  exact htwo.stepped (i := inputAt (.recordEpoch 2)) (by decide)

/-- A crash at the very start of the cut spares everything. -/
theorem checkpoint_spared_uncut :
    ∃ t, Thread.spawn (fun _ => 0) smallConfig ⟨0, 0⟩ twoEpochs.fs.dir twoEpochs.epochFile =
        some t ∧ t.Checkpointed := by
  have hcrash : CrashIn twoEpochs
      (twoEpochs.step (fun _ => 0) smallConfig.fsync (inputAt (.truncateTo 0)))
      (Spares twoEpochs (inputAt (.truncateTo 0))) twoEpochs.fs.dir twoEpochs.epochFile :=
    .log (show _ = twoEpochs.fs.trace ++ [.setLen 0 0, .fsyncLog 0, .createIndex 0] by decide)
      (.before _ _) (.inr fun _ _ => .inr fun _ _ => rfl)
  have hcut := (twoEpochs_run Spares).crashed (i := inputAt (.truncateTo 0)) (by decide) hcrash
  exact ⟨_, rfl, checkpoint_spared rfl (@Run.started _ _ _ _ _ ⟨0, 0⟩ _ hcut rfl)⟩

/-- After a crash between the two cuts an epoch starts behind the log's end, and the next one is
not recorded. -/
theorem checkpoint_ahead :
    ∃ t, Run (fun _ => 0) smallConfig (fun _ _ _ => True) (.up t) ∧ t.log.nextOffset = 0 ∧
      t.epochs.entries = [(1, 0), (2, 1)] ∧ t.recordEpoch 3 = t ∧ ¬ t.Checkpointed := by
  have hcrash : CrashIn twoEpochs
      (twoEpochs.step (fun _ => 0) smallConfig.fsync (inputAt (.truncateTo 0))) (fun _ => True)
      halfCut.1 halfCut.2 :=
    .log (show _ = twoEpochs.fs.trace ++ [.setLen 0 0, .fsyncLog 0, .createIndex 0] by decide)
      (.last _ _) trivial
  have hcut := (twoEpochs_run fun _ _ _ => True).crashed (i := inputAt (.truncateTo 0)) (by decide)
    hcrash
  have hspawn : Thread.spawn (fun _ => 0) smallConfig ⟨0, 0⟩ halfCut.1 halfCut.2 =
    some restarted := rfl
  refine ⟨restarted, .started hcut hspawn, rfl, rfl, rfl, fun hck => ?_⟩
  exact absurd (hck.sound.start_le (2, 1) (by decide)) (by decide)

end Ahead

end Replog.Partition
