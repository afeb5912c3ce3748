import Replog.Storage.LogShape
import Replog.Storage.OtherConfig
import Replog.Storage.TornTails

/-!
# What the durable offset covers

A process that is killed leaves all its bytes behind, synced or not, and the next one takes what it
finds for durable. Where every opening finds the newest segment synced to its end, or cuts a torn
tail off and syncs the rest, the records up to the durable offset are always in the synced parts of
their files.
-/

namespace Replog.Storage
open Replog.Library

variable {crc : List UInt8 → UInt32} {config : LogConfig}

/-- The whole file of the segment is synced. -/
def SyncedAt (base : ℕ) (d : Dir) : Prop := ∀ f, d.log base = some f → f.bytes.length ≤ f.synced

/-- All files but the newest are synced. -/
def SyncedBehind (d : Dir) : Prop := ∀ b b', b < b' → (d.log b').isSome → SyncedAt b d

/-- Nothing is new, and what was synced still is. -/
theorem SyncedBehind.of_le {d d' : Dir} (h : SyncedBehind d)
    (hfiles : ∀ b, (d'.log b).isSome → (d.log b).isSome) (hsync : ∀ b, SyncedAt b d → SyncedAt b d') :
    SyncedBehind d' := fun b b' hlt hb' => hsync b (h b b' hlt (hfiles b' hb'))

theorem syncedAt_mapLog {d d' : Dir} {base b : ℕ} {g : LogFile → LogFile}
    (hd : ∀ b, d'.log b = if b = base then (d.log base).map g else d.log b)
    (hg : ∀ f, f.bytes.length ≤ f.synced → (g f).bytes.length ≤ (g f).synced)
    (h : SyncedAt b d) : SyncedAt b d' := by
  intro f hf
  rw [hd b] at hf
  split_ifs at hf with hb
  · subst hb
    obtain ⟨f', hf', rfl⟩ := Option.map_eq_some_iff.mp hf
    exact hg f' (h f' hf')
  · exact h f hf

theorem SyncedBehind.mapLog {d d' : Dir} {base : ℕ} {g : LogFile → LogFile} (h : SyncedBehind d)
    (hd : ∀ b, d'.log b = if b = base then (d.log base).map g else d.log b)
    (hg : ∀ f, f.bytes.length ≤ f.synced → (g f).bytes.length ≤ (g f).synced) :
    SyncedBehind d' := by
  refine h.of_le (fun b hb => ?_) fun b => syncedAt_mapLog hd hg
  rw [hd b] at hb
  split_ifs at hb with heq
  · rwa [heq, ← Option.isSome_map (f := g)]
  · exact hb

theorem setLen_synced (n : ℕ) (f : LogFile) (h : f.bytes.length ≤ f.synced) :
    (f.bytes.take n).length ≤ min f.synced n := by
  rw [List.length_take]
  omega

/-- Whatever a recovery or a truncation does, the files behind the newest stay synced. -/
theorem syncedBehind_recovers (base : ℕ) : DirRecovers SyncedBehind base where
  createIndex := .of_apply (fun _ hd => hd) fun _ _ => rfl
  writeIndex bytes := ⟨fun _ hd => hd.of_le (fun b hb => by simpa using hb) fun b hb => by
      simpa [SyncedAt] using hb,
    fun n _ hd => hd.of_le (fun b hb => by simpa [FsOp.applyFailed] using hb) fun b hb => by
      simpa [SyncedAt, FsOp.applyFailed] using hb⟩
  setLen n := .of_apply (fun d hd => hd.mapLog (fun b => FsOp.log_setLen d base b n)
    (setLen_synced n)) fun _ _ => rfl
  fsyncLog := .of_apply (fun d hd => hd.mapLog (fun b => FsOp.log_fsyncLog d base b)
    fun _ _ => le_rfl) fun _ _ => rfl

private theorem syncedBehind_removeLog (base : ℕ) : (FsOp.removeLog base).Keeps SyncedBehind := by
  refine .of_apply (fun d hd => hd.of_le (fun b hb => ?_) fun b hb f hf => ?_) fun _ _ => rfl
  · rw [FsOp.log_removeLog] at hb
    split_ifs at hb
    · cases hb
    · exact hb
  · rw [FsOp.log_removeLog] at hf
    split_ifs at hf
    exact hb f hf

/-- The operations of truncations and openings from `start` on. -/
theorem syncedBehind_truncates (start : Fs) : Truncates (Along SyncedBehind start) where
  recovers base :=
    have h := syncedBehind_recovers base
    ⟨Along.perform h.createIndex start, fun bytes => Along.perform (h.writeIndex bytes) start,
      fun n => Along.perform (h.setLen n) start, Along.perform h.fsyncLog start⟩
  removeLog base := Along.perform (syncedBehind_removeLog base) start
  removeIndex base :=
    have h : (FsOp.removeIndex base).Keeps SyncedBehind :=
      .of_apply (fun _ hd => hd) fun _ _ => rfl
    Along.perform h start

/-! ## Appending -/

theorem SyncedBehind.writeLog {d : Dir} {base : ℕ} (h : SyncedBehind d)
    (hmax : ∀ b, (d.log b).isSome → b ≤ base) (bytes : List UInt8) :
    SyncedBehind ((FsOp.writeLog base bytes).apply d) := by
  intro b b' hlt hb' f hf
  rw [FsOp.log_writeLog] at hb' hf
  have hfile : (d.log b').isSome := by
    split_ifs at hb' with heq
    · rwa [heq, ← Option.isSome_map (f := fun f : LogFile => { f with bytes := f.bytes ++ bytes })]
    · exact hb'
  have hle := hmax b' hfile
  rw [if_neg (by omega)] at hf
  exact h b b' hlt hfile f hf

theorem SyncedBehind.createLog {d : Dir} {base : ℕ} (h : ∀ b, SyncedAt b d) :
    SyncedBehind ((FsOp.createLog base).apply d) := by
  intro b b' _ _ f hf
  rw [FsOp.log_createLog] at hf
  split_ifs at hf
  · cases hf
    exact Nat.zero_le _
  · exact h b f hf

section Append

variable {s : Log × Fs} {cs : List (List Record)} {act : List Record}

private theorem LogOk.synced_all (h : LogOk crc config s cs act) (hb : SyncedBehind s.2.dir)
    (hactive : SyncedAt (nextBase cs) s.2.dir) (b : ℕ) : SyncedAt b s.2.dir := by
  intro f hf
  have hle := h.base_le (b := b) (by rw [hf]; rfl)
  obtain ⟨_, hnewest⟩ := h.active.log_file
  rcases hle.lt_or_eq with hlt | rfl
  · exact hb b _ hlt (by rw [hnewest]; rfl) f hf
  · exact hactive f hf

theorem SyncedBehind.fsync {d : Dir} (h : SyncedBehind d) (base : ℕ) :
    SyncedBehind ((FsOp.fsyncLog base).apply d) := (syncedBehind_recovers base).fsyncLog.apply d h

theorem syncedAt_fsync (base : ℕ) (d : Dir) : SyncedAt base ((FsOp.fsyncLog base).apply d) := by
  intro f hf
  rw [FsOp.log_fsyncLog, if_pos rfl] at hf
  obtain ⟨f', -, rfl⟩ := Option.map_eq_some_iff.mp hf
  exact le_rfl

theorem SyncedBehind.passes_append (h : LogOk crc config s cs act) (hb : SyncedBehind s.2.dir)
    (r : Record) : Passes SyncedBehind s.2 (appendOps crc config s.1.active r) := by
  have hmax : ∀ b, (s.2.dir.log b).isSome → b ≤ s.1.active.baseOffset := fun b hfile =>
    h.active.base_eq.symm ▸ h.base_le hfile
  have hwrite : ∀ fs : Fs, SyncedBehind fs.dir →
      (∀ b, (fs.dir.log b).isSome → b ≤ s.1.active.baseOffset) →
      Passes SyncedBehind fs [.writeLog s.1.active.baseOffset (r.encode crc)] := fun fs hfs hmax =>
    .cons hfs (fun n => hfs.writeLog hmax _) (.nil (hfs.writeLog hmax _))
  rw [appendOps]
  split_ifs
  · have hindex := (syncedBehind_recovers s.1.active.baseOffset).writeIndex
    exact .append (.cons hb (fun n => (hindex _).failed n _ hb) (.nil ((hindex _).apply _ hb)))
      (hwrite _ ((hindex _).apply _ hb) fun b hfile => hmax b (by simpa using hfile))
  · exact hwrite _ hb hmax

theorem SyncedBehind.passes_fsync {fs : Fs} (hb : SyncedBehind fs.dir) (base : ℕ) :
    Passes SyncedBehind fs [.fsyncLog base] :=
  .cons hb (fun _ => hb) (.nil (hb.fsync base))

theorem SyncedBehind.passes_roll (h : LogOk crc config s cs act) (hb : SyncedBehind s.2.dir) :
    Passes SyncedBehind s.2 (rollOps s.1) := by
  obtain ⟨log, -, -, -, -, hflushed⟩ := flush_spec h ⟨0, 0⟩
  have hbehind := hb.fsync s.1.active.baseOffset
  have hactive : SyncedAt (nextBase cs) ((FsOp.fsyncLog s.1.active.baseOffset).apply s.2.dir) :=
    h.active.base_eq ▸ syncedAt_fsync _ _
  have hcreated := @SyncedBehind.createLog _ s.1.active.nextOffset
    (hflushed.synced_all hbehind hactive)
  exact .cons hb (fun _ => hb) (.cons hbehind (fun _ => hbehind)
    (.cons hcreated (fun _ => hcreated) (.nil hcreated)))

theorem writeRecord_behind (h : LogOk crc config s cs act) (hb : SyncedBehind s.2.dir) {r : Record}
    (hnum : Numbered config (nextBase cs + act.length) [r])
    (hfits : totalLen (act ++ [r]) ≤ 2 ^ 30) (clock : Clock) :
    Along SyncedBehind s.2 (resultState ((Log.writeRecord crc clock r).run s)).2 := by
  obtain ⟨log, -, -, -, hok, hrun⟩ := written_spec h hnum hfits clock
  have hpasses := hb.passes_append h r
  rw [hrun]
  simp only [EStateM.run_bind, MethodM.run_self]
  split_ifs
  · obtain ⟨log', hflush, -⟩ := flush_spec hok clock
    simp only [EStateM.run_bind, hflush, MethodM.run_self, EStateM.run_pure, Fs.advance_advance]
    exact ⟨_, rfl, hpasses.append (hpasses.last.passes_fsync _)⟩
  · exact ⟨_, rfl, hpasses⟩

private theorem appendRecord_behind (hc : config.Valid) (h : LogOk crc config s cs act)
    (hb : SyncedBehind s.2.dir) {r : Record}
    (hnum : Numbered config (nextBase cs + act.length) [r]) (clock : Clock) :
    Along SyncedBehind s.2 (resultState ((Log.appendRecord crc clock r).run s)).2 := by
  rcases appendRecord_cases hc h hnum clock with ⟨hne, log, hroll, hrun⟩ | ⟨hfits, hrun⟩
  · obtain ⟨log', hroll', -, hok⟩ := roll_spec h hne clock
    rw [hroll] at hroll'
    cases hroll'
    have hpasses := hb.passes_roll h
    have hmax := hnum.2.2.1
    have hrecord := hc.record_le
    obtain ⟨ops, hfs, hpasses'⟩ := writeRecord_behind hok hpasses.last (r := r)
      (by simpa using hnum) (by simp; omega) clock
    rw [hrun, hfs, Fs.advance_advance]
    exact ⟨_, rfl, hpasses.append hpasses'⟩
  · rw [hrun]
    exact writeRecord_behind h hb hnum hfits clock

end Append

/-! ## Truncation -/

section Truncation

private theorem syncedAt_recovers (base : ℕ) : DirRecovers (SyncedAt base) base where
  createIndex := .of_apply (fun _ hd => hd) fun _ _ => rfl
  writeIndex bytes := ⟨fun _ hd => by simpa [SyncedAt] using hd, fun n _ hd => by
    simpa [SyncedAt, FsOp.applyFailed] using hd⟩
  setLen n := .of_apply (fun d hd => syncedAt_mapLog (fun b => FsOp.log_setLen d base b n)
    (setLen_synced n) hd) fun _ _ => rfl
  fsyncLog := .of_apply (fun d _ => syncedAt_fsync base d) fun _ _ => rfl

theorem perform_fsync_synced (base : ℕ) (fs : Fs) :
    Ends (fun _ fs' => SyncedAt base fs'.dir) (fun _ _ => True)
      ((FsM.perform (.fsyncLog base)).run fs) := by
  rcases run_perform_cases (.fsyncLog base) fs with ⟨-, n, fs', hrun, -⟩ | ⟨-, fs', hrun, hdir⟩
  · rw [hrun]
    exact True.intro
  · rw [hrun]
    show SyncedAt base fs'.dir
    rw [hdir]
    exact syncedAt_fsync base fs.dir

/-- The segment that a truncation keeps the tail in is synced, and the durable offset does not reach
past the end. -/
structure Truncated (n : ℕ) (log : Log) (s : Log × Fs) : Prop where
  synced : SyncedAt s.1.active.baseOffset s.2.dir
  durable : s.1.durableOffset = Log.durableBelow n log.durableOffset

private theorem rebuildAt_synced (crc : List UInt8 → UInt32) (target : Segment) (n : ℕ) (s : Log × Fs) :
    Ends (fun _ s' => Truncated n s.1 s') (fun _ _ => True)
      ((Log.rebuildAt crc target n).run s) := by
  obtain ⟨log, fs⟩ := s
  have hfs : ∀ {α : Type} (x : FsM α) (fs : Fs), Ends (fun _ s' => log = s'.1) (fun _ _ => True)
      ((MethodM.onFs x : LogM α).run (log, fs)) := fun x fs =>
    (onFs_ends (Keeps.trivial x fs True.intro)).imp (fun _ _ h => h.1.symm) fun _ _ _ => True.intro
  rw [Log.rebuildAt, EStateM.run_bind, MethodM.run_self]
  dsimp only
  refine Ends.bind _ (hfs _ fs) ?_
  rintro p ⟨_, fs₂⟩ rfl
  refine Ends.bind _ (hfs _ fs₂) ?_
  rintro _ ⟨_, fs₃⟩ rfl
  refine Ends.bind _ (hfs _ fs₃) ?_
  rintro _ ⟨_, fs₄⟩ rfl
  refine Ends.bind (fun _ s' => log = s'.1 ∧ SyncedAt target.baseOffset s'.2.dir)
    ((onFs_ends (perform_fsync_synced target.baseOffset fs₄)).imp
      (fun _ _ h => ⟨h.1.symm, h.2⟩) fun _ _ _ => True.intro) ?_
  rintro _ ⟨_, fs₅⟩ ⟨rfl, hsynced⟩
  have hrecover := (recover_base crc log.config target.baseOffset true fs₅).and_good
    fun seg fs₆ hrun => (recover_keeps crc log.config
      (syncedAt_recovers target.baseOffset).recovers true).of_ok hsynced hrun
  refine Ends.bind (fun seg s' => log = s'.1 ∧ seg.baseOffset = target.baseOffset ∧
      SyncedAt target.baseOffset s'.2.dir) ((onFs_ends hrecover).imp
        (fun _ _ h => ⟨h.1.symm, h.2⟩) fun _ _ _ => True.intro) ?_
  rintro rebuilt ⟨_, fs₆⟩ ⟨rfl, hbase, hsynced'⟩
  exact ⟨by rwa [← hbase] at hsynced', rfl⟩

private theorem cutTo_synced (crc : List UInt8 → UInt32) (target n : ℕ) (s : Log × Fs) :
    Ends (fun _ s' => Truncated n s.1 s') (fun _ _ => True) ((Log.cutTo crc target n).run s) := by
  have hdoomed : ∀ bases, Keeps (fun s' : Log × Fs => s'.1.durableOffset = s.1.durableOffset)
      (Log.removeDoomed bases) := by
    intro bases
    induction bases with
    | nil => exact Keeps.pure ()
    | cons base rest ih =>
      have hfs : ∀ x : FsM Unit, Keeps (fun s' : Log × Fs => s'.1.durableOffset = s.1.durableOffset)
          (MethodM.onFs x : LogM Unit) := fun x =>
        onFs_keeps_self (P := fun log : Log => log.durableOffset = s.1.durableOffset) x
      exact Keeps.bind (fun _ hs => hs) fun _ => Keeps.bind (hfs _) fun _ =>
        Keeps.bind (hfs _) fun _ => ih
  have hrebuild : ∀ (seg : Segment) (s' : Log × Fs), s'.1.durableOffset = s.1.durableOffset →
      Ends (fun _ s'' => Truncated n s.1 s'') (fun _ _ => True)
        ((Log.rebuildAt crc seg n).run s') := fun seg s' hs' =>
    (rebuildAt_synced crc seg n s').imp (fun _ _ h => ⟨h.synced, hs' ▸ h.durable⟩)
      fun _ _ _ => True.intro
  rw [Log.cutTo, EStateM.run_bind, MethodM.run_self]
  dsimp only
  refine Ends.bind _ ((hdoomed _ s rfl).imp_bad fun _ _ _ => True.intro) ?_
  intro _ s₁ hs₁
  split_ifs
  · exact hrebuild _ s₁ hs₁
  have hfs : ∀ (x : FsM Unit) (s' : Log × Fs), s'.1.durableOffset = s.1.durableOffset →
      Ends (fun _ s'' => s''.1.durableOffset = s.1.durableOffset) (fun _ _ => True)
        ((MethodM.onFs x : LogM Unit).run s') := fun x s' hs' =>
    (onFs_keeps_self (P := fun log : Log => log.durableOffset = s.1.durableOffset) x s'
      hs').imp_bad fun _ _ _ => True.intro
  refine Ends.bind _ (hfs _ s₁ hs₁) fun _ s₂ hs₂ => ?_
  refine Ends.bind _ (hfs _ s₂ hs₂) fun _ s₃ hs₃ => ?_
  rw [EStateM.run_bind, MethodM.run_self]
  dsimp only
  split
  · exact True.intro
  · exact hrebuild _ s₃ hs₃

theorem truncateSuffix_synced (crc : List UInt8 → UInt32) {n : ℕ} {s : Log × Fs}
    (hn : n < s.1.nextOffset) :
    Ends (fun _ s' => Truncated n s.1 s') (fun _ _ => True)
      ((Log.truncateSuffix crc n).run s) := by
  rw [Log.truncateSuffix, EStateM.run_bind, MethodM.run_self]
  dsimp only
  rw [if_neg (by omega)]
  split_ifs
  · exact True.intro
  · split
    · exact True.intro
    · exact cutTo_synced crc _ n s

end Truncation

/-! ## Opening -/

section Opening

/-- The newest file is synced to its end, or ends in a torn record. -/
def Settles (crc : List UInt8 → UInt32) (config : LogConfig) (d : Dir) : Prop :=
  ∀ b f, d.log b = some f → (∀ b', (d.log b').isSome → b' ≤ b) →
    f.bytes.length ≤ f.synced ∨ ¬ ∃ rs, ValidRun crc config.maxRecordBytes b f.bytes rs

private theorem validRun_encodeAll (crc : List UInt8 → UInt32) (hc : config.Valid) {n : ℕ}
    {rs : List Record} (hnum : Numbered config n rs) :
    ValidRun crc config.maxRecordBytes n (encodeAll crc rs) rs := by
  induction rs generalizing n with
  | nil => exact .nil n
  | cons r rs ih =>
    have hdecode := Record.decode_encode_append crc (hnum.encodable hc) hnum.2.2.1 []
    rw [List.append_nil, ← Record.length_encode crc] at hdecode
    exact .cons hdecode hnum.1 (ih hnum.2.2.2)

private theorem recover_newest_synced (crc : List UInt8 → UInt32) (config : LogConfig) (base : ℕ) (fs : Fs) :
    Ends (fun _ fs' => fs'.dir.log base = fs.dir.log base ∨ SyncedAt base fs'.dir)
      (fun _ _ => True) ((Segment.recover crc config base true).run fs) := by
  have hsame : ∀ (op : FsOp), op.Keeps (fun d => d.log base = fs.dir.log base) →
      Keeps (fun fs' : Fs => fs'.dir.log base = fs.dir.log base) (FsM.perform op) :=
    fun op hop => perform_keeps hop
  have hcreate := hsame (.createIndex base) (.of_apply (fun _ hd => hd) fun _ _ => rfl)
  have hwrite : ∀ bytes, Keeps (fun fs' : Fs => fs'.dir.log base = fs.dir.log base)
      (FsM.perform (.writeIndex base bytes)) := fun bytes => hsame _
    ⟨fun _ hd => by simpa using hd, fun n _ hd => by simpa [FsOp.applyFailed] using hd⟩
  have hends : ∀ {α : Type} {x : FsM α} {fs₁ : Fs},
      Keeps (fun fs' : Fs => fs'.dir.log base = fs.dir.log base) x →
      fs₁.dir.log base = fs.dir.log base →
      Ends (fun _ fs' => fs'.dir.log base = fs.dir.log base) (fun _ _ => True) (x.run fs₁) :=
    fun hx h₁ => (hx _ h₁).imp_bad fun _ _ _ => True.intro
  rw [Segment.recover]
  refine Ends.bind _ (hends (recoverStart_keeps hcreate true) rfl) ?_
  rintro ⟨index, scanPos, scanOffset, rebuild⟩ fs₁ h₁
  refine Ends.bind _ (hends (readLog_keeps base) h₁) fun file fs₂ h₂ => ?_
  refine Ends.bind _ (hends (checkedSub_keeps _ _) h₂) fun capacity fs₃ h₃ => ?_
  refine Ends.bind _ (hends (scan_keeps crc config hwrite _ _ _ _ _) h₃) fun st fs₄ h₄ => ?_
  refine Ends.bind (fun _ fs' => fs'.dir.log base = fs.dir.log base ∨ SyncedAt base fs'.dir) ?_
    fun _ fs₅ h₅ => by rwa [EStateM.run_pure]
  rw [Segment.cutTail]
  split_ifs
  · exact Ends.bind (fun _ _ => True) (Keeps.trivial _ fs₄ True.intro) fun _ fs₅ _ =>
      (perform_fsync_synced base fs₅).imp (fun _ _ h => .inr h) fun _ _ _ => True.intro
  · exact .inl h₄

private theorem recoverAll_newest (crc : List UInt8 → UInt32) (config : LogConfig) {bases : List ℕ}
    {last : ℕ} (hlast : last ∉ bases) (expected : Option ℕ) (closed : List Segment) (fs : Fs) :
    Ends (fun _ fs' => fs'.dir.log last = fs.dir.log last ∨ SyncedAt last fs'.dir)
      (fun _ _ => True) ((Log.recoverAll crc config (bases ++ [last]) expected closed).run fs) := by
  have hcheck : ∀ (base : ℕ) (expected : Option ℕ) (Q : Fs → Prop),
      Keeps Q (Log.checkBase base expected) := by
    intro base expected Q
    cases expected with
    | none => exact Keeps.pure ()
    | some b => exact Keeps.ite (fail_keeps _) (Keeps.pure ())
  induction bases generalizing expected closed fs with
  | nil =>
    rw [List.nil_append, Log.recoverAll]
    refine Ends.bind _ (recover_newest_synced crc config last fs) fun seg fs₁ h₁ => ?_
    refine Ends.bind _ ((hcheck last expected
      (fun fs' => fs'.dir.log last = fs.dir.log last ∨ SyncedAt last fs'.dir) fs₁ h₁).imp_bad
        fun _ _ _ => True.intro) fun _ fs₂ h₂ => ?_
    exact h₂
  | cons base rest ih =>
    obtain ⟨hne, hrest⟩ := not_or.mp (List.mem_cons.not.mp hlast)
    rw [List.cons_append, Log.recoverAll]
    have hkeep := recover_keeps crc config (recovers_other hne (fs.dir.log last)).recovers
      (rest ++ [last]).isEmpty
    refine Ends.bind _ ((hkeep fs rfl).imp_bad fun _ _ _ => True.intro)
      fun seg fs₁ h₁ => ?_
    refine Ends.bind _ ((hcheck base expected (fun fs' => fs'.dir.log last = fs.dir.log last) fs₁
      h₁).imp_bad fun _ _ _ => True.intro) fun _ fs₂ h₂ => ?_
    rw [if_neg (by simp)]
    have hend := ih hrest (some seg.nextOffset) (Log.insertClosed seg closed) fs₂
    rwa [h₂] at hend

variable {fs fs' : Fs} {cs : List (List Record)} {act : List Record} {tail : List UInt8}
  {clock : Clock} {log : Log}

theorem openDir_behind (hfs : fs.Healthy) (hd : CrashDir crc config fs.dir cs act tail)
    (hb : SyncedBehind fs.dir) (hrun : (Log.openDir crc config clock).run fs = .ok log fs') :
    Along SyncedBehind fs fs' := by
  have hends := openDir_ends crc config clock (sorted_bases hd.closed hd.files) (by simp)
    ((recoverAll_keeps crc config (fun base _ => (syncedBehind_truncates fs).recovers base) none []
      fs (Along.refl hfs hb)).imp_bad fun _ _ _ => True.intro)
  rw [hrun] at hends
  exact hends

private theorem openDir_newest (hd : CrashDir crc config fs.dir cs act tail)
    (hrun : (Log.openDir crc config clock).run fs = .ok log fs') :
    fs'.dir.log (nextBase cs) = fs.dir.log (nextBase cs) ∨ SyncedAt (nextBase cs) fs'.dir := by
  have hlast : nextBase cs ∉ basesOf 0 cs := fun hmem => by
    have hlt := hd.closed.lt_end hmem
    omega
  have hends := openDir_ends crc config clock (sorted_bases hd.closed hd.files) (by simp)
    (recoverAll_newest crc config hlast none [] fs)
  rw [hrun] at hends
  exact hends

end Opening

/-! ## Runs -/

/-- The log holds `rs`, of which the first `k` are synced, and takes no others for durable. -/
structure Settled (crc : List UInt8 → UInt32) (config : LogConfig) (s : Log × Fs)
    (rs : List Record) (k : ℕ) : Prop where
  represents : Represents crc config s rs
  kept : Kept LogFile.stable rs k s.2.dir
  kept_le : k ≤ rs.length
  durable : ∀ d, s.1.durableOffset = some d → d < k
  behind : SyncedBehind s.2.dir

theorem Settled.of_synced {s : Log × Fs} {cs : List (List Record)} {act : List Record}
    (h : LogOk crc config s cs act) (hb : SyncedBehind s.2.dir)
    (hactive : SyncedAt (nextBase cs) s.2.dir)
    (hdurable : ∀ d, s.1.durableOffset = some d → d < (cs.flatten ++ act).length) :
    Settled crc config s (cs.flatten ++ act) (cs.flatten ++ act).length := by
  refine ⟨⟨cs, act, h, rfl⟩, ?_, le_rfl, hdurable, hb⟩
  obtain ⟨synced, hfile⟩ := h.active.log_file
  have hall := hactive _ hfile
  refine ⟨nextBase cs, _, hfile, fun b hb => h.base_le hb, ?_⟩
  have hle := totalLen_take_le act ((cs.flatten ++ act).length - nextBase cs)
  rw [needed_nextBase, LogFile.stable]
  rw [length_encodeAll] at hall
  rw [length_encodeAll]
  omega

private theorem durableBelow_lt {n d : ℕ} {durable : Option ℕ} (h : Log.durableBelow n durable = some d) :
    d < n := by
  cases durable with
  | none => cases h
  | some durable =>
    cases n with
    | zero => cases h
    | succ n =>
      cases h
      exact Nat.lt_succ_of_le (Nat.min_le_right _ _)

theorem openDir_settled (hc : config.Valid) {fs fs' : Fs} (hfs : fs.Healthy)
    {cs : List (List Record)} {act : List Record} {tail : List UInt8}
    (hd : CrashDir crc config fs.dir cs act tail) (hb : SyncedBehind fs.dir)
    (hsettles : Settles crc config fs.dir) {clock : Clock} {log : Log}
    (hrun : (Log.openDir crc config clock).run fs = .ok log fs') :
    Settled crc config (log, fs') (cs.flatten ++ act) (cs.flatten ++ act).length := by
  obtain ⟨synced, hnewest⟩ := hd.newest
  obtain ⟨log', ops, hrun', hok, hdurable, -⟩ := openDir_passes hc hfs hd hnewest clock
  obtain ⟨ops', hfs', hpasses⟩ := openDir_behind hfs hd hb hrun
  have hafter := openDir_newest hd hrun
  rw [hrun'] at hrun
  cases hrun
  obtain ⟨synced', hfile⟩ := hok.active.log_file
  have hsynced : SyncedAt (nextBase cs) (fs.advance ops).dir := by
    rcases hafter with hsame | hsynced
    · -- no torn tail was cut off
      rw [hnewest] at hsame
      rw [hsame, Option.some.injEq, LogFile.mk.injEq] at hfile
      obtain ⟨htail, rfl⟩ := hfile
      rcases hsettles _ _ hnewest fun b hb => hd.base_le hb with hle | htorn
      · intro f hf
        rw [hsame] at hf
        cases hf
        exact hle
      · rw [htail] at htorn
        exact absurd ⟨act, validRun_encodeAll crc hc hd.numbered⟩ htorn
    · exact hsynced
  refine Settled.of_synced hok (hfs' ▸ hpasses.last) hsynced fun d hd' => ?_
  have hnext : log.nextOffset = (cs.flatten ++ act).length := hok.nextOffset_eq
  rw [hdurable, hnext] at hd'
  exact checkedPred_eq_some hd'

section Step

variable {s : Log × Fs} {rs : List Record} {k : ℕ}

private theorem resultState_of_keeps {α : Type} {Q : Fs → Prop} {x : LogM α}
    (h : Keeps (fun s : Log × Fs => Q s.2) x) (hs : Q s.2) : Q (resultState (x.run s)).2 := by
  have hends := h s hs
  cases hrun : x.run s with
  | ok a s' =>
    rw [hrun] at hends
    exact hends
  | error e s' =>
    rw [hrun] at hends
    exact hends

theorem LogOp.step_eq (op : LogOp) (s : Log × Fs) :
    (op.step crc s).2 = resultState ((op.exec crc).run s) := by
  rw [LogOp.step]
  cases (op.exec crc).run s <;> rfl

theorem LogOp.execRecord_state (clock : Clock) (r : Record) (s : Log × Fs) :
    resultState ((LogOp.execRecord crc clock r).run s) =
      resultState ((Log.appendRecord crc clock r).run s) := by
  rw [LogOp.execRecord, EStateM.run_bind]
  cases (Log.appendRecord crc clock r).run s <;> rfl

theorem Represents.appendRecord_along (hc : config.Valid) (h : Represents crc config s rs)
    (hb : SyncedBehind s.2.dir) {r : Record} (hoffset : r.offset = rs.length)
    (hroom : rs.length < 2 ^ 64) (clock : Clock) :
    Along SyncedBehind s.2 (resultState ((Log.appendRecord crc clock r).run s)).2 := by
  have hhealthy := h.healthy
  obtain ⟨cs, act, hok, rfl⟩ := h
  rcases appendRecord_refines hc hok hoffset hroom clock with ⟨-, hrun⟩ | ⟨hfits, -⟩
  · rw [hrun]
    exact Along.refl hhealthy hb
  · rw [List.length_append] at hoffset hroom
    exact appendRecord_behind hc hok hb ⟨hoffset, hroom, hfits, trivial⟩ clock

/-- On the way of any operation all files but the newest are synced. -/
theorem Represents.along (hc : config.Valid) (h : Represents crc config s rs)
    (hb : SyncedBehind s.2.dir) (hroom : rs.length < 2 ^ 64) (op : LogOp) :
    Along SyncedBehind s.2 (resultState ((op.exec crc).run s)).2 := by
  have hnext := h.nextOffset_eq
  have hstay := Along.refl h.healthy hb
  cases op with
  | append clock key value =>
    rw [LogOp.exec_append hnext, LogOp.execRecord_state]
    exact h.appendRecord_along hc hb rfl hroom clock
  | appendReplicated clock record =>
    by_cases hoffset : record.offset = rs.length
    · rw [LogOp.exec_appendReplicated hnext clock hoffset, LogOp.execRecord_state]
      exact h.appendRecord_along hc hb hoffset hroom clock
    · rw [LogOp.exec_appendReplicated_gap crc hnext clock hoffset]
      exact hstay
  | flush clock =>
    obtain ⟨cs, act, hok, rfl⟩ := h
    obtain ⟨log, hrun, -⟩ := flush_spec hok clock
    simp only [LogOp.exec, EStateM.run_bind, hrun, EStateM.run_pure]
    exact ⟨_, rfl, hb.passes_fsync _⟩
  | truncateSuffix n =>
    have hkeeps : Keeps (fun s' : Log × Fs => Along SyncedBehind s.2 s'.2)
        ((LogOp.truncateSuffix n).exec crc) :=
      Keeps.bind (truncateSuffix_keeps crc (syncedBehind_truncates s.2) n) fun _ => Keeps.pure _
    exact resultState_of_keeps hkeeps hstay
  | reopen clock =>
    obtain ⟨cs, act, hok, rfl⟩ := h
    obtain ⟨log, fs, hrun, -⟩ := openDir_spec hc hok.healthy hok.crashDir clock
    have halong := openDir_behind hok.healthy hok.crashDir hb hrun
    rw [← hok.config_eq] at hrun
    simp only [LogOp.exec, EStateM.run_bind, MethodM.run_self, MethodM.run_onFs hrun,
      MethodM.run_modifySelf, EStateM.run_pure]
    exact halong

theorem Settled.appended {op : LogOp} (h : Settled crc config s rs k) {clock : Clock} {r : Record}
    (hexec : (op.exec crc).run s = (LogOp.execRecord crc clock r).run s)
    (halong : Along SyncedBehind s.2 (resultState ((op.exec crc).run s)).2)
    (happ : Appended crc config LogFile.stable s rs k r ((Log.appendRecord crc clock r).run s)) :
    ∃ rs' k', Settled crc config (op.step crc s).2 rs' k' := by
  rw [LogOp.step_eq]
  obtain ⟨ops, hfs, hpasses⟩ := halong
  have hbehind := hfs ▸ hpasses.last
  rw [hexec, LogOp.execRecord_state] at hbehind ⊢
  generalize (Log.appendRecord crc clock r).run s = result at happ hbehind ⊢
  cases happ with
  | failed e => exact ⟨rs, k, h⟩
  | done info log ops hinfo hrep _ hby =>
    rcases hby.durable with ⟨hsame, hkept⟩ | ⟨k', hle, hle', hdurable, hkept⟩
    · refine ⟨_, k, hrep, hkept, h.kept_le.trans (by simp), fun d hd => ?_, hbehind⟩
      exact h.durable d (hsame ▸ hd)
    · exact ⟨_, k', hrep, hkept, hle',
        fun d hd => checkedPred_eq_some (hdurable.symm.trans hd), hbehind⟩

theorem Represents.truncates (hc : config.Valid) (h : Represents crc config s rs)
    (hb : SyncedBehind s.2.dir) (hroom : rs.length < 2 ^ 64) {n : ℕ} (hn : n < rs.length) :
    ∃ s' k', (Log.truncateSuffix crc n).run s = .ok () s' ∧
      Settled crc config s' (rs.take n) k' ∧ ∃ ops, s'.2 = s.2.advance ops := by
  obtain ⟨ops', hfs, hpasses⟩ := h.along hc hb hroom (.truncateSuffix n)
  obtain ⟨cs, act, hok, rfl⟩ := h
  obtain ⟨log, ops, cs', act', hrun, hok', hflat, -⟩ := truncateSuffix_spec hc hok hn
  have htruncated := truncateSuffix_synced crc (s := s) (n := n) (by rwa [hok.nextOffset_eq])
  rw [hrun] at htruncated
  simp only [LogOp.exec, EStateM.run_bind, hrun, EStateM.run_pure, resultState] at hfs
  have hbehind : SyncedBehind (s.2.advance ops).dir := hfs ▸ hpasses.last
  have hlen := congrArg List.length hflat
  rw [List.length_take] at hlen
  refine ⟨_, _, hrun, hflat ▸ Settled.of_synced hok' hbehind
    (hok'.active.base_eq ▸ htruncated.synced) fun d hd => ?_, ops, rfl⟩
  have hlt := durableBelow_lt (htruncated.durable ▸ hd)
  omega

/-- An operation leaves a log whose durable records are synced; a reopening does if it settles. -/
theorem Settled.step (hc : config.Valid) (h : Settled crc config s rs k) (hroom : rs.length < 2 ^ 64)
    {op : LogOp} (hop : ∀ clock, op = .reopen clock → Settles crc config s.2.dir) :
    ∃ rs' k', Settled crc config (op.step crc s).2 rs' k' := by
  have hnext := h.represents.nextOffset_eq
  have halong := h.represents.along hc h.behind hroom op
  cases op with
  | append clock key value =>
    exact h.appended (LogOp.exec_append hnext clock key value) halong
      (appendRecord_appended LogFile.enduring_stable hc h.represents h.kept_le h.kept rfl hroom
        clock)
  | appendReplicated clock record =>
    by_cases hoffset : record.offset = rs.length
    · exact h.appended (LogOp.exec_appendReplicated hnext clock hoffset) halong
        (appendRecord_appended LogFile.enduring_stable hc h.represents h.kept_le h.kept hoffset hroom
          clock)
    · rw [LogOp.step_eq, LogOp.exec_appendReplicated_gap crc hnext clock hoffset]
      exact ⟨rs, k, h⟩
  | flush clock =>
    obtain ⟨ops, hfs, hpasses⟩ := halong
    have hbehind := hfs ▸ hpasses.last
    obtain ⟨cs, act, hok, rfl⟩ := h.represents
    obtain ⟨log, hrun, hok', hby⟩ := flush_kept LogFile.enduring_stable hok h.kept_le h.kept clock
    rw [LogOp.step_eq]
    simp only [LogOp.exec, EStateM.run_bind, hrun, EStateM.run_pure] at hbehind ⊢
    rcases hby.durable with ⟨hsame, hkept⟩ | ⟨k', hle, hle', hdurable, hkept⟩
    · exact ⟨_, k, ⟨cs, act, hok', rfl⟩, hkept, h.kept_le, fun d hd => h.durable d (hsame ▸ hd),
        hbehind⟩
    · exact ⟨_, k', ⟨cs, act, hok', rfl⟩, hkept, hle',
        fun d hd => checkedPred_eq_some (hdurable.symm.trans hd), hbehind⟩
  | truncateSuffix n =>
    by_cases hin : n < rs.length
    · obtain ⟨s', k', hrun, hsettled, -⟩ := h.represents.truncates hc h.behind hroom hin
      rw [LogOp.step_eq]
      simp only [LogOp.exec, EStateM.run_bind, hrun, EStateM.run_pure]
      exact ⟨_, k', hsettled⟩
    · obtain ⟨cs, act, hok, rfl⟩ := h.represents
      rw [LogOp.step_eq]
      simp only [LogOp.exec, EStateM.run_bind, truncateSuffix_past hok (n := n) (by omega),
        EStateM.run_pure]
      exact ⟨_, k, h⟩
  | reopen clock =>
    obtain ⟨cs, act, hok, rfl⟩ := h.represents
    obtain ⟨log, fs, hrun, -⟩ := openDir_spec hc hok.healthy hok.crashDir clock
    have hsettled := openDir_settled hc hok.healthy hok.crashDir h.behind (hop clock rfl) hrun
    rw [← hok.config_eq] at hrun
    rw [LogOp.step_eq]
    simp only [LogOp.exec, EStateM.run_bind, MethodM.run_self, MethodM.run_onFs hrun,
      MethodM.run_modifySelf, EStateM.run_pure]
    exact ⟨_, _, hsettled⟩

end Step

theorem syncedBehind_empty : SyncedBehind .empty := fun _ _ _ hb => by cases hb

/-- On the way of any opening all files but the newest are synced. -/
theorem openDir_along (hc : config.Valid) {d : Dir} (h : Remains crc config d)
    (hb : SyncedBehind d) {clock : Clock} {log : Log} {fs : Fs}
    (hrun : (Log.openDir crc config clock).run ⟨d, [], []⟩ = .ok log fs) :
    Along SyncedBehind ⟨d, [], []⟩ fs := by
  cases h with
  | none =>
    obtain ⟨log', hrun', -⟩ := openDir_empty_run crc hc clock
    rw [hrun] at hrun'
    cases hrun'
    have hcreated : SyncedBehind ((FsOp.createLog 0).apply .empty) :=
      SyncedBehind.createLog fun b f hf => by cases hf
    exact ⟨_, rfl, .cons hb (fun _ => hb) (.cons hcreated (fun _ => hcreated) (.nil hcreated))⟩
  | opens hleft =>
    obtain ⟨cs, act, tail, rfl, hd⟩ := hleft
    exact openDir_behind (show Fs.Healthy ⟨d, [], []⟩ from rfl) hd hb hrun
  | gap hgap =>
    obtain ⟨e, fs', hfail⟩ := hgap.openDir hc clock
    rw [hrun] at hfail
    cases hfail

theorem SyncedBehind.loses {d d' : Dir} (h : SyncedBehind d) (hloss : Loses d d') :
    SyncedBehind d' := by
  rcases hloss with rfl | ⟨newest, n, hd⟩
  · exact h
  intro b b' hlt hb' f hf
  obtain ⟨g, synced, hg, -⟩ := hd.newest_log
  have hfile : (d.log b').isSome := by
    by_cases heq : b' = newest
    · rw [heq, hg]
      rfl
    · rwa [← hd.closed_log b' heq]
  have hle := hd.newest_max b' hfile
  rw [hd.closed_log b (by omega)] at hf
  exact h b b' hlt hfile f hf

/-- All files but the newest are synced. -/
def LogPhase.Behind : LogPhase → Prop
  | .up s => SyncedBehind s.2.dir
  | .down d => SyncedBehind d

theorem Lived.behind (hc : config.Valid) {phase : LogPhase} (h : Lived crc config Loses phase) :
    phase.Behind := by
  induction h with
  | new => exact syncedBehind_empty
  | opened h hrun ih =>
    obtain ⟨ops, rfl, hpasses⟩ := openDir_along hc (h.ok hc) ih hrun
    exact hpasses.last
  | stepped h hroom op ih =>
    obtain ⟨rs, hrep⟩ := h.ok hc
    obtain ⟨ops, hfs, hpasses⟩ := hrep.along hc ih (hrep.nextOffset_eq ▸ hroom) op
    rw [LogPhase.Behind, LogOp.step_eq, hfs]
    exact hpasses.last
  | crashed h hroom op hcrash hloss ih =>
    obtain ⟨rs, hrep⟩ := h.ok hc
    obtain ⟨ops, hfs, hpasses⟩ := hrep.along hc ih (hrep.nextOffset_eq ▸ hroom) op
    exact (hcrash.of_passes hfs hpasses).loses hloss
  | crashedOpening h hrun hcrash hloss ih =>
    obtain ⟨ops, rfl, hpasses⟩ := openDir_along hc (h.ok hc) ih hrun
    exact (hpasses _ hcrash).loses hloss

/-- Lives in which processes are killed and keep what they have written, and every opening
settles. -/
inductive Settling (crc : List UInt8 → UInt32) (config : LogConfig) : LogPhase → Prop
  | new : Settling crc config (.down .empty)
  | opened {d : Dir} {clock : Clock} {log : Log} {fs : Fs} (h : Settling crc config (.down d))
      (hsettles : Settles crc config d)
      (hrun : (Log.openDir crc config clock).run ⟨d, [], []⟩ = .ok log fs) :
      Settling crc config (.up (log, fs))
  | stepped {s : Log × Fs} (h : Settling crc config (.up s)) (hroom : s.1.nextOffset < 2 ^ 64)
      (op : LogOp) (hop : ∀ clock, op = .reopen clock → Settles crc config s.2.dir) :
      Settling crc config (.up (op.step crc s).2)
  | killed {s : Log × Fs} (h : Settling crc config (.up s)) (hroom : s.1.nextOffset < 2 ^ 64)
      (op : LogOp) {d : Dir} (hcrash : CrashDuring (op.exec crc) s d) :
      Settling crc config (.down d)
  | killedOpening {d d' : Dir} {clock : Clock} {log : Log} {fs : Fs}
      (h : Settling crc config (.down d))
      (hrun : (Log.openDir crc config clock).run ⟨d, [], []⟩ = .ok log fs)
      (hcrash : CrashPoint d fs.trace d') : Settling crc config (.down d')

/-- They are among the lives of a log in which a crash takes nothing. -/
theorem Settling.lived {phase : LogPhase} (h : Settling crc config phase) :
    Lived crc config (fun d d' => d' = d) phase := by
  induction h with
  | new => exact .new
  | opened _ _ hrun ih => exact .opened ih hrun
  | stepped _ hroom op _ ih => exact .stepped ih hroom op
  | killed _ hroom op hcrash ih => exact .crashed ih hroom op hcrash rfl
  | killedOpening _ hrun hcrash ih => exact .crashedOpening ih hrun hcrash rfl

theorem Lived.mono {loss loss' : Dir → Dir → Prop} (hle : ∀ d d', loss d d' → loss' d d')
    {phase : LogPhase} (h : Lived crc config loss phase) : Lived crc config loss' phase := by
  induction h with
  | new => exact .new
  | opened _ hrun ih => exact .opened ih hrun
  | stepped _ hroom op ih => exact .stepped ih hroom op
  | crashed _ hroom op hcrash hloss ih => exact .crashed ih hroom op hcrash (hle _ _ hloss)
  | crashedOpening _ hrun hcrash hloss ih => exact .crashedOpening ih hrun hcrash (hle _ _ hloss)

/-- What is known of such a log at any time. -/
def LogPhase.Settled (crc : List UInt8 → UInt32) (config : LogConfig) : LogPhase → Prop
  | .up s => ∃ rs k, Storage.Settled crc config s rs k
  | .down d => SyncedBehind d

theorem Settling.settled (hc : config.Valid) {phase : LogPhase} (h : Settling crc config phase) :
    phase.Settled crc config := by
  induction h with
  | new => exact syncedBehind_empty
  | @opened d clock log fs h hsettles hrun ih =>
    have hremains : Remains crc config d := (h.lived.mono fun _ _ => Or.inl).ok hc
    cases hremains with
    | none =>
      obtain ⟨log', hrun', hok, hdurable⟩ := openDir_empty_run crc hc clock
      rw [hrun] at hrun'
      cases hrun'
      have hcreated : SyncedBehind ((FsOp.createLog 0).apply .empty) :=
        SyncedBehind.createLog fun b f hf => by cases hf
      refine ⟨[], 0, ⟨[], [], hok, rfl⟩, (@left_nil crc config _ _ fun b => ?_).2,
        le_rfl, fun d hd => ?_, hcreated⟩
      · simp
      · rw [hdurable] at hd
        cases hd
    | opens hleft =>
      obtain ⟨cs, act, tail, rfl, hd⟩ := hleft
      exact ⟨_, _, openDir_settled hc (show Fs.Healthy ⟨d, [], []⟩ from rfl) hd ih hsettles hrun⟩
    | gap hgap =>
      obtain ⟨e, fs', hfail⟩ := hgap.openDir hc clock
      rw [hrun] at hfail
      cases hfail
  | stepped _ hroom op hop ih =>
    obtain ⟨rs, k, hs⟩ := ih
    rw [hs.represents.nextOffset_eq] at hroom
    exact hs.step hc hroom hop
  | killed h hroom op hcrash =>
    exact ((Settling.killed h hroom op hcrash).lived.mono fun _ _ => Or.inl).behind hc
  | killedOpening h hrun hcrash =>
    exact ((Settling.killedOpening h hrun hcrash).lived.mono fun _ _ => Or.inl).behind hc

/-- Of the file that has the record at offset `o` the synced part starts with the records up to that
one. -/
def InSynced (crc : List UInt8 → UInt32) (d : Dir) (rs : List Record) (o : ℕ) : Prop :=
  ∃ b ≤ o, ∃ f, d.log b = some f ∧
    encodeAll crc ((rs.drop b).take (o + 1 - b)) <+: f.bytes.take f.synced

/-- The records up to the durable offset are synced. -/
def DurableSynced (crc : List UInt8 → UInt32) (s : Log × Fs) (rs : List Record) : Prop :=
  ∀ durable, s.1.durableOffset = some durable →
    durable < rs.length ∧ ∀ o ≤ durable, InSynced crc s.2.dir rs o

theorem Represents.inSynced {s : Log × Fs} {rs : List Record} {k o : ℕ}
    (h : Represents crc config s rs) (hkept : Kept LogFile.stable rs k s.2.dir)
    (hbehind : SyncedBehind s.2.dir) (hle : k ≤ rs.length) (ho : o < k) :
    InSynced crc s.2.dir rs o := by
  obtain ⟨cs, act, hok, rfl⟩ := h
  obtain ⟨seg, base, c, j, hserves, hj, rfl⟩ := hok.serves_offset (o := o) (by omega)
  obtain ⟨synced, hfile⟩ := hserves.ok.log_file
  obtain ⟨before, after, hsplit, hbefore⟩ := hserves.split
  have hrecords : ((cs.flatten ++ act).drop base).take (base + j + 1 - base) = c.take (j + 1) := by
    rw [hsplit, List.drop_left' hbefore, show base + j + 1 - base = j + 1 by omega,
      List.take_append_of_le_length (by omega)]
  have hpre : encodeAll crc (c.take (j + 1)) <+: encodeAll crc c := by
    conv_rhs => rw [← List.take_append_drop (j + 1) c, encodeAll_append]
    exact List.prefix_append _ _
  refine ⟨base, by omega, _, hfile, ?_⟩
  rw [hrecords]
  refine List.prefix_take_iff.mpr ⟨hpre, ?_⟩
  rw [length_encodeAll]
  show totalLen (c.take (j + 1)) ≤ synced
  by_cases hnewest : ∀ b', (s.2.dir.log b').isSome → b' ≤ base
  · have hneeded := hkept.needed_le hfile hnewest
    have hmono := needed_mono (show base + j + 1 ≤ k by omega) (cs.flatten ++ act) base
    rw [needed, hrecords] at hmono
    rw [LogFile.stable] at hneeded
    dsimp only at hneeded
    omega
  · push Not at hnewest
    obtain ⟨b', hb', hgt⟩ := hnewest
    have hall := hbehind base b' hgt hb' _ hfile
    have htake := totalLen_take_le c (j + 1)
    rw [length_encodeAll] at hall
    dsimp only at hall
    omega

private theorem Settled.durableSynced {s : Log × Fs} {rs : List Record} {k : ℕ}
    (h : Settled crc config s rs k) : DurableSynced crc s rs := by
  intro durable hdurable
  have hlt := h.durable durable hdurable
  have hle := h.kept_le
  exact ⟨by omega, fun o ho =>
    h.represents.inSynced h.kept h.behind hle (Nat.lt_of_le_of_lt ho hlt)⟩

/-- Where every opening settles, the records up to the durable offset are synced at any time. -/
theorem settling_durable (hconfig : config.validate = .ok ()) {s : Log × Fs}
    (h : Settling crc config (.up s)) :
    ∃ rs, rs.length ≤ 2 ^ 64 ∧ Refines crc config s rs ∧ DurableSynced crc s rs := by
  have hc := config.validate_eq_ok_iff.mp hconfig
  obtain ⟨rs, k, hs⟩ := h.settled hc
  exact ⟨rs, hs.represents.length_le, hs.represents.refines hc, hs.durableSynced⟩

section Unsynced

/-- A process appends a record, flushes it and is killed; the next one finds it synced. -/
theorem settling_durable_flushed : ∃ log fs rs,
    (Log.openDir (fun _ => 0) smallConfig ⟨0, 0⟩).run ⟨flushedLog.2.dir, [], []⟩ = .ok log fs ∧
      Refines (fun _ => 0) smallConfig (log, fs) rs ∧ DurableSynced (fun _ => 0) (log, fs) rs := by
  have hempty : Settling (fun _ => 0) smallConfig (.up emptyLog) :=
    .opened .new (fun b f hf => by cases hf) (show (Log.openDir (fun _ => 0) smallConfig
      ⟨0, 0⟩).run ⟨Dir.empty, [], []⟩ = .ok emptyLog.1 emptyLog.2 from rfl)
  have hflushed : Settling (fun _ => 0) smallConfig (.up flushedLog) :=
    .stepped (.stepped hempty (by decide) tornOp (by rintro _ ⟨⟩)) (by decide) (.flush ⟨0, 0⟩)
      (by rintro _ ⟨⟩)
  have hkilled : Settling (fun _ => 0) smallConfig (.down flushedLog.2.dir) :=
    .killed hflushed (by decide) (.flush ⟨0, 0⟩) ⟨[.fsyncLog 0], rfl, .before _ _⟩
  have hsettles : Settles (fun _ => 0) smallConfig flushedLog.2.dir := by
    intro b f hf hnewest
    cases b with
    | succ b =>
      rw [show flushedLog.2.dir.log (b + 1) = none from rfl] at hf
      cases hf
    | zero =>
      cases hf
      exact .inl (by decide)
  cases hrun : (Log.openDir (fun _ => 0) smallConfig ⟨0, 0⟩).run ⟨flushedLog.2.dir, [], []⟩ with
  | ok log fs =>
    obtain ⟨rs, -, hrefines, hsynced⟩ := settling_durable rfl (hkilled.opened hsettles hrun)
    exact ⟨log, fs, rs, rfl, hrefines, hsynced⟩
  | error e fs =>
    have hopens : okValue (fun _ _ => true) false ((Log.openDir (fun _ => 0) smallConfig
        ⟨0, 0⟩).run ⟨flushedLog.2.dir, [], []⟩) = true := by decide +kernel
    rw [hrun] at hopens
    cases hopens

/-- A process appends a record and is killed; the next one takes it for durable. -/
theorem reopening_unsynced : ∃ s, Lived (fun _ => 0) smallConfig (fun d d' => d' = d) (.up s) ∧
    s.1.durableOffset = some 0 ∧
    ∀ rs, Refines (fun _ => 0) smallConfig s rs → ¬ DurableSynced (fun _ => 0) s rs := by
  have hopened : (Log.openDir (fun _ => 0) smallConfig ⟨0, 0⟩).run ⟨Dir.empty, [], []⟩ =
    .ok emptyLog.1 emptyLog.2 := rfl
  have happended : Lived (fun _ => 0) smallConfig (fun d d' => d' = d)
      (.up (tornOp.step (fun _ => 0) emptyLog).2) :=
    .stepped (.opened .new hopened) (by decide) tornOp
  have hkilled : Lived (fun _ => 0) smallConfig (fun d d' => d' = d)
      (.down (tornOp.step (fun _ => 0) emptyLog).2.2.dir) :=
    .crashed happended (by decide) (.flush ⟨0, 0⟩) ⟨[.fsyncLog 0], rfl, .before _ _⟩ rfl
  have hcomputed : okValue
      (fun log fs => (log.durableOffset, (fs.dir.log 0).map LogFile.synced)) (none, none)
      ((Log.openDir (fun _ => 0) smallConfig ⟨0, 0⟩).run
        ⟨(tornOp.step (fun _ => 0) emptyLog).2.2.dir, [], []⟩) = (some 0, some 0) := by
    decide +kernel
  cases hrun : (Log.openDir (fun _ => 0) smallConfig ⟨0, 0⟩).run
      ⟨(tornOp.step (fun _ => 0) emptyLog).2.2.dir, [], []⟩ with
  | ok log fs =>
    rw [hrun] at hcomputed
    obtain ⟨hdurable, hfile⟩ := Prod.mk.inj hcomputed
    refine ⟨(log, fs), .opened hkilled hrun, hdurable, fun rs _ hsynced => ?_⟩
    obtain ⟨hlt, hrecords⟩ := hsynced 0 hdurable
    obtain ⟨b, hb, f, hf, hpre⟩ := hrecords 0 le_rfl
    obtain rfl : b = 0 := by omega
    rw [hf, Option.map_some, Option.some.injEq] at hfile
    rw [hfile, List.take_zero, List.prefix_nil] at hpre
    cases rs with
    | nil => cases hlt
    | cons r rest =>
      have hbytes := congrArg List.length hpre
      rw [length_encodeAll] at hbytes
      have hpos := Record.encodedLen_pos r
      simp [totalLen] at hbytes
      omega
  | error e fs =>
    rw [hrun] at hcomputed
    cases hcomputed

end Unsynced

end Replog.Storage
