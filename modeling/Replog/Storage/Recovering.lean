import Replog.Library.Fallible
import Replog.Storage.Log

/-!
# What recovery touches

Whatever the files of a segment hold and wherever an I/O error strikes, recovering the segment
works on these files only. A property of the directory that the operations on them keep is kept by
the whole recovery.
-/

namespace Replog.Storage
open Replog.Library

/-- An operation keeps `P`, also when it fails in the middle. -/
structure FsOp.Keeps (P : Dir → Prop) (op : FsOp) : Prop where
  apply : ∀ d, P d → P (op.apply d)
  failed : ∀ n d, P d → P (op.applyFailed n d)

variable {P : Dir → Prop}

/-- An operation that is no write leaves nothing behind when it fails. -/
theorem FsOp.Keeps.of_apply {op : FsOp} (h : ∀ d, P d → P (op.apply d))
    (hop : ∀ n d, op.applyFailed n d = d) : op.Keeps P :=
  ⟨h, fun n d hd => (hop n d).symm ▸ hd⟩

abbrev KeepsDir {α : Type} (P : Dir → Prop) (x : FsM α) : Prop := Keeps (fun fs => P fs.dir) x

def Fs.Failing (fs : Fs) : Prop := ∃ n faults, fs.faults = some n :: faults

theorem run_perform_cases (op : FsOp) (fs : Fs) :
    (fs.Failing ∧ ∃ n fs', (FsM.perform op).run fs = .error (.err .io) fs' ∧
      fs'.dir = op.applyFailed n fs.dir) ∨
    (¬ fs.Failing ∧ ∃ fs', (FsM.perform op).run fs = .ok () fs' ∧ fs'.dir = op.apply fs.dir) := by
  simp only [Fs.Failing, FsM.perform, EStateM.run]
  cases hfaults : fs.faults with
  | nil => exact .inr ⟨by simp, _, rfl, rfl⟩
  | cons fault faults =>
    cases fault with
    | none => exact .inr ⟨by simp, _, rfl, rfl⟩
    | some n => exact .inl ⟨⟨n, faults, rfl⟩, n, _, rfl, rfl⟩

theorem perform_keeps {op : FsOp} (h : op.Keeps P) : KeepsDir P (FsM.perform op) := by
  intro fs hfs
  simp only [FsM.perform, EStateM.run]
  split
  · exact h.failed _ _ hfs
  · exact h.apply _ hfs

section ReadOnly

variable {Q : Fs → Prop}

theorem fail_keeps {α : Type} (e : StorageError) : Keeps Q (FsM.fail e : FsM α) :=
  Keeps.throw _

theorem readLog_keeps (base : ℕ) : Keeps Q (FsM.readLog base) := by
  intro fs hfs
  simp only [FsM.readLog, EStateM.run]
  split <;> exact hfs

theorem checkedSub_keeps (a b : ℕ) : Keeps Q (FsM.checkedSub a b) :=
  Keeps.ite (Keeps.pure _) (Keeps.throw _)

private theorem load_keeps (base : ℕ) : Keeps Q (SparseIndex.load base) := by
  intro fs hfs
  simp only [SparseIndex.load, EStateM.run]
  split
  · exact hfs
  · split_ifs <;> exact hfs

theorem committedFrom_keeps (seg : Segment) (start : ℕ) : Keeps Q (seg.committedFrom start) :=
  Keeps.bind (readLog_keeps _) fun _ => Keeps.bind (checkedSub_keeps _ _) fun _ => Keeps.pure _

variable (crc : List UInt8 → UInt32) (config : LogConfig)

private theorem readLoop_keeps (seg : Segment) (offset maxBytes start fuel : ℕ) (buf : List UInt8)
    (pos : ℕ) (out : List Record) (outBytes : ℕ) :
    Keeps Q (seg.readLoop crc config offset maxBytes start fuel buf pos out outBytes) := by
  induction fuel generalizing buf pos out outBytes with
  | zero => exact Keeps.pure out
  | succ fuel ih =>
    rw [Segment.readLoop]
    split
    · exact Keeps.ite (ih _ _ _ _) (Keeps.ite (Keeps.pure _) (Keeps.ite (Keeps.pure _)
        (ih _ _ _ _)))
    · exact Keeps.pure out
    · exact fail_keeps _

theorem readFrom_keeps (seg : Segment) (offset maxBytes : ℕ) :
    Keeps Q (seg.readFrom crc config offset maxBytes) :=
  Keeps.ite (Keeps.pure _) (Keeps.bind (committedFrom_keeps _ _) fun _ => readLoop_keeps _ _ _ _ _ _
    _ _ _ _ _)

private theorem positionLoop_keeps (offset start fuel : ℕ) (buf : List UInt8) (pos : ℕ) :
    Keeps Q (Segment.positionLoop crc config offset start fuel buf pos) := by
  induction fuel generalizing buf pos with
  | zero => exact fail_keeps _
  | succ fuel ih =>
    rw [Segment.positionLoop]
    split
    · exact Keeps.ite (Keeps.pure _) (ih _ _)
    · exact fail_keeps _

theorem positionOf_keeps (seg : Segment) (offset : ℕ) :
    Keeps Q (seg.positionOf crc config offset) :=
  Keeps.ite (fail_keeps _) (Keeps.ite (Keeps.pure _) (Keeps.bind (committedFrom_keeps _ _) fun _ =>
    positionLoop_keeps _ _ _ _ _ _ _))

end ReadOnly

theorem removeLog_keeps {Q : Fs → Prop} {base : ℕ} (h : Keeps Q (FsM.perform (.removeLog base))) :
    Keeps Q (FsM.removeLog base) := by
  intro fs hfs
  simp only [FsM.removeLog, EStateM.run]
  split_ifs
  · exact h fs hfs
  · exact hfs

theorem removeIndex_keeps {Q : Fs → Prop} {base : ℕ}
    (h : Keeps Q (FsM.perform (.removeIndex base))) : Keeps Q (FsM.removeIndex base) := by
  intro fs hfs
  simp only [FsM.removeIndex, EStateM.run]
  split_ifs
  · exact h fs hfs
  · exact hfs

section OnFs

variable {α β γ : Type} {x : FsM β}

theorem onFs_run (x : FsM β) (s : α × Fs) : (MethodM.onFs x : MethodM α β).run s =
    match x.run s.2 with
    | .ok b fs' => .ok b (s.1, fs')
    | .error e fs' => .error e (s.1, fs') := rfl

/-- Work on the directory leaves the object alone. -/
theorem onFs_ends {good : β → Fs → Prop} {bad : Failure → Fs → Prop} {a : α} {fs : Fs}
    (h : Ends good bad (x.run fs)) :
    Ends (fun b s => s.1 = a ∧ good b s.2) (fun e s => s.1 = a ∧ bad e s.2)
      ((MethodM.onFs x : MethodM α β).run (a, fs)) := by
  rw [onFs_run]
  dsimp only
  cases hx : x.run fs with
  | ok b fs' =>
    rw [hx] at h
    exact ⟨rfl, h⟩
  | error e fs' =>
    rw [hx] at h
    exact ⟨rfl, h⟩

theorem onFs_keeps_self {P : α → Prop} (x : FsM β) :
    Keeps (fun s : α × Fs => P s.1) (MethodM.onFs x : MethodM α β) := by
  intro s hs
  have hself : ∀ s' : α × Fs, s'.1 = s.1 → P s'.1 := by
    intro s' heq
    rw [heq]
    exact hs
  exact (onFs_ends (a := s.1) (Keeps.trivial x s.2 True.intro)).imp (fun _ s' h => hself s' h.1)
    fun _ s' h => hself s' h.1

theorem onFs_keeps {Q : Fs → Prop} (hx : Keeps Q x) :
    Keeps (fun s : α × Fs => Q s.2) (MethodM.onFs x : MethodM α β) := fun s hs =>
  (onFs_ends (a := s.1) (hx s.2 hs)).imp (fun _ _ h => h.2) fun _ _ h => h.2

private theorem onField_run (get : α → γ) (put : γ → α → α) (x : MethodM γ β) (s : α × Fs) :
    (MethodM.onField get put x).run s =
      match x.run (get s.1, s.2) with
      | .ok b (c, fs') => .ok b (put c s.1, fs')
      | .error e (c, fs') => .error e (put c s.1, fs') := rfl

theorem onField_ends {get : α → γ} {put : γ → α → α} {x : MethodM γ β}
    {good : β → γ × Fs → Prop} {bad : Failure → γ × Fs → Prop} {a : α} {fs : Fs}
    (h : Ends good bad (x.run (get a, fs))) :
    Ends (fun b s => ∃ c, s.1 = put c a ∧ good b (c, s.2))
      (fun e s => ∃ c, s.1 = put c a ∧ bad e (c, s.2))
      ((MethodM.onField get put x).run (a, fs)) := by
  rw [onField_run]
  dsimp only
  cases hx : x.run (get a, fs) with
  | ok b s' =>
    rw [hx] at h
    exact ⟨s'.1, rfl, h⟩
  | error e s' =>
    rw [hx] at h
    exact ⟨s'.1, rfl, h⟩

/-- Where a call fails that starts with a file operation. -/
theorem onFs_bind_error {f : β → MethodM α γ} {a : α} {fs : Fs} {e : Failure} {s' : α × Fs}
    (h : ((MethodM.onFs x : MethodM α β) >>= f).run (a, fs) = .error e s') :
    (∃ fs', x.run fs = .error e fs' ∧ s' = (a, fs')) ∨
      ∃ b fs', x.run fs = .ok b fs' ∧ (f b).run (a, fs') = .error e s' := by
  rw [EStateM.run_bind, onFs_run] at h
  dsimp only at h
  cases hx : x.run fs with
  | ok b fs' =>
    rw [hx] at h
    exact .inr ⟨b, fs', rfl, h⟩
  | error e' fs' =>
    rw [hx] at h
    cases h
    exact .inl ⟨fs', rfl, rfl⟩

theorem self_keeps {P : α × Fs → Prop} : Keeps P (MethodM.self : MethodM α α) := fun _ hs => hs

theorem modifySelf_keeps {P : α → Prop} {f : α → α} (h : ∀ a, P a → P (f a)) :
    Keeps (fun s : α × Fs => P s.1) (MethodM.modifySelf f) := fun s hs => h s.1 hs

end OnFs

structure Recovers (Q : Fs → Prop) (base : ℕ) : Prop where
  createIndex : Keeps Q (FsM.perform (.createIndex base))
  writeIndex : ∀ bytes, Keeps Q (FsM.perform (.writeIndex base bytes))
  setLen : ∀ n, Keeps Q (FsM.perform (.setLen base n))
  fsyncLog : Keeps Q (FsM.perform (.fsyncLog base))

/-- The operations of a recovery on a property of the directory. -/
structure DirRecovers (P : Dir → Prop) (base : ℕ) : Prop where
  createIndex : (FsOp.createIndex base).Keeps P
  writeIndex : ∀ bytes, (FsOp.writeIndex base bytes).Keeps P
  setLen : ∀ n, (FsOp.setLen base n).Keeps P
  fsyncLog : (FsOp.fsyncLog base).Keeps P

theorem DirRecovers.recovers {base : ℕ} (h : DirRecovers P base) :
    Recovers (fun fs => P fs.dir) base :=
  ⟨perform_keeps h.createIndex, fun bytes => perform_keeps (h.writeIndex bytes),
    fun n => perform_keeps (h.setLen n), perform_keeps h.fsyncLog⟩

structure Truncates (Q : Fs → Prop) : Prop where
  recovers : ∀ base, Recovers Q base
  removeLog : ∀ base, Keeps Q (FsM.perform (.removeLog base))
  removeIndex : ∀ base, Keeps Q (FsM.perform (.removeIndex base))

section Segment

variable (crc : List UInt8 → UInt32) (config : LogConfig) {base : ℕ} {Q : Fs → Prop}

theorem scan_keeps (hwrite : ∀ bytes, Keeps Q (FsM.perform (.writeIndex base bytes)))
    (truncate rebuild : Bool) (fuel : ℕ) (buf : List UInt8) (st : Segment.Scan) :
    Keeps Q (Segment.scan crc config base truncate rebuild fuel buf st) := by
  induction fuel generalizing buf st with
  | zero => exact Keeps.pure st
  | succ fuel ih =>
    have happend : ∀ rel pos, Keeps Q (st.index.append base rel pos) := fun rel pos =>
      Keeps.bind (hwrite _) fun _ => Keeps.pure _
    rw [Segment.scan]
    split
    · exact Keeps.ite (fail_keeps _) (Keeps.ite
        (Keeps.bind (happend _ _) fun _ => Keeps.bind (Keeps.pure _) fun _ => ih _ _)
        (Keeps.bind (Keeps.pure _) fun _ => ih _ _))
    · exact Keeps.ite (Keeps.pure _) (fail_keeps _)
    · exact Keeps.ite (Keeps.pure _) (fail_keeps _)

theorem recoverStart_keeps (hcreate : Keeps Q (FsM.perform (.createIndex base)))
    (truncate : Bool) : Keeps Q (Segment.recoverStart base truncate) := by
  have hnew : Keeps Q (SparseIndex.create base) := Keeps.bind hcreate fun _ => Keeps.pure _
  rw [Segment.recoverStart]
  refine Keeps.ite (Keeps.bind hnew fun _ => Keeps.pure _)
    (Keeps.bind (load_keeps base) fun idx => ?_)
  cases idx with
  | none => exact Keeps.bind hnew fun _ => Keeps.pure _
  | some idx =>
    dsimp only
    cases idx.last <;> exact Keeps.pure _

theorem recover_keeps (h : Recovers Q base) (truncate : Bool) :
    Keeps Q (Segment.recover crc config base truncate) := by
  refine Keeps.bind (recoverStart_keeps h.createIndex truncate) fun _ =>
    Keeps.bind (readLog_keeps base) fun _ => Keeps.bind (checkedSub_keeps _ _) fun _ =>
      Keeps.bind (scan_keeps crc config h.writeIndex _ _ _ _ _) fun _ => Keeps.bind ?_ fun _ =>
        Keeps.pure _
  exact Keeps.ite (Keeps.bind (h.setLen _) fun _ => h.fsyncLog) (Keeps.pure _)

end Segment

theorem recovers_other {b base : ℕ} (hne : b ≠ base) (file : Option LogFile) :
    DirRecovers (fun d => d.log b = file) base where
  createIndex := .of_apply (fun _ hd => hd) fun _ _ => rfl
  writeIndex more := ⟨fun _ hd => by simpa using hd, fun n _ hd => by
    simpa [FsOp.applyFailed] using hd⟩
  setLen n := .of_apply (fun d hd => by simpa [hne] using hd) fun _ _ => rfl
  fsyncLog := .of_apply (fun d hd => by simpa [hne] using hd) fun _ _ => rfl

/-! ## Truncation and opening -/

section Log

variable (crc : List UInt8 → UInt32) {Q : Fs → Prop}

private theorem removeDoomed_keeps (h : Truncates Q) (bases : List ℕ) :
    Keeps (fun s : Log × Fs => Q s.2) (Log.removeDoomed bases) := by
  induction bases with
  | nil => exact Keeps.pure ()
  | cons base rest ih =>
    exact Keeps.bind (fun _ hs => hs) fun _ =>
      Keeps.bind (onFs_keeps (removeLog_keeps (h.removeLog base))) fun _ =>
        Keeps.bind (onFs_keeps (removeIndex_keeps (h.removeIndex base))) fun _ => ih

theorem rebuildAt_keeps {target : Segment} (h : Recovers Q target.baseOffset) (n : ℕ) :
    Keeps (fun s : Log × Fs => Q s.2) (Log.rebuildAt crc target n) :=
  Keeps.bind self_keeps fun _ => Keeps.bind (onFs_keeps (positionOf_keeps _ _ _ _)) fun _ =>
    Keeps.bind (onFs_keeps (readLog_keeps _)) fun _ =>
      Keeps.bind (onFs_keeps (h.setLen _)) fun _ => Keeps.bind (onFs_keeps h.fsyncLog) fun _ =>
        Keeps.bind (onFs_keeps (recover_keeps _ _ h true)) fun _ _ hs => hs

theorem truncateSuffix_keeps (h : Truncates Q) (n : ℕ) :
    Keeps (fun s : Log × Fs => Q s.2) (Log.truncateSuffix crc n) := by
  have hcut : ∀ target, Keeps (fun s : Log × Fs => Q s.2) (Log.cutTo crc target n) := by
    intro target
    refine Keeps.bind self_keeps fun log => Keeps.bind (removeDoomed_keeps h _) fun _ =>
      Keeps.ite (rebuildAt_keeps crc (h.recovers _) n) ?_
    refine Keeps.bind (onFs_keeps (removeLog_keeps (h.removeLog _))) fun _ =>
      Keeps.bind (onFs_keeps (removeIndex_keeps (h.removeIndex _))) fun _ =>
        Keeps.bind self_keeps fun log' => ?_
    split
    · exact Keeps.throw _
    · exact rebuildAt_keeps crc (h.recovers _) n
  refine Keeps.bind self_keeps fun log => Keeps.ite (Keeps.pure ())
    (Keeps.ite (onFs_keeps (fail_keeps _)) ?_)
  split
  · exact Keeps.throw _
  · exact hcut _

variable (config : LogConfig)

theorem recoverAll_keeps {bases : List ℕ} (h : ∀ base ∈ bases, Recovers Q base)
    (expected : Option ℕ) (closed : List Segment) :
    Keeps Q (Log.recoverAll crc config bases expected closed) := by
  induction bases generalizing expected closed with
  | nil => exact Keeps.pure _
  | cons base rest ih =>
    have hcheck : Keeps Q (Log.checkBase base expected) := by
      cases expected with
      | none => exact Keeps.pure ()
      | some b => exact Keeps.ite (fail_keeps _) (Keeps.pure ())
    exact Keeps.bind (recover_keeps crc config (h base List.mem_cons_self) _) fun seg =>
      Keeps.bind hcheck fun _ => Keeps.ite (Keeps.pure _)
        (ih (fun b hb => h b (List.mem_cons_of_mem base hb)) _ _)

/-- Opening a directory with segments recovers them, and does nothing else to it. -/
theorem openDir_ends {good : Fs → Prop} (clock : Clock) {fs : Fs} {bases : List ℕ}
    (hbases : fs.dir.logs.keys.insertionSort (· ≤ ·) = bases) (hne : bases ≠ [])
    (hrecover : Ends (fun _ fs' => good fs') (fun _ _ => True)
      ((Log.recoverAll crc config bases none []).run fs)) :
    Ends (fun _ fs' => good fs') (fun _ _ => True) ((Log.openDir crc config clock).run fs) := by
  rw [Log.openDir]
  split
  · exact True.intro
  refine Ends.bind (fun now s => now = fs ∧ s = fs) ⟨rfl, rfl⟩ ?_
  rintro _ _ ⟨rfl, rfl⟩
  dsimp only
  rw [hbases, if_neg (by rwa [List.isEmpty_iff])]
  refine Ends.bind _ hrecover ?_
  rintro ⟨closed, active⟩ fs₂ hgood
  cases active with
  | none => exact True.intro
  | some active => exact hgood

end Log

/-- The operations since `start`, and what holds on the way. -/
def Along (P : Dir → Prop) (start fs : Fs) : Prop :=
  ∃ ops, fs = start.advance ops ∧ Passes P start ops

theorem Along.refl {fs : Fs} (h : fs.Healthy) (hP : P fs.dir) : Along P fs fs :=
  ⟨[], (Fs.advance_nil h).symm, .nil hP⟩

theorem Along.perform {op : FsOp} (hop : op.Keeps P) (start : Fs) :
    Keeps (Along P start) (FsM.perform op) := by
  rintro _ ⟨ops, rfl, hpasses⟩
  rw [FsM.run_perform (Fs.advance_healthy _ _), Fs.advance_advance]
  exact ⟨ops ++ [op], rfl, hpasses.append (.cons hpasses.last
    (fun n => hop.failed n _ hpasses.last) (.nil (hop.apply _ hpasses.last)))⟩

end Replog.Storage
