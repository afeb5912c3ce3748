import Replog.Storage.Record
import Mathlib.Data.List.AList

/-!
# A partition directory and the file operations on it

The log touches its directory only through the operations of `FsOp`. `FsM` runs them in
program order, remembers them, and lets any of them fail: the `faults` of a run say which
operation reports an I/O error and how many bytes of a failing write still reached the file.
A crash leaves the directory some prefix of the operations has produced.
-/

namespace Replog.Storage

inductive FsyncPolicy where
  | always
  | batch (maxBytes maxMs : ℕ)
  | os
  deriving DecidableEq

structure LogConfig where
  maxSegmentBytes : ℕ
  indexIntervalBytes : ℕ
  maxRecordBytes : ℕ
  fsync : FsyncPolicy
  deriving DecidableEq

inductive StorageError where
  | io
  | corrupt (offset position : ℕ) (reason : CorruptReason)
  | offsetOutOfRange (offset : ℕ)
  | recordTooLarge (encodedLen : ℕ)
  /-- A segment base that does not continue the previous segment. -/
  | segmentGap (base expected : ℕ)
  /-- A replicated record that does not continue the log. -/
  | replicatedGap (offset logEnd : ℕ)
  | maxSegmentBytesConfig
  | indexIntervalBytesConfig
  | maxRecordBytesConfig
  deriving DecidableEq

/-- How a call ends early: with an `Err`, or by panicking. -/
inductive Failure where
  | err (e : StorageError)
  | panic
  deriving DecidableEq

def LogConfig.validate (c : LogConfig) : Except StorageError Unit :=
  if c.maxSegmentBytes < 1024 ∨ 2 ^ 30 < c.maxSegmentBytes then .error .maxSegmentBytesConfig
  else if c.indexIntervalBytes < 64 then .error .indexIntervalBytesConfig
  else if 2 ^ 30 < c.maxRecordBytes then .error .maxRecordBytesConfig
  else .ok ()

/-- A configuration that passed `validate`. -/
structure LogConfig.Valid (c : LogConfig) : Prop where
  segment_ge : 1024 ≤ c.maxSegmentBytes
  segment_le : c.maxSegmentBytes ≤ 2 ^ 30
  interval_ge : 64 ≤ c.indexIntervalBytes
  record_le : c.maxRecordBytes ≤ 2 ^ 30

theorem LogConfig.validate_eq_ok_iff (c : LogConfig) : c.validate = .ok () ↔ c.Valid := by
  constructor
  · intro h
    simp only [validate] at h
    split_ifs at h
    exact ⟨by omega, by omega, by omega, by omega⟩
  · rintro ⟨h1, h2, h3, h4⟩
    simp only [validate]
    rw [if_neg (by omega), if_neg (by omega), if_neg (by omega)]

/-- A segment file: its bytes, and how many leading ones an fsync has covered. -/
structure LogFile where
  bytes : List UInt8
  synced : ℕ
  deriving DecidableEq

/-- Changes the value under a key that is present. -/
def alterKey {β : Type} (k : ℕ) (f : β → β) (m : AList fun _ : ℕ => β) : AList fun _ : ℕ => β :=
  match m.lookup k with
  | none => m
  | some v => m.insert k (f v)

theorem lookup_alterKey {β : Type} (k k' : ℕ) (f : β → β) (m : AList fun _ : ℕ => β) :
    (alterKey k f m).lookup k' = if k' = k then (m.lookup k).map f else m.lookup k' := by
  unfold alterKey
  by_cases hk : k' = k
  · subst hk
    cases h : m.lookup k' <;> simp [h]
  · cases h : m.lookup k <;> simp [hk]

/-- The `.log` and `.index` files of a partition, by base offset. -/
structure Dir where
  logs : AList (fun _ : ℕ => LogFile)
  indexes : AList (fun _ : ℕ => List UInt8)

namespace Dir

def empty : Dir := ⟨∅, ∅⟩

def log (d : Dir) (base : ℕ) : Option LogFile := d.logs.lookup base

def index (d : Dir) (base : ℕ) : Option (List UInt8) := d.indexes.lookup base

def mapLog (d : Dir) (base : ℕ) (f : LogFile → LogFile) : Dir :=
  { d with logs := alterKey base f d.logs }

def mapIndex (d : Dir) (base : ℕ) (f : List UInt8 → List UInt8) : Dir :=
  { d with indexes := alterKey base f d.indexes }

@[simp] theorem log_empty (b : ℕ) : empty.log b = none := rfl

@[simp] theorem index_empty (b : ℕ) : empty.index b = none := rfl

theorem mem_keys_logs (d : Dir) (b : ℕ) : b ∈ d.logs.keys ↔ (d.log b).isSome := by
  rw [← AList.mem_keys, log, AList.lookup_isSome]

end Dir

inductive FsOp where
  | createLog (base : ℕ)
  /-- Creates the index file, or empties an existing one. -/
  | createIndex (base : ℕ)
  | writeLog (base : ℕ) (bytes : List UInt8)
  | writeIndex (base : ℕ) (bytes : List UInt8)
  | fsyncLog (base : ℕ)
  | setLen (base len : ℕ)
  | removeLog (base : ℕ)
  | removeIndex (base : ℕ)
  deriving DecidableEq

namespace FsOp

def apply : FsOp → Dir → Dir
  | createLog base, d => { d with logs := d.logs.insert base ⟨[], 0⟩ }
  | createIndex base, d => { d with indexes := d.indexes.insert base [] }
  | writeLog base bytes, d => d.mapLog base fun f => { f with bytes := f.bytes ++ bytes }
  | writeIndex base bytes, d => d.mapIndex base (· ++ bytes)
  | fsyncLog base, d => d.mapLog base fun f => { f with synced := f.bytes.length }
  | setLen base len, d => d.mapLog base fun f => ⟨f.bytes.take len, min f.synced len⟩
  | removeLog base, d => { d with logs := d.logs.erase base }
  | removeIndex base, d => { d with indexes := d.indexes.erase base }

/-- What a failing operation leaves behind: a write may have stored its first `n` bytes. -/
def applyFailed (n : ℕ) : FsOp → Dir → Dir
  | writeLog base bytes, d => (writeLog base (bytes.take n)).apply d
  | writeIndex base bytes, d => (writeIndex base (bytes.take n)).apply d
  | _, d => d

section Lookup

variable (d : Dir) (base b n : ℕ) (bytes : List UInt8)

@[simp] theorem log_createLog :
    ((createLog base).apply d).log b = if b = base then some ⟨[], 0⟩ else d.log b := by
  by_cases h : b = base
  · subst h
    simp [apply, Dir.log]
  · simp [apply, Dir.log, h]

@[simp] theorem index_createLog : ((createLog base).apply d).index b = d.index b := rfl

@[simp] theorem log_createIndex : ((createIndex base).apply d).log b = d.log b := rfl

@[simp] theorem index_createIndex :
    ((createIndex base).apply d).index b = if b = base then some [] else d.index b := by
  by_cases h : b = base
  · subst h
    simp [apply, Dir.index]
  · simp [apply, Dir.index, h]

@[simp] theorem log_writeLog :
    ((writeLog base bytes).apply d).log b =
      if b = base then (d.log base).map fun f => { f with bytes := f.bytes ++ bytes }
      else d.log b :=
  lookup_alterKey _ _ _ _

@[simp] theorem index_writeLog : ((writeLog base bytes).apply d).index b = d.index b := rfl

@[simp] theorem log_writeIndex : ((writeIndex base bytes).apply d).log b = d.log b := rfl

@[simp] theorem index_writeIndex :
    ((writeIndex base bytes).apply d).index b =
      if b = base then (d.index base).map (· ++ bytes) else d.index b :=
  lookup_alterKey _ _ _ _

@[simp] theorem log_fsyncLog :
    ((fsyncLog base).apply d).log b =
      if b = base then (d.log base).map fun f => { f with synced := f.bytes.length }
      else d.log b :=
  lookup_alterKey _ _ _ _

@[simp] theorem index_fsyncLog : ((fsyncLog base).apply d).index b = d.index b := rfl

@[simp] theorem log_setLen :
    ((setLen base n).apply d).log b =
      if b = base then (d.log base).map fun f => ⟨f.bytes.take n, min f.synced n⟩
      else d.log b :=
  lookup_alterKey _ _ _ _

@[simp] theorem index_setLen : ((setLen base n).apply d).index b = d.index b := rfl

@[simp] theorem log_removeLog :
    ((removeLog base).apply d).log b = if b = base then none else d.log b := by
  by_cases h : b = base
  · subst h
    simp [apply, Dir.log]
  · simp [apply, Dir.log, h]

@[simp] theorem index_removeLog : ((removeLog base).apply d).index b = d.index b := rfl

@[simp] theorem log_removeIndex : ((removeIndex base).apply d).log b = d.log b := rfl

@[simp] theorem index_removeIndex :
    ((removeIndex base).apply d).index b = if b = base then none else d.index b := by
  by_cases h : b = base
  · subst h
    simp [apply, Dir.index]
  · simp [apply, Dir.index, h]

end Lookup

end FsOp

/-- The directory, the operations performed on it so far, and the outcomes of the coming
ones: `none` succeeds, `some n` fails, and once the list is used up all succeed. -/
structure Fs where
  dir : Dir
  trace : List FsOp
  faults : List (Option ℕ)

namespace Fs

def Healthy (fs : Fs) : Prop := fs.faults = []

/-- The state after a run of successful operations. -/
def advance (fs : Fs) (ops : List FsOp) : Fs :=
  ⟨ops.foldl (fun d op => op.apply d) fs.dir, fs.trace ++ ops, []⟩

@[simp] theorem advance_healthy (fs : Fs) (ops : List FsOp) : (fs.advance ops).Healthy := rfl

theorem advance_nil {fs : Fs} (h : fs.Healthy) : fs.advance [] = fs := by
  cases fs
  simpa [advance, Healthy] using h.symm

@[simp] theorem advance_advance (fs : Fs) (ops more : List FsOp) :
    (fs.advance ops).advance more = fs.advance (ops ++ more) := by
  simp [advance]

@[simp] theorem dir_advance (fs : Fs) (ops : List FsOp) :
    (fs.advance ops).dir = ops.foldl (fun d op => op.apply d) fs.dir := rfl

end Fs

/-! ## Crashes -/

/-- The directories a crash may find while `ops` run from `d`. -/
inductive CrashPoint : Dir → List FsOp → Dir → Prop
  | before (d : Dir) (ops : List FsOp) : CrashPoint d ops d
  | during (d : Dir) (op : FsOp) (ops : List FsOp) (n : ℕ) :
      CrashPoint d (op :: ops) (op.applyFailed n d)
  | after {d d' : Dir} {op : FsOp} {ops : List FsOp} (h : CrashPoint (op.apply d) ops d') :
      CrashPoint d (op :: ops) d'

theorem CrashPoint.last (d : Dir) (ops : List FsOp) :
    CrashPoint d ops (ops.foldl (fun d op => op.apply d) d) := by
  induction ops generalizing d with
  | nil => exact .before d []
  | cons op ops ih => exact .after (ih (op.apply d))

theorem CrashPoint.take (d : Dir) (ops : List FsOp) (j : ℕ) :
    CrashPoint d ops ((ops.take j).foldl (fun d op => op.apply d) d) := by
  induction ops generalizing d j with
  | nil =>
    rw [List.take_nil]
    exact .before d []
  | cons op ops ih =>
    cases j with
    | zero => exact .before d _
    | succ j => exact .after (ih (op.apply d) j)

/-- Every directory on the way of `ops` from `fs` satisfies `P`. -/
def Passes (P : Dir → Prop) (fs : Fs) (ops : List FsOp) : Prop :=
  ∀ d, CrashPoint fs.dir ops d → P d

theorem Passes.nil {P : Dir → Prop} {fs : Fs} (h : P fs.dir) : Passes P fs [] := by
  intro d hd
  cases hd
  exact h

/-- One operation passes through its start, what it leaves when cut short, and its end. -/
theorem Passes.cons {P : Dir → Prop} {fs : Fs} {op : FsOp} {ops : List FsOp}
    (hstart : P fs.dir) (hcut : ∀ n, P (op.applyFailed n fs.dir))
    (hrest : Passes P (fs.advance [op]) ops) : Passes P fs (op :: ops) := by
  intro d hd
  cases hd with
  | before => exact hstart
  | during _ _ _ n => exact hcut n
  | after h => exact hrest d h

theorem Passes.append {P : Dir → Prop} {fs : Fs} {ops more : List FsOp} (h : Passes P fs ops)
    (hmore : Passes P (fs.advance ops) more) : Passes P fs (ops ++ more) := by
  induction ops generalizing fs with
  | nil => exact hmore
  | cons op ops ih =>
    refine .cons (h _ (.before _ _)) (fun n => h _ (.during _ _ _ n)) (ih ?_ hmore)
    exact fun d hd => h d (.after hd)

theorem Passes.last {P : Dir → Prop} {fs : Fs} {ops : List FsOp} (h : Passes P fs ops) :
    P (fs.advance ops).dir := by
  induction ops generalizing fs with
  | nil => exact h _ (.before _ _)
  | cons op ops ih => exact @ih (fs.advance [op]) fun d hd => h d (.after hd)

theorem Passes.imp {P Q : Dir → Prop} {fs : Fs} {ops : List FsOp} (h : Passes P fs ops)
    (hPQ : ∀ d, P d → Q d) : Passes Q fs ops := fun d hd => hPQ d (h d hd)

theorem Passes.and {P Q : Dir → Prop} {fs : Fs} {ops : List FsOp} (hP : Passes P fs ops)
    (hQ : Passes Q fs ops) : Passes (fun d => P d ∧ Q d) fs ops := fun d hd => ⟨hP d hd, hQ d hd⟩

abbrev FsM := EStateM Failure Fs

namespace FsM

def fail {α : Type} (e : StorageError) : FsM α := throw (.err e)

def perform (op : FsOp) : FsM Unit := fun fs =>
  match fs.faults with
  | some n :: faults =>
    .error (.err .io) { fs with dir := op.applyFailed n fs.dir, faults := faults }
  | faults => .ok () ⟨op.apply fs.dir, fs.trace ++ [op], faults.tail⟩

theorem run_perform {fs : Fs} (h : fs.Healthy) (op : FsOp) :
    (perform op).run fs = .ok () (fs.advance [op]) := by
  rw [Fs.Healthy] at h
  simp [perform, EStateM.run, h, Fs.advance]

/-- The contents of a segment file; opening a missing one is an I/O error. -/
def readLog (base : ℕ) : FsM LogFile := fun fs =>
  match fs.dir.log base with
  | some file => .ok file fs
  | none => .error (.err .io) fs

/-- `create_new` refuses to open a file that exists. -/
def createNewLog (base : ℕ) : FsM Unit := fun fs =>
  if (fs.dir.log base).isSome then .error (.err .io) fs
  else perform (.createLog base) fs

/-- Removing a file that does not exist is an I/O error. -/
def removeLog (base : ℕ) : FsM Unit := fun fs =>
  if (fs.dir.log base).isSome then perform (.removeLog base) fs
  else .error (.err .io) fs

def removeIndex (base : ℕ) : FsM Unit := fun fs =>
  if (fs.dir.index base).isSome then perform (.removeIndex base) fs
  else .error (.err .io) fs

/-- An unsigned subtraction, which panics below zero. -/
def checkedSub (a b : ℕ) : FsM ℕ :=
  if b ≤ a then pure (a - b) else throw .panic

end FsM

/-- A method on an object that also works on the directory: what it has done to either is
kept when it ends early. -/
abbrev MethodM (α : Type) := EStateM Failure (α × Fs)

namespace MethodM

variable {α β γ : Type}

def onFs (x : FsM β) : MethodM α β := fun s =>
  match x s.2 with
  | .ok b fs => .ok b (s.1, fs)
  | .error e fs => .error e (s.1, fs)

def self : MethodM α α := fun s => .ok s.1 s

def modifySelf (f : α → α) : MethodM α Unit := fun s => .ok () (f s.1, s.2)

def onField (get : α → γ) (put : γ → α → α) (x : MethodM γ β) : MethodM α β := fun s =>
  match x (get s.1, s.2) with
  | .ok b (c, fs) => .ok b (put c s.1, fs)
  | .error e (c, fs) => .error e (put c s.1, fs)

theorem run_onFs {x : FsM β} {a : α} {fs fs' : Fs} {b : β} (h : x.run fs = .ok b fs') :
    (onFs x : MethodM α β).run (a, fs) = .ok b (a, fs') := by
  have h' : x fs = .ok b fs' := h
  simp [onFs, EStateM.run, h']

theorem run_onField {get : α → γ} {put : γ → α → α} {x : MethodM γ β} {a : α} {c : γ}
    {fs fs' : Fs} {b : β} (h : x.run (get a, fs) = .ok b (c, fs')) :
    (onField get put x).run (a, fs) = .ok b (put c a, fs') := by
  have h' : x (get a, fs) = .ok b (c, fs') := h
  simp [onField, EStateM.run, h']

@[simp] theorem run_self (s : α × Fs) : (self : MethodM α α).run s = .ok s.1 s := rfl

@[simp] theorem run_modifySelf (f : α → α) (s : α × Fs) :
    (modifySelf f : MethodM α Unit).run s = .ok () (f s.1, s.2) := rfl

end MethodM
end Replog.Storage
