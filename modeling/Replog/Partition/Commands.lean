import Replog.Partition.LogWrites
import Replog.Storage.Counters
import Replog.Storage.LogLives

/-!
# What the commands do to the log

Every command of a partition is a run of operations of its log. An append that meets a record which
is too large has already appended the records before it.
-/

namespace Replog.Partition
open Replog.Storage
open Replog.Proto (Acks ErrorCode)

variable {crc : List UInt8 → UInt32} {config : LogConfig} {loss : Dir → Dir → Prop}

/-- The log of the thread has come about in some life of its directory. -/
def Thread.Alive (crc : List UInt8 → UInt32) (config : LogConfig) (loss : Dir → Dir → Prop)
    (t : Thread) : Prop :=
  Storage.Lived crc (Partition.logConfig config) loss (.up t.state)

theorem Thread.Alive.congr {t t' : Thread} (h : t.Alive crc config loss) (hlog : t'.log = t.log)
    (hfs : t'.fs = t.fs) : t'.Alive crc config loss := by
  have hstate : t'.state = t.state := by rw [Thread.state, Thread.state, hlog, hfs]
  rw [Thread.Alive, hstate]
  exact h

theorem Thread.Alive.represents (hc : config.Valid) {t : Thread}
    (h : t.Alive crc config Storage.Loses) :
    ∃ rs, Represents crc (Partition.logConfig config) t.state rs :=
  Lived.ok (logConfig_valid hc) h

theorem logConfig_maxRecordBytes (config : LogConfig) :
    (Partition.logConfig config).maxRecordBytes = config.maxRecordBytes := by
  unfold Partition.logConfig
  split <;> rfl

/-! ## Lives -/

section Lives

variable {s : Log × Fs}

private theorem step_append (clock : Clock) (key : Option (List UInt8)) (value : List UInt8) :
    ((LogOp.append clock key value).step crc s).2 =
      resultState ((Log.append crc clock key value).run s) := by
  rw [LogOp.step, LogOp.exec, EStateM.run_bind]
  cases (Log.append crc clock key value).run s <;> rfl

private theorem step_appendReplicated (clock : Clock) (r : Record) :
    ((LogOp.appendReplicated clock r).step crc s).2 =
      resultState ((Log.appendReplicated crc clock r).run s) := by
  rw [LogOp.step, LogOp.exec, EStateM.run_bind]
  cases (Log.appendReplicated crc clock r).run s <;> rfl

private theorem step_flush (clock : Clock) :
    ((LogOp.flush clock).step crc s).2 = resultState ((Log.flush clock).run s) := by
  rw [LogOp.step, LogOp.exec, EStateM.run_bind]
  cases (Log.flush clock).run s <;> rfl

private theorem step_truncateSuffix (n : ℕ) :
    ((LogOp.truncateSuffix n).step crc s).2 = resultState ((Log.truncateSuffix crc n).run s) := by
  rw [LogOp.step, LogOp.exec, EStateM.run_bind]
  cases (Log.truncateSuffix crc n).run s <;> rfl

theorem Lived.step (hc : config.Valid) {n : ℕ} {rs : List Record}
    (h : Storage.Lived crc config Storage.Loses (.up s))
    (hrep : RepresentsRoom crc config (n + 1) s rs) (op : LogOp) :
    Storage.Lived crc config Storage.Loses (.up (op.step crc s).2) ∧
      ∃ rs', RepresentsRoom crc config n (op.step crc s).2 rs' := by
  have hroom : s.1.nextOffset < 2 ^ 64 := by
    rw [hrep.1.nextOffset_eq]
    exact lt_of_lt_of_le (Nat.lt_add_of_pos_right (Nat.succ_pos n)) hrep.2
  exact ⟨.stepped h hroom op, _, ((step_refines hc) n op s rs hrep).2⟩

private theorem appendAll_lived (hc : config.Valid) {records : List KeyValue} (clock : ℕ → Clock)
    (p : Thread.Progress) {rs : List Record} (h : Storage.Lived crc config Storage.Loses (.up s))
    (hrep : RepresentsRoom crc config records.length s rs) :
    Storage.Lived crc config Storage.Loses
      (.up (Thread.appendAll crc records clock p s).2) := by
  induction records generalizing clock p s rs with
  | nil => exact h
  | cons kv records ih =>
    obtain ⟨key, value⟩ := kv
    obtain ⟨hstep, rs', hrep'⟩ := Lived.step hc h hrep (.append (clock 0) key value)
    rw [step_append] at hstep hrep'
    rw [Thread.appendAll]
    cases hrun : (Log.append crc (clock 0) key value).run s with
    | ok info s' =>
      rw [hrun] at hstep hrep'
      exact ih (fun i => clock (i + 1)) _ hstep hrep'
    | error e s' =>
      rw [hrun] at hstep
      exact hstep

private theorem appendReplicatedAll_lived (hc : config.Valid) {records : List Record} (clock : ℕ → Clock)
    {rs : List Record} (h : Storage.Lived crc config Storage.Loses (.up s))
    (hrep : RepresentsRoom crc config records.length s rs) :
    Storage.Lived crc config Storage.Loses
      (.up (Thread.appendReplicatedAll crc records clock s).2) := by
  induction records generalizing clock s rs with
  | nil => exact h
  | cons r records ih =>
    obtain ⟨hstep, rs', hrep'⟩ := Lived.step hc h hrep (.appendReplicated (clock 0) r)
    rw [step_appendReplicated] at hstep hrep'
    rw [Thread.appendReplicatedAll]
    cases hrun : (Log.appendReplicated crc (clock 0) r).run s with
    | ok info s' =>
      rw [hrun] at hstep hrep'
      exact ih (fun i => clock (i + 1)) hstep hrep'
    | error e s' =>
      rw [hrun] at hstep
      exact hstep

end Lives

private theorem answerAppend_state (policy : FsyncPolicy) (produce : Produce) (p : Thread.Progress)
    (t : Thread) : (t.answerAppend policy produce p).2.state = t.state := by
  simp only [Thread.answerAppend]
  split
  · rfl
  · rfl
  · split_ifs <;> rfl

theorem append_state (policy : FsyncPolicy) (produce : Produce) (answered : Bool)
    (clock : ℕ → Clock) (now : ℕ) (t : Thread) :
    (t.append crc policy produce answered clock now).2.state =
      (Thread.appendAll crc produce.records clock ⟨none, 0, none⟩ t.state).2 := by
  simp only [Thread.append]
  cases answered with
  | false => rfl
  | true => exact answerAppend_state policy produce _ _

/-- The number of records a command brings. -/
def Cmd.records : Cmd → ℕ
  | .append produce _ => produce.records.length
  | .appendReplicated records => records.length
  | _ => 0

/-- Offsets are `u64`. -/
def Cmd.Fits (cmd : Cmd) (t : Thread) : Prop := t.log.nextOffset + cmd.records < 2 ^ 64

instance Cmd.decidableFits (cmd : Cmd) (t : Thread) : Decidable (cmd.Fits t) := Nat.decLt _ _

theorem flush_alive {t : Thread} (h : t.Alive crc config loss)
    (hroom : t.log.nextOffset < 2 ^ 64) (clock : Clock) :
    (t.flush clock).2.Alive crc config loss := by
  have hstep := Storage.Lived.stepped h hroom (.flush clock)
  rw [step_flush] at hstep
  rw [Thread.flush]
  cases hrun : (Log.flush clock).run t.state with
  | ok a s =>
    rw [hrun] at hstep
    exact hstep
  | error e s =>
    rw [hrun] at hstep
    exact hstep

private theorem truncateTo_alive {t : Thread} (h : t.Alive crc config loss)
    (hroom : t.log.nextOffset < 2 ^ 64) (n : ℕ) : (t.truncateTo crc n).2.Alive crc config loss := by
  have hstep := Storage.Lived.stepped h hroom (.truncateSuffix n)
  rw [step_truncateSuffix] at hstep
  rw [Thread.truncateTo]
  cases hrun : (Log.truncateSuffix crc n).run t.state with
  | ok a s =>
    rw [hrun] at hstep
    refine Thread.Alive.congr (t := t.withState s) hstep ?_ ?_
    · dsimp only [Thread.truncateEpochs]
      split_ifs <;> rfl
    · dsimp only [Thread.truncateEpochs]
      split_ifs <;> rfl
  | error e s =>
    rw [hrun] at hstep
    exact hstep

theorem read_keeps {P : Log × Fs → Prop} (offset maxBytes : ℕ) :
    Library.Keeps P (Log.read crc offset maxBytes) := by
  have honFs : ∀ {α : Type} {x : FsM α}, (∀ Q : Fs → Prop, Library.Keeps Q x) →
      Library.Keeps P (MethodM.onFs x : LogM α) := by
    rintro α x hx ⟨log, fs⟩ hs
    exact (onFs_ends (hx (· = fs) fs rfl)).imp
      (fun _ s' ⟨hlog, hfs⟩ => by rwa [← Prod.mk.eta (p := s'), hlog, hfs])
      fun _ s' ⟨hlog, hfs⟩ => by rwa [← Prod.mk.eta (p := s'), hlog, hfs]
  rw [Log.read]
  refine Library.Keeps.bind self_keeps fun log => Library.Keeps.ite (honFs fun Q => fail_keeps _)
    (Library.Keeps.ite (Library.Keeps.pure _) (Library.Keeps.ite (honFs fun Q =>
      readFrom_keeps _ _ _ _ _) ?_))
  split
  · exact Library.Keeps.throw _
  · exact honFs fun Q => readFrom_keeps _ _ _ _ _

private theorem read_alive {t : Thread} (h : t.Alive crc config loss) (offset maxBytes : ℕ) :
    (t.read crc offset maxBytes).2.Alive crc config loss := by
  have hkeeps := @read_keeps crc (fun s => Storage.Lived crc
    (Partition.logConfig config) loss (.up s)) offset maxBytes t.state h
  rw [Thread.read]
  cases hrun : (Log.read crc offset maxBytes).run t.state with
  | ok records s =>
    rw [hrun] at hkeeps
    exact hkeeps
  | error e s =>
    rw [hrun] at hkeeps
    exact hkeeps

/-- Whatever command comes, the log goes on with its life. -/
theorem handle_alive (hc : config.Valid) {t : Thread} (h : t.Alive crc config Storage.Loses)
    (policy : FsyncPolicy) {cmd : Cmd} (hfits : cmd.Fits t) (clock : ℕ → Clock) (now : ℕ) :
    (t.handle crc policy cmd clock now).2.Alive crc config Storage.Loses := by
  have hvalid := logConfig_valid hc
  obtain ⟨rs, hrep⟩ := h.represents hc
  have hnext : t.log.nextOffset = rs.length := hrep.nextOffset_eq
  have hroom : t.log.nextOffset < 2 ^ 64 := lt_of_le_of_lt (Nat.le_add_right _ _) hfits
  have hlt : rs.length + cmd.records ≤ 2 ^ 64 := hnext ▸ hfits.le
  cases cmd with
  | append produce answered =>
    have hlived := appendAll_lived hvalid clock ⟨none, 0, none⟩ h ⟨hrep, hlt⟩
    rw [← append_state policy produce answered clock now t] at hlived
    exact hlived
  | read offset maxBytes => exact read_alive h offset maxBytes
  | appendReplicated records => exact appendReplicatedAll_lived hvalid clock h ⟨hrep, hlt⟩
  | truncateTo n => exact truncateTo_alive h hroom n
  | recordEpoch epoch =>
    refine h.congr ?_ ?_
    · simp only [Thread.handle, Thread.recordEpoch]
      split_ifs
      · split <;> rfl
      · rfl
    · simp only [Thread.handle, Thread.recordEpoch]
      split_ifs
      · split <;> rfl
      · rfl
  | epochStatus => exact h
  | epochEndFor epoch => exact h

/-! ## A batch that is rejected -/

/-- A record that no log with the configuration takes. -/
def TooLarge (config : LogConfig) (kv : KeyValue) : Prop :=
  config.maxRecordBytes < Record.encodedLen ⟨0, 0, kv.1, kv.2⟩

instance (config : LogConfig) (kv : KeyValue) : Decidable (TooLarge config kv) :=
  Nat.decLt _ _

/-- An append that goes through, or meets a record that is too large and leaves the log alone. -/
theorem append_cases (hc : config.Valid) {s : Log × Fs} {rs : List Record}
    (h : Represents crc config s rs) (hroom : rs.length < 2 ^ 64) (clock : Clock) (kv : KeyValue) :
    (TooLarge config kv ∧ ∃ e, (Log.append crc clock kv.1 kv.2).run s = .error e s) ∨
      (¬ TooLarge config kv ∧ ∃ info s' r, (Log.append crc clock kv.1 kv.2).run s = .ok info s' ∧
        Represents crc config s' (rs ++ [r]) ∧ keyValue r = kv ∧
        (s.1.afterAppend clock (Record.encodedLen ⟨0, 0, kv.1, kv.2⟩)).SameCounters s'.1) := by
  obtain ⟨key, value⟩ := kv
  have hnext : s.1.active.nextOffset = rs.length := h.nextOffset_eq
  let r : Record := { offset := rs.length, timestampMs := clock.wallMs, key, value }
  have hrun : (Log.append crc clock key value).run s = (Log.appendRecord crc clock r).run s := by
    simp only [Log.append, EStateM.run_bind, MethodM.run_self, hnext, r]
  have hlen : TooLarge config (key, value) ↔ config.maxRecordBytes < r.encodedLen := Iff.rfl
  have hcounts := appendRecord_counts crc clock r s
  obtain ⟨cs, act, hok, rfl⟩ := h
  rw [hrun]
  rcases appendRecord_refines hc hok (r := r) rfl hroom clock with
    ⟨hlarge, hfails⟩ | ⟨hfits, info, log, ops, hdone, -, -, cs', act', hcs, hok'⟩
  · exact .inl ⟨hlen.mpr hlarge, _, hfails⟩
  · rw [hdone] at hcounts
    exact .inr ⟨fun hlarge => absurd (hlen.mp hlarge) (by omega), info, _, r, hdone,
      ⟨cs', act', hok', hcs⟩, rfl, hcounts⟩

/-- An append writes the records before the first one that is too large. -/
theorem appendAll_takeWhile (hc : config.Valid) {records : List KeyValue} (clock : ℕ → Clock)
    (p : Thread.Progress) {s : Log × Fs} {rs : List Record} (h : Represents crc config s rs)
    (hroom : rs.length + records.length ≤ 2 ^ 64) :
    ∃ more, Represents crc config (Thread.appendAll crc records clock p s).2 (rs ++ more) ∧
      more.map keyValue = records.takeWhile (fun kv => ¬ TooLarge config kv) ∧
      (more = [] → (Thread.appendAll crc records clock p s).2 = s) ∧
      (p.error = none → (Thread.appendAll crc records clock p s).1.error.isSome →
        ∃ kv ∈ records, TooLarge config kv) := by
  induction records generalizing clock p s rs with
  | nil =>
    refine ⟨[], (List.append_nil rs).symm ▸ h, rfl, fun _ => rfl, fun hnone hsome => ?_⟩
    rw [Thread.appendAll, hnone] at hsome
    cases hsome
  | cons kv records ih =>
    simp only [List.length_cons] at hroom
    rcases append_cases hc h (by omega) (clock 0) kv with
      ⟨hlarge, e, hrun⟩ | ⟨hfits, info, s', r, hrun, hrep, hr, -⟩
    · simp only [Thread.appendAll, hrun]
      refine ⟨[], (List.append_nil rs).symm ▸ h, ?_, fun _ => trivial,
        fun _ _ => ⟨kv, List.mem_cons_self, hlarge⟩⟩
      rw [List.takeWhile_cons_of_neg (by simpa using hlarge), List.map_nil]
    · simp only [Thread.appendAll, hrun]
      obtain ⟨more, hmore, hwritten, -, herror⟩ := ih (fun i => clock (i + 1))
        { p with base := p.base.or (some info.offset), count := p.count + 1 } hrep
        (by rw [List.length_append, List.length_singleton]; omega)
      refine ⟨r :: more, ?_, ?_, fun hnil => absurd hnil (List.cons_ne_nil r more),
        fun hnone hsome => ?_⟩
      · rwa [List.append_assoc] at hmore
      · rw [List.takeWhile_cons_of_pos (by simpa using hfits), List.map_cons, hr, hwritten]
      · obtain ⟨kv', hkv', hlarge⟩ := herror hnone hsome
        exact ⟨kv', List.mem_cons_of_mem _ hkv', hlarge⟩

/-- What a read returns are records of the log from the offset on. -/
theorem Represents.read_isPrefix (hc : config.Valid) {s s' : Log × Fs} {rs run : List Record}
    (h : Represents crc config s rs) {o maxBytes : ℕ}
    (hrun : (Log.read crc o maxBytes).run s = .ok run s') : run <+: rs.drop o := by
  have hreads := Storage.Represents.reads hc h
  rcases Nat.lt_trichotomy o rs.length with hlt | rfl | hgt
  · obtain ⟨run', hrun', hread⟩ := hreads.inside o hlt maxBytes
    rw [hrun] at hrun'
    cases hrun'
    exact hread.isPrefix.trans (List.take_prefix _ _)
  · rw [hreads.atEnd] at hrun
    cases hrun
    exact List.nil_prefix
  · rw [hreads.past o hgt] at hrun
    cases hrun

theorem Represents.offset_lt {s : Log × Fs} {rs : List Record} (h : Represents crc config s rs)
    {r : Record} (hr : r ∈ rs) : r.offset < rs.length := by
  obtain ⟨i, hi, rfl⟩ := List.getElem_of_mem hr
  rw [h.numbered.offset_eq (List.getElem?_eq_getElem hi), Nat.zero_add]
  exact hi

/-- No read of the log returns a record at or past `n`. -/
def NoneFrom (crc : List UInt8 → UInt32) (s : Log × Fs) (n : ℕ) : Prop :=
  ∀ o maxBytes rs s', (Log.read crc o maxBytes).run s = .ok rs s' → ∀ r ∈ rs, r.offset < n

private theorem Represents.noneFrom (hc : config.Valid) {s : Log × Fs} {rs : List Record}
    (h : Represents crc config s rs) : NoneFrom crc s rs.length := fun _ _ _ _ hrun _ hr =>
  Represents.offset_lt h
    (List.mem_of_mem_drop ((Represents.read_isPrefix hc h hrun).subset hr))

private theorem Represents.not_noneFrom (hc : config.Valid) {s : Log × Fs} {rs : List Record}
    (h : Represents crc config s rs) {n : ℕ} (hn : n < rs.length) : ¬ NoneFrom crc s n := by
  intro hnone
  obtain ⟨run, hrun, hread⟩ := (Storage.Represents.reads hc h).inside n hn 0
  obtain ⟨r, rest, rfl⟩ := List.exists_cons_of_ne_nil hread.nonempty
  have hlt := hnone n 0 _ _ hrun r List.mem_cons_self
  obtain ⟨more, hmore⟩ := Represents.read_isPrefix hc h hrun
  have hr : rs[n]? = some r := by
    rw [← List.head?_drop, ← hmore]
    rfl
  rw [h.numbered.offset_eq hr] at hlt
  omega

private theorem drainPending_ok (durable : Option ℕ) (pending : List Pending) :
    ∀ reply ∈ (Thread.drainPending durable pending).1,
      ∃ p ∈ pending, reply = .append p.produce (.ok (p.baseOffset, p.count)) := by
  induction pending with
  | nil => exact nofun
  | cons p rest ih =>
    rw [Thread.drainPending]
    split_ifs
    · intro reply hreply
      rcases List.mem_cons.mp hreply with rfl | hreply
      · exact ⟨p, List.mem_cons_self, rfl⟩
      · obtain ⟨p', hp', rfl⟩ := ih reply hreply
        exact ⟨p', List.mem_cons_of_mem p hp', rfl⟩
    · exact nofun

private theorem append_error {policy : FsyncPolicy} {produce : Produce} {clock : ℕ → Clock} {now : ℕ}
    {t : Thread} {code : ErrorCode}
    (h : .append produce (.error code) ∈ (t.append crc policy produce true clock now).1) :
    (Thread.appendAll crc produce.records clock ⟨none, 0, none⟩ t.state).1.error.isSome := by
  simp only [Thread.append] at h
  generalize Thread.appendAll crc produce.records clock ⟨none, 0, none⟩ t.state = result at h ⊢
  rcases List.mem_append.mp h with hreply | hreply
  · simp only [if_true, Thread.answerAppend] at hreply
    split at hreply
    · rename_i herror
      rw [herror]
      rfl
    · simp at hreply
    · split_ifs at hreply
      · simp at hreply
      · cases hreply
  · obtain ⟨p, -, hp⟩ := drainPending_ok _ _ _ hreply
    cases hp

/-- A batch is rejected without a trace exactly when its first record is one that is too large. -/
theorem rejected_iff (hconfig : config.validate = .ok ()) {t : Thread}
    (h : t.Alive crc config Storage.Loses) {produce : Produce}
    (hroom : t.log.nextOffset + produce.records.length ≤ 2 ^ 64) (clock : ℕ → Clock) (now : ℕ)
    {code : ErrorCode} (hrejected : .append produce (.error code) ∈
      (t.append crc config.fsync produce true clock now).1) :
    ((t.append crc config.fsync produce true clock now).2.state = t.state ↔
        ∃ kv, produce.records.head? = some kv ∧ TooLarge config kv) ∧
      (NoneFrom crc (t.append crc config.fsync produce true clock now).2.state t.log.nextOffset ↔
        ∃ kv, produce.records.head? = some kv ∧ TooLarge config kv) := by
  have hvalid := config.validate_eq_ok_iff.mp hconfig
  have hc := logConfig_valid hvalid
  obtain ⟨rs, hrep⟩ := h.represents hvalid
  have hnext : t.log.nextOffset = rs.length := hrep.nextOffset_eq
  obtain ⟨more, hafter, hwritten, hsame, herror⟩ := @appendAll_takeWhile _ _ hc
    produce.records clock ⟨none, 0, none⟩ _ _ hrep (by omega)
  obtain ⟨kv, hkv, hlarge⟩ := herror rfl (append_error hrejected)
  obtain ⟨first, rest, hrecords⟩ := List.exists_cons_of_ne_nil (List.ne_nil_of_mem hkv)
  have hfirst : (∃ kv, produce.records.head? = some kv ∧ TooLarge config kv) ↔ more = [] := by
    rw [← List.map_eq_nil_iff (f := keyValue), hwritten, hrecords, List.head?_cons]
    have hlimit : TooLarge (Partition.logConfig config) first ↔ TooLarge config first := by
      rw [TooLarge, TooLarge, logConfig_maxRecordBytes]
    by_cases hbig : TooLarge config first
    · rw [List.takeWhile_cons_of_neg (by simpa using hlimit.mpr hbig)]
      exact ⟨fun _ => rfl, fun _ => ⟨first, rfl, hbig⟩⟩
    · rw [List.takeWhile_cons_of_pos (by simpa using fun h => hbig (hlimit.mp h))]
      exact ⟨fun ⟨_, hsome, hkv⟩ => absurd (Option.some.inj hsome ▸ hkv) hbig, nofun⟩
  rw [append_state, hfirst, hnext]
  refine ⟨⟨fun hstate => ?_, hsame⟩, fun hnone => ?_, fun hnil => ?_⟩
  · have hlen := hafter.nextOffset_eq
    rw [hstate, hrep.nextOffset_eq, List.length_append] at hlen
    exact List.length_eq_zero_iff.mp (by omega)
  · by_contra hne
    have hpos := List.length_pos_iff.mpr hne
    exact Represents.not_noneFrom hc hafter (n := rs.length)
      (by rw [List.length_append]; omega) hnone
  · rw [hsame hnil]
    exact Represents.noneFrom hc hrep

section Rejected

/-- A partition on a directory that was empty. -/
def idleThread : Thread :=
  { log := emptyLog.1
    fs := emptyLog.2
    epochs := ⟨[]⟩
    epochFile := none
    pending := []
    dirtySince := none }

theorem idleThread_alive : idleThread.Alive (fun _ => 0) smallConfig Storage.Loses :=
  .opened .new (show (Log.openDir (fun _ => 0) smallConfig ⟨0, 0⟩).run ⟨Dir.empty, [], []⟩ =
    .ok emptyLog.1 emptyLog.2 from rfl)

def smallRecord : KeyValue := (none, [7])

def largeRecord : KeyValue := (none, List.replicate 2000 0)

def Reply.rejects (produce : Produce) (code : ErrorCode) : Reply → Bool
  | .append produce' (.error code') => produce' = produce && code' = code
  | _ => false

theorem mem_of_rejects {out : List Reply} (produce : Produce) (code : ErrorCode)
    (h : out.any (Reply.rejects produce code) = true) : .append produce (.error code) ∈ out := by
  obtain ⟨reply, hreply, hrejects⟩ := List.any_eq_true.mp h
  unfold Reply.rejects at hrejects
  split at hrejects
  · rw [Bool.and_eq_true, decide_eq_true_eq, decide_eq_true_eq] at hrejects
    obtain ⟨rfl, rfl⟩ := hrejects
    exact hreply
  · cases hrejects

/-- The first record is too large. -/
theorem rejected_large : (idleThread.append (fun _ => 0) .os ⟨[largeRecord, smallRecord], .written⟩
    true (fun _ => ⟨0, 0⟩) 0).2.state = idleThread.state :=
  (rejected_iff (show smallConfig.validate = .ok () from rfl) idleThread_alive
    (by decide) (fun _ => ⟨0, 0⟩) 0
    (mem_of_rejects _ .malformed (by decide +kernel))).1.mpr ⟨largeRecord, rfl, by decide +kernel⟩

/-- The second record is too large, and the first one stays. -/
theorem rejected_serves : ∃ t : Thread, t.Alive (fun _ => 0) smallConfig Storage.Loses ∧
    ∃ produce code, .append produce (.error code) ∈
        (t.append (fun _ => 0) smallConfig.fsync produce true (fun _ => ⟨0, 0⟩) 0).1 ∧
      ¬ NoneFrom (fun _ => 0) (t.append (fun _ => 0) smallConfig.fsync produce true
        (fun _ => ⟨0, 0⟩) 0).2.state t.log.nextOffset := by
  refine ⟨idleThread, idleThread_alive, ⟨[smallRecord, largeRecord], .written⟩, .malformed,
    mem_of_rejects _ _ (by decide +kernel), fun hnone => ?_⟩
  have hread : Library.okValue (fun rs _ => rs.length) 0 ((Log.read (fun _ => 0) 0 1024).run
      (idleThread.append (fun _ => 0) smallConfig.fsync ⟨[smallRecord, largeRecord], .written⟩ true
        (fun _ => ⟨0, 0⟩) 0).2.state) = 1 := by decide +kernel
  cases hrun : (Log.read (fun _ => 0) 0 1024).run (idleThread.append (fun _ => 0)
      smallConfig.fsync ⟨[smallRecord, largeRecord], .written⟩ true (fun _ => ⟨0, 0⟩) 0).2.state with
  | ok rs s' =>
    rw [hrun] at hread
    obtain ⟨r, hr⟩ := List.exists_mem_of_length_eq_add_one hread
    exact absurd (hnone 0 1024 rs s' hrun r hr) (Nat.not_lt_zero _)
  | error e s' =>
    rw [hrun] at hread
    cases hread

end Rejected

end Replog.Partition
