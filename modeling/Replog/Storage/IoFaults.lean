import Replog.Library.Transition
import Replog.Storage.Counters
import Replog.Storage.Twins

/-!
# I/O failures of appends

An append whose index write fails halfway leaves an index file that does not load. The log goes
on without looking at it: it runs as on the twin directory whose index files are whole, and
opening the directory rebuilds the file. Where an append fails after its record is in the file,
or leaves part of it there, or leaves a new segment behind, what comes later goes wrong.
-/

namespace Replog.Storage
open Replog.Library

/-- The index file of the log is the twin's, or one that will be rebuilt. -/
def Spoiled (a b : Option (List UInt8)) : Prop :=
  a = b ∨ b.isSome ∧ ∃ bytes, a = some bytes ∧ Rejected bytes

/-- Both files are the same, or both will be rebuilt. -/
def LoadAlike (a b : Option (List UInt8)) : Prop :=
  a = b ∨ ∃ bytes bytes', a = some bytes ∧ b = some bytes' ∧ Rejected bytes ∧ Rejected bytes'

theorem Stable.flip {Q : Option (List UInt8) → Option (List UInt8) → Prop} (hQ : Stable Q) :
    Stable (flip Q) :=
  ⟨hQ.refl, fun h => (hQ.isSome h).symm, fun h e => hQ.entry h e⟩

theorem Spoiled.stable : Stable Spoiled := by
  refine ⟨fun a => .inl rfl, fun h => ?_, fun h e => ?_⟩
  · rcases h with rfl | ⟨hsome, bytes, rfl, -⟩
    · rfl
    · rw [hsome]
      rfl
  · rcases h with rfl | ⟨hsome, bytes, rfl, hbytes⟩
    · exact .inl rfl
    · exact .inr ⟨by simpa using hsome, _, rfl, hbytes.append_entry e⟩

theorem LoadAlike.stable : Stable LoadAlike := by
  refine ⟨fun a => .inl rfl, fun h => ?_, fun h e => ?_⟩
  · rcases h with rfl | ⟨bytes, bytes', rfl, rfl, -⟩ <;> rfl
  · rcases h with rfl | ⟨bytes, bytes', rfl, rfl, hbytes, hbytes'⟩
    · exact .inl rfl
    · exact .inr ⟨_, _, rfl, rfl, hbytes.append_entry e, hbytes'.append_entry e⟩

private theorem LoadAlike.loaded_eq {a b : Option (List UInt8)} (h : LoadAlike a b) :
    SparseIndex.loaded a = SparseIndex.loaded b := by
  rcases h with rfl | ⟨bytes, bytes', rfl, rfl, hbytes, hbytes'⟩
  · rfl
  · rw [Rejected] at hbytes hbytes'
    rw [hbytes, hbytes']

theorem Near.flip {Q : Option (List UInt8) → Option (List UInt8) → Prop} {fs fs' : Fs}
    (h : Near Q fs fs') (hfs : fs.Healthy) : Near (flip Q) fs' fs :=
  ⟨fun b => (h.log_eq b).symm, h.index, hfs⟩

theorem Near.imp {Q Q' : Option (List UInt8) → Option (List UInt8) → Prop} {fs fs' : Fs}
    (h : Near Q fs fs') (hQ : ∀ a b, Q a b → Q' a b) : Near Q' fs fs' :=
  ⟨h.log_eq, fun b => hQ _ _ (h.index b), h.healthy⟩

/-- The log holds the records `rs`, up to index files that will be rebuilt. -/
def Holds (crc : List UInt8 → UInt32) (config : LogConfig) (s : Log × Fs) (rs : List Record) :
    Prop :=
  ∃ twin, Represents crc config (s.1, twin) rs ∧ Near Spoiled s.2 twin

variable {crc : List UInt8 → UInt32} {config : LogConfig}

theorem Represents.holds {s : Log × Fs} {rs : List Record} (h : Represents crc config s rs) :
    Holds crc config s rs :=
  ⟨s.2, h, fun _ => rfl, fun _ => .inl rfl, h.healthy⟩

theorem Holds.nextOffset_eq {s : Log × Fs} {rs : List Record} (h : Holds crc config s rs) :
    s.1.nextOffset = rs.length := by
  obtain ⟨twin, hrep, -⟩ := h
  exact hrep.nextOffset_eq

theorem Holds.config_eq {s : Log × Fs} {rs : List Record} (h : Holds crc config s rs) :
    s.1.config = config := by
  obtain ⟨twin, ⟨cs, act, hok, -⟩, -⟩ := h
  exact hok.config_eq

/-- A read changes nothing and returns what it returns on the twin. -/
theorem read_near {log : Log} {fs twin : Fs} (hlog : ∀ b, fs.dir.log b = twin.dir.log b)
    {o maxBytes : ℕ} {run : List Record}
    (h : (Log.read crc o maxBytes).run (log, twin) = .ok run (log, twin)) :
    (Log.read crc o maxBytes).run (log, fs) = .ok run (log, fs) := by
  have hread := read_follows crc (R := fun a b => a = twin ∧ b = fs)
    (by rintro a b ⟨rfl, rfl⟩ c; exact (hlog c).symm) o maxBytes
  obtain ⟨⟨log', fs'⟩, hrun, hsame, -, rfl⟩ := hread (log, twin) (log, fs) ⟨rfl, rfl, rfl⟩ run _ h
  dsimp only at hsame
  rw [hrun, ← hsame]

theorem Holds.reads (hc : config.Valid) {s : Log × Fs} {rs : List Record}
    (h : Holds crc config s rs) : ReadsOf crc s rs := by
  have hnext := h.nextOffset_eq
  obtain ⟨twin, hrep, hnear⟩ := h
  have hreads := hrep.reads hc
  refine ⟨fun o ho maxBytes => ?_, fun maxBytes => read_near hnear.log_eq (hreads.atEnd maxBytes),
    fun o ho maxBytes => ?_⟩
  · obtain ⟨run, hrun, hread⟩ := hreads.inside o ho maxBytes
    exact ⟨run, read_near hnear.log_eq hrun, hread⟩
  · simp only [Log.read, EStateM.run_bind, MethodM.run_self]
    rw [if_pos (by omega)]
    rfl

/-! ## Reopening -/

/-- Empties index files down to a byte that is no entry. -/
def Dir.blank (d : Dir) (bases : List ℕ) : Dir :=
  bases.foldl (fun d b => d.mapIndex b fun _ => [0]) d

theorem Dir.log_blank (d : Dir) (bases : List ℕ) (b : ℕ) : (d.blank bases).log b = d.log b := by
  induction bases generalizing d with
  | nil => rfl
  | cons base rest ih => exact ih _

private theorem Dir.index_blank (d : Dir) (bases : List ℕ) (b : ℕ) :
    (d.blank bases).index b = if b ∈ bases then (d.index b).map fun _ => [0] else d.index b := by
  induction bases generalizing d with
  | nil => simp [blank]
  | cons base rest ih =>
    have hindex : (d.mapIndex base fun _ => [0]).index b =
        if b = base then (d.index base).map fun _ => [0] else d.index b :=
      lookup_alterKey _ _ _ _
    rw [blank, List.foldl_cons, ← blank, ih, hindex]
    by_cases hb : b = base
    · subst hb
      cases d.index b <;> simp
    · simp [hb]

/-- One byte is the start of an index, and does not load. -/
theorem IndexFileOk.blank (chunk : List Record) : IndexFileOk chunk (some [0]) := by
  rintro bytes ⟨⟩
  exact ⟨[(0, 0)], 1, ⟨List.pairwise_singleton _ _, by simp⟩, by decide⟩

private theorem exists_twin_loadAlike {log : Log} {fs twin : Fs} {cs : List (List Record)}
    {act : List Record} (h : LogOk crc config (log, twin) cs act) (hnear : Near Spoiled fs twin) :
    ∃ shut, Near LoadAlike fs shut ∧ CrashDir crc config shut.dir cs act [] := by
  let rejected : ℕ → Bool := fun b => (fs.dir.index b).any fun bytes => decide (Rejected bytes)
  let bases := fs.dir.indexes.keys.filter rejected
  have hmem : ∀ b, b ∈ bases ↔ ∃ bytes, fs.dir.index b = some bytes ∧ Rejected bytes := by
    intro b
    simp only [bases, rejected, List.mem_filter, Option.any_eq_true, decide_eq_true_eq]
    refine ⟨fun h => h.2, fun h => ⟨?_, h⟩⟩
    obtain ⟨bytes, hfile, -⟩ := h
    have hsome : (fs.dir.index b).isSome := by rw [hfile]; rfl
    exact AList.lookup_isSome.mp hsome
  have hcrash := h.crashDir
  have hindex := Dir.index_blank fs.dir bases
  have hlog : ∀ b, (fs.dir.blank bases).log b = twin.dir.log b := fun b =>
    (fs.dir.log_blank bases b).trans (hnear.log_eq b)
  refine ⟨⟨fs.dir.blank bases, [], []⟩,
    ⟨fun b => (fs.dir.log_blank bases b).symm, fun b => ?_, rfl⟩, ?_⟩
  · dsimp only
    rw [hindex]
    split_ifs with hb
    · obtain ⟨bytes, hfile, hrejected⟩ := (hmem b).mp hb
      rw [hfile]
      exact .inr ⟨bytes, [0], rfl, rfl, hrejected, by decide⟩
    · exact .inl rfl
  · refine ⟨hcrash.closed.imp fun b hb c hfile => ⟨hlog b ▸ hfile.log_file, ?_, hfile.numbered,
      hfile.size_le⟩, hlog _ ▸ hcrash.newest, hcrash.numbered, hcrash.size_le, hcrash.torn,
      fun b => by rw [hlog, hcrash.files]⟩
    dsimp only
    rw [hindex]
    split_ifs with hb
    · obtain ⟨bytes, hfile', -⟩ := (hmem b).mp hb
      rw [hfile']
      exact .blank c
    · rcases hnear.index b with hsame | ⟨-, hspoiled⟩
      · rw [hsame]
        exact hfile.index_file
      · exact absurd ((hmem b).mpr hspoiled) hb

theorem Holds.reopens (hc : config.Valid) {s : Log × Fs} {rs : List Record}
    (h : Holds crc config s rs) (hfs : s.2.Healthy) (clock : Clock) :
    ∃ log fs, (Log.openDir crc config clock).run s.2 = .ok log fs ∧ fs.Healthy ∧
      Holds crc config (log, fs) rs := by
  obtain ⟨twin, ⟨cs, act, hok, hflat⟩, hnear⟩ := h
  obtain ⟨shut, hshut, hcrash⟩ := exists_twin_loadAlike hok hnear
  obtain ⟨log, shut', hrun, hok'⟩ := openDir_spec hc hshut.healthy hcrash clock
  obtain ⟨fs, hrun', hnear'⟩ := openDir_follows crc config LoadAlike.stable.flip
    (fun a b hab => (LoadAlike.loaded_eq hab).symm) clock shut s.2 (hshut.flip hfs) log shut' hrun
  refine ⟨log, fs, hrun', hnear'.healthy, shut', ⟨cs, act, hok', hflat⟩,
    (hnear'.flip hok'.healthy).imp fun a b hab => ?_⟩
  rcases hab with rfl | ⟨bytes, bytes', rfl, rfl, hbytes, -⟩
  · exact .inl rfl
  · exact .inr ⟨rfl, bytes, rfl, hbytes⟩

/-! ## One append with failures -/

/-- The first failure that hits one of these operations is one that `G` allows, with the number
of bytes that were stored. -/
def Allowed (G : FsOp → ℕ → Prop) : List FsOp → List (Option ℕ) → Prop
  | [], _ => True
  | _ :: _, [] => True
  | op :: _, some n :: _ => G op n
  | _ :: ops, none :: faults => Allowed G ops faults

/-- The flush after an append, where the policy asks for one. -/
def flushOps (clock : Clock) (log : Log) : List FsOp :=
  if log.flushDue clock then [.fsyncLog log.active.baseOffset] else []

/-- The operations of writing a record to the active segment. -/
def writeOps (crc : List UInt8 → UInt32) (clock : Clock) (log : Log) (r : Record) : List FsOp :=
  appendOps crc log.config log.active r ++
    flushOps clock { log with dirtyBytes := log.dirtyBytes + r.encodedLen }

/-- The operations an append of the record performs when none of them fails. -/
def appendPlan (crc : List UInt8 → UInt32) (clock : Clock) (log : Log) (r : Record) :
    List FsOp :=
  if log.rollDue r.encodedLen then rollOps log ++ writeOps crc clock (log.rolled clock) r
  else writeOps crc clock log r

section Ends

variable {G : FsOp → ℕ → Prop} {rest : List FsOp} {log : Log} {fs twin : Fs}
  {cs : List (List Record)} {act : List Record}

theorem perform_ends {op : FsOp} (h : Allowed G (op :: rest) fs.faults) :
    Ends (fun _ fs' => fs'.dir = op.apply fs.dir ∧ Allowed G rest fs'.faults)
      (fun _ fs' => ∃ n, G op n ∧ fs'.dir = op.applyFailed n fs.dir)
      ((FsM.perform op).run fs) := by
  simp only [FsM.perform, EStateM.run]
  cases hfaults : fs.faults with
  | nil => exact ⟨rfl, by cases rest <;> trivial⟩
  | cons fault faults =>
    rw [hfaults] at h
    cases fault with
    | none => exact ⟨rfl, h⟩
    | some n => exact ⟨n, h, rfl⟩

theorem Near.of_dir_eq {Q : Option (List UInt8) → Option (List UInt8) → Prop} {fs' : Fs}
    (h : Near Q fs twin) (hdir : fs'.dir = fs.dir) : Near Q fs' twin :=
  ⟨fun b => by rw [hdir, h.log_eq], fun b => by rw [hdir]; exact h.index b, h.healthy⟩

theorem flush_ends (h : Allowed G (.fsyncLog log.active.baseOffset :: rest) fs.faults)
    (clock : Clock) :
    Ends (fun _ s => s.1 = log.flushed clock ∧ Allowed G rest s.2.faults)
      (fun _ s => s.1 = log ∧ s.2.dir = fs.dir ∧ ∃ n, G (.fsyncLog log.active.baseOffset) n)
      ((Log.flush clock).run (log, fs)) := by
  rw [Log.flush]
  refine Ends.bind (fun a s => a = log ∧ s = (log, fs)) ⟨rfl, rfl⟩ ?_
  rintro _ _ ⟨rfl, rfl⟩
  refine Ends.bind _ ((onFs_ends (perform_ends h)).imp_bad ?_) ?_
  · rintro e s ⟨hlog, n, hG, hdir⟩
    exact ⟨hlog, hdir, n, hG⟩
  · rintro u ⟨log', fs'⟩ ⟨rfl, hdir, hrest⟩
    exact ⟨rfl, hrest⟩

private theorem roll_ends (hok : LogOk crc config (log, twin) cs act) (hnear : Near Spoiled fs twin)
    (h : Allowed G (rollOps log ++ rest) fs.faults) (hG : ∀ b n, ¬ G (.createIndex b) n)
    (clock : Clock) :
    Ends (fun _ s => s.1 = log.rolled clock ∧ Allowed G rest s.2.faults)
      (fun _ s => Holds crc config s (cs.flatten ++ act)) ((Log.roll clock).run (log, fs)) := by
  have hflush := flush_ends h clock
  rw [Log.roll]
  refine Ends.bind _ ((hflush.and_good fun a s hrun =>
    flush_follows (Near.carried Spoiled.stable) clock
    (log, fs) (log, twin) ⟨rfl, hnear⟩ a s hrun).imp_bad ?_) ?_
  · rintro e ⟨log', fs'⟩ ⟨rfl, hdir, -⟩
    exact ⟨twin, ⟨cs, act, hok, rfl⟩, hnear.of_dir_eq hdir⟩
  rintro durable ⟨log', fs'⟩ ⟨⟨rfl, hrest⟩, ⟨log'', twin'⟩, htwin, hsame, hnear'⟩
  dsimp only at hsame hrest hnear'
  subst hsame
  obtain ⟨log', htwin', -, -, -, hok'⟩ := flush_spec hok clock
  rw [htwin] at htwin'
  obtain ⟨rfl, rfl⟩ : log.flushed clock = log' ∧
      twin' = twin.advance [.fsyncLog log.active.baseOffset] := by
    cases htwin'
    exact ⟨rfl, rfl⟩
  have hheld : ∀ fs'' : Fs, fs''.dir = fs'.dir →
      Holds crc config (log.flushed clock, fs'') (cs.flatten ++ act) :=
    fun fs'' hdir => ⟨_, ⟨cs, act, hok', rfl⟩, hnear'.of_dir_eq hdir⟩
  refine Ends.bind (fun a s => a = log.flushed clock ∧ s = (log.flushed clock, fs'))
    ⟨rfl, rfl⟩ ?_
  rintro _ _ ⟨rfl, rfl⟩
  have hcreate : Ends (fun seg fs'' => seg = (log.rolled clock).active ∧ Allowed G rest fs''.faults)
      (fun _ fs'' => fs''.dir = fs'.dir)
      ((Segment.create (log.flushed clock).active.nextOffset).run fs') := by
    rw [Segment.create]
    refine Ends.bind (fun _ fs'' =>
      Allowed G (.createIndex log.active.nextOffset :: rest) fs''.faults) ?_ fun _ fs'' hindex => ?_
    · have hnew : (FsM.createNewLog (log.flushed clock).active.nextOffset).run fs' =
          if (fs'.dir.log log.active.nextOffset).isSome then .error (.err .io) fs'
          else (FsM.perform (.createLog log.active.nextOffset)).run fs' := rfl
      rw [hnew]
      split_ifs
      · exact rfl
      · refine (perform_ends hrest).imp (fun _ _ h => h.2) ?_
        rintro e fs'' ⟨n, -, hdir⟩
        exact hdir
    · refine Ends.bind (fun idx fs'' => idx = ⟨[]⟩ ∧ Allowed G rest fs''.faults) ?_ ?_
      · rw [SparseIndex.create]
        refine Ends.bind _ ((perform_ends hindex).imp (fun _ _ h => h.2) ?_) fun _ _ h => ⟨rfl, h⟩
        rintro e fs'' ⟨n, hcreate, -⟩
        exact absurd hcreate (hG _ n)
      · rintro _ _ ⟨rfl, h⟩
        exact ⟨rfl, h⟩
  refine Ends.bind _ ((onFs_ends hcreate).imp_bad ?_) ?_
  · rintro e ⟨log', fs''⟩ ⟨rfl, hdir⟩
    exact hheld fs'' hdir
  · rintro seg ⟨log', fs''⟩ ⟨rfl, rfl, h⟩
    exact ⟨rfl, h⟩

private theorem log_applyFailed_zero (d : Dir) (base b : ℕ) (bytes : List UInt8) :
    ((FsOp.writeLog base bytes).applyFailed 0 d).log b = d.log b := by
  simp only [FsOp.applyFailed, List.take_zero, FsOp.log_writeLog, List.append_nil]
  split_ifs with hb
  · subst hb
    cases d.log b <;> rfl
  · rfl

private theorem Near.failed_writeIndex {fs' : Fs} (h : Near Spoiled fs twin) {base n : ℕ}
    {bytes : List UInt8} (hdir : fs'.dir = (FsOp.writeIndex base bytes).applyFailed n fs.dir)
    (hn : n = 0 ∨ ∀ old, fs.dir.index base = some old → Rejected (old ++ bytes.take n)) :
    Near Spoiled fs' twin := by
  refine ⟨fun b => ?_, fun b => ?_, h.healthy⟩
  · rw [hdir, FsOp.applyFailed, FsOp.log_writeIndex, h.log_eq]
  · have hb := h.index b
    rw [hdir, FsOp.applyFailed, FsOp.index_writeIndex]
    split_ifs with heq
    · subst heq
      cases hfile : fs.dir.index b with
      | none =>
        rw [hfile] at hb
        exact hb
      | some old =>
        rw [hfile] at hb
        rcases hn with rfl | hrejected
        · simpa using hb
        · refine .inr ⟨?_, _, rfl, hrejected old hfile⟩
          rw [← Spoiled.stable.isSome hb]
          rfl
    · exact hb

/-- The entry of a record that did not make it: it is the next record's. -/
theorem LogOk.ahead (hc : config.Valid) (h : LogOk crc config (log, twin) cs act)
    (hdue : config.indexIntervalBytes ≤ log.active.bytesSinceIndex) :
    LogOk crc config ({ log with active := { log.active with
        index := ⟨log.active.index.entries ++ [(act.length, totalLen act)]⟩
        bytesSinceIndex := 0 } },
      twin.advance [.writeIndex (nextBase cs) (SparseIndex.encodeEntry (act.length, totalLen act))])
      cs act := by
  have hinterval := hc.interval_ge
  have hbehind := h.active.behind.resolve_right (Nat.not_lt.mpr hdue)
  have honly := onlyIndex_write twin (nextBase cs)
    (SparseIndex.encodeEntry (act.length, totalLen act))
  refine ⟨h.config_eq, Fs.advance_healthy _ _, h.closed.frame fun b hb => ?_, ?_, fun b => ?_⟩
  · have hlt := h.closed.tiled.lt_end hb
    exact ⟨honly.log_eq b, honly.index_eq b (by omega)⟩
  · exact ⟨h.active.base_eq, h.active.next_eq, h.active.size_eq,
      honly.log_eq (nextBase cs) ▸ h.active.log_file, index_append_file _ h.active.index_file,
      h.active.index_ok.ahead hbehind, .inr (show 0 < config.indexIntervalBytes by omega),
      h.active.numbered, h.active.size_le⟩
  · rw [honly.log_eq]
    exact h.files b

/-- What failing writes may leave: nothing of the record, and of an index entry nothing or a
file that does not load. -/
structure WritesSpared (crc : List UInt8 → UInt32) (G : FsOp → ℕ → Prop) (log : Log) (dir : Dir)
    (r : Record) : Prop where
  record : ∀ n, G (.writeLog log.active.baseOffset (r.encode crc)) n → n = 0
  entry : log.config.indexIntervalBytes ≤ log.active.bytesSinceIndex → ∀ bytes n,
    G (.writeIndex log.active.baseOffset bytes) n → n = 0 ∨
      ∀ old, dir.index log.active.baseOffset = some old → Rejected (old ++ bytes.take n)

private theorem segment_append_ends (hc : config.Valid) (hok : LogOk crc config (log, twin) cs act)
    (hnear : Near Spoiled fs twin) {r : Record} (hr : r.offset = nextBase cs + act.length)
    (h : Allowed G (appendOps crc config log.active r ++ rest) fs.faults)
    (hspared : WritesSpared crc G log fs.dir r) :
    Ends (fun written s => written = r.encodedLen ∧ s.1.baseOffset = log.active.baseOffset ∧
        Allowed G rest s.2.faults)
      (fun _ s => Holds crc config ({ log with active := s.1 }, s.2) (cs.flatten ++ act))
      ((Segment.append crc config r).run (log.active, fs)) := by
  have hbase := hok.active.base_eq
  have hbound := hok.active.size_le
  have hlen := length_le_totalLen act
  have hrel : u32 (r.offset - log.active.baseOffset) = act.length := by
    rw [hr, hbase, Nat.add_sub_cancel_left, u32_of_lt (by omega)]
  have hpos : u32 log.active.size = totalLen act := by
    rw [hok.active.size_eq, u32_of_lt (by omega)]
  -- the record's own write, in the segment and on the twin it is made for
  have hwrite : ∀ (seg : Segment) (fs' twin' : Fs),
      LogOk crc config ({ log with active := seg }, twin') cs act → Near Spoiled fs' twin' →
      Allowed G (.writeLog log.active.baseOffset (r.encode crc) :: rest) fs'.faults →
      Ends (fun _ s => s.1 = seg ∧ Allowed G rest s.2.faults)
        (fun _ s => Holds crc config ({ log with active := s.1 }, s.2) (cs.flatten ++ act))
        ((MethodM.onFs (FsM.perform (.writeLog log.active.baseOffset (r.encode crc))) :
          MethodM Segment Unit).run (seg, fs')) := by
    intro seg fs' twin' hok' hnear' hallowed
    refine (onFs_ends (perform_ends hallowed)).imp ?_ ?_
    · rintro _ s ⟨hseg, -, hrest⟩
      exact ⟨hseg, hrest⟩
    · rintro _ ⟨seg', fs''⟩ ⟨rfl, n, hn, hdir⟩
      obtain rfl := hspared.record n hn
      exact ⟨twin', ⟨cs, act, hok', rfl⟩, fun b => by rw [hdir, log_applyFailed_zero, hnear'.log_eq],
        fun b => by rw [hdir]; exact hnear'.index b, hnear'.healthy⟩
  rw [Segment.append]
  refine Ends.bind (fun a s => a = log.active ∧ s = (log.active, fs)) ⟨rfl, rfl⟩ ?_
  rintro _ _ ⟨rfl, rfl⟩
  have hcount : ∀ s : Segment × Fs, Ends
      (fun written s' => written = r.encodedLen ∧ s'.1.baseOffset = s.1.baseOffset ∧ s'.2 = s.2)
      (fun _ _ => False) ((do
        MethodM.modifySelf fun s => { s with
          size := s.size + (r.encode crc).length
          bytesSinceIndex := s.bytesSinceIndex + (r.encode crc).length
          nextOffset := s.nextOffset + 1 }
        return (r.encode crc).length : MethodM Segment ℕ).run s) :=
    fun s => ⟨Record.length_encode crc r, rfl, rfl⟩
  by_cases hdue : config.indexIntervalBytes ≤ log.active.bytesSinceIndex
  · rw [appendOps, if_pos hdue, List.append_assoc] at h
    rw [if_pos hdue]
    have hentry : Ends (fun idx fs' =>
          idx = ⟨log.active.index.entries ++ [(act.length, totalLen act)]⟩ ∧
          Near Spoiled fs' (twin.advance [.writeIndex (nextBase cs)
            (SparseIndex.encodeEntry (act.length, totalLen act))]) ∧
          Allowed G (.writeLog log.active.baseOffset (r.encode crc) :: rest) fs'.faults)
        (fun _ fs' => Near Spoiled fs' twin)
        ((log.active.index.append log.active.baseOffset (u32 (r.offset - log.active.baseOffset))
          (u32 log.active.size)).run fs) := by
      rw [SparseIndex.append]
      refine Ends.bind _ ((perform_ends h).imp_bad ?_) ?_
      · rintro _ fs' ⟨n, hn, hdir⟩
        exact hnear.failed_writeIndex hdir
          (hspared.entry (hok.config_eq.symm ▸ hdue) _ n hn)
      · rintro _ fs' ⟨hdir, hrest⟩
        rw [hrel, hpos, hbase] at hdir ⊢
        obtain ⟨hlog, hindex⟩ := Near.apply Spoiled.stable hnear.log_eq hnear.index
          (.writeIndex (nextBase cs) (SparseIndex.encodeEntry (act.length, totalLen act)))
          ⟨_, rfl⟩
        exact ⟨rfl, ⟨fun b => by rw [hdir, hlog]; rfl, fun b => by rw [hdir]; exact hindex b, rfl⟩,
          hbase ▸ hrest⟩
    have hok' := hok.ahead hc hdue
    refine Ends.bind _ ((onFs_ends hentry).imp_bad ?_) ?_
    · rintro _ ⟨seg, fs'⟩ ⟨rfl, hnear'⟩
      exact ⟨twin, ⟨cs, act, hok, rfl⟩, hnear'⟩
    · rintro _ ⟨seg, fs'⟩ ⟨rfl, rfl, hnear', hrest⟩
      obtain ⟨seg, hseg⟩ : ∃ seg : Segment, seg = { log.active with
        index := ⟨log.active.index.entries ++ [(act.length, totalLen act)]⟩
        bytesSinceIndex := 0 } := ⟨_, rfl⟩
      rw [← hseg] at hok'
      refine Ends.bind (fun _ s => s = (seg, fs')) (by rw [hseg]; rfl) ?_
      rintro _ _ rfl
      refine Ends.bind _ (hwrite _ fs' _ hok' hnear' hrest) ?_
      rintro _ ⟨_, fs''⟩ ⟨rfl, hrest'⟩
      refine (hcount _).imp ?_ (fun _ _ h => h.elim)
      rintro _ ⟨seg', fs'''⟩ ⟨rfl, hbase', rfl⟩
      exact ⟨rfl, hbase'.trans (by rw [hseg]), hrest'⟩
  · rw [appendOps, if_neg hdue, List.nil_append] at h
    rw [if_neg hdue]
    refine Ends.bind _ (hwrite log.active fs twin hok hnear h) ?_
    rintro _ ⟨seg, fs'⟩ ⟨rfl, hrest'⟩
    refine (hcount _).imp ?_ (fun _ _ h => h.elim)
    rintro _ ⟨seg, fs''⟩ ⟨rfl, hseg, rfl⟩
    exact ⟨rfl, hseg, hrest'⟩

/-- Writing a record fails without a trace when no flush of it does. -/
theorem writeRecord_ends (hc : config.Valid) (hok : LogOk crc config (log, twin) cs act)
    (hnear : Near Spoiled fs twin) {r : Record} (hr : r.offset = nextBase cs + act.length)
    {clock : Clock} (h : Allowed G (writeOps crc clock log r) fs.faults)
    (hspared : WritesSpared crc G log fs.dir r)
    (hflush : ∀ n, ¬ G (.fsyncLog log.active.baseOffset) n) :
    Ends (fun _ _ => True) (fun _ s => Holds crc config s (cs.flatten ++ act))
      ((Log.writeRecord crc clock r).run (log, fs)) := by
  obtain rfl : log.config = config := hok.config_eq
  rw [Log.writeRecord]
  refine Ends.bind (fun a s => log = a ∧ (log, fs) = s) ⟨rfl, rfl⟩ ?_
  rintro _ _ ⟨rfl, rfl⟩
  refine Ends.bind _ ((onField_ends (segment_append_ends hc hok hnear hr h hspared)).imp_bad ?_) ?_
  · rintro e ⟨log', fs'⟩ ⟨seg, rfl, hheld⟩
    exact hheld
  rintro written ⟨log', fs'⟩ ⟨seg, rfl, rfl, hbase, hrest⟩
  obtain ⟨log', hlog'⟩ : ∃ log' : Log, log' = { log with
    active := seg
    dirtyBytes := log.dirtyBytes + r.encodedLen } := ⟨_, rfl⟩
  have hdue : log'.flushDue clock =
      Log.flushDue clock { log with dirtyBytes := log.dirtyBytes + r.encodedLen } := by
    rw [hlog']
    rfl
  have hactive : log'.active.baseOffset = log.active.baseOffset := by rw [hlog', ← hbase]
  refine Ends.bind (fun _ s => s = (log', fs')) (by rw [hlog']; rfl) ?_
  rintro _ _ rfl
  refine Ends.bind (fun a s => log' = a ∧ (log', fs') = s) ⟨rfl, rfl⟩ ?_
  rintro _ _ ⟨rfl, rfl⟩
  split_ifs with hflushDue
  · rw [hdue] at hflushDue
    rw [flushOps, if_pos hflushDue, ← hactive] at hrest
    refine Ends.bind _ ((flush_ends hrest clock).imp (fun _ _ _ => trivial) ?_) fun _ _ _ => trivial
    rintro e s ⟨-, -, n, hn⟩
    exact absurd (hactive ▸ hn) (hflush n)
  · trivial

end Ends

/-- The segment that takes the record. -/
def Log.takes (log : Log) (r : Record) : ℕ :=
  if log.rollDue r.encodedLen then log.nextOffset else log.active.baseOffset

/-- The failures an append survives: before the record is in the file, with nothing of it stored,
with an index file that will be rebuilt, and not between the two files of a new segment. -/
def Spared (dir : Dir) (takes : ℕ) : FsOp → ℕ → Prop
  | .createIndex _, _ => False
  | .fsyncLog base, _ => base ≠ takes
  | .writeLog _ _, n => n = 0
  | .writeIndex base bytes, n =>
    n = 0 ∨ (dir.index base).all fun old => Rejected (old ++ bytes.take n)
  | _, _ => True

/-- The first failure that hits the append of a record is one it survives. -/
def Survives (crc : List UInt8 → UInt32) (clock : Clock) (r : Record) (log : Log) (dir : Dir)
    (faults : List (Option ℕ)) : Prop :=
  r.encodedLen ≤ log.config.maxRecordBytes →
    Allowed (Spared dir (log.takes r)) (appendPlan crc clock log r) faults

private theorem spared_writes (crc : List UInt8 → UInt32) {dir : Dir} {log : Log} (r : Record) :
    WritesSpared crc (Spared dir log.active.baseOffset) log dir r := by
  refine ⟨fun n hn => hn, fun hdue bytes n hn => hn.imp_right fun hall old hold => ?_⟩
  rw [hold] at hall
  exact of_decide_eq_true hall

/-- An append with failures it survives: it takes the record, or leaves the records as they are. -/
theorem appendRecord_ends (hc : config.Valid) {s : Log × Fs} {rs : List Record}
    (h : Holds crc config s rs) {r : Record} (hr : r.offset = rs.length)
    (hroom : rs.length < 2 ^ 64) {clock : Clock}
    (hsurvives : Survives crc clock r s.1 s.2.dir s.2.faults) :
    Ends (fun info s' => info.offset = rs.length ∧ r.encodedLen ≤ config.maxRecordBytes ∧
        Holds crc config s' (rs ++ [r]))
      (fun _ s' => Holds crc config s' rs) ((Log.appendRecord crc clock r).run s) := by
  obtain ⟨log, fs⟩ := s
  obtain ⟨twin, ⟨cs, act, hok, rfl⟩, hnear⟩ := h
  have hlen : (cs.flatten ++ act).length = nextBase cs + act.length := List.length_append
  have hr' : r.offset = nextBase cs + act.length := hr.trans hlen
  have hheld : Holds crc config (log, fs) (cs.flatten ++ act) := ⟨twin, ⟨cs, act, hok, rfl⟩, hnear⟩
  have hbad : Ends (fun _ _ => True) (fun _ s => Holds crc config s (cs.flatten ++ act))
      ((Log.appendRecord crc clock r).run (log, fs)) := by
    rw [Log.appendRecord]
    refine Ends.bind (fun a s => log = a ∧ (log, fs) = s) ⟨rfl, rfl⟩ ?_
    rintro _ _ ⟨rfl, rfl⟩
    by_cases hlarge : log.config.maxRecordBytes < r.encodedLen
    · rw [if_pos hlarge]
      exact hheld
    rw [if_neg hlarge]
    have hallowed := hsurvives (Nat.le_of_not_lt hlarge)
    by_cases hroll : log.rollDue r.encodedLen = true
    · -- the record goes into a new segment
      rw [appendPlan, if_pos hroll, Log.takes, if_pos hroll] at hallowed
      rw [if_pos hroll]
      have hsize : log.active.size = totalLen act := hok.active.size_eq
      have hne : act ≠ [] := by
        rintro rfl
        simp [Log.rollDue, hsize] at hroll
      refine Ends.bind _ ((roll_ends hok hnear hallowed (fun _ _ hG => hG) clock).and_good
        fun a s hrun => roll_follows (Near.carried Spoiled.stable) clock (log, fs) (log, twin)
          ⟨rfl, hnear⟩ a s hrun) ?_
      rintro u ⟨log', fs'⟩ ⟨⟨rfl, hrest⟩, ⟨log', twin'⟩, htwin, hsame, hnear'⟩
      dsimp only at hsame hrest hnear'
      subst hsame
      obtain ⟨log', htwin', -, hrolled⟩ := roll_spec hok hne clock
      rw [htwin] at htwin'
      cases htwin'
      have hinterval := hc.interval_ge
      have hwrites := writeRecord_ends hc hrolled hnear' (by simpa using hr') hrest
        ⟨fun n hn => hn, fun hdue => absurd hdue (Nat.not_le.mpr ?_)⟩ (fun n hn => hn rfl)
      · simpa using hwrites
      · have hconfig : (log.rolled clock).config = config := hrolled.config_eq
        rw [hconfig]
        show 0 < config.indexIntervalBytes
        omega
    · rw [appendPlan, if_neg hroll, Log.takes, if_neg hroll] at hallowed
      rw [if_neg hroll]
      exact writeRecord_ends hc hok hnear hr' hallowed (spared_writes crc r) fun n hn => hn rfl
  refine (hbad.and_good fun info s' hrun => ?_).imp (fun _ _ h => h.2) (fun _ _ h => h)
  obtain ⟨⟨log', twin'⟩, htwin, hsame, hnear'⟩ :=
    appendRecord_follows crc (Near.carried Spoiled.stable) clock r
    (log, fs) (log, twin) ⟨rfl, hnear⟩ info s' hrun
  rcases appendRecord_refines hc hok hr hroom clock with ⟨-, hfail⟩ | ⟨hfits, happends⟩
  · rw [htwin] at hfail
    cases hfail
  · obtain ⟨info', log'', ops, hok', hinfo, -, cs', act', hflat, hrep⟩ := happends
    rw [htwin] at hok'
    cases hok'
    exact ⟨hinfo.trans hr, hfits, _, ⟨cs', act', hsame ▸ hrep, hflat⟩, hnear'⟩

end Replog.Storage
