import Replog.Storage.LogOpen
import Replog.Storage.Undisturbed

/-!
# Appends, flushes and reads of an open log

Every operation keeps `LogOk`, and at every point while it runs the directory is one that
`openDir` accepts: a crash then costs at most the record being written.
-/

namespace Replog.Storage

variable {crc : List UInt8 → UInt32} {config : LogConfig}

/-- The records whose bytes lie wholly inside the first `n`. -/
def whole : ℕ → List Record → List Record
  | _, [] => []
  | n, r :: rs => if r.encodedLen ≤ n then r :: whole (n - r.encodedLen) rs else []

theorem whole_isPrefix (n : ℕ) (rs : List Record) : whole n rs <+: rs := by
  induction rs generalizing n with
  | nil => exact List.prefix_rfl
  | cons r rs ih =>
    rw [whole]
    split_ifs
    · exact List.cons_prefix_cons.mpr ⟨rfl, ih _⟩
    · exact List.nil_prefix

theorem totalLen_whole_le (n : ℕ) (rs : List Record) : totalLen (whole n rs) ≤ n := by
  induction rs generalizing n with
  | nil => simp [whole]
  | cons r rs ih =>
    rw [whole]
    split_ifs with h
    · have hrest := ih (n - r.encodedLen)
      simp only [totalLen_cons]
      omega
    · simp

theorem whole_of_totalLen_le {n : ℕ} {rs : List Record} (h : totalLen rs ≤ n) :
    whole n rs = rs := by
  induction rs generalizing n with
  | nil => rfl
  | cons r rs ih =>
    simp only [totalLen_cons] at h
    rw [whole, if_pos (by omega), ih (by omega)]

theorem Numbered.ofPrefix {n : ℕ} {rs ss : List Record} (h : Numbered config n ss)
    (hp : rs <+: ss) : Numbered config n rs := by
  obtain ⟨more, rfl⟩ := hp
  exact (numbered_append.mp h).1

/-- A prefix of a file is whole records and a torn one. -/
theorem take_encodeAll_whole (crc : List UInt8 → UInt32) (hc : config.Valid) {base : ℕ}
    {rs : List Record} (hnum : Numbered config base rs) (n : ℕ) :
    ∃ tail, (encodeAll crc rs).take n = encodeAll crc (whole n rs) ++ tail ∧
      Torn crc config tail := by
  induction rs generalizing n base with
  | nil => exact ⟨[], by simp [whole], .inl rfl⟩
  | cons r rs ih =>
    rw [whole]
    split_ifs with hfits
    · obtain ⟨tail, htake, htorn⟩ := ih hnum.2.2.2 (n - r.encodedLen)
      refine ⟨tail, ?_, htorn⟩
      rw [encodeAll_cons, List.take_append, Record.length_encode, htake,
        List.take_of_length_le (by simpa using hfits), encodeAll_cons, List.append_assoc]
    · refine ⟨(r.encode crc).take n, ?_, .inr ⟨r, hnum.encodable hc, hnum.2.2.1, n, by omega, rfl⟩⟩
      rw [encodeAll_cons, List.take_append_of_le_length (by simp; omega), encodeAll_nil,
        List.nil_append]

/-- A directory in which the newest segment holds the first `n` bytes of the encodings of
`live`, and the rolled ones hold `cs` completely. -/
structure Surviving (crc : List UInt8 → UInt32) (config : LogConfig) (cs : List (List Record))
    (live : List Record) (n : ℕ) (dir : Dir) : Prop where
  closed : Tiled (ClosedFileOk crc config dir) 0 cs
  newest : ∃ synced, dir.log (nextBase cs) = some ⟨(encodeAll crc live).take n, synced⟩
  numbered : Numbered config (nextBase cs) live
  size_le : n ≤ 2 ^ 30
  files : ∀ b, (dir.log b).isSome ↔ b ∈ basesOf 0 cs ∨ b = nextBase cs

theorem Surviving.crashDir (hc : config.Valid) {dir : Dir} {cs : List (List Record)}
    {live : List Record} {n : ℕ} (h : Surviving crc config cs live n dir) :
    ∃ tail, CrashDir crc config dir cs (whole n live) tail := by
  obtain ⟨synced, hnewest⟩ := h.newest
  obtain ⟨tail, htake, htorn⟩ := take_encodeAll_whole crc hc h.numbered n
  exact ⟨tail, h.closed, ⟨synced, htake ▸ hnewest⟩, h.numbered.ofPrefix (whole_isPrefix n live),
    (totalLen_whole_le n live).trans h.size_le, htorn, h.files⟩

/-- The newest segment's index does not matter to recovery. -/
theorem Surviving.frame {d d' : Dir} {cs : List (List Record)} {live : List Record} {n m : ℕ}
    (h : Surviving crc config cs live n d)
    (hlog : ∀ b, b ≠ nextBase cs → d'.log b = d.log b)
    (hnewest : ∃ synced, d'.log (nextBase cs) = some ⟨(encodeAll crc live).take m, synced⟩)
    (hindex : ∀ b, b ≠ nextBase cs → d'.index b = d.index b) (hm : m ≤ 2 ^ 30) :
    Surviving crc config cs live m d' := by
  have hlt := fun b (hb : b ∈ basesOf 0 cs) => h.closed.lt_end hb
  refine { h with
    closed := h.closed.imp fun b hb c hfile => ?_
    newest := hnewest
    size_le := hm
    files := fun b => ?_ }
  · have hne : b ≠ nextBase cs := by
      have hb' := hlt b hb
      omega
    exact ⟨hlog b hne ▸ hfile.log_file, hindex b hne ▸ hfile.index_file, hfile.numbered,
      hfile.size_le⟩
  · by_cases hb : b = nextBase cs
    · obtain ⟨synced, hnew⟩ := hnewest
      simp [hb, hnew]
    · rw [hlog b hb, h.files b]

/-- An open log's directory, also seen as one that records after `act` have not reached. -/
theorem LogOk.surviving {s : Log × Fs} {cs : List (List Record)} {act more : List Record}
    (h : LogOk crc config s cs act) (hmore : Numbered config (nextBase cs + act.length) more) :
    Surviving crc config cs (act ++ more) (totalLen act) s.2.dir := by
  obtain ⟨synced, hfile⟩ := h.active.log_file
  refine ⟨h.closed.tiled, ⟨synced, ?_⟩, numbered_append.mpr ⟨h.active.numbered, hmore⟩,
    h.active.size_le, h.files⟩
  rw [encodeAll_append, List.take_left' (length_encodeAll crc act), hfile]

/-- Syncing the active segment changes no bytes. -/
theorem fsync_passes {s : Log × Fs} {cs : List (List Record)} {act more : List Record}
    (h : LogOk crc config s cs act) (hmore : Numbered config (nextBase cs + act.length) more) :
    Passes (Surviving crc config cs (act ++ more) (totalLen act)) s.2
      [.fsyncLog s.1.active.baseOffset] := by
  have hstart := h.surviving hmore
  obtain ⟨synced, hfile⟩ := h.active.log_file
  refine .cons hstart (fun _ => hstart)
    (.nil (hstart.frame ?_ ⟨(encodeAll crc act).length, ?_⟩ (fun _ _ => rfl) h.active.size_le))
  · intro b hb
    simp [h.active.base_eq, hb]
  · rw [encodeAll_append, List.take_left' (length_encodeAll crc act)]
    simp [h.active.base_eq, hfile]

theorem flush_run {s : Log × Fs} (h : s.2.Healthy) (clock : Clock) :
    (Log.flush clock).run s = .ok (Log.checkedPred s.1.active.nextOffset)
      ({ s.1 with
        durableOffset := Log.checkedPred s.1.active.nextOffset
        dirtyBytes := 0
        lastFlush := clock.instantMs }, s.2.advance [.fsyncLog s.1.active.baseOffset]) := by
  have hrun : s.1.active.flush.run s.2 =
      .ok () (s.2.advance [.fsyncLog s.1.active.baseOffset]) := FsM.run_perform h _
  simp only [Log.flush, EStateM.run_bind, MethodM.run_self]
  rw [MethodM.run_onFs hrun]
  simp

/-- Flushing changes what is durable, not what the log holds. -/
theorem flush_spec {s : Log × Fs} {cs : List (List Record)} {act : List Record}
    (h : LogOk crc config s cs act) (clock : Clock) :
    ∃ log, (Log.flush clock).run s =
        .ok log.durableOffset (log, s.2.advance [.fsyncLog s.1.active.baseOffset]) ∧
      log.active = s.1.active ∧ log.closed = s.1.closed ∧
      log.durableOffset = Log.checkedPred s.1.active.nextOffset ∧
      LogOk crc config (log, s.2.advance [.fsyncLog s.1.active.baseOffset]) cs act := by
  obtain ⟨synced, hfile⟩ := h.active.log_file
  have hbase := h.active.base_eq
  refine ⟨{ s.1 with
    durableOffset := Log.checkedPred s.1.active.nextOffset
    dirtyBytes := 0
    lastFlush := clock.instantMs }, flush_run h.healthy clock, rfl, rfl, rfl, ?_⟩
  have hlt := fun b (hb : b ∈ basesOf 0 cs) => h.closed.tiled.lt_end hb
  refine ⟨h.config_eq, Fs.advance_healthy _ _, h.closed.frame fun b hb => ⟨?_, rfl⟩,
    { h.active with log_file := ⟨(encodeAll crc act).length, ?_⟩ }, fun b => ?_⟩
  · have hb' := hlt b hb
    simp [hbase, show b ≠ nextBase cs by omega]
  · simp [hbase, hfile]
  · rw [← h.files b]
    by_cases hb : b = nextBase cs
    · simp [hbase, hb, hfile]
    · simp [hbase, hb]

theorem SegsOk.snoc {dir : Dir} {b : ℕ} {segs : List Segment} {cs : List (List Record)}
    {seg : Segment} {c : List Record} (h : SegsOk crc config dir b segs cs) (hne : c ≠ [])
    (hc : SegmentOk crc config dir seg (b + nextBase cs) c) :
    SegsOk crc config dir b (segs ++ [seg]) (cs ++ [c]) := by
  induction cs generalizing b segs with
  | nil =>
    cases segs with
    | nil => exact ⟨hne, by simpa using hc, trivial⟩
    | cons => exact h.elim
  | cons d cs ih =>
    cases segs with
    | nil => exact h.elim
    | cons t segs =>
      refine ⟨h.1, h.2.1, ih h.2.2 ?_⟩
      simpa [Nat.add_assoc] using hc

private theorem LogOk.log_eq_none {s : Log × Fs} {cs : List (List Record)} {act : List Record}
    (h : LogOk crc config s cs act) {b : ℕ} (hb : nextBase cs < b) : s.2.dir.log b = none := by
  have hiff := h.files b
  rw [← Option.not_isSome_iff_eq_none, hiff]
  rintro (hmem | rfl)
  · have hlt := h.closed.tiled.lt_end hmem
    omega
  · omega

def rollOps (log : Log) : List FsOp :=
  [.fsyncLog log.active.baseOffset, .createLog log.active.nextOffset,
    .createIndex log.active.nextOffset]

/-- A roll closes the active segment and starts an empty one after it. -/
theorem roll_spec {s : Log × Fs} {cs : List (List Record)} {act : List Record}
    (h : LogOk crc config s cs act) (hne : act ≠ []) (clock : Clock) :
    ∃ log, (Log.roll clock).run s = .ok () (log, s.2.advance (rollOps s.1)) ∧
      log.durableOffset = Log.checkedPred s.1.active.nextOffset ∧
      LogOk crc config (log, s.2.advance (rollOps s.1)) (cs ++ [act]) [] := by
  obtain ⟨log, hrun, hactive, hclosed, hdurable, hok⟩ := flush_spec h clock
  have hpos := List.length_pos_of_ne_nil hne
  have hnext : log.active.nextOffset = nextBase cs + act.length := hok.active.next_eq
  have hnew := hok.log_eq_none (b := nextBase cs + act.length) (by omega)
  obtain ⟨seg, hcreate, hseg, honly⟩ := create_spec crc config hok.healthy hnew
  have hops : rollOps s.1 = [.fsyncLog s.1.active.baseOffset] ++
      [.createLog (nextBase cs + act.length), .createIndex (nextBase cs + act.length)] := by
    rw [rollOps, ← hactive, hnext]
    rfl
  rw [Fs.advance_advance, ← hops] at hcreate hseg honly
  have hbelow : ∀ t ∈ log.closed, t.baseOffset < log.active.baseOffset := by
    intro t ht
    have hmem := List.mem_map_of_mem (f := Segment.baseOffset) ht
    rw [hok.closed.bases_eq] at hmem
    have hlt := hok.closed.tiled.lt_end hmem
    rw [Nat.zero_add] at hlt
    exact hlt.trans_eq hok.active.base_eq.symm
  have hinsert := insertClosed_of_lt hbelow
  refine ⟨{ log with closed := log.closed ++ [log.active], active := seg }, ?_, hdurable,
    ⟨hok.config_eq, Fs.advance_healthy _ _, ?_, ?_, fun b => ?_⟩⟩
  · simp only [Log.roll, EStateM.run_bind, hrun, MethodM.run_self, hnext,
      MethodM.run_onFs hcreate, MethodM.run_modifySelf, hinsert]
  · refine SegsOk.snoc (hok.closed.frame fun b hb => ?_) hne ?_
    · have hlt := hok.closed.tiled.lt_end hb
      exact ⟨honly.log_eq b (by omega), honly.index_eq b (by omega)⟩
    · rw [Nat.zero_add]
      exact hok.active.frame (honly.log_eq _ (by omega)) (honly.index_eq _ (by omega))
  · simpa using hseg
  · rw [basesOf_append, List.mem_append, nextBase_append]
    by_cases hb : b = nextBase cs + act.length
    · obtain ⟨_, hfile⟩ := hseg.log_file
      rw [hb, hfile]
      simp
    · rw [honly.log_eq b hb, hok.files b]
      simp [basesOf, hb]

/-- A directory on the way to holding exactly the records `rs`. -/
def Reaches (crc : List UInt8 → UInt32) (config : LogConfig) (rs : List Record) (d : Dir) :
    Prop :=
  ∃ cs live n, cs.flatten ++ live = rs ∧ Surviving crc config cs live n d

private theorem LogOk.surviving_created {s : Log × Fs} {cs : List (List Record)} {act more : List Record}
    (h : LogOk crc config s cs act) (hne : act ≠ [])
    (hmore : Numbered config (nextBase cs + act.length) more) :
    Surviving crc config (cs ++ [act]) more 0
      ((FsOp.createLog (nextBase cs + act.length)).apply s.2.dir) := by
  have hpos := List.length_pos_of_ne_nil hne
  refine ⟨Tiled.snoc (h.closed.tiled.imp fun b hb c hc => ?_) hne ?_, ⟨0, by simp⟩,
    by simpa using hmore, Nat.zero_le _, fun b => ?_⟩
  · have hlt := h.closed.tiled.lt_end hb
    exact ⟨by simpa [show b ≠ nextBase cs + act.length by omega] using hc.log_file, hc.index_file,
      hc.numbered, hc.size_le⟩
  · rw [Nat.zero_add]
    refine SegmentOk.closedFileOk (h.active.frame ?_ rfl)
    simp [hne]
  · rw [basesOf_append, List.mem_append, nextBase_append]
    by_cases hb : b = nextBase cs + act.length
    · simp [hb]
    · simpa [hb, basesOf] using h.files b

private theorem roll_passes {s : Log × Fs} {cs : List (List Record)} {act more : List Record}
    (h : LogOk crc config s cs act) (hne : act ≠ [])
    (hmore : Numbered config (nextBase cs + act.length) more) (clock : Clock) :
    Passes (Reaches crc config (cs.flatten ++ act ++ more)) s.2 (rollOps s.1) := by
  obtain ⟨log, -, hactive, -, -, hflushed⟩ := flush_spec h clock
  obtain ⟨_, -, -, hrolled⟩ := roll_spec h hne clock
  have hnext : s.1.active.nextOffset = nextBase cs + act.length := h.active.next_eq
  have hold : ∀ d, Surviving crc config cs (act ++ more) (totalLen act) d →
      Reaches crc config (cs.flatten ++ act ++ more) d :=
    fun d hd => ⟨cs, act ++ more, _, by simp, hd⟩
  have hnew : ∀ n d, Surviving crc config (cs ++ [act]) more n d →
      Reaches crc config (cs.flatten ++ act ++ more) d :=
    fun n d hd => ⟨cs ++ [act], more, n, by simp, hd⟩
  have hstart := hold _ (hflushed.surviving hmore)
  have hcreated := hnew _ _ (hflushed.surviving_created hne hmore)
  have hend := hnew _ _ (hrolled.surviving (show Numbered config _ more by simpa using hmore))
  rw [rollOps, hnext] at hend ⊢
  refine Passes.append
    ((fsync_passes h hmore).imp hold) (.cons hstart (fun _ => hstart)
      (.cons ?_ (fun _ => ?_) (.nil ?_)))
  · exact hcreated
  · exact hcreated
  · exact hend

private theorem surviving_written {fs : Fs} {cs : List (List Record)} {act : List Record}
    {r : Record} {base : ℕ} (hbase : base = nextBase cs)
    (h : Surviving crc config cs (act ++ [r]) (totalLen act) fs.dir)
    (hsize : totalLen (act ++ [r]) ≤ 2 ^ 30) (k : ℕ) :
    Surviving crc config cs (act ++ [r]) (totalLen act + min k r.encodedLen)
      ((FsOp.writeLog base ((r.encode crc).take k)).apply fs.dir) := by
  obtain ⟨synced, hnewest⟩ := h.newest
  simp only [totalLen_append, totalLen_cons, totalLen_nil, Nat.add_zero] at hsize
  refine h.frame (fun b hb => by simp [hbase, hb]) ⟨synced, ?_⟩ (fun _ _ => rfl) (by omega)
  have hbytes : (encodeAll crc (act ++ [r])).take (totalLen act + min k r.encodedLen) =
      encodeAll crc act ++ (r.encode crc).take k := by
    rw [encodeAll_append, encodeAll_cons, encodeAll_nil, List.append_nil, ← length_encodeAll crc,
      List.take_length_add_append, ← Record.length_encode crc, ← List.take_eq_take_min]
  rw [hbytes]
  rw [encodeAll_append, List.take_left' (length_encodeAll crc act)] at hnewest
  simp [hbase, hnewest]

private theorem append_passes {fs : Fs} {seg : Segment} {cs : List (List Record)} {act : List Record}
    {r : Record} (hbase : seg.baseOffset = nextBase cs)
    (h : Surviving crc config cs (act ++ [r]) (totalLen act) fs.dir)
    (hsize : totalLen (act ++ [r]) ≤ 2 ^ 30) :
    Passes (Reaches crc config (cs.flatten ++ act ++ [r])) fs (appendOps crc config seg r) := by
  have hreach : ∀ n d, Surviving crc config cs (act ++ [r]) n d →
      Reaches crc config (cs.flatten ++ act ++ [r]) d :=
    fun n d hd => ⟨cs, act ++ [r], n, by simp, hd⟩
  have hindexed : ∀ fs : Fs, ∀ bytes, Surviving crc config cs (act ++ [r]) (totalLen act) fs.dir →
      Surviving crc config cs (act ++ [r]) (totalLen act)
        ((FsOp.writeIndex seg.baseOffset bytes).apply fs.dir) :=
    fun fs bytes hfs => hfs.frame (fun _ _ => rfl) hfs.newest
      (fun b hb => by simp [hbase, hb]) hfs.size_le
  have hwrite : ∀ fs : Fs, Surviving crc config cs (act ++ [r]) (totalLen act) fs.dir →
      Passes (Reaches crc config (cs.flatten ++ act ++ [r])) fs
        [.writeLog seg.baseOffset (r.encode crc)] := by
    intro fs hfs
    refine .cons (hreach _ _ hfs) (fun k => hreach _ _ (surviving_written hbase hfs hsize k))
      (.nil ?_)
    have hend := surviving_written hbase hfs hsize (r.encode crc).length
    rw [List.take_length] at hend
    exact hreach _ _ hend
  rw [appendOps]
  split_ifs
  · exact .append (.cons (hreach _ _ h) (fun n => hreach _ _ (hindexed fs _ h))
      (.nil (hreach _ _ (hindexed fs _ h)))) (hwrite _ (hindexed fs _ h))
  · exact hwrite fs h

/-- The outcome of an append of `r` to a log of the records `rs`: the caller gets its offset,
a crash on the way loses at most `r`, and the log then ends with `r`. -/
def Appends (crc : List UInt8 → UInt32) (config : LogConfig) (s : Log × Fs) (rs : List Record)
    (r : Record) (res : EStateM.Result Failure (Log × Fs) AppendInfo) : Prop :=
  ∃ info log ops, res = .ok info (log, s.2.advance ops) ∧ info.offset = r.offset ∧
    Passes (Reaches crc config (rs ++ [r])) s.2 ops ∧
    ∃ cs act, cs.flatten ++ act = rs ++ [r] ∧ LogOk crc config (log, s.2.advance ops) cs act

/-- A record that fits the active segment is written, whatever fails after that; what is left is the
flush, if one is due. -/
theorem written_under {s : Log × Fs} {cs : List (List Record)} {act : List Record}
    (h : LogOk crc config s cs act) {r : Record}
    (hnum : Numbered config (nextBase cs + act.length) [r])
    (hsize : totalLen (act ++ [r]) ≤ 2 ^ 30) (clock : Clock) :
    ∃ log, log.durableOffset = s.1.durableOffset ∧
      log.dirtyBytes = s.1.dirtyBytes + r.encodedLen ∧ log.lastFlush = s.1.lastFlush ∧
      LogOk crc config (log, s.2.advance (appendOps crc config s.1.active r)) cs (act ++ [r]) ∧
      ∀ faults, hit (appendOps crc config s.1.active r) faults = none →
        (Log.writeRecord crc clock r).run (s.1, s.2.under faults) =
          (do
            if (← MethodM.self).flushDue clock then
              let _ ← Log.flush clock
            return { offset := r.offset, durableOffset := (← MethodM.self).durableOffset } :
              LogM AppendInfo).run (log, (s.2.advance (appendOps crc config s.1.active r)).under
                (faults.drop (appendOps crc config s.1.active r).length)) := by
  obtain ⟨seg, hrun, hseg, honly⟩ := append_spec h.healthy h.active hnum hsize
  refine ⟨{ s.1 with active := seg, dirtyBytes := s.1.dirtyBytes + r.encodedLen }, rfl, rfl, rfl,
    ⟨h.config_eq, Fs.advance_healthy _ _, h.closed.frame fun b hb => ?_, hseg, fun b => ?_⟩,
    fun faults hclear => ?_⟩
  · have hlt := h.closed.tiled.lt_end hb
    exact ⟨honly.log_eq b (by omega), honly.index_eq b (by omega)⟩
  · by_cases hb : b = nextBase cs
    · obtain ⟨_, hfile⟩ := hseg.log_file
      rw [hb, hfile]
      simp
    · rw [honly.log_eq b hb, h.files b]
  · obtain ⟨ops, hops, hsame⟩ :=
      segment_append_undisturbed crc config r (s.1.active, s.2) h.healthy _ _ hrun
    obtain rfl := Fs.advance_inj hops
    have hfield : (MethodM.onField Log.active (fun seg log => { log with active := seg })
        (Segment.append crc s.1.config r)).run (s.1, s.2.under faults) = .ok r.encodedLen
          ({ s.1 with active := seg }, (s.2.advance (appendOps crc config s.1.active r)).under
            (faults.drop (appendOps crc config s.1.active r).length)) :=
      MethodM.run_onField (by rw [h.config_eq]; exact hsame faults hclear)
    simp only [Log.writeRecord, EStateM.run_bind, MethodM.run_self, hfield,
      MethodM.run_modifySelf]

/-- A record that fits the active segment is written; what is left is the flush, if one is due. -/
theorem written_spec {s : Log × Fs} {cs : List (List Record)} {act : List Record}
    (h : LogOk crc config s cs act) {r : Record}
    (hnum : Numbered config (nextBase cs + act.length) [r])
    (hsize : totalLen (act ++ [r]) ≤ 2 ^ 30) (clock : Clock) :
    ∃ log, log.durableOffset = s.1.durableOffset ∧
      log.dirtyBytes = s.1.dirtyBytes + r.encodedLen ∧ log.lastFlush = s.1.lastFlush ∧
      LogOk crc config (log, s.2.advance (appendOps crc config s.1.active r)) cs (act ++ [r]) ∧
      (Log.writeRecord crc clock r).run s =
        (do
          if (← MethodM.self).flushDue clock then
            let _ ← Log.flush clock
          return { offset := r.offset, durableOffset := (← MethodM.self).durableOffset } :
            LogM AppendInfo).run (log, s.2.advance (appendOps crc config s.1.active r)) := by
  obtain ⟨log, hdurable, hdirty, hlast, hok, hrun⟩ := written_under h hnum hsize clock
  have hrun := hrun [] (hit_healthy _)
  rw [h.healthy.under_nil, List.drop_nil, (Fs.advance_healthy _ _).under_nil] at hrun
  exact ⟨log, hdurable, hdirty, hlast, hok, hrun⟩

/-- Writing a record that fits the active segment adds it to that segment. -/
theorem writeRecord_within {s : Log × Fs} {cs : List (List Record)} {act : List Record}
    (h : LogOk crc config s cs act) {r : Record}
    (hnum : Numbered config (nextBase cs + act.length) [r])
    (hsize : totalLen (act ++ [r]) ≤ 2 ^ 30) (clock : Clock) :
    ∃ info log ops, (Log.writeRecord crc clock r).run s = .ok info (log, s.2.advance ops) ∧
      info.offset = r.offset ∧
      Passes (Reaches crc config (cs.flatten ++ act ++ [r])) s.2 ops ∧
      LogOk crc config (log, s.2.advance ops) cs (act ++ [r]) := by
  obtain ⟨log, -, -, -, hok, hrun⟩ := written_spec h hnum hsize clock
  have hpasses := append_passes h.active.base_eq (h.surviving hnum) hsize
  rw [hrun]
  simp only [EStateM.run_bind, MethodM.run_self]
  split_ifs
  · obtain ⟨log', hflush, -, -, -, hflushed⟩ := flush_spec hok clock
    have hflushPasses := fsync_passes hok (numbered_nil _)
    rw [Fs.advance_advance] at hflush hflushed
    refine ⟨⟨r.offset, log'.durableOffset⟩, log', _, ?_, rfl, hpasses.append (hflushPasses.imp ?_),
      hflushed⟩
    · simp only [EStateM.run_bind, hflush, MethodM.run_self, EStateM.run_pure]
    · intro d hd
      exact ⟨cs, act ++ [r] ++ [], _, by simp, hd⟩
  · exact ⟨_, _, _, rfl, rfl, hpasses, hok⟩

theorem writeRecord_spec {s : Log × Fs} {cs : List (List Record)} {act : List Record}
    (h : LogOk crc config s cs act) {r : Record}
    (hnum : Numbered config (nextBase cs + act.length) [r])
    (hsize : totalLen (act ++ [r]) ≤ 2 ^ 30) (clock : Clock) :
    Appends crc config s (cs.flatten ++ act) r ((Log.writeRecord crc clock r).run s) := by
  obtain ⟨info, log, ops, hrun, hinfo, hpasses, hok⟩ := writeRecord_within h hnum hsize clock
  exact ⟨info, log, ops, hrun, hinfo, hpasses, cs, act ++ [r], by simp, hok⟩

theorem LogOk.ne_nil_of_rollDue {s : Log × Fs} {cs : List (List Record)} {act : List Record}
    (h : LogOk crc config s cs act) {n : ℕ} (hroll : s.1.rollDue n = true) : act ≠ [] := by
  rintro rfl
  simp [Log.rollDue, h.active.size_eq] at hroll

/-- Where no roll is due the record fits the segment. -/
theorem LogOk.fits_of_not_rollDue (hc : config.Valid) {s : Log × Fs} {cs : List (List Record)}
    {act : List Record} (h : LogOk crc config s cs act) {r : Record}
    (hmax : r.encodedLen ≤ config.maxRecordBytes) (hroll : ¬ s.1.rollDue r.encodedLen = true) :
    totalLen (act ++ [r]) ≤ 2 ^ 30 := by
  have hsegment := hc.segment_le
  have hrecord := hc.record_le
  simp only [Log.rollDue, h.active.size_eq, h.config_eq, Bool.and_eq_true, decide_eq_true_eq,
    not_and, not_lt] at hroll
  simp only [totalLen_append, totalLen_cons, totalLen_nil]
  rcases Nat.eq_zero_or_pos (totalLen act) with hzero | hpos
  · omega
  · have hfits := hroll hpos
    omega

/-- An append first rolls where the record does not fit the segment, and then writes it. -/
theorem appendRecord_cases (hc : config.Valid) {s : Log × Fs} {cs : List (List Record)}
    {act : List Record} (h : LogOk crc config s cs act) {r : Record}
    (hnum : Numbered config (nextBase cs + act.length) [r]) (clock : Clock) :
    (act ≠ [] ∧ ∃ log, (Log.roll clock).run s = .ok () (log, s.2.advance (rollOps s.1)) ∧
      (Log.appendRecord crc clock r).run s =
        (Log.writeRecord crc clock r).run (log, s.2.advance (rollOps s.1))) ∨
    (totalLen (act ++ [r]) ≤ 2 ^ 30 ∧
      (Log.appendRecord crc clock r).run s = (Log.writeRecord crc clock r).run s) := by
  have hmax := hnum.2.2.1
  simp only [Log.appendRecord, EStateM.run_bind, MethodM.run_self, h.config_eq]
  rw [if_neg (by omega)]
  by_cases hroll : s.1.rollDue r.encodedLen = true
  · have hne := h.ne_nil_of_rollDue hroll
    obtain ⟨log, hrun, -⟩ := roll_spec h hne clock
    refine .inl ⟨hne, log, hrun, ?_⟩
    simp only [hroll, if_true, EStateM.run_bind, hrun]
  · exact .inr ⟨h.fits_of_not_rollDue hc hmax hroll, by rw [if_neg hroll]⟩

/-- An append rolls first where the record does not fit the segment. -/
theorem appendRecord_spec (hc : config.Valid) {s : Log × Fs} {cs : List (List Record)}
    {act : List Record} (h : LogOk crc config s cs act) {r : Record}
    (hnum : Numbered config (nextBase cs + act.length) [r]) (clock : Clock) :
    Appends crc config s (cs.flatten ++ act) r ((Log.appendRecord crc clock r).run s) := by
  rcases appendRecord_cases hc h hnum clock with ⟨hne, log, hroll, hrun⟩ | ⟨hsize, hrun⟩
  · obtain ⟨log', hroll', -, hok⟩ := roll_spec h hne clock
    rw [hroll] at hroll'
    cases hroll'
    have hmax := hnum.2.2.1
    have hrecord := hc.record_le
    have hpasses := roll_passes h hne hnum clock
    have hnum' : Numbered config (nextBase (cs ++ [act]) + ([] : List Record).length) [r] := by
      simpa using hnum
    obtain ⟨info, log', ops, hwrite, hinfo, hwritePasses, cs', act', hcs, hok'⟩ :=
      writeRecord_spec hok hnum' (by simp; omega) clock
    rw [Fs.advance_advance] at hwrite hok'
    have hflat : (cs ++ [act]).flatten ++ [] ++ [r] = cs.flatten ++ act ++ [r] := by simp
    rw [hflat] at hwritePasses hcs
    exact ⟨info, log', _, hrun.trans hwrite, hinfo, hpasses.append hwritePasses, cs', act', hcs,
      hok'⟩
  · rw [hrun]
    exact writeRecord_spec h hnum hsize clock

end Replog.Storage
