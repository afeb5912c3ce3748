import Replog.Library.Fallible
import Replog.Storage.LogOpen

/-!
# Runs on twin directories

An open log never looks into an index file, and opening a directory rebuilds a file that does
not load. So two directories that differ in index files alone take every operation the same
way: one of them may have had failing index writes, the other is the one a proof knows about.
-/

namespace Replog.Storage
open Replog.Library

/-- What loading makes of a stored index file. -/
def SparseIndex.loaded : Option (List UInt8) → Option SparseIndex
  | none => none
  | some bytes =>
    if bytes.length % ENTRY_BYTES ≠ 0 then none
    else (parse (bytes.length / ENTRY_BYTES) bytes []).map SparseIndex.mk

theorem SparseIndex.run_load (base : ℕ) (fs : Fs) :
    (load base).run fs = .ok (loaded (fs.dir.index base)) fs := by
  cases hfile : fs.dir.index base with
  | none => simp [load, EStateM.run, hfile, loaded]
  | some bytes =>
    simp only [load, EStateM.run, hfile, loaded]
    split_ifs <;> rfl

/-- An index file that is rebuilt when the directory is opened. -/
def Rejected (bytes : List UInt8) : Prop := SparseIndex.loaded (some bytes) = none

instance (bytes : List UInt8) : Decidable (Rejected bytes) :=
  inferInstanceAs (Decidable (_ = _))

private theorem SparseIndex.parse_append {n : ℕ} {bytes : List UInt8} {entries : List (ℕ × ℕ)}
    (hlen : ENTRY_BYTES * n ≤ bytes.length) (h : parse n bytes entries = none) (m : ℕ)
    (more : List UInt8) : parse (n + m) (bytes ++ more) entries = none := by
  induction n generalizing bytes entries with
  | zero => cases h
  | succ n ih =>
    rw [ENTRY_BYTES] at hlen
    have htake : (bytes ++ more).take 4 = bytes.take 4 :=
      List.take_append_of_le_length (by omega)
    have hdrop : (bytes ++ more).drop 4 = bytes.drop 4 ++ more :=
      List.drop_append_of_le_length (by omega)
    have hpos : (bytes.drop 4 ++ more).take 4 = (bytes.drop 4).take 4 :=
      List.take_append_of_le_length (by rw [List.length_drop]; omega)
    have hrest : (bytes ++ more).drop ENTRY_BYTES = bytes.drop ENTRY_BYTES ++ more :=
      List.drop_append_of_le_length (by rw [ENTRY_BYTES]; omega)
    rw [Nat.succ_add, parse, htake, hdrop, hpos, hrest]
    rw [parse] at h
    split_ifs at h ⊢ with hfollows
    · exact ih (by rw [List.length_drop, ENTRY_BYTES]; omega) h
    · rfl

theorem Rejected.append_entry {bytes : List UInt8} (h : Rejected bytes) (e : ℕ × ℕ) :
    Rejected (bytes ++ SparseIndex.encodeEntry e) := by
  have hentry : (SparseIndex.encodeEntry e).length = ENTRY_BYTES := by
    simp [SparseIndex.encodeEntry, ENTRY_BYTES]
  have hmod : (bytes.length + ENTRY_BYTES) % ENTRY_BYTES = bytes.length % ENTRY_BYTES :=
    Nat.add_mod_right _ _
  have hdiv : (bytes.length + ENTRY_BYTES) / ENTRY_BYTES = bytes.length / ENTRY_BYTES + 1 :=
    Nat.add_div_right _ (by decide)
  simp only [Rejected, SparseIndex.loaded, List.length_append, hentry, hmod, hdiv] at h ⊢
  split_ifs at h ⊢ with hcut
  · rfl
  · rw [Option.map_eq_none_iff] at h ⊢
    exact SparseIndex.parse_append (Nat.mul_div_le _ _) h 1 _

/-- A relation of index files that the operations of a log keep. -/
structure Stable (Q : Option (List UInt8) → Option (List UInt8) → Prop) : Prop where
  refl : ∀ a, Q a a
  isSome : ∀ {a b}, Q a b → a.isSome = b.isSome
  entry : ∀ {a b}, Q a b → ∀ e, Q (a.map (· ++ SparseIndex.encodeEntry e))
    (b.map (· ++ SparseIndex.encodeEntry e))

/-- The second directory has the same segments, index files related by `Q`, and no failure
to come. -/
structure Near (Q : Option (List UInt8) → Option (List UInt8) → Prop) (fs fs' : Fs) : Prop where
  log_eq : ∀ b, fs.dir.log b = fs'.dir.log b
  index : ∀ b, Q (fs.dir.index b) (fs'.dir.index b)
  healthy : fs'.Healthy

/-- The same object over two related directories. -/
def Beside {α : Type} (R : Fs → Fs → Prop) (s t : α × Fs) : Prop := s.1 = t.1 ∧ R s.2 t.2

/-- Related directories have the same segment files. -/
def SameLogs (R : Fs → Fs → Prop) : Prop := ∀ fs fs', R fs fs' → ∀ b, fs.dir.log b = fs'.dir.log b

theorem Near.sameLogs (Q : Option (List UInt8) → Option (List UInt8) → Prop) :
    SameLogs (Near Q) := fun _ _ h => h.log_eq

section Follows

variable {Q : Option (List UInt8) → Option (List UInt8) → Prop} {R : Fs → Fs → Prop} {α β γ : Type}

/-- The operations a log performs: what it writes to an index file is an entry. -/
def FsOp.Regular : FsOp → Prop
  | .writeIndex _ bytes => ∃ e, bytes = SparseIndex.encodeEntry e
  | _ => True

theorem Near.apply (hQ : Stable Q) {d d' : Dir} (hlog : ∀ b, d.log b = d'.log b)
    (hindex : ∀ b, Q (d.index b) (d'.index b)) (op : FsOp) (hop : op.Regular) :
    (∀ b, (op.apply d).log b = (op.apply d').log b) ∧
      ∀ b, Q ((op.apply d).index b) ((op.apply d').index b) := by
  cases op with
  | createIndex base =>
    refine ⟨by simpa using hlog, fun b => ?_⟩
    rw [FsOp.index_createIndex, FsOp.index_createIndex]
    split_ifs
    · exact hQ.refl _
    · exact hindex b
  | writeIndex base bytes =>
    obtain ⟨e, rfl⟩ := hop
    refine ⟨by simpa using hlog, fun b => ?_⟩
    rw [FsOp.index_writeIndex, FsOp.index_writeIndex]
    split_ifs
    · exact hQ.entry (hindex base) e
    · exact hindex b
  | removeIndex base =>
    refine ⟨by simpa using hlog, fun b => ?_⟩
    rw [FsOp.index_removeIndex, FsOp.index_removeIndex]
    split_ifs
    · exact hQ.refl _
    · exact hindex b
  | _ => exact ⟨fun b => by simp [hlog], by simpa using hindex⟩

theorem perform_follows (hQ : Stable Q) (op : FsOp) (hop : op.Regular) :
    Follows (Near Q) (FsM.perform op) (FsM.perform op) := by
  intro fs fs' hnear u fs₁ hrun
  obtain ⟨hlog, hindex⟩ := Near.apply hQ hnear.log_eq hnear.index op hop
  refine ⟨fs'.advance [op], FsM.run_perform hnear.healthy op, ?_⟩
  simp only [FsM.perform, EStateM.run] at hrun
  split at hrun
  · cases hrun
  · cases hrun
    exact ⟨hlog, hindex, Fs.advance_healthy _ _⟩

/-- A relation that the operations of a log keep. -/
structure Carried (R : Fs → Fs → Prop) : Prop where
  sameLogs : SameLogs R
  perform : ∀ op : FsOp, op.Regular → Follows R (FsM.perform op) (FsM.perform op)
  removeIndex : ∀ base, Follows R (FsM.removeIndex base) (FsM.removeIndex base)

theorem readLog_follows (hR : SameLogs R) (base : ℕ) :
    Follows R (FsM.readLog base) (FsM.readLog base) := by
  intro fs fs' hnear file fs₁ hrun
  have hlog := hR fs fs' hnear base
  simp only [FsM.readLog, EStateM.run] at hrun ⊢
  rw [← hlog]
  cases hfile : fs.dir.log base with
  | none =>
    rw [hfile] at hrun
    cases hrun
  | some file' =>
    rw [hfile] at hrun
    cases hrun
    exact ⟨fs', rfl, hnear⟩

theorem fail_follows (e : StorageError) (y : FsM α) : Follows R (FsM.fail e) y :=
  .throw _ y

theorem checkedSub_follows (a b : ℕ) :
    Follows R (FsM.checkedSub a b) (FsM.checkedSub a b) :=
  .ite (.pure _) (.throw _ _)

private theorem createNewLog_follows (hR : Carried R) (base : ℕ) :
    Follows R (FsM.createNewLog base) (FsM.createNewLog base) := by
  intro fs fs' hnear u fs₁ hrun
  have hlog := hR.sameLogs fs fs' hnear base
  simp only [FsM.createNewLog, EStateM.run] at hrun ⊢
  rw [← hlog]
  split_ifs at hrun ⊢
  exact hR.perform (.createLog base) trivial fs fs' hnear u fs₁ hrun

theorem removeLog_follows (hR : Carried R) (base : ℕ) :
    Follows R (FsM.removeLog base) (FsM.removeLog base) := by
  intro fs fs' hnear u fs₁ hrun
  have hlog := hR.sameLogs fs fs' hnear base
  simp only [FsM.removeLog, EStateM.run] at hrun ⊢
  rw [← hlog]
  split_ifs at hrun ⊢
  exact hR.perform (.removeLog base) trivial fs fs' hnear u fs₁ hrun

theorem Near.carried (hQ : Stable Q) : Carried (Near Q) := by
  refine ⟨Near.sameLogs Q, perform_follows hQ, fun base fs fs' hnear u fs₁ hrun => ?_⟩
  have hsome := hQ.isSome (hnear.index base)
  simp only [FsM.removeIndex, EStateM.run] at hrun ⊢
  rw [← hsome]
  split_ifs at hrun ⊢
  exact perform_follows hQ (.removeIndex base) trivial fs fs' hnear u fs₁ hrun

theorem onFs_follows {x : FsM β} (hx : Follows R x x) :
    Follows (Beside R) (MethodM.onFs x : MethodM α β) (MethodM.onFs x) := by
  rintro ⟨a, fs⟩ ⟨a', fs'⟩ ⟨rfl, hnear⟩ b s' hrun
  simp only [MethodM.onFs, EStateM.run] at hrun ⊢
  cases hfirst : x fs with
  | error e fs₁ =>
    rw [hfirst] at hrun
    cases hrun
  | ok b' fs₁ =>
    rw [hfirst] at hrun
    cases hrun
    obtain ⟨fs₁', hrun', hnear'⟩ := hx fs fs' hnear b fs₁ hfirst
    have hrun'' : x fs' = .ok b fs₁' := hrun'
    exact ⟨(a, fs₁'), by rw [hrun''], rfl, hnear'⟩

theorem self_follows : Follows (Beside R) (MethodM.self : MethodM α α) MethodM.self := by
  rintro ⟨a, fs⟩ ⟨a', fs'⟩ ⟨rfl, hnear⟩ b s' hrun
  cases hrun
  exact ⟨(a, fs'), rfl, rfl, hnear⟩

theorem modifySelf_follows (f : α → α) :
    Follows (Beside R) (MethodM.modifySelf f) (MethodM.modifySelf f) := by
  rintro ⟨a, fs⟩ ⟨a', fs'⟩ ⟨rfl, hnear⟩ b s' hrun
  cases hrun
  exact ⟨(f a, fs'), rfl, rfl, hnear⟩

private theorem onField_follows {x : MethodM γ β} (get : α → γ) (put : γ → α → α)
    (hx : Follows (Beside R) x x) :
    Follows (Beside R) (MethodM.onField get put x) (MethodM.onField get put x) := by
  rintro ⟨a, fs⟩ ⟨a', fs'⟩ ⟨rfl, hnear⟩ b s' hrun
  simp only [MethodM.onField, EStateM.run] at hrun ⊢
  cases hfirst : x (get a, fs) with
  | error e s₁ =>
    rw [hfirst] at hrun
    cases hrun
  | ok b' s₁ =>
    rw [hfirst] at hrun
    cases hrun
    obtain ⟨⟨c, fs₁'⟩, hrun', hsame, hnear'⟩ := hx (get a, fs) (get a, fs') ⟨rfl, hnear⟩ b s₁ hfirst
    have hrun'' : x (get a, fs') = .ok b (c, fs₁') := hrun'
    exact ⟨(put c a, fs₁'), by rw [hrun''], by rw [hsame], hnear'⟩

theorem index_create_follows (hR : Carried R) (base : ℕ) :
    Follows R (SparseIndex.create base) (SparseIndex.create base) :=
  .bind (hR.perform (.createIndex base) trivial) fun _ => .pure _

theorem index_append_follows (hR : Carried R) (idx : SparseIndex) (base rel pos : ℕ) :
    Follows R (idx.append base rel pos) (idx.append base rel pos) :=
  .bind (hR.perform (.writeIndex base _) ⟨_, rfl⟩) fun _ => .pure _

/-! ## Segments -/

variable (crc : List UInt8 → UInt32) (config : LogConfig)

theorem create_follows (hR : Carried R) (base : ℕ) :
    Follows R (Segment.create base) (Segment.create base) :=
  .bind (createNewLog_follows hR base) fun _ =>
    .bind (index_create_follows hR base) fun _ => .pure _

private theorem scan_follows (hR : Carried R) (base : ℕ) (truncate rebuild : Bool) (fuel : ℕ)
    (buf : List UInt8) (st : Segment.Scan) :
    Follows R (Segment.scan crc config base truncate rebuild fuel buf st)
      (Segment.scan crc config base truncate rebuild fuel buf st) := by
  induction fuel generalizing buf st with
  | zero => exact .pure st
  | succ fuel ih =>
    rw [Segment.scan]
    split
    · exact .ite (fail_follows _ _) (.ite
        (.bind (index_append_follows hR _ _ _ _) fun _ => .bind (.pure _) fun _ => ih _ _)
        (.bind (.pure _) fun _ => ih _ _))
    · exact .ite (.pure _) (fail_follows _ _)
    · exact .ite (.pure _) (fail_follows _ _)

private theorem cutTail_follows (hR : Carried R) (base validEnd fileLen : ℕ) :
    Follows R (Segment.cutTail base validEnd fileLen)
      (Segment.cutTail base validEnd fileLen) :=
  .ite (.bind (hR.perform (.setLen base validEnd) trivial) fun _ =>
    hR.perform (.fsyncLog base) trivial) (.pure _)

theorem recover_started_follows (hR : Carried R) {base : ℕ} {truncate : Bool} {fs fs₁ fs' fs₁' : Fs}
    {start : SparseIndex × ℕ × ℕ × Bool}
    (hstart : (Segment.recoverStart base truncate).run fs = .ok start fs₁)
    (hstart' : (Segment.recoverStart base truncate).run fs' = .ok start fs₁') (h : R fs₁ fs₁')
    {seg : Segment} {fs₂ : Fs} (hrun : (Segment.recover crc config base truncate).run fs =
      .ok seg fs₂) :
    ∃ fs₂', (Segment.recover crc config base truncate).run fs' = .ok seg fs₂' ∧ R fs₂ fs₂' := by
  rw [Segment.recover, EStateM.run_bind, hstart] at hrun
  rw [Segment.recover, EStateM.run_bind, hstart']
  have hrest : ∀ idx : SparseIndex, ∀ scanPos scanOffset : ℕ, ∀ rebuild : Bool,
      Follows R (do
        let file ← FsM.readLog base
        let capacity ← FsM.checkedSub file.bytes.length scanPos
        let st ← Segment.scan crc config base truncate rebuild (capacity + 1)
          (file.bytes.drop scanPos)
          { index := idx, nextOffset := scanOffset, bytesSinceIndex := 0, validEnd := scanPos }
        Segment.cutTail base st.validEnd file.bytes.length
        return ({
          baseOffset := base
          index := st.index
          nextOffset := st.nextOffset
          size := st.validEnd
          bytesSinceIndex := st.bytesSinceIndex } : Segment)) _ := fun _ _ _ _ =>
    .bind (readLog_follows hR.sameLogs base) fun _ => .bind (checkedSub_follows _ _) fun _ =>
      .bind (scan_follows crc config hR _ _ _ _ _ _) fun _ =>
        .bind (cutTail_follows hR _ _ _) fun _ => .pure _
  exact hrest start.1 start.2.1 start.2.2.1 start.2.2.2 fs₁ fs₁' h seg fs₂ hrun

theorem recover_start_follows (hR : Carried R) (base : ℕ) {truncate : Bool}
    (hstart : Follows R (Segment.recoverStart base truncate) (Segment.recoverStart base truncate)) :
    Follows R (Segment.recover crc config base truncate)
      (Segment.recover crc config base truncate) := by
  intro fs fs' hnear seg fs₂ hrun
  cases hfirst : (Segment.recoverStart base truncate).run fs with
  | ok start fs₁ =>
    obtain ⟨fs₁', hfirst', hnear'⟩ := hstart fs fs' hnear start fs₁ hfirst
    exact recover_started_follows crc config hR hfirst hfirst' hnear' hrun
  | error e fs₁ =>
    rw [Segment.recover, EStateM.run_bind, hfirst] at hrun
    cases hrun

/-- The index of the newest segment is not looked at. -/
theorem recover_newest_follows (hR : Carried R) (base : ℕ) :
    Follows R (Segment.recover crc config base true) (Segment.recover crc config base true) := by
  refine recover_start_follows crc config hR base ?_
  rw [Segment.recoverStart, if_pos rfl]
  exact .bind (index_create_follows hR base) fun _ => .pure _

private theorem recover_follows (hQ : Stable Q)
    (hload : ∀ a b, Q a b → SparseIndex.loaded a = SparseIndex.loaded b) (base : ℕ)
    (truncate : Bool) :
    Follows (Near Q) (Segment.recover crc config base truncate)
      (Segment.recover crc config base truncate) := by
  have hR := Near.carried hQ
  cases truncate with
  | true => exact recover_newest_follows crc config hR base
  | false =>
    refine recover_start_follows crc config hR base ?_
    rw [Segment.recoverStart, if_neg (by decide)]
    refine .bind ?_ fun idx => ?_
    · intro fs fs' hnear idx fs₁ hrun
      rw [SparseIndex.run_load] at hrun ⊢
      cases hrun
      rw [hload _ _ (hnear.index base)]
      exact ⟨fs', rfl, hnear⟩
    · cases idx with
      | none => exact .bind (index_create_follows hR base) fun _ => .pure _
      | some idx =>
        dsimp only
        cases idx.last <;> exact .pure _

theorem segment_append_follows (hR : Carried R) (r : Record) :
    Follows (Beside R) (Segment.append crc config r) (Segment.append crc config r) := by
  refine .bind self_follows fun seg => ?_
  have hwrite : Follows (Beside R)
      (MethodM.onFs (FsM.perform (.writeLog seg.baseOffset (r.encode crc))) : MethodM Segment Unit)
      (MethodM.onFs (FsM.perform (.writeLog seg.baseOffset (r.encode crc)))) :=
    onFs_follows (hR.perform (.writeLog _ _) trivial)
  exact .ite (.bind (onFs_follows (index_append_follows hR _ _ _ _)) fun _ =>
      .bind (modifySelf_follows _) fun _ => .bind hwrite fun _ => .bind (modifySelf_follows _)
        fun _ => .pure _)
    (.bind hwrite fun _ => .bind (modifySelf_follows _) fun _ => .pure _)

theorem committedFrom_follows (hR : SameLogs R) (seg : Segment) (start : ℕ) :
    Follows R (seg.committedFrom start) (seg.committedFrom start) :=
  .bind (readLog_follows hR _) fun _ => .bind (checkedSub_follows _ _) fun _ => .pure _

private theorem readLoop_follows (seg : Segment) (offset maxBytes start fuel : ℕ) (buf : List UInt8)
    (pos : ℕ) (out : List Record) (used : ℕ) :
    Follows R (seg.readLoop crc config offset maxBytes start fuel buf pos out used)
      (seg.readLoop crc config offset maxBytes start fuel buf pos out used) := by
  induction fuel generalizing buf pos out used with
  | zero => exact .pure _
  | succ fuel ih =>
    rw [Segment.readLoop]
    split
    · exact .ite (ih _ _ _ _) (.ite (.pure _) (.ite (.pure _) (ih _ _ _ _)))
    · exact .pure _
    · exact fail_follows _ _

theorem readFrom_follows (hR : SameLogs R) (seg : Segment) (offset maxBytes : ℕ) :
    Follows R (seg.readFrom crc config offset maxBytes)
      (seg.readFrom crc config offset maxBytes) :=
  .ite (.pure _) (.bind (committedFrom_follows hR seg _) fun _ =>
    readLoop_follows crc config seg _ _ _ _ _ _ _ _)

private theorem positionLoop_follows (offset start fuel : ℕ) (buf : List UInt8) (pos : ℕ) :
    Follows R (Segment.positionLoop crc config offset start fuel buf pos)
      (Segment.positionLoop crc config offset start fuel buf pos) := by
  induction fuel generalizing buf pos with
  | zero => exact fail_follows _ _
  | succ fuel ih =>
    rw [Segment.positionLoop]
    split
    · exact .ite (.pure _) (ih _ _)
    · exact fail_follows _ _

theorem positionOf_follows (hR : SameLogs R) (seg : Segment) (offset : ℕ) :
    Follows R (seg.positionOf crc config offset) (seg.positionOf crc config offset) :=
  .ite (fail_follows _ _) (.ite (.pure _) (.bind (committedFrom_follows hR seg _) fun _ =>
    positionLoop_follows crc config _ _ _ _ _))

/-! ## Logs -/

private theorem sorted_keys_congr {d d' : Dir} (h : ∀ b, d.log b = d'.log b) :
    d.logs.keys.insertionSort (· ≤ ·) = d'.logs.keys.insertionSort (· ≤ ·) := by
  have hperm : d.logs.keys.Perm d'.logs.keys := by
    refine (List.perm_ext_iff_of_nodup d.logs.keys_nodup d'.logs.keys_nodup).mpr fun b => ?_
    rw [Dir.mem_keys_logs, Dir.mem_keys_logs, h b]
  exact List.Perm.eq_of_pairwise' (r := (· ≤ ·)) (List.pairwise_insertionSort _ _)
    (List.pairwise_insertionSort _ _)
    (((List.perm_insertionSort _ _).trans hperm).trans (List.perm_insertionSort _ _).symm)

private theorem recoverAll_follows (hQ : Stable Q)
    (hload : ∀ a b, Q a b → SparseIndex.loaded a = SparseIndex.loaded b) (bases : List ℕ)
    (expected : Option ℕ) (closed : List Segment) :
    Follows (Near Q) (Log.recoverAll crc config bases expected closed)
      (Log.recoverAll crc config bases expected closed) := by
  induction bases generalizing expected closed with
  | nil => exact .pure _
  | cons base rest ih =>
    rw [Log.recoverAll]
    refine .bind (recover_follows crc config hQ hload base _) fun seg => .bind ?_ fun _ =>
      .ite (.pure _) (ih _ _)
    cases expected with
    | none => exact .pure _
    | some expected => exact .ite (fail_follows _ _) (.pure _)

theorem openDir_follows (hQ : Stable Q)
    (hload : ∀ a b, Q a b → SparseIndex.loaded a = SparseIndex.loaded b) (clock : Clock) :
    Follows (Near Q) (Log.openDir crc config clock) (Log.openDir crc config clock) := by
  unfold Log.openDir
  cases config.validate with
  | error e =>
    intro fs fs' hnear log fs₁ hrun
    cases hrun
  | ok u =>
    refine .get_bind fun fs fs' hnear => ?_
    rw [sorted_keys_congr hnear.log_eq]
    refine .ite (.bind (create_follows (Near.carried hQ) 0) fun _ => .pure _)
      (.bind (recoverAll_follows crc config hQ hload _ _ _) fun found => ?_)
    obtain ⟨closed, active⟩ := found
    cases active with
    | none => exact .throw _ _
    | some active => exact .pure _

theorem flush_follows (hR : Carried R) (clock : Clock) :
    Follows (Beside R) (Log.flush clock) (Log.flush clock) :=
  .bind self_follows fun _ =>
    .bind (onFs_follows (hR.perform (.fsyncLog _) trivial)) fun _ =>
      .bind (modifySelf_follows _) fun _ => .bind self_follows fun _ => .pure _

theorem roll_follows (hR : Carried R) (clock : Clock) :
    Follows (Beside R) (Log.roll clock) (Log.roll clock) :=
  .bind (flush_follows hR clock) fun _ => .bind self_follows fun _ =>
    .bind (onFs_follows (create_follows hR _)) fun _ => modifySelf_follows _

private theorem writeRecord_follows (hR : Carried R) (clock : Clock) (r : Record) :
    Follows (Beside R) (Log.writeRecord crc clock r) (Log.writeRecord crc clock r) := by
  refine .bind self_follows fun log =>
    .bind (onField_follows _ _ (segment_append_follows crc _ hR r)) fun _ =>
      .bind (modifySelf_follows _) fun _ => .bind self_follows fun log' => ?_
  have hinfo : Follows (Beside R)
      (do return { offset := r.offset, durableOffset := (← MethodM.self).durableOffset } :
        LogM AppendInfo)
      (do return { offset := r.offset, durableOffset := (← MethodM.self).durableOffset }) :=
    .bind self_follows fun _ => .pure _
  exact .ite (.bind (flush_follows hR clock) fun _ => hinfo) hinfo

theorem appendRecord_follows (hR : Carried R) (clock : Clock) (r : Record) :
    Follows (Beside R) (Log.appendRecord crc clock r) (Log.appendRecord crc clock r) := by
  refine .bind self_follows fun log => ?_
  have hwrite := writeRecord_follows crc hR clock r
  have hrest : Follows (Beside R)
      (if log.rollDue r.encodedLen then do Log.roll clock; Log.writeRecord crc clock r
        else Log.writeRecord crc clock r)
      (if log.rollDue r.encodedLen then do Log.roll clock; Log.writeRecord crc clock r
        else Log.writeRecord crc clock r) :=
    .ite (.bind (roll_follows hR clock) fun _ => hwrite) hwrite
  exact .ite (.bind (onFs_follows (fail_follows _ _)) fun _ => hrest) hrest

theorem read_follows (hR : SameLogs R) (offset maxBytes : ℕ) :
    Follows (Beside R) (Log.read crc offset maxBytes) (Log.read crc offset maxBytes) := by
  refine .bind self_follows fun log => .ite (onFs_follows (fail_follows _ _))
    (.ite (.pure _) (.ite (onFs_follows (readFrom_follows crc _ hR _ _ _)) ?_))
  cases Log.lastClosed (· ≤ offset) log.closed with
  | none => exact .throw _ _
  | some seg => exact onFs_follows (readFrom_follows crc _ hR _ _ _)

private theorem removeDoomed_follows (hR : Carried R) (bases : List ℕ) :
    Follows (Beside R) (Log.removeDoomed bases) (Log.removeDoomed bases) := by
  induction bases with
  | nil => exact .pure _
  | cons base rest ih =>
    exact .bind (modifySelf_follows _) fun _ => .bind (onFs_follows (removeLog_follows hR base))
      fun _ => .bind (onFs_follows (hR.removeIndex base)) fun _ => ih

theorem rebuildAt_follows (hR : Carried R) (target : Segment) (newNext : ℕ) :
    Follows (Beside R) (Log.rebuildAt crc target newNext) (Log.rebuildAt crc target newNext) :=
  .bind self_follows fun _ => .bind (onFs_follows (positionOf_follows crc _ hR.sameLogs _ _)) fun _ =>
    .bind (onFs_follows (readLog_follows hR.sameLogs _)) fun _ =>
      .bind (onFs_follows (hR.perform (.setLen _ _) trivial)) fun _ =>
        .bind (onFs_follows (hR.perform (.fsyncLog _) trivial)) fun _ =>
          .bind (onFs_follows (recover_newest_follows crc _ hR _)) fun _ =>
            modifySelf_follows _

private theorem cutTo_follows (hR : Carried R) (targetBase newNext : ℕ) :
    Follows (Beside R) (Log.cutTo crc targetBase newNext) (Log.cutTo crc targetBase newNext) := by
  refine .bind self_follows fun log => .bind (removeDoomed_follows hR _) fun _ =>
    .ite (rebuildAt_follows crc hR _ _) (.bind (onFs_follows (removeLog_follows hR _)) fun _ =>
      .bind (onFs_follows (hR.removeIndex _)) fun _ => .bind self_follows fun log' => ?_)
  cases log'.closed.find? (·.baseOffset = targetBase) with
  | none => exact .throw _ _
  | some target => exact rebuildAt_follows crc hR _ _

theorem truncateSuffix_follows (hR : Carried R) (newNext : ℕ) :
    Follows (Beside R) (Log.truncateSuffix crc newNext) (Log.truncateSuffix crc newNext) := by
  refine .bind self_follows fun log => .ite (.pure _) (.ite (onFs_follows (fail_follows _ _)) ?_)
  cases log.truncateTarget newNext with
  | none => exact .throw _ _
  | some target => exact cutTo_follows crc hR _ _

end Follows

end Replog.Storage
