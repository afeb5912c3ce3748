import Replog.Storage.SegmentRuns

/-!
# Opening a directory

The rolled segments tile the log from offset 0 and the newest one follows. Opening recovers
them in base order; whatever a crash left behind the whole records of the newest segment is
cut off, and every other file keeps its bytes.
-/

namespace Replog.Storage

variable {crc : List UInt8 → UInt32} {config : LogConfig}

/-- The offset after the records of the rolled chunks, where the next segment starts. -/
def nextBase (cs : List (List Record)) : ℕ := cs.flatten.length

@[simp] theorem nextBase_nil : nextBase [] = 0 := rfl

@[simp] theorem nextBase_cons (c : List Record) (cs : List (List Record)) :
    nextBase (c :: cs) = c.length + nextBase cs := by
  simp [nextBase]

@[simp] theorem nextBase_append (cs ds : List (List Record)) :
    nextBase (cs ++ ds) = nextBase cs + nextBase ds := by
  simp [nextBase]

/-- The base offsets of consecutive chunks. -/
def basesOf : ℕ → List (List Record) → List ℕ
  | _, [] => []
  | b, c :: cs => b :: basesOf (b + c.length) cs

@[simp] theorem basesOf_append (b : ℕ) (cs ds : List (List Record)) :
    basesOf b (cs ++ ds) = basesOf b cs ++ basesOf (b + nextBase cs) ds := by
  induction cs generalizing b with
  | nil => rfl
  | cons c cs ih => simp [basesOf, ih, Nat.add_assoc]

/-- Each chunk is non-empty and satisfies `P` at its base. -/
def Tiled (P : ℕ → List Record → Prop) : ℕ → List (List Record) → Prop
  | _, [] => True
  | b, c :: cs => c ≠ [] ∧ P b c ∧ Tiled P (b + c.length) cs

/-- Segments in memory and on disk tile the records of `cs` from offset `b`. -/
def SegsOk (crc : List UInt8 → UInt32) (config : LogConfig) (dir : Dir) :
    ℕ → List Segment → List (List Record) → Prop
  | _, [], [] => True
  | b, seg :: segs, c :: cs =>
    c ≠ [] ∧ SegmentOk crc config dir seg b c ∧ SegsOk crc config dir (b + c.length) segs cs
  | _, _, _ => False

/-- The files of a rolled segment, its index possibly cut by a crash. -/
structure ClosedFileOk (crc : List UInt8 → UInt32) (config : LogConfig) (dir : Dir) (base : ℕ)
    (chunk : List Record) : Prop where
  log_file : ∃ synced, dir.log base = some ⟨encodeAll crc chunk, synced⟩
  index_file : IndexFileOk chunk (dir.index base)
  numbered : Numbered config base chunk
  size_le : totalLen chunk ≤ 2 ^ 30

theorem SegmentOk.closedFileOk {dir : Dir} {seg : Segment} {base : ℕ} {chunk : List Record}
    (h : SegmentOk crc config dir seg base chunk) : ClosedFileOk crc config dir base chunk :=
  ⟨h.log_file, h.index_file ▸ IndexFileOk.of_entries h.index_ok, h.numbered, h.size_le⟩

theorem le_of_mem_basesOf {b b' : ℕ} {cs : List (List Record)} (h : b' ∈ basesOf b cs) :
    b ≤ b' := by
  induction cs generalizing b with
  | nil => simp [basesOf] at h
  | cons c cs ih =>
    rcases List.mem_cons.mp h with rfl | h
    · exact le_rfl
    · exact (Nat.le_add_right b c.length).trans (ih h)

theorem Tiled.lt_end {P : ℕ → List Record → Prop} {b b' : ℕ} {cs : List (List Record)}
    (h : Tiled P b cs) (hb : b' ∈ basesOf b cs) : b' < b + nextBase cs := by
  induction cs generalizing b with
  | nil => simp [basesOf] at hb
  | cons c cs ih =>
    have hpos := List.length_pos_of_ne_nil h.1
    rw [nextBase_cons]
    rcases List.mem_cons.mp hb with rfl | hb
    · omega
    · have hlt := ih h.2.2 hb
      omega

theorem Tiled.pairwise {P : ℕ → List Record → Prop} {b : ℕ} {cs : List (List Record)}
    (h : Tiled P b cs) : (basesOf b cs ++ [b + nextBase cs]).Pairwise (· < ·) := by
  induction cs generalizing b with
  | nil => simp [basesOf]
  | cons c cs ih =>
    have hpos := List.length_pos_of_ne_nil h.1
    have hrest := ih h.2.2
    simp only [basesOf, List.cons_append, nextBase_cons]
    rw [show b + (c.length + nextBase cs) = b + c.length + nextBase cs by omega]
    refine List.pairwise_cons.mpr ⟨fun b' hb' => ?_, hrest⟩
    rcases List.mem_append.mp hb' with hb' | hb'
    · have hle := le_of_mem_basesOf hb'
      omega
    · rw [List.mem_singleton.mp hb']
      omega

theorem Tiled.of_mem {P : ℕ → List Record → Prop} {b b' : ℕ} {cs : List (List Record)}
    (h : Tiled P b cs) (hb : b' ∈ basesOf b cs) : ∃ c, P b' c := by
  induction cs generalizing b with
  | nil => simp [basesOf] at hb
  | cons c cs ih =>
    rcases List.mem_cons.mp hb with rfl | hb
    · exact ⟨c, h.2.1⟩
    · exact ih h.2.2 hb

theorem tiled_append {P : ℕ → List Record → Prop} {b : ℕ} {cs cs' : List (List Record)} :
    Tiled P b (cs ++ cs') ↔ Tiled P b cs ∧ Tiled P (b + nextBase cs) cs' := by
  induction cs generalizing b with
  | nil => simp [Tiled]
  | cons c cs ih => simp only [List.cons_append, Tiled, ih, nextBase_cons, and_assoc, Nat.add_assoc]

theorem Tiled.snoc {P : ℕ → List Record → Prop} {b : ℕ} {cs : List (List Record)}
    {c : List Record} (h : Tiled P b cs) (hne : c ≠ []) (hc : P (b + nextBase cs) c) :
    Tiled P b (cs ++ [c]) := tiled_append.mpr ⟨h, hne, hc, trivial⟩

theorem Tiled.imp {P Q : ℕ → List Record → Prop} {b : ℕ} {cs : List (List Record)}
    (h : Tiled P b cs) (hPQ : ∀ b' ∈ basesOf b cs, ∀ c, P b' c → Q b' c) : Tiled Q b cs := by
  induction cs generalizing b with
  | nil => trivial
  | cons c cs ih =>
    exact ⟨h.1, hPQ b List.mem_cons_self c h.2.1,
      ih h.2.2 fun b' hb' => hPQ b' (List.mem_cons_of_mem _ hb')⟩

/-- Segments in a row hold one numbered run of records. -/
theorem Tiled.numbered {P : ℕ → List Record → Prop} (hP : ∀ b c, P b c → Numbered config b c)
    {b : ℕ} {cs : List (List Record)} (h : Tiled P b cs) : Numbered config b cs.flatten := by
  induction cs generalizing b with
  | nil => exact numbered_nil b
  | cons c cs ih => exact numbered_append.mpr ⟨hP b c h.2.1, ih h.2.2⟩

theorem SegsOk.tiled {dir : Dir} {b : ℕ} {segs : List Segment} {cs : List (List Record)}
    (h : SegsOk crc config dir b segs cs) : Tiled (ClosedFileOk crc config dir) b cs := by
  induction cs generalizing b segs with
  | nil => trivial
  | cons c cs ih =>
    cases segs with
    | nil => exact h.elim
    | cons seg segs => exact ⟨h.1, h.2.1.closedFileOk, ih h.2.2⟩

/-- Segments keep their meaning while their own files do. -/
theorem SegsOk.frame {dir dir' : Dir} {b : ℕ} {segs : List Segment} {cs : List (List Record)}
    (h : SegsOk crc config dir b segs cs)
    (hsame : ∀ b' ∈ basesOf b cs, dir'.log b' = dir.log b' ∧ dir'.index b' = dir.index b') :
    SegsOk crc config dir' b segs cs := by
  induction cs generalizing b segs with
  | nil =>
    cases segs with
    | nil => trivial
    | cons => exact h.elim
  | cons c cs ih =>
    cases segs with
    | nil => exact h.elim
    | cons seg segs =>
      obtain ⟨hlog, hindex⟩ := hsame b List.mem_cons_self
      exact ⟨h.1, h.2.1.frame hlog hindex,
        ih h.2.2 fun b' hb' => hsame b' (List.mem_cons_of_mem _ hb')⟩

theorem SegsOk.bases_eq {dir : Dir} {b : ℕ} {segs : List Segment} {cs : List (List Record)}
    (h : SegsOk crc config dir b segs cs) : segs.map Segment.baseOffset = basesOf b cs := by
  induction cs generalizing b segs with
  | nil =>
    cases segs with
    | nil => rfl
    | cons => exact h.elim
  | cons c cs ih =>
    cases segs with
    | nil => exact h.elim
    | cons seg segs =>
      rw [List.map_cons, ih h.2.2, h.2.1.base_eq]
      rfl

/-- An open log and the records it stands for: those of the rolled segments, then those of
the active one. -/
structure LogOk (crc : List UInt8 → UInt32) (config : LogConfig) (s : Log × Fs)
    (cs : List (List Record)) (act : List Record) : Prop where
  config_eq : s.1.config = config
  healthy : s.2.Healthy
  closed : SegsOk crc config s.2.dir 0 s.1.closed cs
  active : SegmentOk crc config s.2.dir s.1.active (nextBase cs) act
  files : ∀ b, (s.2.dir.log b).isSome ↔ b ∈ basesOf 0 cs ∨ b = nextBase cs

/-- A directory as a crash may leave it: the newest segment ends in a torn record. -/
structure CrashDir (crc : List UInt8 → UInt32) (config : LogConfig) (dir : Dir)
    (cs : List (List Record)) (act : List Record) (tail : List UInt8) : Prop where
  closed : Tiled (ClosedFileOk crc config dir) 0 cs
  newest : ∃ synced, dir.log (nextBase cs) = some ⟨encodeAll crc act ++ tail, synced⟩
  numbered : Numbered config (nextBase cs) act
  size_le : totalLen act ≤ 2 ^ 30
  torn : Torn crc config tail
  files : ∀ b, (dir.log b).isSome ↔ b ∈ basesOf 0 cs ∨ b = nextBase cs

theorem LogOk.crashDir {s : Log × Fs} {cs : List (List Record)} {act : List Record}
    (h : LogOk crc config s cs act) : CrashDir crc config s.2.dir cs act [] := by
  obtain ⟨synced, hfile⟩ := h.active.log_file
  exact ⟨h.closed.tiled, ⟨synced, by simpa using hfile⟩, h.active.numbered, h.active.size_le,
    .inl rfl, h.files⟩

theorem CrashDir.base_le {dir : Dir} {cs : List (List Record)} {act : List Record}
    {tail : List UInt8} (h : CrashDir crc config dir cs act tail) {b : ℕ}
    (hb : (dir.log b).isSome) : b ≤ nextBase cs := by
  rcases (h.files b).mp hb with hmem | rfl
  · have hlt := h.closed.lt_end hmem
    omega
  · exact le_rfl

/-- A directory a crash has left, and the records that opening it finds. -/
def Left (crc : List UInt8 → UInt32) (config : LogConfig) (rs : List Record) (d : Dir) : Prop :=
  ∃ cs act tail, cs.flatten ++ act = rs ∧ CrashDir crc config d cs act tail

theorem insertClosed_of_lt {seg : Segment} {closed : List Segment}
    (h : ∀ s ∈ closed, s.baseOffset < seg.baseOffset) :
    Log.insertClosed seg closed = closed ++ [seg] := by
  induction closed with
  | nil => rfl
  | cons s rest ih =>
    have hs := h s List.mem_cons_self
    rw [Log.insertClosed, if_neg (by omega), if_neg (by omega),
      ih fun t ht => h t (List.mem_cons_of_mem s ht)]
    rfl

/-- Files below `b` are untouched, and none appears or disappears. -/
structure OnlyFrom (b : ℕ) (fs fs' : Fs) : Prop where
  log_eq : ∀ b' < b, fs'.dir.log b' = fs.dir.log b'
  index_eq : ∀ b' < b, fs'.dir.index b' = fs.dir.index b'
  files : ∀ b', (fs'.dir.log b').isSome = (fs.dir.log b').isSome

theorem OnlySegment.onlyFrom {b base : ℕ} {fs fs' : Fs} (h : OnlySegment base fs fs')
    (hb : b ≤ base) (hfiles : (fs'.dir.log base).isSome = (fs.dir.log base).isSome) :
    OnlyFrom b fs fs' := by
  refine ⟨fun b' hlt => h.log_eq b' (by omega), fun b' hlt => h.index_eq b' (by omega),
    fun b' => ?_⟩
  by_cases heq : b' = base
  · rw [heq, hfiles]
  · rw [h.log_eq b' heq]

theorem OnlyFrom.trans {b b' : ℕ} {fs fs' fs'' : Fs} (h : OnlyFrom b fs fs')
    (h' : OnlyFrom b' fs' fs'') (hb : b ≤ b') : OnlyFrom b fs fs'' :=
  ⟨fun c hc => (h'.log_eq c (by omega)).trans (h.log_eq c hc),
    fun c hc => (h'.index_eq c (by omega)).trans (h.index_eq c hc),
    fun c => (h'.files c).trans (h.files c)⟩

/-- A directory on the way of reopening the segments from base `b` on: the rolled ones can still
be recovered, and of the newest one no valid byte is lost. -/
structure Reopening (crc : List UInt8 → UInt32) (config : LogConfig) (b : ℕ)
    (cs : List (List Record)) (act : List Record) (synced : ℕ) (d d' : Dir) : Prop where
  below : ∀ b' < b, d'.log b' = d.log b' ∧ d'.index b' = d.index b'
  closed : Tiled (ClosedFileOk crc config d') b cs
  newest : d'.log (b + nextBase cs) = d.log (b + nextBase cs) ∨
    ∃ synced', min synced (totalLen act) ≤ synced' ∧
      d'.log (b + nextBase cs) = some ⟨encodeAll crc act, synced'⟩
  files : ∀ b', (d'.log b').isSome = (d.log b').isSome

theorem Recovering.reopening {base synced : ℕ} {act : List Record} {tail : List UInt8}
    {d d' : Dir} (h : Recovering base (encodeAll crc act) synced d d')
    (hfile : d.log base = some ⟨encodeAll crc act ++ tail, synced⟩) :
    Reopening crc config base [] act synced d d' := by
  refine ⟨fun b' hb => ⟨h.log_eq b' (by omega), h.index_eq b' (by omega)⟩, trivial, ?_, ?_⟩
  · rw [nextBase_nil, Nat.add_zero, ← length_encodeAll crc]
    exact h.log_file
  · intro b'
    by_cases hb : b' = base
    · subst hb
      rcases h.log_file with hsame | ⟨synced', -, hcut⟩
      · rw [hsame]
      · rw [hcut, hfile]
        rfl
    · rw [h.log_eq b' hb]

theorem Rebuilding.reopening {b synced : ℕ} {c act : List Record} {cs : List (List Record)}
    {d d' : Dir} (h : Rebuilding b c d d') (hne : c ≠ []) (hc : ClosedFileOk crc config d b c)
    (hrest : Tiled (ClosedFileOk crc config d) (b + c.length) cs) :
    Reopening crc config b (c :: cs) act synced d d' := by
  have hpos := List.length_pos_of_ne_nil hne
  refine ⟨fun b' hb => ⟨h.log_eq b', h.index_eq b' (by omega)⟩, ⟨hne, ?_, ?_⟩,
    .inl (h.log_eq _), fun b' => by rw [h.log_eq b']⟩
  · exact ⟨h.log_eq b ▸ hc.log_file, h.index_file, hc.numbered, hc.size_le⟩
  · refine hrest.imp fun b' hb' c' h' => ?_
    have hle := le_of_mem_basesOf hb'
    exact ⟨h.log_eq b' ▸ h'.log_file, h.index_eq b' (by omega) ▸ h'.index_file, h'.numbered,
      h'.size_le⟩

/-- The first segment is recovered, the later ones are under way. -/
theorem Reopening.cons {b synced : ℕ} {c act : List Record} {cs : List (List Record)}
    {fs fs' : Fs} {d : Dir} (h : Reopening crc config (b + c.length) cs act synced fs'.dir d)
    (hne : c ≠ []) (honly : OnlyIndex b fs fs') (hc : ClosedFileOk crc config fs'.dir b c) :
    Reopening crc config b (c :: cs) act synced fs.dir d := by
  have hpos := List.length_pos_of_ne_nil hne
  have hend : b + nextBase (c :: cs) = b + c.length + nextBase cs := by
    rw [nextBase_cons, Nat.add_assoc]
  obtain ⟨hlog, hindex⟩ := h.below b (by omega)
  refine ⟨fun b' hb => ?_, ⟨hne, ?_, h.closed⟩, ?_, fun b' => ?_⟩
  · obtain ⟨hlog', hindex'⟩ := h.below b' (by omega)
    exact ⟨hlog'.trans (honly.log_eq b'), hindex'.trans (honly.index_eq b' (by omega))⟩
  · exact ⟨hlog ▸ hc.log_file, hindex ▸ hc.index_file, hc.numbered, hc.size_le⟩
  · rw [hend, ← honly.log_eq]
    exact h.newest
  · rw [h.files b', honly.log_eq]

private theorem recoverAll_spec (hc : config.Valid) {cs : List (List Record)} {act : List Record}
    {tail : List UInt8} {b synced : ℕ} (expected : Option ℕ) (closed : List Segment) {fs : Fs}
    (hfs : fs.Healthy) (htiled : Tiled (ClosedFileOk crc config fs.dir) b cs)
    (hnewest : fs.dir.log (b + nextBase cs) = some ⟨encodeAll crc act ++ tail, synced⟩)
    (hnum : Numbered config (b + nextBase cs) act) (hsize : totalLen act ≤ 2 ^ 30)
    (htorn : Torn crc config tail) (hexpected : expected = none ∨ expected = some b)
    (hbelow : ∀ s ∈ closed, s.baseOffset < b) :
    ∃ segs active ops,
      (Log.recoverAll crc config (basesOf b cs ++ [b + nextBase cs]) expected closed).run
          fs = .ok (closed ++ segs, some active) (fs.advance ops) ∧
      SegsOk crc config (fs.advance ops).dir b segs cs ∧
      SegmentOk crc config (fs.advance ops).dir active (b + nextBase cs) act ∧
      OnlyFrom b fs (fs.advance ops) ∧
      Passes (Reopening crc config b cs act synced fs.dir) fs ops := by
  have hcheck : ∀ fs : Fs, (Log.checkBase b expected).run fs = .ok () fs := by
    rcases hexpected with rfl | rfl <;> simp [Log.checkBase]
  induction cs generalizing b expected closed fs with
  | nil =>
    obtain ⟨seg, ops, hrun, hok, honly, hpasses⟩ :=
      recover_newest_spec hc hfs hnewest hnum hsize htorn
    obtain ⟨_, hfile⟩ := hok.log_file
    refine ⟨[], seg, ops, ?_, trivial, hok, honly.onlyFrom (Nat.le_add_right _ _) ?_,
      hpasses.imp fun d hd => hd.reopening hnewest⟩
    · simp only [nextBase_nil, Nat.add_zero] at hrun
      simp only [basesOf, List.nil_append, nextBase_nil, Nat.add_zero,
        Log.recoverAll, List.isEmpty_nil, EStateM.run_bind, hrun, hcheck, if_true,
        EStateM.run_pure, List.append_nil]
    · rw [hfile, hnewest]
      rfl
  | cons c cs ih =>
    obtain ⟨hne, hfileOk, hrest⟩ := htiled
    have hpos := List.length_pos_of_ne_nil hne
    have hend : b + nextBase (c :: cs) = b + c.length + nextBase cs := by
      rw [nextBase_cons, Nat.add_assoc]
    rw [hend] at hnewest hnum ⊢
    obtain ⟨synced', hclosedFile⟩ := hfileOk.log_file
    obtain ⟨seg, ops, hrun, hok, honly, hpasses⟩ := recover_closed_spec hc hfs hclosedFile
      hfileOk.index_file hfileOk.numbered hfileOk.size_le
    -- the files of the later segments are still as they were
    have hrest' : Tiled (ClosedFileOk crc config (fs.advance ops).dir) (b + c.length) cs := by
      refine hrest.imp fun b' hb' c' h' => ?_
      have hle := le_of_mem_basesOf hb'
      exact ⟨honly.log_eq b' ▸ h'.log_file, honly.index_eq b' (by omega) ▸ h'.index_file,
        h'.numbered, h'.size_le⟩
    have hnewest' := (honly.log_eq (b + c.length + nextBase cs)).trans hnewest
    have hbelow' : ∀ s ∈ closed ++ [seg], s.baseOffset < b + c.length := by
      intro s hs
      rcases List.mem_append.mp hs with hs | hs
      · have hlt := hbelow s hs
        omega
      · rw [List.mem_singleton.mp hs, hok.base_eq]
        omega
    obtain ⟨segs, active, ops', hrun', hsegs, hactive, honly', hpasses'⟩ :=
      ih (some seg.nextOffset) (closed ++ [seg]) (Fs.advance_healthy fs ops)
      hrest' hnewest' hnum (.inr (by rw [hok.next_eq])) hbelow'
      (by simp [Log.checkBase, hok.next_eq])
    rw [Fs.advance_advance] at hrun' hsegs hactive honly'
    have honlyAll := (honly.onlySegment.onlyFrom le_rfl (by rw [honly.log_eq b])).trans honly'
      (Nat.le_add_right b c.length)
    refine ⟨seg :: segs, active, ops ++ ops', ?_, ⟨hne, ?_, hsegs⟩, hactive, honlyAll,
      (hpasses.imp fun d hd => hd.reopening hne hfileOk hrest).append
        (hpasses'.imp fun d hd => hd.cons hne honly hok.closedFileOk)⟩
    · have hnotLast : (basesOf (b + c.length) cs ++
          [b + c.length + nextBase cs]).isEmpty = false := by simp
      have hinsert : Log.insertClosed seg closed = closed ++ [seg] :=
        insertClosed_of_lt fun s hs => hok.base_eq ▸ hbelow s hs
      simp only [basesOf, List.cons_append, Log.recoverAll, hnotLast, EStateM.run_bind, hrun,
        hcheck, hinsert, Bool.false_eq_true, if_false, hrun', List.append_assoc,
        List.nil_append]
    · exact hok.frame (honly'.log_eq b (by omega)) (honly'.index_eq b (by omega))

/-- The base offsets found in the directory, in order. -/
theorem sorted_keys {dir : Dir} {bs : List ℕ} (hpair : bs.Pairwise (· < ·))
    (hfiles : ∀ b, (dir.log b).isSome ↔ b ∈ bs) :
    dir.logs.keys.insertionSort (· ≤ ·) = bs := by
  have hperm : dir.logs.keys.Perm bs := by
    refine (List.perm_ext_iff_of_nodup dir.logs.keys_nodup
      (hpair.imp fun h => Nat.ne_of_lt h)).mpr fun b => ?_
    rw [Dir.mem_keys_logs, hfiles]
  refine List.Perm.eq_of_pairwise' (r := (· ≤ ·)) ?_ ?_
    ((List.perm_insertionSort _ _).trans hperm)
  · exact List.pairwise_insertionSort (· ≤ ·) dir.logs.keys
  · exact hpair.imp Nat.le_of_lt

theorem sorted_bases {P : ℕ → List Record → Prop} {dir : Dir} {cs : List (List Record)}
    (htiled : Tiled P 0 cs)
    (hfiles : ∀ b, (dir.log b).isSome ↔ b ∈ basesOf 0 cs ∨ b = nextBase cs) :
    dir.logs.keys.insertionSort (· ≤ ·) = basesOf 0 cs ++ [nextBase cs] := by
  have hpair := htiled.pairwise
  rw [Nat.zero_add] at hpair
  exact sorted_keys hpair fun b => by rw [hfiles, List.mem_append, List.mem_singleton]

/-- Opening keeps all whole records and cuts the torn one off. A crash on the way leaves a
directory that opens the same. -/
theorem openDir_passes (hc : config.Valid) {fs : Fs} (hfs : fs.Healthy) {cs : List (List Record)}
    {act : List Record} {tail : List UInt8} (h : CrashDir crc config fs.dir cs act tail)
    {synced : ℕ} (hnewest : fs.dir.log (nextBase cs) = some ⟨encodeAll crc act ++ tail, synced⟩)
    (clock : Clock) :
    ∃ log ops, (Log.openDir crc config clock).run fs = .ok log (fs.advance ops) ∧
      LogOk crc config (log, fs.advance ops) cs act ∧
      log.durableOffset = Log.checkedPred log.nextOffset ∧
      Passes (Reopening crc config 0 cs act synced fs.dir) fs ops := by
  obtain ⟨segs, active, ops, hrun, hsegs, hactive, honly, hpasses⟩ := recoverAll_spec hc (b := 0)
    none [] hfs h.closed (by simpa using hnewest)
    (by simpa using h.numbered) h.size_le h.torn (.inl rfl) (by simp)
  rw [Nat.zero_add] at hrun hactive
  refine ⟨{ config, closed := segs, active, durableOffset := Log.checkedPred active.nextOffset
            dirtyBytes := 0, lastFlush := clock.instantMs }, ops, ?_,
    ⟨rfl, Fs.advance_healthy _ _, hsegs, hactive, fun b => by rw [honly.files b, h.files b]⟩,
    rfl, hpasses⟩
  have hvalid := config.validate_eq_ok_iff.mpr hc
  have hget : (get : FsM Fs).run fs = .ok fs fs := rfl
  have hbases := sorted_bases h.closed h.files
  have hne : (basesOf 0 cs ++ [nextBase cs]).isEmpty = false := by simp
  simp only [Log.openDir, hvalid, EStateM.run_bind, EStateM.run_pure, hget, hbases, hne,
    Bool.false_eq_true, if_false, hrun, List.nil_append]

theorem openDir_spec (hc : config.Valid) {fs : Fs} (hfs : fs.Healthy) {cs : List (List Record)}
    {act : List Record} {tail : List UInt8} (h : CrashDir crc config fs.dir cs act tail)
    (clock : Clock) :
    ∃ log fs', (Log.openDir crc config clock).run fs = .ok log fs' ∧
      LogOk crc config (log, fs') cs act := by
  obtain ⟨synced, hnewest⟩ := h.newest
  obtain ⟨log, ops, hrun, hok, -⟩ := openDir_passes hc hfs h hnewest clock
  exact ⟨log, _, hrun, hok⟩

/-- A directory without segment files opens as an empty log. -/
theorem openDir_empty_run (crc : List UInt8 → UInt32) (hc : config.Valid) (clock : Clock) :
    ∃ log, (Log.openDir crc config clock).run ⟨Dir.empty, [], []⟩ =
        .ok log (Fs.advance ⟨Dir.empty, [], []⟩ [.createLog 0, .createIndex 0]) ∧
      LogOk crc config (log, Fs.advance ⟨Dir.empty, [], []⟩ [.createLog 0, .createIndex 0]) [] [] ∧
      log.durableOffset = none := by
  obtain ⟨seg, hrun, hok, honly⟩ := create_spec crc config
    (show Fs.Healthy ⟨Dir.empty, [], []⟩ from rfl) (show Dir.empty.log 0 = none from rfl)
  refine ⟨{ config, closed := [], active := seg, durableOffset := none, dirtyBytes := 0
            lastFlush := clock.instantMs }, ?_,
    ⟨rfl, Fs.advance_healthy _ _, trivial, hok, ?_⟩, rfl⟩
  · have hvalid := config.validate_eq_ok_iff.mpr hc
    have hget : (get : FsM Fs).run ⟨Dir.empty, [], []⟩ =
      .ok ⟨Dir.empty, [], []⟩ ⟨Dir.empty, [], []⟩ := rfl
    have hempty : (Dir.empty.logs.keys.insertionSort (· ≤ ·)).isEmpty = true := rfl
    simp only [Log.openDir, hvalid, EStateM.run_bind, EStateM.run_pure, hget, hempty, if_true, hrun]
  · intro b
    by_cases hb : b = 0 <;> simp [basesOf, hb]

theorem openDir_empty (crc : List UInt8 → UInt32) (hc : config.Valid) (clock : Clock) :
    ∃ log fs', (Log.openDir crc config clock).run ⟨Dir.empty, [], []⟩ = .ok log fs' ∧
      LogOk crc config (log, fs') [] [] := by
  obtain ⟨log, hrun, hok, -⟩ := openDir_empty_run crc hc clock
  exact ⟨log, _, hrun, hok⟩

end Replog.Storage
