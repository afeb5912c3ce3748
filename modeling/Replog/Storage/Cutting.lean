import Replog.Storage.LogOpen

/-!
# A cut under way

A cut takes the files behind the target segment away, lowest first, and then shortens the target.
A crash in between leaves a log that ends early, or a gap between two segments; a directory with
a gap does not open.
-/

namespace Replog.Storage

variable {crc : List UInt8 → UInt32} {config : LogConfig}

/-- Whole segments, then a missing one, and more behind it. -/
structure Gap (crc : List UInt8 → UInt32) (config : LogConfig) (d : Dir)
    (cs : List (List Record)) : Prop where
  closed : Tiled (ClosedFileOk crc config d) 0 cs
  ne_nil : cs ≠ []
  files : ∀ b, (d.log b).isSome → b ∈ basesOf 0 cs ∨ nextBase cs < b
  behind : ∃ b, nextBase cs < b ∧ (d.log b).isSome

private theorem recoverAll_gap (hc : config.Valid) {cs : List (List Record)} {b next : ℕ} (rest : List ℕ)
    {expected : Option ℕ} (closed : List Segment) {fs : Fs} (hfs : fs.Healthy)
    (htiled : Tiled (ClosedFileOk crc config fs.dir) b cs) (hnext : next ≠ b + nextBase cs)
    (hexpected : expected = some b ∨ expected = none ∧ cs ≠ []) :
    ∃ e fs', (Log.recoverAll crc config (basesOf b cs ++ next :: rest) expected closed).run fs =
      .error e fs' := by
  induction cs generalizing b expected closed fs with
  | nil =>
    rcases hexpected with rfl | ⟨-, hne⟩
    · rw [nextBase_nil, Nat.add_zero] at hnext
      simp only [basesOf, List.nil_append, Log.recoverAll, EStateM.run_bind]
      cases (Segment.recover crc config next rest.isEmpty).run fs with
      | error e fs' => exact ⟨e, fs', rfl⟩
      | ok seg fs' =>
        refine ⟨.err (.segmentGap next b), fs', ?_⟩
        simp only [Log.checkBase]
        rw [if_pos hnext]
        rfl
    · exact absurd rfl hne
  | cons c cs ih =>
    obtain ⟨hne, hfileOk, hrest⟩ := htiled
    have hpos := List.length_pos_of_ne_nil hne
    obtain ⟨synced, hfile⟩ := hfileOk.log_file
    obtain ⟨seg, ops, hrun, hok, honly, -⟩ :=
      recover_closed_spec hc hfs hfile hfileOk.index_file hfileOk.numbered hfileOk.size_le
    have hcheck : ∀ fs : Fs, (Log.checkBase b expected).run fs = .ok () fs := by
      rcases hexpected with rfl | ⟨rfl, -⟩ <;> simp [Log.checkBase]
    have hrest' : Tiled (ClosedFileOk crc config (fs.advance ops).dir) (b + c.length) cs := by
      refine hrest.imp fun b' hb' c' h' => ?_
      have hle := le_of_mem_basesOf hb'
      exact ⟨honly.log_eq b' ▸ h'.log_file, honly.index_eq b' (by omega) ▸ h'.index_file,
        h'.numbered, h'.size_le⟩
    rw [nextBase_cons, ← Nat.add_assoc] at hnext
    obtain ⟨e, fs', herror⟩ := ih (Log.insertClosed seg closed) (Fs.advance_healthy fs ops) hrest'
      hnext (.inl (show some seg.nextOffset = _ by rw [hok.next_eq]))
    refine ⟨e, fs', ?_⟩
    have hnotLast : (basesOf (b + c.length) cs ++ next :: rest).isEmpty = false := by simp
    simp only [basesOf, List.cons_append, Log.recoverAll, hnotLast, EStateM.run_bind, hrun, hcheck,
      Bool.false_eq_true, if_false, herror]

/-- The bases of a directory with a gap: those before it, then one that comes too late. -/
theorem Gap.sorted {d : Dir} {cs : List (List Record)} (h : Gap crc config d cs) :
    ∃ next rest, next ≠ nextBase cs ∧
      d.logs.keys.insertionSort (· ≤ ·) = basesOf 0 cs ++ next :: rest := by
  have hpair := h.closed.pairwise
  have hbefore := (List.pairwise_append.mp hpair).1
  let later := (d.logs.keys.insertionSort (· ≤ ·)).filter (nextBase cs < ·)
  have hmem : ∀ b, b ∈ later ↔ (d.log b).isSome ∧ nextBase cs < b := fun b => by
    simp [later, Dir.mem_keys_logs]
  have hlater : later.Pairwise (· < ·) := by
    refine List.Pairwise.filter _ ?_
    exact ((List.pairwise_insertionSort (· ≤ ·) d.logs.keys).and
      ((List.perm_insertionSort _ _).nodup_iff.mpr d.logs.keys_nodup)).imp fun h =>
        lt_of_le_of_ne h.1 h.2
  have hall : d.logs.keys.insertionSort (· ≤ ·) = basesOf 0 cs ++ later := by
    refine sorted_keys (List.pairwise_append.mpr ⟨hbefore, hlater, fun b hb b' hb' => ?_⟩)
      fun b => ?_
    · have hlt := h.closed.lt_end hb
      have hgt := ((hmem b').mp hb').2
      omega
    · rw [List.mem_append, hmem]
      refine ⟨fun hb => ?_, fun hb => ?_⟩
      · rcases h.files b hb with hin | hgt
        · exact .inl hin
        · exact .inr ⟨hb, hgt⟩
      · rcases hb with hin | ⟨hb, -⟩
        · obtain ⟨c, hc⟩ := h.closed.of_mem hin
          obtain ⟨_, hfile⟩ := hc.log_file
          rw [hfile]
          rfl
        · exact hb
  obtain ⟨b, hgt, hb⟩ := h.behind
  cases hcases : later with
  | nil => exact (List.not_mem_nil (hcases ▸ (hmem b).mpr ⟨hb, hgt⟩)).elim
  | cons next rest =>
    have hnext := (hmem next).mp (hcases ▸ List.mem_cons_self)
    exact ⟨next, rest, by omega, by rw [hall, hcases]⟩

theorem Gap.openDir (hc : config.Valid) {d : Dir} {cs : List (List Record)}
    (h : Gap crc config d cs) (clock : Clock) :
    ∃ e fs, (Log.openDir crc config clock).run ⟨d, [], []⟩ = .error e fs := by
  obtain ⟨next, rest, hnext, hbases⟩ := h.sorted
  obtain ⟨e, fs, herror⟩ := recoverAll_gap hc rest []
    (show Fs.Healthy ⟨d, [], []⟩ from rfl) h.closed (by rwa [Nat.zero_add]) (.inr ⟨rfl, h.ne_nil⟩)
  have hvalid := config.validate_eq_ok_iff.mpr hc
  have hget : (get : FsM Fs).run ⟨d, [], []⟩ = .ok ⟨d, [], []⟩ ⟨d, [], []⟩ := rfl
  have hne : (basesOf 0 cs ++ next :: rest).isEmpty = false := by simp
  refine ⟨e, fs, ?_⟩
  simp only [Log.openDir, hvalid, EStateM.run_bind, hget, hbases, hne,
    Bool.false_eq_true, if_false, herror]

/-! ## Removing files -/

/-- The files with a base from `lo` up to `m` are gone. -/
structure Removed (lo m : ℕ) (d d' : Dir) : Prop where
  log_eq : ∀ b, d'.log b = if lo ≤ b ∧ b < m then none else d.log b
  index_eq : ∀ b, b < lo ∨ m ≤ b → d'.index b = d.index b

def removeOps (bs : List ℕ) : List FsOp := bs.flatMap fun b => [.removeLog b, .removeIndex b]

theorem removeOps_append (bs bs' : List ℕ) :
    removeOps (bs ++ bs') = removeOps bs ++ removeOps bs' := List.flatMap_append

private theorem log_removeOps_take (bs : List ℕ) (j : ℕ) (d : Dir) (b : ℕ) :
    (((removeOps bs).take j).foldl (fun d op => op.apply d) d).log b =
      if b ∈ bs.take ((j + 1) / 2) then none else d.log b := by
  induction bs generalizing j d with
  | nil => simp [removeOps]
  | cons base bs ih =>
    rw [removeOps, List.flatMap_cons]
    match j with
    | 0 => simp
    | 1 => simp
    | j + 2 =>
      have hhalf : (j + 2 + 1) / 2 = (j + 1) / 2 + 1 := by omega
      have hrest := ih j ((FsOp.removeIndex base).apply ((FsOp.removeLog base).apply d))
      rw [removeOps] at hrest
      simp only [List.cons_append, List.nil_append, List.take_succ_cons, List.foldl_cons, hrest,
        hhalf, List.mem_cons, FsOp.log_removeIndex, FsOp.log_removeLog]
      by_cases hb : b = base <;> simp [hb]

theorem Removed.refl {lo : ℕ} {d : Dir} : Removed lo lo d d :=
  ⟨fun b => by rw [if_neg (by omega)], fun _ _ => rfl⟩

theorem removeOps_passes {lo m : ℕ} {bs : List ℕ} (hsorted : bs.Pairwise (· < ·)) {d : Dir}
    {fs : Fs} (h : Removed lo m d fs.dir) (hlo : ∀ b ∈ bs, lo ≤ b) (hm : ∀ b ∈ bs, m ≤ b)
    (hbs : ∀ b, m ≤ b → (d.log b).isSome → b ∈ bs) :
    Passes (fun d' => ∃ m, Removed lo m d d') fs (removeOps bs) ∧
      ∃ m', Removed lo m' d (fs.advance (removeOps bs)).dir ∧ ∀ b, m' ≤ b → d.log b = none := by
  induction bs generalizing m fs with
  | nil =>
    refine ⟨.nil ⟨m, h⟩, m, h, fun b hb => ?_⟩
    by_contra hne
    exact List.not_mem_nil (hbs b hb (Option.isSome_iff_ne_none.mpr hne))
  | cons base bs ih =>
    obtain ⟨hlt, hsorted'⟩ := List.pairwise_cons.mp hsorted
    have hbase := hm base List.mem_cons_self
    have hlo' := hlo base List.mem_cons_self
    have hlog : Removed lo (base + 1) d ((FsOp.removeLog base).apply fs.dir) := by
      refine ⟨fun b => ?_, fun b hb => ?_⟩
      · rw [FsOp.log_removeLog]
        by_cases heq : b = base
        · rw [if_pos heq, if_pos (by omega)]
        · rw [if_neg heq, h.log_eq]
          by_cases hlow : lo ≤ b ∧ b < m
          · rw [if_pos hlow, if_pos (by omega)]
          · rw [if_neg hlow]
            split_ifs with hin
            · by_contra hne
              have hmem := hbs b (by omega) (Option.isSome_iff_ne_none.mpr hne)
              rcases List.mem_cons.mp hmem with heq' | hmem
              · exact heq heq'
              · have hgt := hlt b hmem
                omega
            · rfl
      · rw [FsOp.index_removeLog]
        exact h.index_eq b (by omega)
    have hboth : Removed lo (base + 1) d (fs.advance [.removeLog base, .removeIndex base]).dir := by
      refine ⟨hlog.log_eq, fun b hb => ?_⟩
      rw [← hlog.index_eq b hb, Fs.dir_advance]
      simp only [List.foldl_cons, List.foldl_nil, FsOp.index_removeIndex]
      rw [if_neg (by omega)]
    obtain ⟨hpasses, m', hend, hnone⟩ := ih hsorted' hboth
      (fun b hb => hlo b (List.mem_cons_of_mem _ hb)) (fun b hb => hlt b hb) fun b hb hsome => by
        rcases List.mem_cons.mp (hbs b (by omega) hsome) with rfl | hmem
        · omega
        · exact hmem
    refine ⟨?_, m', ?_, hnone⟩
    · refine @Passes.append _ _ [.removeLog base, .removeIndex base] _ ?_ hpasses
      exact .cons ⟨m, h⟩ (fun _ => ⟨m, h⟩) (.cons ⟨_, hlog⟩ (fun _ => ⟨_, hlog⟩) (.nil ⟨_, hboth⟩))
    · rw [Fs.advance_advance] at hend
      exact hend

/-! ## What is left -/

/-- The files with a record below `m` are as they were. -/
def Untouched (m : ℕ) (d d' : Dir) : Prop := ∀ b < m, d'.log b = d.log b

/-- A directory on the way from the records `rs` to the first `n` of them. It opens with no fewer
than these, and with all that are in files not touched yet; or it has a gap. -/
inductive Cutting (crc : List UInt8 → UInt32) (config : LogConfig) (rs : List Record) (n : ℕ)
    (d d' : Dir) : Prop
  | opens {rs' : List Record} (hleft : Left crc config rs' d') (hpre : rs' <+: rs)
      (hn : n ≤ rs'.length) (hkept : ∀ m ≤ rs.length, Untouched m d d' → m ≤ rs'.length)
      (hfiles : ∀ b b', b < b' → (d.log b).isSome → (d'.log b').isSome → (d'.log b).isSome)
  | gap {cs : List (List Record)} (h : Gap crc config d' cs)

/-- A directory that opens with the first `m` of the records `rs`, no fewer than `n`. -/
def Opens (crc : List UInt8 → UInt32) (config : LogConfig) (rs : List Record) (n : ℕ) (d : Dir) :
    Prop :=
  ∃ m, n ≤ m ∧ m ≤ rs.length ∧ Left crc config (rs.take m) d

/-- Only files that are gone have lost their index. -/
theorem CrashDir.frame {d d' : Dir} {cs : List (List Record)} {act : List Record}
    {tail : List UInt8} (h : CrashDir crc config d cs act tail)
    (hlog : ∀ b, d'.log b = d.log b) (hindex : ∀ b, (d.log b).isSome → d'.index b = d.index b) :
    CrashDir crc config d' cs act tail := by
  refine ⟨h.closed.imp fun b hb c hfile => ?_, ?_, h.numbered, h.size_le, h.torn, fun b => ?_⟩
  · have hsome := (h.files b).mpr (.inl hb)
    exact ⟨hlog b ▸ hfile.log_file, hindex b hsome ▸ hfile.index_file, hfile.numbered,
      hfile.size_le⟩
  · rw [hlog]
    exact h.newest
  · rw [hlog]
    exact h.files b

/-- One segment file has got new bytes, and its index maybe too. -/
structure Shortened (base : ℕ) (bytes : List UInt8) (d d' : Dir) : Prop where
  log_eq : ∀ b, b ≠ base → d'.log b = d.log b
  index_eq : ∀ b, b ≠ base → d'.index b = d.index b
  log_file : ∃ synced, d'.log base = some ⟨bytes, synced⟩

theorem Recovering.shortened {base synced : ℕ} {bytes : List UInt8} {d d' d'' : Dir}
    (h : Shortened base bytes d d') (h' : Recovering base bytes synced d' d'') :
    Shortened base bytes d d'' := by
  refine ⟨fun b hb => (h'.log_eq b hb).trans (h.log_eq b hb),
    fun b hb => (h'.index_eq b hb).trans (h.index_eq b hb), ?_⟩
  rcases h'.log_file with hsame | ⟨synced', -, hcut⟩
  · rw [hsame]
    exact h.log_file
  · exact ⟨synced', hcut⟩

theorem CrashDir.shortened {d d' : Dir} {cs : List (List Record)} {chunk : List Record}
    (h : CrashDir crc config d cs chunk []) {k : ℕ}
    (h' : Shortened (nextBase cs) (encodeAll crc (chunk.take k)) d d') :
    CrashDir crc config d' cs (chunk.take k) [] := by
  obtain ⟨synced, hfile⟩ := h'.log_file
  refine ⟨h.closed.imp fun b hb c hc => ?_, ⟨synced, by rw [hfile, List.append_nil]⟩,
    h.numbered.take k, (totalLen_take_le chunk k).trans h.size_le, .inl rfl, fun b => ?_⟩
  · have hlt := h.closed.lt_end hb
    exact ⟨h'.log_eq b (by omega) ▸ hc.log_file, h'.index_eq b (by omega) ▸ hc.index_file,
      hc.numbered, hc.size_le⟩
  · by_cases hb : b = nextBase cs
    · simp [hb, hfile]
    · rw [h'.log_eq b hb]
      exact h.files b

/-- The segment that becomes the last one, behind the whole ones before it. -/
structure Target (crc : List UInt8 → UInt32) (config : LogConfig) (rs : List Record) (d : Dir)
    (cs : List (List Record)) (chunk : List Record) : Prop where
  log_file : ∃ synced, d.log (nextBase cs) = some ⟨encodeAll crc chunk, synced⟩
  bases : ∀ b < nextBase cs, (d.log b).isSome → b ∈ basesOf 0 cs
  flat : cs.flatten ++ chunk <+: rs
  ends : rs.length = nextBase cs + chunk.length ∨
    chunk ≠ [] ∧ (d.log (nextBase cs + chunk.length)).isSome

/-- Once it is the last one, cut or still whole, the log opens. -/
theorem Target.cutting {rs : List Record} {d d' : Dir} {cs : List (List Record)}
    {chunk : List Record} {n k : ℕ} (h : Target crc config rs d cs chunk) (hk : k ≤ chunk.length)
    (hd' : CrashDir crc config d' cs (chunk.take k) []) (hn : n ≤ nextBase cs + k) :
    Cutting crc config rs n d d' := by
  have hlen : (cs.flatten ++ chunk.take k).length = nextBase cs + k := by
    rw [List.length_append, List.length_take, Nat.min_eq_left hk]
    rfl
  have hpre : cs.flatten ++ chunk.take k <+: rs :=
    ((List.prefix_append_right_inj _).mpr (List.take_prefix k chunk)).trans h.flat
  refine .opens ⟨cs, chunk.take k, [], rfl, hd'⟩ hpre (hlen.symm ▸ hn) (fun m hm hsame => ?_)
    fun b b' hlt hb hb' => ?_
  · rw [hlen]
    by_contra hgt
    obtain ⟨synced, hfile⟩ := h.log_file
    obtain ⟨synced', hnewest⟩ := hd'.newest
    rcases Nat.lt_or_ge k chunk.length with hshort | hwhole
    · rw [hsame _ (by omega), hfile, List.append_nil, Option.some.injEq,
        LogFile.mk.injEq] at hnewest
      have hbytes := congrArg List.length hnewest.1
      have htake := totalLen_take_lt hshort (Nat.le_refl chunk.length)
      rw [length_encodeAll, length_encodeAll] at hbytes
      rw [List.take_length] at htake
      omega
    · rcases h.ends with hend | ⟨hne, hsome⟩
      · omega
      · have hpos := List.length_pos_of_ne_nil hne
        rw [← hsame _ (by omega)] at hsome
        have hle := hd'.base_le hsome
        omega
  · have hle := hd'.base_le hb'
    exact (hd'.files b).mpr (.inl (h.bases b (by omega) hb))

theorem Target.opens {rs : List Record} {d d' : Dir} {cs : List (List Record)}
    {chunk : List Record} {n k : ℕ} (h : Target crc config rs d cs chunk) (hk : k ≤ chunk.length)
    (hd' : CrashDir crc config d' cs (chunk.take k) []) (hn : n ≤ nextBase cs + k) :
    Opens crc config rs n d' := by
  have hlen : (cs.flatten ++ chunk.take k).length = nextBase cs + k := by
    rw [List.length_append, List.length_take, Nat.min_eq_left hk]
    rfl
  have hpre : cs.flatten ++ chunk.take k <+: rs :=
    ((List.prefix_append_right_inj _).mpr (List.take_prefix k chunk)).trans h.flat
  refine ⟨nextBase cs + k, hn, hlen ▸ hpre.length_le, cs, chunk.take k, [], ?_, hd'⟩
  rw [← hlen]
  exact List.prefix_iff_eq_take.mp hpre

/-- What the files of a directory are when one of its segments is looked at. -/
theorem CrashDir.files_split {d : Dir} {preC postC : List (List Record)} {c act : List Record}
    {tail : List UInt8} (hd : CrashDir crc config d (preC ++ c :: postC) act tail) (b : ℕ) :
    (d.log b).isSome ↔ (b ∈ basesOf 0 preC ∨ b = nextBase preC) ∨
      b ∈ basesOf (nextBase preC + c.length) postC ∨
      b = nextBase preC + c.length + nextBase postC := by
  rw [hd.files, basesOf_append, Nat.zero_add, List.mem_append, basesOf, List.mem_cons,
    nextBase_append, nextBase_cons, Nat.add_assoc]
  tauto

theorem CrashDir.next_isSome {d : Dir} {preC postC : List (List Record)} {c act : List Record}
    {tail : List UInt8} (hd : CrashDir crc config d (preC ++ c :: postC) act tail) :
    (d.log (nextBase preC + c.length)).isSome := by
  rw [hd.files_split]
  cases postC with
  | nil => exact .inr (.inr rfl)
  | cons => exact .inr (.inl List.mem_cons_self)

theorem CrashDir.target {rs : List Record} {d : Dir} {preC postC : List (List Record)}
    {c act : List Record} {tail : List UInt8}
    (hd : CrashDir crc config d (preC ++ c :: postC) act tail)
    (hrs : (preC ++ c :: postC).flatten ++ act = rs) : Target crc config rs d preC c := by
  obtain ⟨-, hne, hfile, -⟩ := tiled_append.mp hd.closed
  rw [Nat.zero_add] at hfile
  refine ⟨hfile.log_file, fun b hb hsome => ?_, ⟨postC.flatten ++ act, ?_⟩,
    .inr ⟨hne, hd.next_isSome⟩⟩
  · rcases (hd.files_split b).mp hsome with (hin | heq) | hin | heq
    · exact hin
    · omega
    · have hle := le_of_mem_basesOf hin
      omega
    · omega
  · rw [← hrs]
    simp

section Split

variable {d d' : Dir} {preC postC : List (List Record)} {c act : List Record} {m : ℕ}

/-- What is before the files that go is as it was. -/
theorem Removed.before (hd : CrashDir crc config d (preC ++ c :: postC) act [])
    (h : Removed (nextBase preC + c.length) m d d') :
    c ≠ [] ∧ Tiled (ClosedFileOk crc config d') 0 preC ∧
      ClosedFileOk crc config d' (nextBase preC) c ∧
      ∀ b < nextBase preC + c.length,
        ((d'.log b).isSome ↔ b ∈ basesOf 0 preC ∨ b = nextBase preC) := by
  obtain ⟨hpre, hne, hfile, -⟩ := tiled_append.mp hd.closed
  rw [Nat.zero_add] at hfile
  have hpos := List.length_pos_of_ne_nil hne
  have hsame : ∀ b < nextBase preC + c.length,
      d'.log b = d.log b ∧ d'.index b = d.index b := fun b hb =>
    ⟨by rw [h.log_eq, if_neg (by omega)], h.index_eq b (.inl hb)⟩
  obtain ⟨hlog, hindex⟩ := hsame (nextBase preC) (by omega)
  refine ⟨hne, hpre.imp fun b hb c' h' => ?_, ⟨hlog ▸ hfile.log_file, hindex ▸ hfile.index_file,
    hfile.numbered, hfile.size_le⟩, fun b hb => ?_⟩
  · have hlt := hpre.lt_end hb
    obtain ⟨hlog, hindex⟩ := hsame b (by omega)
    exact ⟨hlog ▸ h'.log_file, hindex ▸ h'.index_file, h'.numbered, h'.size_le⟩
  · rw [(hsame b hb).1, hd.files_split]
    refine or_iff_left ?_
    rintro (hin | heq)
    · have hle := le_of_mem_basesOf hin
      omega
    · omega

theorem Removed.crashDir (hd : CrashDir crc config d (preC ++ c :: postC) act [])
    (h : Removed (nextBase preC + c.length) m d d')
    (hnone : ∀ b, nextBase preC + c.length ≤ b → d'.log b = none) :
    CrashDir crc config d' preC c [] := by
  obtain ⟨hne, hclosed, hfile, hfiles⟩ := h.before hd
  have hpos := List.length_pos_of_ne_nil hne
  obtain ⟨synced, hlast⟩ := hfile.log_file
  refine ⟨hclosed, ⟨synced, by rw [hlast, List.append_nil]⟩, hfile.numbered, hfile.size_le,
    .inl rfl, fun b => ?_⟩
  rcases Nat.lt_or_ge b (nextBase preC + c.length) with hlt | hge
  · exact hfiles b hlt
  · rw [hnone b hge]
    refine iff_of_false nofun ?_
    rintro (hin | heq)
    · have hlt := hclosed.lt_end hin
      omega
    · omega

/-- The lowest one is gone, another one is not. -/
theorem Removed.gap (hd : CrashDir crc config d (preC ++ c :: postC) act [])
    (h : Removed (nextBase preC + c.length) m d d')
    (hgone : d'.log (nextBase preC + c.length) = none)
    (hmore : ∃ b, nextBase preC + c.length < b ∧ (d'.log b).isSome) :
    Gap crc config d' (preC ++ [c]) := by
  obtain ⟨hne, hclosed, hfile, hfiles⟩ := h.before hd
  refine ⟨hclosed.snoc hne (by rwa [Nat.zero_add]), by simp, fun b hb => ?_, by simpa using hmore⟩
  rw [basesOf_append, Nat.zero_add, nextBase_append, nextBase_cons, nextBase_nil]
  rcases Nat.lt_trichotomy b (nextBase preC + c.length) with hlt | rfl | hgt
  · left
    simpa [basesOf] using (hfiles b hlt).mp hb
  · rw [hgone] at hb
    cases hb
  · exact .inr hgt

theorem Removed.cutting {rs : List Record} {n : ℕ}
    (hd : CrashDir crc config d (preC ++ c :: postC) act [])
    (hrs : (preC ++ c :: postC).flatten ++ act = rs) (hn : n ≤ nextBase preC + c.length)
    (h : Removed (nextBase preC + c.length) m d d') : Cutting crc config rs n d d' := by
  by_cases hsome : ∃ b, nextBase preC + c.length ≤ b ∧ b < m ∧ (d.log b).isSome
  · obtain ⟨b, hlo, hm, -⟩ := hsome
    -- the lowest one is gone
    have hgone : d'.log (nextBase preC + c.length) = none := by
      rw [h.log_eq, if_pos (by omega)]
    by_cases hmore : ∃ b, nextBase preC + c.length < b ∧ (d'.log b).isSome
    · exact .gap (h.gap hd hgone hmore)
    · refine (hd.target hrs).cutting (k := c.length) le_rfl ?_ hn
      rw [List.take_length]
      refine h.crashDir hd fun b hb => ?_
      by_contra hne'
      rcases hb.eq_or_lt with rfl | hgt
      · exact hne' hgone
      · exact hmore ⟨b, hgt, Option.isSome_iff_ne_none.mpr hne'⟩
  · have hlog : ∀ b, d'.log b = d.log b := by
      intro b
      rw [h.log_eq]
      split_ifs with hin
      · by_contra hne'
        exact hsome ⟨b, hin.1, hin.2, Option.isSome_iff_ne_none.mpr (Ne.symm hne')⟩
      · rfl
    have hindex : ∀ b, (d.log b).isSome → d'.index b = d.index b := fun b hb =>
      h.index_eq b (by
        by_contra hin
        exact hsome ⟨b, by omega, by omega, hb⟩)
    refine .opens ⟨_, act, [], hrs, hd.frame hlog hindex⟩ (List.prefix_refl rs) ?_
      (fun m hm _ => hm) fun b b' _ hb _ => by rw [hlog, hb]
    have hle := (hd.target hrs).flat.length_le
    rw [List.length_append] at hle
    exact hn.trans hle

theorem CrashDir.removeOps_cutting {rs : List Record} {n : ℕ} {fs : Fs}
    (hd : CrashDir crc config fs.dir (preC ++ c :: postC) act [])
    (hrs : (preC ++ c :: postC).flatten ++ act = rs) (hn : n ≤ nextBase preC + c.length)
    {bs : List ℕ} (hbs : bs = basesOf (nextBase preC + c.length) postC ++
      [nextBase preC + c.length + nextBase postC]) :
    Passes (Cutting crc config rs n fs.dir) fs (removeOps bs) ∧
      CrashDir crc config (fs.advance (removeOps bs)).dir preC c [] := by
  obtain ⟨-, -, -, hpost⟩ := tiled_append.mp hd.closed
  rw [Nat.zero_add] at hpost
  have hlo : ∀ b ∈ bs, nextBase preC + c.length ≤ b := fun b hb => by
    rw [hbs, List.mem_append, List.mem_singleton] at hb
    rcases hb with hin | heq
    · exact le_of_mem_basesOf hin
    · omega
  obtain ⟨hpasses, m', hend, hnone⟩ := removeOps_passes (hbs ▸ hpost.pairwise) .refl hlo hlo
    fun b hb hsome => by
      rw [hbs, List.mem_append, List.mem_singleton]
      refine ((hd.files_split b).mp hsome).resolve_left ?_
      rintro (hin | heq)
      · have hlt := (tiled_append.mp hd.closed).1.lt_end hin
        omega
      · have hpos := List.length_pos_of_ne_nil (tiled_append.mp hd.closed).2.1
        omega
  refine ⟨hpasses.imp fun d ⟨m, hm⟩ => hm.cutting hd hrs hn, hend.crashDir hd fun b hb => ?_⟩
  rw [hend.log_eq]
  split_ifs with hin
  · rfl
  · exact hnone b (by omega)

/-- What is left when the removal stops after `j` operations: a log that opens, or a gap. -/
theorem CrashDir.removeOps_take {rs : List Record} {n : ℕ} {fs : Fs}
    (hd : CrashDir crc config fs.dir (preC ++ c :: postC) act [])
    (hrs : (preC ++ c :: postC).flatten ++ act = rs) (hn : n ≤ nextBase preC + c.length)
    {bs : List ℕ} (hbs : bs = basesOf (nextBase preC + c.length) postC ++
      [nextBase preC + c.length + nextBase postC]) (j : ℕ) :
    (j = 0 ∨ 2 * (bs.length - 1) < j →
      Opens crc config rs n (fs.advance ((removeOps bs).take j)).dir) ∧
    (0 < j → j ≤ 2 * (bs.length - 1) →
      ∃ cs, Gap crc config (fs.advance ((removeOps bs).take j)).dir cs) := by
  obtain ⟨hpre, hne, -, hpost⟩ := tiled_append.mp hd.closed
  rw [Nat.zero_add] at hpost
  have hpair := hpost.pairwise
  have hpos := List.length_pos_of_ne_nil hne
  rw [← hbs] at hpair
  have hmem : ∀ b, b ∈ bs ↔ nextBase preC + c.length ≤ b ∧ (fs.dir.log b).isSome := by
    intro b
    rw [hd.files_split, hbs, List.mem_append, List.mem_singleton]
    constructor
    · rintro (hin | rfl)
      · exact ⟨le_of_mem_basesOf hin, .inr (.inl hin)⟩
      · exact ⟨Nat.le_add_right _ _, .inr (.inr rfl)⟩
    · rintro ⟨hle, (hin | rfl) | hin⟩
      · have hlt := hpre.lt_end hin
        omega
      · omega
      · exact hin
  have hlo : ∀ b ∈ bs, nextBase preC + c.length ≤ b := fun b hb => ((hmem b).mp hb).1
  obtain ⟨m, hm⟩ := (removeOps_passes hpair .refl hlo hlo
    fun b hb hsome => (hmem b).mpr ⟨hb, hsome⟩).1 _ (CrashPoint.take fs.dir (removeOps bs) j)
  have hlog := log_removeOps_take bs j fs.dir
  have hhead : ∃ rest, bs = (nextBase preC + c.length) :: rest := by
    rw [hbs]
    cases postC with
    | nil => exact ⟨[], rfl⟩
    | cons => exact ⟨_, rfl⟩
  obtain ⟨rest, hrest⟩ := hhead
  refine ⟨fun hj => ?_, fun hpos' hj => ?_⟩
  · rcases hj with rfl | hj
    · refine ⟨rs.length, ?_, le_rfl, _, act, [], by rw [List.take_length]; exact hrs, hd⟩
      have hle := (hd.target hrs).flat.length_le
      rw [List.length_append] at hle
      exact hn.trans hle
    · have hall : bs.take ((j + 1) / 2) = bs := List.take_of_length_le (by omega)
      rw [hall] at hlog
      have hleft := hm.crashDir hd fun b hb => by
        rw [hlog]
        split_ifs with hin
        · rfl
        · by_contra hsome
          exact hin ((hmem b).mpr ⟨hb, Option.isSome_iff_ne_none.mpr hsome⟩)
      exact (hd.target hrs).opens le_rfl (List.take_length.symm ▸ hleft) hn
  · have hlast : bs ≠ [] := by simp [hrest]
    have hkept : bs.getLast hlast ∉ bs.take ((j + 1) / 2) := by
      intro hin
      have hsplit := List.take_append_drop ((j + 1) / 2) bs
      have hdrop : bs.drop ((j + 1) / 2) ≠ [] := by
        rw [← List.length_pos_iff, List.length_drop]
        omega
      have hlt := (List.pairwise_append.mp (hsplit.symm ▸ hpair)).2.2 _ hin _
        (List.getLast_mem hdrop)
      rw [List.getLast_drop] at hlt
      exact Nat.lt_irrefl _ hlt
    have hgone : nextBase preC + c.length ∈ bs.take ((j + 1) / 2) := by
      obtain ⟨i, hi⟩ : ∃ i, (j + 1) / 2 = i + 1 := ⟨(j + 1) / 2 - 1, by omega⟩
      rw [hi, hrest, List.take_succ_cons]
      exact List.mem_cons_self
    have hsome := ((hmem _).mp (List.getLast_mem hlast))
    refine ⟨_, hm.gap hd ?_ ⟨bs.getLast hlast, ?_, ?_⟩⟩
    · rw [Fs.dir_advance, hlog, if_pos hgone]
    · refine lt_of_le_of_ne hsome.1 fun heq => ?_
      rw [heq] at hgone
      exact hkept hgone
    · rw [Fs.dir_advance, hlog, if_neg hkept]
      exact hsome.2

end Split

/-- The operations of a cut: files go from the segments at `bs` one by one, and while some are gone
and others are not, there is a gap. The rest leaves only directories that open. -/
structure Cuts (crc : List UInt8 → UInt32) (config : LogConfig) (rs : List Record) (n : ℕ) (fs : Fs)
    (bs : List ℕ) (ops : List FsOp) : Prop where
  rest : ∃ more, ops = removeOps bs ++ more ∧
    Passes (Opens crc config rs n) (fs.advance (removeOps bs)) more
  outside : ∀ j, j = 0 ∨ 2 * (bs.length - 1) < j →
    Opens crc config rs n (fs.advance ((removeOps bs).take j)).dir
  inside : ∀ j, 0 < j → j ≤ 2 * (bs.length - 1) →
    ∃ cs, Gap crc config (fs.advance ((removeOps bs).take j)).dir cs

private theorem length_removeOps (bs : List ℕ) : (removeOps bs).length = 2 * bs.length := by
  induction bs with
  | nil => rfl
  | cons b bs ih =>
    rw [removeOps] at ih
    rw [removeOps, List.flatMap_cons, List.length_append, ih]
    simp only [List.length_cons, List.length_nil]
    omega

/-- A crash between two operations of a cut leaves a log that opens, or a gap. -/
theorem Cuts.opens {rs : List Record} {n : ℕ} {fs : Fs} {bs : List ℕ} {ops : List FsOp}
    (h : Cuts crc config rs n fs bs ops) {j : ℕ} (hj : j = 0 ∨ 2 * (bs.length - 1) < j) :
    Opens crc config rs n (fs.advance (ops.take j)).dir := by
  obtain ⟨more, rfl, hmore⟩ := h.rest
  rcases Nat.le_total j (removeOps bs).length with hle | hle
  · rw [List.take_append_of_le_length hle]
    exact h.outside j hj
  · rw [List.take_append, List.take_of_length_le hle, ← Fs.advance_advance]
    exact hmore _ (CrashPoint.take _ more _)

theorem Cuts.gap {rs : List Record} {n : ℕ} {fs : Fs} {bs : List ℕ} {ops : List FsOp}
    (h : Cuts crc config rs n fs bs ops) {j : ℕ} (hpos : 0 < j) (hj : j ≤ 2 * (bs.length - 1)) :
    ∃ cs, Gap crc config (fs.advance (ops.take j)).dir cs := by
  obtain ⟨more, rfl, -⟩ := h.rest
  rw [List.take_append_of_le_length (by rw [length_removeOps]; omega)]
  exact h.inside j hpos hj

end Replog.Storage
