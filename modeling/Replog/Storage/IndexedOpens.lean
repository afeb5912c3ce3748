import Replog.Storage.SoundIndexes

/-!
# Opening with other index files

A directory is opened twice, once without its index files and once with any. If both openings pass,
the logs differ in the indexes of the rolled segments only. The second one passes where the indexes
that load are sound.
-/

namespace Replog.Storage
open Replog.Library

variable {crc : List UInt8 → UInt32} {config : LogConfig}

/-- The segment file of a rolled segment, whatever its index file holds. -/
structure RolledFile (crc : List UInt8 → UInt32) (config : LogConfig) (d : Dir) (base : ℕ)
    (chunk : List Record) : Prop where
  log_file : ∃ synced, d.log base = some ⟨encodeAll crc chunk, synced⟩
  numbered : Numbered config base chunk
  size_le : totalLen chunk ≤ 2 ^ 30

theorem ClosedFileOk.rolledFile {d d' : Dir} {base : ℕ} {chunk : List Record}
    (h : ClosedFileOk crc config d base chunk) (hlog : d'.log base = d.log base) :
    RolledFile crc config d' base chunk :=
  ⟨hlog ▸ h.log_file, h.numbered, h.size_le⟩

/-! ## Recovering the segments -/

theorem checkBase_ok {base : ℕ} {expected : Option ℕ} (h : expected = none ∨ expected = some base)
    (fs : Fs) : (Log.checkBase base expected).run fs = .ok () fs := by
  rcases h with rfl | rfl <;> simp [Log.checkBase]

/-- A recovery that passes starts where it is expected to. -/
theorem recoverAll_head {base e : ℕ} {rest : List ℕ} {closed : List Segment} {fs fs' : Fs}
    {found : List Segment × Option Segment}
    (h : (Log.recoverAll crc config (base :: rest) (some e) closed).run fs = .ok found fs') :
    base = e := by
  rw [Log.recoverAll, EStateM.run_bind] at h
  cases hfirst : (Segment.recover crc config base rest.isEmpty).run fs with
  | error err fs₁ =>
    rw [hfirst] at h
    cases h
  | ok seg fs₁ =>
    rw [hfirst] at h
    by_contra hne
    simp only [Log.checkBase, if_pos hne] at h
    cases h

private theorem recoverAll_rolled {base next : ℕ} {rest : List ℕ} {expected : Option ℕ}
    {closed : List Segment} {fs fs' : Fs} {found : List Segment × Option Segment}
    (hexpected : expected = none ∨ expected = some base)
    (h : (Log.recoverAll crc config (base :: next :: rest) expected closed).run fs =
      .ok found fs') :
    ∃ seg fs₁, (Segment.recover crc config base false).run fs = .ok seg fs₁ ∧
      seg.nextOffset = next ∧
      (Log.recoverAll crc config (next :: rest) (some seg.nextOffset)
        (Log.insertClosed seg closed)).run fs₁ = .ok found fs' := by
  rw [Log.recoverAll, EStateM.run_bind] at h
  cases hfirst : (Segment.recover crc config base false).run fs with
  | error err fs₁ =>
    simp only [List.isEmpty_cons, hfirst] at h
    cases h
  | ok seg fs₁ =>
    simp only [List.isEmpty_cons, hfirst, Bool.false_eq_true, if_false,
      run_bind_ok (checkBase_ok hexpected fs₁)] at h
    exact ⟨seg, fs₁, rfl, (recoverAll_head h).symm, h⟩

theorem recoverAll_step {base next : ℕ} {rest : List ℕ} {expected : Option ℕ}
    {closed : List Segment} {fs fs₁ : Fs} {seg : Segment}
    (hexpected : expected = none ∨ expected = some base)
    (h : (Segment.recover crc config base false).run fs = .ok seg fs₁) :
    (Log.recoverAll crc config (base :: next :: rest) expected closed).run fs =
      (Log.recoverAll crc config (next :: rest) (some seg.nextOffset)
        (Log.insertClosed seg closed)).run fs₁ := by
  rw [Log.recoverAll, EStateM.run_bind]
  simp only [List.isEmpty_cons, h, Bool.false_eq_true, if_false,
    run_bind_ok (checkBase_ok hexpected fs₁)]

theorem recoverAll_last {base : ℕ} {expected : Option ℕ} {closed : List Segment} {fs fs₁ : Fs}
    {seg : Segment} (hexpected : expected = none ∨ expected = some base)
    (h : (Segment.recover crc config base true).run fs = .ok seg fs₁) :
    (Log.recoverAll crc config [base] expected closed).run fs =
      .ok (closed, some seg) fs₁ := by
  rw [Log.recoverAll, EStateM.run_bind]
  simp only [List.isEmpty_nil, h, if_true, run_bind_ok (checkBase_ok hexpected fs₁)]
  rfl

theorem bases_eq_cons (b next : ℕ) (cs : List (List Record)) (rest : List ℕ) :
    ∃ first more, basesOf b cs ++ next :: rest = first :: more ∧ (cs = [] → first = next) ∧
      (cs ≠ [] → first = b) := by
  cases cs with
  | nil => exact ⟨next, rest, rfl, fun _ => rfl, fun h => absurd rfl h⟩
  | cons c cs => exact ⟨b, _, rfl, nofun, fun _ => rfl⟩

private theorem recover_trusted (hc : config.Valid) {fs : Fs} (hfs : fs.Healthy) {base : ℕ}
    {chunk : List Record} (hfile : RolledFile crc config fs.dir base chunk)
    (h : Trusted crc config fs.dir base) :
    ∃ seg fs₁, (Segment.recover crc config base false).run fs = .ok seg fs₁ ∧
      seg.nextOffset = base + chunk.length ∧ OnlyIndex base fs fs₁ ∧ fs₁.Healthy := by
  obtain ⟨synced, hlog⟩ := hfile.log_file
  cases hload : SparseIndex.loaded (fs.dir.index base) with
  | none =>
    have hrunLoad := SparseIndex.run_load base fs
    rw [hload] at hrunLoad
    obtain ⟨seg, ops, hrun, hok, honly, -⟩ :=
      recover_rebuilt hc hfs hlog hrunLoad hfile.numbered hfile.size_le
    exact ⟨seg, _, hrun, hok.next_eq, honly, Fs.advance_healthy _ _⟩
  | some idx =>
    obtain ⟨used, hrun⟩ := (h idx _ hload hlog).recover hc hlog hload hfile.numbered
    exact ⟨_, fs, hrun, rfl, .refl _ _, hfs⟩

/-- The rolled segments up to `next`, each with a trusted index. -/
theorem recoverAll_trusted (hc : config.Valid) {d : Dir} {cs : List (List Record)} {b next : ℕ}
    (rest : List ℕ) {expected : Option ℕ} (closed : List Segment) {fs : Fs} (hfs : fs.Healthy)
    (htiled : Tiled (RolledFile crc config d) b cs)
    (htrusted : ∀ base ∈ basesOf b cs, Trusted crc config d base)
    (hsame : ∀ base, b ≤ base → fs.dir.log base = d.log base ∧ fs.dir.index base = d.index base)
    (hexpected : expected = none ∨ expected = some b) :
    ∃ expected₁ closed₁ fs₁,
      (Log.recoverAll crc config (basesOf b cs ++ next :: rest) expected closed).run fs =
        (Log.recoverAll crc config (next :: rest) expected₁ closed₁).run fs₁ ∧
      (cs ≠ [] ∧ expected₁ = some (b + nextBase cs) ∨ cs = [] ∧ expected₁ = expected) ∧
      fs₁.Healthy ∧ ∀ base, b + nextBase cs ≤ base → fs₁.dir.log base = d.log base := by
  induction cs generalizing b expected closed fs with
  | nil =>
    exact ⟨expected, closed, fs, rfl, .inr ⟨rfl, rfl⟩, hfs, fun base hb => (hsame base hb).1⟩
  | cons c cs ih =>
    obtain ⟨hne, hfile, hrest⟩ := htiled
    obtain ⟨hlog, hindex⟩ := hsame b le_rfl
    have hfile' : RolledFile crc config fs.dir b c :=
      ⟨hlog ▸ hfile.log_file, hfile.numbered, hfile.size_le⟩
    have htrust : Trusted crc config fs.dir b := by
      rw [Trusted, hlog, hindex]
      exact htrusted b List.mem_cons_self
    obtain ⟨seg, fs₁, hrun, hnext, honly, hfs₁⟩ := recover_trusted hc hfs hfile' htrust
    have hpos := List.length_pos_of_ne_nil hne
    obtain ⟨expected₁, closed₁, fs₂, hrun', hcase, hfs₂, hlogs⟩ :=
      @ih _ (some seg.nextOffset) (Log.insertClosed seg closed) _ hfs₁ hrest
        (fun base hbase => htrusted base (List.mem_cons_of_mem b hbase))
        (fun base hbase => ⟨(honly.log_eq base).trans (hsame base (by omega)).1,
          (honly.index_eq base (by omega)).trans (hsame base (by omega)).2⟩)
        (.inr (by rw [hnext]))
    obtain ⟨first, more, hbases, -⟩ := bases_eq_cons (b + c.length) next cs rest
    refine ⟨expected₁, closed₁, fs₂, ?_, .inl ⟨List.cons_ne_nil c cs, ?_⟩, hfs₂, ?_⟩
    · rw [hbases] at hrun'
      rw [basesOf, List.cons_append, hbases, recoverAll_step hexpected hrun, hrun']
    · rw [nextBase_cons, ← Nat.add_assoc]
      rcases hcase with ⟨-, hcase⟩ | ⟨rfl, hcase⟩
      · exact hcase
      · rw [hcase, hnext, nextBase_nil, Nat.add_zero]
    · rw [nextBase_cons, ← Nat.add_assoc]
      exact hlogs

private theorem recoverAll_stored (hc : config.Valid) {d : Dir} {cs : List (List Record)}
    {act : List Record} {tail : List UInt8} {b synced : ℕ} {expected : Option ℕ}
    {closed closed' : List Segment} {fs fs' : Fs} (hfs : fs.Healthy)
    (htiled : Tiled (RolledFile crc config fs.dir) b cs)
    (hnone : ∀ base, b ≤ base → fs.dir.index base = none)
    (hsame : ∀ base, b ≤ base → d.log base = fs'.dir.log base ∧ d.index base = fs'.dir.index base)
    (hnewest : fs.dir.log (b + nextBase cs) = some ⟨encodeAll crc act ++ tail, synced⟩)
    (hnum : Numbered config (b + nextBase cs) act) (hsize : totalLen act ≤ 2 ^ 30)
    (htorn : Torn crc config tail) (hexpected : expected = none ∨ expected = some b)
    (hclosed : List.Forall₂ (Stored crc config d) closed closed')
    (hbelow : ∀ seg ∈ closed, seg.baseOffset < b) (hlevel : Level fs fs')
    {found : List Segment × Option Segment} {fs₁' : Fs}
    (hrun' : (Log.recoverAll crc config (basesOf b cs ++ [b + nextBase cs]) expected closed').run
      fs' = .ok found fs₁') :
    ∃ closed₁ active fs₁,
      (Log.recoverAll crc config (basesOf b cs ++ [b + nextBase cs]) expected closed).run fs =
        .ok (closed₁, some active) fs₁ ∧
      found.2 = some active ∧ List.Forall₂ (Stored crc config d) closed₁ found.1 ∧
      Level fs₁ fs₁' := by
  induction cs generalizing b expected closed closed' fs fs' with
  | nil =>
    obtain ⟨seg, ops, hrun, -⟩ := recover_newest_spec hc hfs hnewest hnum hsize htorn
    obtain ⟨fs₂', hrun₂, hlevel₂⟩ :=
      recover_newest_follows crc config level_carried (b + nextBase []) fs fs' hlevel seg _ hrun
    rw [nextBase_nil, Nat.add_zero] at hrun hrun₂ hrun' ⊢
    rw [basesOf, List.nil_append, recoverAll_last hexpected hrun₂] at hrun'
    cases hrun'
    exact ⟨closed, seg, _, recoverAll_last hexpected hrun, rfl, hclosed, hlevel₂⟩
  | cons c cs ih =>
    obtain ⟨hne, hfile, hrest⟩ := htiled
    have hpos := List.length_pos_of_ne_nil hne
    obtain ⟨synced', hlog⟩ := hfile.log_file
    have hend : b + nextBase (c :: cs) = b + c.length + nextBase cs := by
      rw [nextBase_cons, Nat.add_assoc]
    rw [hend] at hnewest hnum hrun' ⊢
    obtain ⟨first, more, hbases, hnil, hcons⟩ :=
      bases_eq_cons (b + c.length) (b + c.length + nextBase cs) cs []
    have hfirst : first = b + c.length := by
      by_cases hcs : cs = []
      · rw [hnil hcs, hcs, nextBase_nil, Nat.add_zero]
      · exact hcons hcs
    rw [basesOf, List.cons_append, hbases] at hrun' ⊢
    obtain ⟨seg', fs₂', hrecover', hnext', hrun'⟩ := recoverAll_rolled hexpected hrun'
    obtain ⟨seg, ops, hrecover, hok, honly, hstored, hlevel', honly'⟩ :=
      recover_stored hc hfs hlog (hnone b le_rfl) hfile.numbered hfile.size_le hlevel hrecover'
        (hnext'.trans hfirst)
    obtain ⟨hdlog, hdindex⟩ := hsame b le_rfl
    have hstored' : Stored crc config d seg seg' :=
      hstored.frame (by rw [hok.base_eq, hdlog]) (by rw [hok.base_eq, hdindex])
    have hbelow' : ∀ s ∈ closed', s.baseOffset < b := by
      have hbases := bases_paired (fun h => Stored.base_eq h) hclosed
      intro s hs
      have hmem := hbases ▸ List.mem_map_of_mem (f := Segment.baseOffset) hs
      obtain ⟨s₀, hs₀, hs₀'⟩ := List.mem_map.mp hmem
      rw [← hs₀']
      exact hbelow s₀ hs₀
    have hinsert : Log.insertClosed seg closed = closed ++ [seg] :=
      insertClosed_of_lt fun s hs => hok.base_eq ▸ hbelow s hs
    have hinsert' : Log.insertClosed seg' closed' = closed' ++ [seg'] :=
      insertClosed_of_lt fun s hs => (hstored.base_eq.trans hok.base_eq) ▸ hbelow' s hs
    rw [recoverAll_step hexpected hrecover, hinsert, hok.next_eq, ← hbases]
    rw [hinsert', hnext', hfirst, ← hfirst, ← hbases, hfirst] at hrun'
    refine ih (Fs.advance_healthy fs ops) ?_ (fun base hbase => ?_) (fun base hbase => ?_) ?_ hnum
      (.inr rfl) (List.rel_append hclosed (.cons hstored' .nil)) ?_ hlevel' hrun'
    · exact hrest.imp fun base _ chunk h =>
        ⟨honly.log_eq base ▸ h.log_file, h.numbered, h.size_le⟩
    · rw [honly.index_eq base (by omega)]
      exact hnone base (by omega)
    · obtain ⟨hlog, hindex⟩ := hsame base (by omega)
      exact ⟨hlog.trans (honly'.log_eq base).symm,
        hindex.trans (honly'.index_eq base (by omega)).symm⟩
    · rw [honly.log_eq]
      exact hnewest
    · intro s hs
      rcases List.mem_append.mp hs with hs | hs
      · have hlt := hbelow s hs
        omega
      · rw [List.mem_singleton.mp hs, hok.base_eq]
        omega

/-! ## Opening -/

/-- The log over the segments that were recovered. -/
def recoveredLog (config : LogConfig) (clock : Clock) (closed : List Segment) (active : Segment) :
    Log :=
  { config, closed, active
    durableOffset := Log.checkedPred active.nextOffset
    dirtyBytes := 0
    lastFlush := clock.instantMs }

theorem openDir_of_recoverAll (hc : config.Valid) {fs fs₁ : Fs} {closed : List Segment}
    {active : Segment} (hne : fs.dir.logs.keys.insertionSort (· ≤ ·) ≠ [])
    (h : (Log.recoverAll crc config (fs.dir.logs.keys.insertionSort (· ≤ ·)) none []).run fs =
      .ok (closed, some active) fs₁) (clock : Clock) :
    (Log.openDir crc config clock).run fs = .ok (recoveredLog config clock closed active) fs₁ := by
  have hvalid := config.validate_eq_ok_iff.mpr hc
  have hget : (get : FsM Fs).run fs = .ok fs fs := rfl
  have hempty := List.isEmpty_eq_false_iff.mpr hne
  simp only [Log.openDir, hvalid, EStateM.run_bind, EStateM.run_pure, hget, hempty,
    Bool.false_eq_true, if_false, h, recoveredLog]

theorem recoverAll_of_openDir (hc : config.Valid) {fs fs₁ : Fs} {log : Log} {clock : Clock}
    (hne : fs.dir.logs.keys.insertionSort (· ≤ ·) ≠ [])
    (h : (Log.openDir crc config clock).run fs = .ok log fs₁) :
    ∃ found, (Log.recoverAll crc config (fs.dir.logs.keys.insertionSort (· ≤ ·)) none []).run fs =
      .ok found fs₁ := by
  have hvalid := config.validate_eq_ok_iff.mpr hc
  have hget : (get : FsM Fs).run fs = .ok fs fs := rfl
  have hempty := List.isEmpty_eq_false_iff.mpr hne
  simp only [Log.openDir, hvalid, EStateM.run_bind, hget, hempty, Bool.false_eq_true, if_false] at h
  cases hrec :
    (Log.recoverAll crc config (fs.dir.logs.keys.insertionSort (· ≤ ·)) none []).run fs with
  | error e fs₂ =>
    rw [hrec] at h
    cases h
  | ok found fs₂ =>
    rw [hrec] at h
    obtain ⟨closed, active⟩ := found
    cases active with
    | none => cases h
    | some active =>
      cases h
      exact ⟨_, rfl⟩

section Open

variable {d : Dir} {cs : List (List Record)} {act : List Record} {tail : List UInt8}
  {indexes : AList fun _ : ℕ => List UInt8}

theorem CrashDir.withoutIndexes (h : CrashDir crc config d cs act tail) :
    CrashDir crc config { d with indexes := ∅ } cs act tail :=
  ⟨h.closed.imp fun _ _ _ hfile => ⟨hfile.log_file, nofun, hfile.numbered, hfile.size_le⟩,
    h.newest, h.numbered, h.size_le, h.torn, h.files⟩

theorem level_withoutIndexes (d : Dir) (indexes : AList fun _ : ℕ => List UInt8) :
    Level ⟨{ d with indexes := ∅ }, [], []⟩ ⟨{ d with indexes }, [], []⟩ :=
  ⟨fun _ => rfl, nofun, rfl⟩

/-- If the directory opens with other index files, the rolled segments are what these make of
them. -/
theorem openDir_stored (hc : config.Valid) (hd : CrashDir crc config d cs act tail) {clock : Clock}
    {log' : Log} {fs₁' : Fs}
    (hrun' : (Log.openDir crc config clock).run ⟨{ d with indexes }, [], []⟩ = .ok log' fs₁') :
    ∃ log fs₁, (Log.openDir crc config clock).run ⟨{ d with indexes := ∅ }, [], []⟩ =
        .ok log fs₁ ∧
      LogOk crc config (log, fs₁) cs act ∧
      Apart config (Stored crc config { d with indexes }) Level (log, fs₁) (log', fs₁') := by
  obtain ⟨log, fs₁, hrun, hok⟩ := openDir_spec hc
    (show Fs.Healthy ⟨{ d with indexes := ∅ }, [], []⟩ from rfl) hd.withoutIndexes clock
  refine ⟨log, fs₁, hrun, hok, ?_⟩
  have hbases := sorted_bases hd.closed hd.files
  have hne : d.logs.keys.insertionSort (· ≤ ·) ≠ [] := by
    rw [hbases]
    simp
  obtain ⟨found, hrec'⟩ := recoverAll_of_openDir hc (by exact hne) hrun'
  obtain ⟨synced, hnewest⟩ := hd.newest
  dsimp only at hrec'
  rw [hbases, ← Nat.zero_add (nextBase cs)] at hrec'
  obtain ⟨closed₁, active, fs₂, hrec, hactive, hclosed, hlevel⟩ := recoverAll_stored hc
    (show Fs.Healthy ⟨{ d with indexes := ∅ }, [], []⟩ from rfl)
    (hd.closed.imp fun _ _ _ h => h.rolledFile rfl) (fun _ _ => rfl) (fun _ _ => ⟨rfl, rfl⟩)
    (by rw [Nat.zero_add]; exact hnewest) (by rw [Nat.zero_add]; exact hd.numbered) hd.size_le
    hd.torn (.inl rfl) .nil nofun (level_withoutIndexes d indexes) hrec'
  rw [Nat.zero_add, ← hbases] at hrec hrec'
  rw [openDir_of_recoverAll hc (by exact hne) hrec] at hrun
  obtain ⟨closed', active'⟩ := found
  cases hactive
  rw [openDir_of_recoverAll hc (by exact hne) hrec'] at hrun'
  cases hrun
  cases hrun'
  exact ⟨rfl, rfl, hclosed, hlevel⟩

/-- Every rolled segment has an index file that does not load or a sound one. -/
def TrustedRolled (crc : List UInt8 → UInt32) (config : LogConfig) (d : Dir) : Prop :=
  ∀ base base', base < base' → (d.log base').isSome → Trusted crc config d base

theorem TrustedRolled.of_mem {next : ℕ} {rest : List ℕ} (h : TrustedRolled crc config d)
    (hbases : d.logs.keys.insertionSort (· ≤ ·) = basesOf 0 cs ++ next :: rest)
    (hlt : ∀ b ∈ basesOf 0 cs, b < next) : ∀ b ∈ basesOf 0 cs, Trusted crc config d b := by
  intro b hb
  refine h b next (hlt b hb) ?_
  rw [← Dir.mem_keys_logs, ← List.mem_insertionSort (· ≤ ·), hbases]
  exact List.mem_append_right _ List.mem_cons_self

theorem openDir_trusted (hc : config.Valid) (hd : CrashDir crc config d cs act tail)
    (h : TrustedRolled crc config { d with indexes }) (clock : Clock) :
    ∃ log fs₁, (Log.openDir crc config clock).run ⟨{ d with indexes }, [], []⟩ = .ok log fs₁ := by
  have hbases := sorted_bases hd.closed hd.files
  have hne : d.logs.keys.insertionSort (· ≤ ·) ≠ [] := by
    rw [hbases]
    simp
  have htiled : Tiled (RolledFile crc config { d with indexes }) 0 cs :=
    hd.closed.imp fun _ _ _ h => h.rolledFile rfl
  have htrusted := h.of_mem hbases fun b hb => by
    have hlt := htiled.lt_end hb
    omega
  obtain ⟨synced, hnewest⟩ := hd.newest
  obtain ⟨expected, closed, fs₁, hrun, hcase, hfs₁, hlogs⟩ := recoverAll_trusted hc [] []
    (show Fs.Healthy ⟨{ d with indexes }, [], []⟩ from rfl) htiled htrusted (fun _ _ => ⟨rfl, rfl⟩)
    (.inl rfl)
  rw [Nat.zero_add] at hcase hlogs
  obtain ⟨seg, ops, hlast, -⟩ := recover_newest_spec hc hfs₁ ((hlogs _ le_rfl).trans hnewest)
    hd.numbered hd.size_le hd.torn
  have hexpected : expected = none ∨ expected = some (nextBase cs) := by
    rcases hcase with ⟨-, hcase⟩ | ⟨-, hcase⟩
    · exact .inr hcase
    · exact .inl hcase
  rw [recoverAll_last hexpected hlast, ← hbases] at hrun
  exact ⟨_, _, openDir_of_recoverAll hc (by exact hne) hrun clock⟩

/-- A directory with a gap does not open with trusted indexes either. -/
theorem Gap.openDir_trusted (hc : config.Valid) (hd : Gap crc config d cs)
    (h : TrustedRolled crc config { d with indexes }) {clock : Clock} {log : Log} {fs₁ : Fs} :
    (Log.openDir crc config clock).run ⟨{ d with indexes }, [], []⟩ ≠ .ok log fs₁ := by
  intro hrun
  obtain ⟨next, rest, hnext, hbases⟩ := hd.sorted
  have hne : d.logs.keys.insertionSort (· ≤ ·) ≠ [] := by
    rw [hbases]
    simp
  have hsorted : (basesOf 0 cs ++ next :: rest).Pairwise (· ≤ ·) := by
    rw [← hbases]
    exact List.pairwise_insertionSort (· ≤ ·) d.logs.keys
  have htiled : Tiled (RolledFile crc config { d with indexes }) 0 cs :=
    hd.closed.imp fun _ _ _ h => h.rolledFile rfl
  have htrusted := h.of_mem hbases fun b hb => by
    have hle := (List.pairwise_append.mp hsorted).2.2 b hb next List.mem_cons_self
    have hnodup : (basesOf 0 cs ++ next :: rest).Nodup := by
      rw [← hbases]
      exact (List.perm_insertionSort _ _).nodup_iff.mpr d.logs.keys_nodup
    have hneq := (List.nodup_append.mp hnodup).2.2 b hb next List.mem_cons_self
    omega
  obtain ⟨found, hrec⟩ := recoverAll_of_openDir hc (by exact hne) hrun
  obtain ⟨expected, closed, fs₂, hsplit, hcase, -⟩ := recoverAll_trusted hc rest []
    (show Fs.Healthy ⟨{ d with indexes }, [], []⟩ from rfl) htiled htrusted (fun _ _ => ⟨rfl, rfl⟩)
    (.inl rfl)
  dsimp only at hrec
  rw [hbases, hsplit] at hrec
  rcases hcase with ⟨-, rfl⟩ | ⟨hnil, -⟩
  · rw [Nat.zero_add] at hrec
    exact hnext (recoverAll_head hrec)
  · exact hd.ne_nil hnil

end Open

end Replog.Storage
