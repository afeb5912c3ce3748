import Replog.Storage.Twins
import Replog.Storage.Walks

/-!
# What an index is trusted with

The index of a rolled segment is taken as it is once its entries ascend. The recovery goes on from
its last entry, and every read and every search for an offset starts at an entry. `IndexSound` says
which entries do no harm.
-/

namespace Replog.Storage
open Replog.Library

/-- Decoding forward from an entry leads to the record the entry names, and the last entry is that
record's position. -/
structure IndexSound (crc : List UInt8 → UInt32) (maxRecordBytes base : ℕ) (bytes : List UInt8)
    (es : List (ℕ × ℕ)) : Prop where
  leads : ∀ e ∈ es, ∃ rs q, Walk crc maxRecordBytes bytes 0 rs q ∧ rs.length = e.1 ∧
    LeadsTo crc maxRecordBytes bytes (base + e.1) e.2 q
  last : ∀ e, es.getLast? = some e → ∃ rs, Walk crc maxRecordBytes bytes 0 rs e.2 ∧ rs.length = e.1

/-- The index file of a segment does not load, or its entries do no harm. -/
def Trusted (crc : List UInt8 → UInt32) (config : LogConfig) (d : Dir) (base : ℕ) : Prop :=
  ∀ idx file, SparseIndex.loaded (d.index base) = some idx → d.log base = some file →
    IndexSound crc config.maxRecordBytes base file.bytes idx.entries

variable {crc : List UInt8 → UInt32} {config : LogConfig}

/-! ## Segments with a sound index -/

/-- A segment over the records of `chunk`, with an index that does no harm. -/
structure Faithful (crc : List UInt8 → UInt32) (config : LogConfig) (base : ℕ)
    (chunk : List Record) (seg : Segment) : Prop where
  base_eq : seg.baseOffset = base
  next_eq : seg.nextOffset = base + chunk.length
  size_eq : seg.size = totalLen chunk
  numbered : Numbered config base chunk
  size_le : totalLen chunk ≤ 2 ^ 30
  sound : IndexSound crc config.maxRecordBytes base (encodeAll crc chunk) seg.index.entries

/-- An index that was written by the log is sound. -/
theorem IndexOk.sound (hc : config.Valid) {base : ℕ} {chunk : List Record} {es : List (ℕ × ℕ)}
    (h : IndexOk chunk es) (hnum : Numbered config base chunk) :
    IndexSound crc config.maxRecordBytes base (encodeAll crc chunk) es := by
  have hexact : ∀ e ∈ es, ∃ rs, Walk crc config.maxRecordBytes (encodeAll crc chunk) 0 rs e.2 ∧
      rs.length = e.1 := fun e he => (walk_start_iff hc hnum (h.position e he).1).mpr
    (h.position e he).2
  refine ⟨fun e he => ?_, fun e he => hexact e (List.mem_of_getLast? he)⟩
  obtain ⟨rs, hwalk, hlen⟩ := hexact e he
  exact ⟨rs, e.2, hwalk, hlen, [], .nil _, nofun⟩

theorem SegmentOk.faithful (hc : config.Valid) {dir : Dir} {seg : Segment} {base : ℕ}
    {chunk : List Record} (h : SegmentOk crc config dir seg base chunk) :
    Faithful crc config base chunk seg :=
  ⟨h.base_eq, h.next_eq, h.size_eq, h.numbered, h.size_le, h.index_ok.sound hc h.numbered⟩

/-- Two runs that a read may return are the same. -/
theorem ReadRun.unique {maxBytes : ℕ} {avail run run' : List Record}
    (h : ReadRun maxBytes avail run) (h' : ReadRun maxBytes avail run') : run = run' := by
  have hsub := h.isPrefix_of h'.isPrefix h'.within
  have hsub' := h'.isPrefix_of h.isPrefix h.within
  exact hsub'.eq_of_length_le hsub.length_le

namespace Faithful

variable {fs : Fs} {seg : Segment} {base k synced : ℕ} {chunk : List Record}

theorem shape (h : Faithful crc config base chunk seg) {dir : Dir}
    (hfile : dir.log base = some ⟨encodeAll crc chunk, synced⟩) :
    Shape crc config dir seg base chunk :=
  ⟨h.base_eq, h.next_eq, h.size_eq, ⟨synced, hfile⟩, h.numbered⟩

theorem startPos (hc : config.Valid) (h : Faithful crc config base chunk seg)
    (hk : k < chunk.length) :
    LeadsTo crc config.maxRecordBytes (encodeAll crc chunk) (base + k) (seg.startPos (base + k))
      (totalLen (chunk.take k)) := by
  have hlt : k < 2 ^ 32 := by
    have hlen := length_le_totalLen chunk
    have hsize := h.size_le
    omega
  -- the records from the entry's own on, up to the target
  have hbelow : ∀ {j}, j ≤ k → ∀ r ∈ (chunk.drop j).take (k - j), r.offset < base + k := by
    intro j hj r hr
    obtain ⟨i, hi, rfl⟩ := List.getElem_of_mem hr
    rw [List.length_take] at hi
    have hget : chunk[j + i]? = some ((chunk.drop j).take (k - j))[i] := by
      rw [List.getElem_take, List.getElem_drop, List.getElem?_eq_getElem (by omega)]
    rw [h.numbered.offset_eq hget]
    omega
  rw [Segment.startPos, h.base_eq, Nat.add_sub_cancel_left, u32_of_lt hlt, SparseIndex.lookup]
  cases hfind : seg.index.entries.reverse.find? fun e => e.1 ≤ k with
  | none =>
    refine ⟨chunk.take k, walk_encodeAll hc h.numbered (Nat.zero_le k) hk.le, ?_⟩
    exact hbelow (Nat.zero_le k)
  | some e =>
    have hmem : e ∈ seg.index.entries := List.mem_reverse.mp (List.mem_of_find?_eq_some hfind)
    have hle : e.1 ≤ k := by simpa using List.find?_some hfind
    obtain ⟨rs, q, hwalk, hlen, skipped, hskipped, hlow⟩ := h.sound.leads e hmem
    have hq :=
      (walk_start_iff hc h.numbered (show e.1 ≤ chunk.length by omega)).mp ⟨rs, hwalk, hlen⟩
    subst hq
    refine ⟨_, hskipped.append (walk_encodeAll hc h.numbered hle hk.le), fun r hr => ?_⟩
    rcases List.mem_append.mp hr with hr | hr
    · exact (hlow r hr).trans_le (by omega)
    · exact hbelow hle r hr

theorem readFrom (hc : config.Valid) (h : Faithful crc config base chunk seg)
    (hfile : fs.dir.log base = some ⟨encodeAll crc chunk, synced⟩) (hk : k < chunk.length)
    (maxBytes : ℕ) :
    ∃ run, ReadRun maxBytes (chunk.drop k) run ∧
      (seg.readFrom crc config (base + k) maxBytes).run fs = .ok run fs :=
  (h.shape hfile).readFrom hc hk (h.startPos hc hk) maxBytes

theorem positionOf (hc : config.Valid) (h : Faithful crc config base chunk seg)
    (hfile : fs.dir.log base = some ⟨encodeAll crc chunk, synced⟩) (hk : k ≤ chunk.length) :
    (seg.positionOf crc config (base + k)).run fs = .ok (totalLen (chunk.take k)) fs := by
  rcases Nat.lt_or_eq_of_le hk with hlt | rfl
  · have hdrop : chunk.drop k = chunk[k] :: chunk.drop (k + 1) := List.drop_eq_getElem_cons hlt
    have hfrom := h.numbered.drop hk
    rw [hdrop] at hfrom
    have hdecode := decode_encodeAll_cons crc hc hfrom []
    rw [List.append_nil, ← hdrop, ← drop_encodeAll] at hdecode
    exact (h.shape hfile).positionOf hlt (h.startPos hc hlt) hdecode hfrom.1
  · rw [Segment.positionOf, if_neg (by rw [h.base_eq, h.next_eq]; omega),
      if_pos h.next_eq.symm, h.size_eq, List.take_length]
    rfl

end Faithful

/-! ## Recovery -/

/-- The entry a recovery goes on from. -/
def SparseIndex.resumeAt (idx : SparseIndex) : ℕ × ℕ := idx.last.getD (0, 0)

theorem recoverStart_some {fs : Fs} {base : ℕ} {idx : SparseIndex}
    (hload : SparseIndex.loaded (fs.dir.index base) = some idx) :
    (Segment.recoverStart base false).run fs =
      .ok (idx, idx.resumeAt.2, base + idx.resumeAt.1, false) fs := by
  have hrun := SparseIndex.run_load base fs
  rw [hload] at hrun
  rw [SparseIndex.resumeAt]
  cases hlast : idx.last <;> simp [Segment.recoverStart, hrun, hlast]

theorem recoverStart_none {fs : Fs} (hfs : fs.Healthy) {base : ℕ}
    (hload : SparseIndex.loaded (fs.dir.index base) = none) :
    (Segment.recoverStart base false).run fs =
      .ok (⟨[]⟩, 0, base, true) (fs.advance [.createIndex base]) := by
  have hrun := SparseIndex.run_load base fs
  rw [hload] at hrun
  simp only [Segment.recoverStart, Bool.false_eq_true, if_false, EStateM.run_bind, hrun,
    run_index_create hfs, EStateM.run_pure]

/-- What a sound index makes of a rolled segment. -/
theorem IndexSound.recover (hc : config.Valid) {fs : Fs} {base synced : ℕ} {chunk : List Record}
    {idx : SparseIndex} (hfile : fs.dir.log base = some ⟨encodeAll crc chunk, synced⟩)
    (hload : SparseIndex.loaded (fs.dir.index base) = some idx) (hnum : Numbered config base chunk)
    (h : IndexSound crc config.maxRecordBytes base (encodeAll crc chunk) idx.entries) :
    ∃ used, (Segment.recover crc config base false).run fs =
      .ok ⟨base, idx, base + chunk.length, totalLen chunk, used⟩ fs := by
  have hstart := recoverStart_some hload
  obtain ⟨k, hk, hresume⟩ : ∃ k ≤ chunk.length, idx.resumeAt = (k, totalLen (chunk.take k)) := by
    rw [SparseIndex.resumeAt]
    cases hlast : idx.last with
    | none => exact ⟨0, Nat.zero_le _, rfl⟩
    | some e =>
      obtain ⟨rs, hwalk, hlen⟩ := h.last e hlast
      have hle : e.1 ≤ chunk.length := hlen ▸ walk_length_le hc hnum hwalk
      exact ⟨e.1, hle, Prod.ext rfl ((walk_start_iff hc hnum hle).mp ⟨rs, hwalk, hlen⟩)⟩
  rw [hresume] at hstart
  exact ⟨_, recover_started hc hfile hstart hk hnum⟩

/-- A recovery with a loaded index has walked from its last entry to the end of the file, and
nothing has changed. -/
private theorem recover_loaded_walk {fs fs₁ : Fs} {base : ℕ} {file : LogFile} {idx : SparseIndex}
    {seg : Segment} (hfile : fs.dir.log base = some file)
    (hload : SparseIndex.loaded (fs.dir.index base) = some idx)
    (hrun : (Segment.recover crc config base false).run fs = .ok seg fs₁) :
    fs₁ = fs ∧ seg.baseOffset = base ∧ seg.index = idx ∧ seg.size = file.bytes.length ∧
      ∃ rs, Walk crc config.maxRecordBytes file.bytes idx.resumeAt.2 rs file.bytes.length ∧
        (∀ r, rs.head? = some r → r.offset = base + idx.resumeAt.1) ∧
        seg.nextOffset = base + idx.resumeAt.1 + rs.length := by
  rw [Segment.recover, run_bind_ok (recoverStart_some hload)] at hrun
  dsimp only at hrun
  rw [run_bind_ok (FsM.run_readLog hfile)] at hrun
  by_cases hle : idx.resumeAt.2 ≤ file.bytes.length
  · rw [run_bind_ok (FsM.run_checkedSub hle fs), EStateM.run_bind] at hrun
    cases hscan : (Segment.scan crc config base false false
        (file.bytes.length - idx.resumeAt.2 + 1) (file.bytes.drop idx.resumeAt.2)
        { index := idx, nextOffset := base + idx.resumeAt.1, bytesSinceIndex := 0,
          validEnd := idx.resumeAt.2 }).run fs with
    | error e fs₂ =>
      rw [hscan] at hrun
      cases hrun
    | ok st fs₂ =>
      obtain ⟨rs, hwalk, hhead, hnext, hend, hindex, rfl⟩ :=
        @scan_walk crc config file.bytes base _ ⟨idx, base + idx.resumeAt.1, 0, idx.resumeAt.2⟩
          st fs fs₂ hle (Nat.lt_succ_self _) hscan
      rw [hscan] at hrun
      dsimp only at hrun
      rw [hend, Segment.cutTail, if_neg (Nat.lt_irrefl _)] at hrun
      cases hrun
      exact ⟨rfl, rfl, hindex, rfl, rs, hwalk, hhead, hnext⟩
  · rw [EStateM.run_bind, FsM.checkedSub, if_neg hle] at hrun
    cases hrun

/-- The second directory has the same segment files, and an index file wherever the first one
has. -/
structure Level (fs fs' : Fs) : Prop where
  log_eq : ∀ b, fs.dir.log b = fs'.dir.log b
  index : ∀ b, (fs.dir.index b).isSome → (fs'.dir.index b).isSome
  healthy : fs'.Healthy

theorem level_carried : Carried Level := by
  have hperform : ∀ op : FsOp, Follows Level (FsM.perform op) (FsM.perform op) := by
    intro op fs fs' h u fs₁ hrun
    refine ⟨fs'.advance [op], FsM.run_perform h.healthy op, ?_⟩
    simp only [FsM.perform, EStateM.run] at hrun
    split at hrun
    · cases hrun
    · cases hrun
      refine ⟨fun b => ?_, fun b => ?_, Fs.advance_healthy _ _⟩
      · cases op <;> simp [h.log_eq]
      · have hb := h.index b
        cases op <;> simp <;> grind
  refine ⟨fun fs fs' h => h.log_eq, fun op _ => hperform op, fun base fs fs' h u fs₁ hrun => ?_⟩
  have hsome := h.index base
  simp only [FsM.removeIndex, EStateM.run] at hrun ⊢
  split_ifs at hrun with hfirst
  rw [if_pos (hsome hfirst)]
  exact hperform (.removeIndex base) fs fs' h u fs₁ hrun

/-- A segment that was recovered with the index, beside the one that the log would rebuild: from the
last entry on there are as many records as the offsets say. -/
structure Resumed (crc : List UInt8 → UInt32) (config : LogConfig) (d : Dir) (idx : SparseIndex)
    (seg seg' : Segment) : Prop where
  base_eq : seg'.baseOffset = seg.baseOffset
  next_eq : seg'.nextOffset = seg.nextOffset
  size_eq : seg'.size = seg.size
  index_eq : seg'.index = idx
  walk : ∃ file rs, d.log seg.baseOffset = some file ∧
    Walk crc config.maxRecordBytes file.bytes idx.resumeAt.2 rs file.bytes.length ∧
    (∀ r, rs.head? = some r → r.offset = seg.baseOffset + idx.resumeAt.1) ∧
    seg.nextOffset = seg.baseOffset + idx.resumeAt.1 + rs.length

/-- A rebuilt segment, and what the index files of `d` make of it. -/
def Stored (crc : List UInt8 → UInt32) (config : LogConfig) (d : Dir) (seg seg' : Segment) : Prop :=
  match SparseIndex.loaded (d.index seg.baseOffset) with
  | none => seg' = seg
  | some idx => Resumed crc config d idx seg seg'

theorem Stored.base_eq {d : Dir} {seg seg' : Segment} (h : Stored crc config d seg seg') :
    seg'.baseOffset = seg.baseOffset := by
  rw [Stored] at h
  split at h
  · rw [h]
  · exact h.base_eq

theorem Stored.frame {d d' : Dir} {seg seg' : Segment} (h : Stored crc config d seg seg')
    (hlog : d'.log seg.baseOffset = d.log seg.baseOffset)
    (hindex : d'.index seg.baseOffset = d.index seg.baseOffset) :
    Stored crc config d' seg seg' := by
  rw [Stored, hindex]
  rw [Stored] at h
  split at h
  · exact h
  · exact ⟨h.base_eq, h.next_eq, h.size_eq, h.index_eq, hlog ▸ h.walk⟩

/-- A rolled segment without an index file, and the same one with any: if the recovery arrives at
the same next offset, the segments differ in the index only. -/
theorem recover_stored (hc : config.Valid) {fs fs' fs₁' : Fs} (hfs : fs.Healthy) {base synced : ℕ}
    {chunk : List Record} (hfile : fs.dir.log base = some ⟨encodeAll crc chunk, synced⟩)
    (hindex : fs.dir.index base = none) (hnum : Numbered config base chunk)
    (hsize : totalLen chunk ≤ 2 ^ 30) (h : Level fs fs') {seg' : Segment}
    (hrun' : (Segment.recover crc config base false).run fs' = .ok seg' fs₁')
    (hnext : seg'.nextOffset = base + chunk.length) :
    ∃ seg ops, (Segment.recover crc config base false).run fs = .ok seg (fs.advance ops) ∧
      SegmentOk crc config (fs.advance ops).dir seg base chunk ∧
      OnlyIndex base fs (fs.advance ops) ∧ Stored crc config fs'.dir seg seg' ∧
      Level (fs.advance ops) fs₁' ∧ OnlyIndex base fs' fs₁' := by
  have hnone : SparseIndex.loaded (fs.dir.index base) = none := by rw [hindex]; rfl
  have hload := SparseIndex.run_load base fs
  rw [hnone] at hload
  have hfile' := (h.log_eq base).symm.trans hfile
  obtain ⟨seg, ops, hrun, hok, honly, -⟩ := recover_rebuilt hc hfs hfile hload hnum hsize
  refine ⟨seg, ops, hrun, hok, honly, ?_⟩
  rw [Stored, hok.base_eq]
  cases hload' : SparseIndex.loaded (fs'.dir.index base) with
  | none =>
    have hrunLoad := SparseIndex.run_load base fs'
    rw [hload'] at hrunLoad
    obtain ⟨seg₂, ops', hrun₂, -, honly', -⟩ :=
      recover_rebuilt hc h.healthy hfile' hrunLoad hnum hsize
    have hstart := recoverStart_none hfs hnone
    have hstart' := recoverStart_none h.healthy hload'
    have hcreated : Level (fs.advance [.createIndex base]) (fs'.advance [.createIndex base]) := by
      obtain ⟨fs₂, hdone, hlevel⟩ := level_carried.perform (.createIndex base) trivial fs fs' h ()
        _ (FsM.run_perform hfs _)
      rw [FsM.run_perform h.healthy] at hdone
      cases hdone
      exact hlevel
    obtain ⟨fs₂, hrun₃, hlevel⟩ :=
      recover_started_follows crc config level_carried hstart hstart' hcreated hrun
    rw [hrun₂] at hrun'
    cases hrun'
    rw [hrun₂] at hrun₃
    cases hrun₃
    exact ⟨rfl, hlevel, honly'⟩
  | some idx =>
    obtain ⟨rfl, hbase, hidx, hbytes, rs, hwalk, hhead, hcount⟩ :=
      recover_loaded_walk hfile' hload' hrun'
    refine ⟨⟨hbase.trans hok.base_eq.symm, hnext.trans hok.next_eq.symm, ?_, hidx, ?_⟩,
      ⟨fun b => (honly.log_eq b).trans (h.log_eq b), fun b hb => ?_, h.healthy⟩, .refl _ _⟩
    · rw [hbytes, length_encodeAll, hok.size_eq]
    · rw [hok.base_eq]
      exact ⟨_, rs, hfile', hwalk, hhead, hok.next_eq.trans (hnext.symm.trans hcount)⟩
    · by_cases heq : b = base
      · subst heq
        cases hstored : fs₁'.dir.index b with
        | none =>
          rw [hstored] at hload'
          cases hload'
        | some bytes => rfl
      · rw [honly.index_eq b heq] at hb
        exact h.index b hb

end Replog.Storage
