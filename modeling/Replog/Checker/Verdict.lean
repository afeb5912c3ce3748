import Replog.Checker.History
import Mathlib.Data.List.Perm.Subperm

/-!
# What the report says about a history

Each list of the report is empty if and only if the history keeps one part of the delivery
contract. The loops are followed from the front, the state after a prefix of the history being
a function of the prefix.
-/

namespace Replog.Checker
open Replog.Library

/-- The delivery contract, for readers that began at offset 0. -/
structure History.Upholds (h : History) : Prop where
  delivered : ∀ p ∈ h.produced, ∃ c ∈ h.consumed, c.id = p.id
  ordered : h.consumed.Pairwise fun c d => c.stream = d.stream → c.offset < d.offset
  consistent : ∀ c ∈ h.consumed, ∀ d ∈ h.consumed, c.position = d.position → c.id = d.id
  gapFree : ∀ log, (∃ c ∈ h.consumed, c.log = log) →
    ∃ max, ∀ offset, (∃ c ∈ h.consumed, c.log = log ∧ c.offset = offset) ↔ offset ≤ max

namespace History

/-! ## Missing ids -/

theorem missingIds_eq_nil_iff {h : History} :
    h.missingIds = [] ↔ ∀ p ∈ h.produced, ∃ c ∈ h.consumed, c.id = p.id := by
  have hmem : ∀ id, id ∈ h.consumedCount ↔ ∃ c ∈ h.consumed, c.id = id := fun id =>
    (Assoc.mem_counts ConsumedRecord.id).trans List.mem_map
  rw [missingIds, List.destutter_eq_nil, ← List.length_eq_zero_iff, List.length_mergeSort,
    List.length_map, List.length_eq_zero_iff, List.filter_eq_nil_iff]
  simp only [decide_eq_true_eq, not_not, hmem]

private theorem duplicateDeliveries_verify (h : History) : h.verify.duplicateDeliveries =
    h.consumed.length - (h.consumed.map ConsumedRecord.id).dedup.length :=
  Assoc.sum_counts_sub_one ConsumedRecord.id h.consumed

/-! ## The order of the offsets -/

section Order

variable {l : List ConsumedRecord} {c : ConsumedRecord}

private theorem fst_foldl_checkOrder (l : List ConsumedRecord) : (l.foldl checkOrder (∅, [])).1 =
    Assoc.tabulate ConsumedRecord.stream (fun _ c => c.offset) l := by
  induction l using List.reverseRecOn with
  | nil => rfl
  | append_singleton l c ih =>
    rw [List.foldl_append, Assoc.tabulate_append_singleton, ← ih]
    rfl

private theorem lt_of_last (hordered : l.Pairwise fun c d => c.stream = d.stream → c.offset < d.offset) :
    (∀ d ∈ l, d.stream = c.stream → d.offset < c.offset) ↔
      ∀ prev ∈ (l.filter (·.stream = c.stream)).getLast?.map ConsumedRecord.offset,
        prev < c.offset := by
  constructor
  · intro hall prev hprev
    obtain ⟨d, hd, rfl⟩ := Option.map_eq_some_iff.mp hprev
    have hmem := List.mem_filter.mp (List.mem_of_getLast? hd)
    exact hall d hmem.1 (by simpa using hmem.2)
  · intro hlast d hd hstream
    have hfiltered : d ∈ l.filter (·.stream = c.stream) :=
      List.mem_filter.mpr ⟨hd, by simpa using hstream⟩
    obtain ⟨front, last, hsplit⟩ := List.eq_nil_or_concat _ |>.resolve_left
      (List.ne_nil_of_mem hfiltered)
    rw [List.concat_eq_append] at hsplit
    rw [hsplit, List.getLast?_concat] at hlast
    have hlt := hlast last.offset rfl
    rw [hsplit, List.mem_append, List.mem_singleton] at hfiltered
    rcases hfiltered with hfront | rfl
    · have hpairs := (hordered.filter (·.stream = c.stream))
      rw [hsplit, List.pairwise_append] at hpairs
      have hlaststream : last.stream = c.stream := by
        have hmem : last ∈ l.filter (·.stream = c.stream) := by simp [hsplit]
        simpa using (List.mem_filter.mp hmem).2
      exact UInt64.lt_trans (hpairs.2.2 d hfront last (List.mem_singleton_self last)
        (hstream.trans hlaststream.symm)) hlt
    · exact hlt

theorem foldl_checkOrder_eq_nil_iff (l : List ConsumedRecord) :
    (l.foldl checkOrder (∅, [])).2 = [] ↔
      l.Pairwise fun c d => c.stream = d.stream → c.offset < d.offset := by
  induction l using List.reverseRecOn with
  | nil => exact iff_of_true rfl .nil
  | append_singleton l c ih =>
    have hlookup := fst_foldl_checkOrder l
    have hstep : (checkOrder (l.foldl checkOrder (∅, [])) c).2 = [] ↔
        (l.foldl checkOrder (∅, [])).2 = [] ∧
          ∀ prev ∈ (l.filter (·.stream = c.stream)).getLast?.map ConsumedRecord.offset,
            prev < c.offset := by
      rw [checkOrder, hlookup, Assoc.lookup_tabulate_last]
      cases (l.filter (·.stream = c.stream)).getLast?.map ConsumedRecord.offset with
      | none => simp
      | some prev =>
        by_cases hle : c.offset ≤ prev
        · simp [hle, UInt64.not_lt.mpr hle]
        · simp [hle, UInt64.not_le.mp hle]
    rw [List.foldl_append, List.foldl_cons, List.foldl_nil, hstep, ih, List.pairwise_append]
    simp only [List.pairwise_singleton, true_and, List.mem_singleton, forall_eq]
    exact and_congr_right fun hordered => (lt_of_last hordered).symm

end Order

/-! ## One id for each offset -/

section Consistency

variable {l : List ConsumedRecord}

private theorem lookup_foldl_checkId (l : List ConsumedRecord) (pos : String × UInt32 × UInt64) :
    (l.foldl checkId (∅, [])).1.lookup pos =
      (l.find? (·.position = pos)).map ConsumedRecord.id := by
  induction l using List.reverseRecOn with
  | nil => rfl
  | append_singleton l c ih =>
    rw [List.foldl_append, List.foldl_cons, List.foldl_nil, List.find?_append, checkId]
    by_cases hpos : c.position = pos
    · subst hpos
      cases hfind : l.find? (·.position = c.position) with
      | none =>
        rw [hfind] at ih
        simp [ih]
      | some d =>
        rw [hfind] at ih
        by_cases hid : d.id = c.id
        · simp [ih, hid]
        · simp [ih, hid]
    · have hne : pos ≠ c.position := Ne.symm hpos
      split
      · split
        · simp [ih, hpos]
        · simp [ih, hpos, AList.lookup_insert_ne hne]
      · simp [ih, hpos, AList.lookup_insert_ne hne]

theorem foldl_checkId_eq_nil_iff (l : List ConsumedRecord) : (l.foldl checkId (∅, [])).2 = [] ↔
    ∀ c ∈ l, ∀ d ∈ l, c.position = d.position → c.id = d.id := by
  induction l using List.reverseRecOn with
  | nil => exact iff_of_true rfl nofun
  | append_singleton l c ih =>
    have hlookup := lookup_foldl_checkId l c.position
    have hstep : (checkId (l.foldl checkId (∅, [])) c).2 = [] ↔
        (l.foldl checkId (∅, [])).2 = [] ∧
          ∀ d ∈ l.find? (·.position = c.position), d.id = c.id := by
      rw [checkId, hlookup]
      cases l.find? (·.position = c.position) with
      | none => simp
      | some d =>
        by_cases hid : d.id = c.id
        · simp [hid]
        · simp [hid]
    rw [List.foldl_append, List.foldl_cons, List.foldl_nil, hstep, ih]
    constructor
    · rintro ⟨hold, hnew⟩
      have hagree : ∀ d ∈ l, d.position = c.position → d.id = c.id := by
        intro d hd hpos
        have hsome : (l.find? (·.position = c.position)).isSome := by
          rw [List.find?_isSome]
          exact ⟨d, hd, decide_eq_true hpos⟩
        obtain ⟨e, he⟩ := Option.isSome_iff_exists.mp hsome
        have hepos : e.position = c.position := by simpa using List.find?_some he
        exact (hold d hd e (List.mem_of_find?_eq_some he) (hpos.trans hepos.symm)).trans
          (hnew e he)
      intro d hd e he hpos
      rw [List.mem_append, List.mem_singleton] at hd he
      rcases hd with hd | rfl
      · rcases he with he | rfl
        · exact hold d hd e he hpos
        · exact hagree d hd hpos
      · rcases he with he | rfl
        · exact (hagree e he hpos.symm).symm
        · rfl
    · intro hall
      refine ⟨fun d hd e he => ?_, fun d hd => ?_⟩
      · exact hall d (List.mem_append_left _ hd) e (List.mem_append_left _ he)
      · have hpos : d.position = c.position := by simpa using List.find?_some hd
        exact hall d (List.mem_append_left _ (List.mem_of_find?_eq_some hd)) c (by simp) hpos

end Consistency

/-! ## Gaps -/

section Gaps

theorem exists_max {offsets : List UInt64} (hne : offsets ≠ []) :
    ∃ max ∈ offsets, offsets.max? = some max ∧ ∀ o ∈ offsets, o ≤ max := by
  have heq_or : ∀ a b : UInt64, max a b = a ∨ max a b = b := fun a b => by
    rw [show max a b = if a ≤ b then b else a from rfl]
    split <;> simp
  have hle_iff : ∀ a b c : UInt64, max a b ≤ c ↔ a ≤ c ∧ b ≤ c := fun a b c => by
    rw [show max a b = if a ≤ b then b else a from rfl]
    simp only [UInt64.le_iff_toNat_le]
    split <;> omega
  have : Std.LawfulOrderMax UInt64 := .of_max_le_iff hle_iff heq_or
  obtain ⟨max, hmax⟩ := Option.ne_none_iff_exists'.mp (mt List.max?_eq_none_iff.mp hne)
  have hspec := List.max?_eq_some_iff.mp hmax
  exact ⟨max, hspec.1, hmax, hspec.2⟩

private theorem mem_of_lookup_seen {h : History} {log : String × UInt32} {offsets : List UInt64}
    (hlookup : h.seen.lookup log = some offsets) : offsets.Nodup ∧
      ∀ o, o ∈ offsets ↔ ∃ c ∈ h.consumed, c.log = log ∧ c.offset = o := by
  have hfold : ∀ l : List ConsumedRecord,
      ((l.foldl (fun entry c => some ((entry.getD []).insert c.offset)) none).getD []).Nodup ∧
      ∀ o, o ∈ (l.foldl (fun entry c => some ((entry.getD []).insert c.offset)) none).getD [] ↔
        ∃ c ∈ l, c.offset = o := by
    intro l
    induction l using List.reverseRecOn with
    | nil => exact ⟨.nil, by simp⟩
    | append_singleton l c ih =>
      rw [List.foldl_append, List.foldl_cons, List.foldl_nil, Option.getD_some]
      refine ⟨ih.1.insert, fun o => ?_⟩
      rw [List.mem_insert_iff, ih.2]
      simp [or_and_right, exists_or, or_comm, eq_comm]
  rw [seen, Assoc.lookup_tabulate] at hlookup
  obtain ⟨hnodup, hmem⟩ := hfold (h.consumed.filter (·.log = log))
  rw [hlookup, Option.getD_some] at hnodup hmem
  refine ⟨hnodup, fun o => (hmem o).trans ?_⟩
  simp [List.mem_filter, and_assoc]

theorem mem_offsetsUpTo {max o : UInt64} : o ∈ offsetsUpTo max ↔ o ≤ max := by
  rw [offsetsUpTo, List.mem_map, UInt64.le_iff_toNat_le]
  constructor
  · rintro ⟨n, hn, rfl⟩
    rw [List.mem_range] at hn
    rw [UInt64.toNat_ofNat']
    exact (Nat.mod_le n _).trans (Nat.le_of_lt_succ hn)
  · intro hle
    exact ⟨o.toNat, List.mem_range.mpr (Nat.lt_succ_of_le hle), UInt64.ofNat_toNat⟩

private theorem length_eq_iff {offsets : List UInt64} {max : UInt64} (hnodup : offsets.Nodup)
    (hmax : ∀ o ∈ offsets, o ≤ max) :
    offsets.length = max.toNat + 1 ↔ ∀ o ≤ max, o ∈ offsets := by
  have hsubperm : offsets.Subperm (offsetsUpTo max) :=
    hnodup.subperm fun o ho => mem_offsetsUpTo.mpr (hmax o ho)
  have hlength : (offsetsUpTo max).length = max.toNat + 1 := by
    rw [offsetsUpTo, List.length_map, List.length_range]
  constructor
  · intro hlen o ho
    have hperm := hsubperm.perm_of_length_le (by omega)
    exact hperm.mem_iff.mpr (mem_offsetsUpTo.mpr ho)
  · intro hall
    have hnodup' : (offsetsUpTo max).Nodup := by
      refine List.Nodup.map_on (fun n hn m hm heq => ?_) List.nodup_range
      rw [List.mem_range] at hn hm
      have hlt := max.toNat_lt
      have hcongr := congrArg UInt64.toNat heq
      rwa [UInt64.toNat_ofNat', UInt64.toNat_ofNat', Nat.mod_eq_of_lt (by omega),
        Nat.mod_eq_of_lt (by omega)] at hcongr
    have hle := (hnodup'.subperm fun o ho => hall o (mem_offsetsUpTo.mp ho)).length_le
    have hge := hsubperm.length_le
    omega

/-- The gap check of one partition never panics, and finds nothing if and only if the offsets are
those from zero to some maximum. -/
private theorem offsetGap_spec (log : String × UInt32) {offsets : List UInt64} (hne : offsets ≠ [])
    (hnodup : offsets.Nodup) (hlt : ∀ o ∈ offsets, o.toNat < 2 ^ 64 - 1) :
    ∃ gaps, offsetGap log offsets = some gaps ∧
      (gaps = [] ↔ ∃ max, ∀ o, o ∈ offsets ↔ o ≤ max) := by
  obtain ⟨max, hmem, hmax, hle⟩ := exists_max hne
  have hfits := hlt max hmem
  have hsucc : (max + 1).toNat = max.toNat + 1 := by
    rw [UInt64.toNat_add]
    exact Nat.mod_eq_of_lt (by change max.toNat + 1 < 2 ^ 64; omega)
  have hlength : offsets.length ≤ max.toNat + 1 := by
    have hsub := (hnodup.subperm fun o ho => mem_offsetsUpTo.mpr (hle o ho)).length_le
    rwa [offsetsUpTo, List.length_map, List.length_range] at hsub
  have hcompare : UInt64.ofNat offsets.length = max + 1 ↔ ∀ o ≤ max, o ∈ offsets := by
    rw [← length_eq_iff hnodup hle, ← UInt64.toNat_inj, hsucc, UInt64.toNat_ofNat',
      Nat.mod_eq_of_lt (by omega)]
  have hcontiguous : (∃ max, ∀ o, o ∈ offsets ↔ o ≤ max) ↔ ∀ o ≤ max, o ∈ offsets := by
    constructor
    · rintro ⟨top, htop⟩ o ho
      exact (htop o).mpr (UInt64.le_trans ho ((htop max).mp hmem))
    · exact fun hall => ⟨max, fun o => ⟨hle o, hall o⟩⟩
  rw [offsetGap, hmax, hcontiguous]
  by_cases hall : ∀ o ≤ max, o ∈ offsets
  · refine ⟨[], ?_, iff_of_true rfl hall⟩
    simp [hcompare.mpr hall]
  · have hne' := mt hcompare.mp hall
    push Not at hall
    obtain ⟨o, ho, hmissing⟩ := hall
    have hsome : ((offsetsUpTo max).find? (· ∉ offsets)).isSome := by
      rw [List.find?_isSome]
      exact ⟨o, mem_offsetsUpTo.mpr ho, decide_eq_true hmissing⟩
    obtain ⟨firstHole, hhole⟩ := Option.isSome_iff_exists.mp hsome
    refine ⟨[gapText log offsets.length max firstHole], ?_, iff_of_false nofun ?_⟩
    · simp only [ne_eq, hne', not_false_eq_true, if_true, hhole, Option.map_some]
    · exact fun hall => hmissing (hall o ho)

end Gaps

private theorem mapM_eq_some {α β : Type} {f : α → Option β} {g : α → β} {l : List α}
    (h : ∀ a ∈ l, f a = some (g a)) : l.mapM f = some (l.map g) := by
  induction l with
  | nil => rfl
  | cons a l ih =>
    rw [List.mapM_cons, h a List.mem_cons_self, ih fun b hb => h b (List.mem_cons_of_mem a hb)]
    rfl

/-- With offsets below `u64::MAX` the report of `verify` comes back with the gaps, if any. -/
theorem exists_verifyFromStart {h : History}
    (hoffsets : ∀ c ∈ h.consumed, c.offset.toNat < 2 ^ 64 - 1) :
    ∃ gaps, h.verifyFromStart = some { h.verify with offsetGaps := gaps } ∧
      (gaps = [] ↔ ∀ log, (∃ c ∈ h.consumed, c.log = log) →
        ∃ max, ∀ o, (∃ c ∈ h.consumed, c.log = log ∧ c.offset = o) ↔ o ≤ max) := by
  have hentry : ∀ e ∈ h.seen.entries, ∃ gaps, offsetGap e.1 e.2 = some gaps ∧
      (gaps = [] ↔ ∃ max, ∀ o, (∃ c ∈ h.consumed, c.log = e.1 ∧ c.offset = o) ↔ o ≤ max) := by
    intro e he
    have hlookup := AList.mem_lookup_iff.mpr he
    obtain ⟨hnodup, hmem⟩ := mem_of_lookup_seen hlookup
    obtain ⟨c, hc, hlog⟩ := (Assoc.isSome_lookup_tabulate ConsumedRecord.log _).mp
      (Option.isSome_iff_exists.mpr ⟨e.2, hlookup⟩)
    simp only [← hmem]
    refine offsetGap_spec e.1 (List.ne_nil_of_mem ((hmem c.offset).mpr ⟨c, hc, hlog, rfl⟩))
      hnodup fun o ho => ?_
    obtain ⟨d, hd, -, rfl⟩ := (hmem o).mp ho
    exact hoffsets d hd
  choose! gapsOf hgapsOf using hentry
  have hmapM := mapM_eq_some fun e he => (hgapsOf e he).1
  refine ⟨(h.seen.entries.map gapsOf).flatten.mergeSort, by rw [verifyFromStart, hmapM]; rfl, ?_⟩
  rw [← List.length_eq_zero_iff, List.length_mergeSort, List.length_eq_zero_iff,
    List.flatten_eq_nil_iff]
  constructor
  · intro hnil log hlog
    obtain ⟨offsets, hlookup⟩ := Option.isSome_iff_exists.mp
      ((Assoc.isSome_lookup_tabulate ConsumedRecord.log _).mpr hlog)
    have he := AList.mem_lookup_iff.mp (Option.mem_def.mpr hlookup)
    exact (hgapsOf _ he).2.mp (hnil _ (List.mem_map_of_mem he))
  · intro hall gaps hmem
    obtain ⟨e, he, rfl⟩ := List.mem_map.mp hmem
    have hconsumed := (Assoc.isSome_lookup_tabulate ConsumedRecord.log _).mp
      (Option.isSome_iff_exists.mpr ⟨e.2, AList.mem_lookup_iff.mpr he⟩)
    exact (hgapsOf e he).2.mpr (hall e.1 hconsumed)

theorem isOk_with_gaps_iff {h : History} {gaps : List String} :
    Report.isOk { h.verify with offsetGaps := gaps } = true ↔ h.missingIds = [] ∧
      (h.consumed.foldl checkOrder (∅, [])).2 = [] ∧ (h.consumed.foldl checkId (∅, [])).2 = [] ∧
      gaps = [] := by
  simp [Report.isOk, verify, and_assoc]

/-- The report comes back, it is ok if and only if the history keeps the contract, and it counts
every delivery beyond the first of an id. -/
theorem verifyFromStart_spec (h : History)
    (hoffsets : ∀ c ∈ h.consumed, c.offset.toNat < 2 ^ 64 - 1) :
    ∃ report, h.verifyFromStart = some report ∧ (report.isOk = true ↔ h.Upholds) ∧
      report.duplicateDeliveries =
        h.consumed.length - (h.consumed.map ConsumedRecord.id).dedup.length := by
  obtain ⟨gaps, hreport, hgaps⟩ := exists_verifyFromStart hoffsets
  refine ⟨_, hreport, ?_, h.duplicateDeliveries_verify⟩
  rw [isOk_with_gaps_iff, missingIds_eq_nil_iff, foldl_checkOrder_eq_nil_iff,
    foldl_checkId_eq_nil_iff, hgaps]
  constructor
  · rintro ⟨hdelivered, hordered, hconsistent, hgapFree⟩
    exact ⟨hdelivered, hordered, hconsistent, hgapFree⟩
  · rintro ⟨hdelivered, hordered, hconsistent, hgapFree⟩
    exact ⟨hdelivered, hordered, hconsistent, hgapFree⟩

/-- One id is read twice, by different consumers. -/
theorem verifyFromStart_spec_twice : ∃ report,
    verifyFromStart ⟨[⟨7, "t"⟩], [⟨"a", 0, "t", 0, 0, 7⟩, ⟨"b", 0, "t", 0, 0, 7⟩]⟩ = some report ∧
      (report.isOk = true ↔
        Upholds ⟨[⟨7, "t"⟩], [⟨"a", 0, "t", 0, 0, 7⟩, ⟨"b", 0, "t", 0, 0, 7⟩]⟩) ∧
      report.duplicateDeliveries = 1 :=
  verifyFromStart_spec _ (by decide)

end History
end Replog.Checker
