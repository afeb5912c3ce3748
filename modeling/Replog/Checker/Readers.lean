import Replog.Checker.Verdict
import Mathlib.Logic.Function.Basic

/-!
# Readers of logs

Readers go through logs of ids from the start, each at its own pace, while the logs grow. What they
record breaks no rule of the checker, and no id is missing that some reader is past.
-/

namespace Replog.Checker

/-- The readers have read the logs up to their positions. -/
structure History.ReadUpTo (h : History) (topic : String) (logs : UInt32 → List UInt64)
    (positions : String → UInt32 → ℕ) : Prop where
  consumed : ∀ c ∈ h.consumed, c.generation = 0 ∧ c.topic = topic ∧
    c.offset.toNat < positions c.consumer c.partition ∧
      (logs c.partition)[c.offset.toNat]? = some c.id
  fits : ∀ name partition, positions name partition < 2 ^ 64
  read : ∀ name partition, ∀ o < positions name partition, ∃ c ∈ h.consumed,
    c.consumer = name ∧ c.partition = partition ∧ c.offset.toNat = o
  ordered : h.consumed.Pairwise fun c d => c.stream = d.stream → c.offset < d.offset

/-- The positions once a reader has moved. -/
def moved (positions : String → UInt32 → ℕ) (name : String) (partition : UInt32) (position : ℕ) :
    String → UInt32 → ℕ :=
  Function.update positions name (Function.update (positions name) partition position)

section Moved

variable (positions : String → UInt32 → ℕ) (name : String) (partition : UInt32) (position : ℕ)

@[simp] theorem moved_self : moved positions name partition position name partition = position := by
  rw [moved, Function.update_self, Function.update_self]

theorem moved_other {name' : String} {partition' : UInt32}
    (hne : name' = name → partition' ≠ partition) :
    moved positions name partition position name' partition' = positions name' partition' := by
  by_cases hname : name' = name
  · subst hname
    rw [moved, Function.update_self, Function.update_of_ne (hne rfl)]
  · rw [moved, Function.update_of_ne hname]

@[simp] theorem moved_same :
    moved positions name partition (positions name partition) = positions := by
  rw [moved, Function.update_eq_self, Function.update_eq_self]

@[simp] theorem moved_moved (next : ℕ) :
    moved (moved positions name partition position) name partition next =
      moved positions name partition next := by
  rw [moved, moved, Function.update_self, Function.update_idem, Function.update_idem, moved]

end Moved

namespace History

variable {h h' : History} {topic : String} {logs logs' : UInt32 → List UInt64}
  {positions : String → UInt32 → ℕ}

theorem ReadUpTo.start (topic : String) (logs : UInt32 → List UInt64) :
    new.ReadUpTo topic logs fun _ _ => 0 where
  consumed := nofun
  fits _ _ := Nat.two_pow_pos 64
  read := nofun
  ordered := .nil

/-- The logs grow, and what was produced is not consumed. -/
theorem ReadUpTo.mono (hread : h.ReadUpTo topic logs positions) (hsame : h'.consumed = h.consumed)
    (hlogs : ∀ partition, logs partition <+: logs' partition) :
    h'.ReadUpTo topic logs' positions := by
  refine ⟨fun c hc => ?_, hread.fits, ?_, ?_⟩
  · rw [hsame] at hc
    obtain ⟨hgeneration, htopic, hlt, hid⟩ := hread.consumed c hc
    obtain ⟨rest, hrest⟩ := hlogs c.partition
    refine ⟨hgeneration, htopic, hlt, ?_⟩
    rw [← hrest, List.getElem?_append_left (List.getElem?_eq_some_iff.mp hid).1]
    exact hid
  · rw [hsame]
    exact hread.read
  · rw [hsame]
    exact hread.ordered

theorem ReadUpTo.next (hread : h.ReadUpTo topic logs positions) {name : String}
    {partition : UInt32} {id : UInt64}
    (hid : (logs partition)[positions name partition]? = some id)
    (hfits : positions name partition + 1 < 2 ^ 64) :
    (h.recordConsumed name 0 topic partition (UInt64.ofNat (positions name partition)) id).ReadUpTo
      topic logs (moved positions name partition (positions name partition + 1)) := by
  have hoffset : (UInt64.ofNat (positions name partition)).toNat = positions name partition := by
    rw [UInt64.toNat_ofNat', Nat.mod_eq_of_lt (by omega)]
  have hle (name' : String) (partition' : UInt32) : positions name' partition' ≤
      moved positions name partition (positions name partition + 1) name' partition' := by
    by_cases heq : name' = name ∧ partition' = partition
    · obtain ⟨rfl, rfl⟩ := heq
      rw [moved_self]
      omega
    · rw [moved_other _ _ _ _ fun hname hpartition => heq ⟨hname, hpartition⟩]
  refine ⟨fun c hc => ?_, fun name' partition' => ?_, fun name' partition' o ho => ?_, ?_⟩
  · rcases List.mem_append.mp hc with hold | hnew
    · obtain ⟨hgeneration, htopic, hlt, hat⟩ := hread.consumed c hold
      exact ⟨hgeneration, htopic, hlt.trans_le (hle _ _), hat⟩
    · rw [List.mem_singleton.mp hnew]
      refine ⟨rfl, rfl, ?_, ?_⟩
      · rw [hoffset, moved_self]
        omega
      · rw [hoffset]
        exact hid
  · by_cases heq : name' = name ∧ partition' = partition
    · obtain ⟨rfl, rfl⟩ := heq
      rwa [moved_self]
    · rw [moved_other _ _ _ _ fun hname hpartition => heq ⟨hname, hpartition⟩]
      exact hread.fits name' partition'
  · by_cases hold : o < positions name' partition'
    · obtain ⟨c, hc, hwhere⟩ := hread.read name' partition' o hold
      exact ⟨c, List.mem_append_left _ hc, hwhere⟩
    · by_cases heq : name' = name ∧ partition' = partition
      · obtain ⟨rfl, rfl⟩ := heq
        rw [moved_self] at ho
        refine ⟨_, List.mem_append_right _ (List.mem_singleton_self _), rfl, rfl, ?_⟩
        rw [hoffset]
        omega
      · rw [moved_other _ _ _ _ fun hname hpartition => heq ⟨hname, hpartition⟩] at ho
        exact absurd ho hold
  · refine List.pairwise_append.mpr ⟨hread.ordered, List.pairwise_singleton _ _, ?_⟩
    intro c hc d hd hstream
    rw [List.mem_singleton.mp hd] at hstream ⊢
    obtain ⟨-, -, hlt, -⟩ := hread.consumed c hc
    rw [ConsumedRecord.stream, ConsumedRecord.stream, Prod.mk.injEq, Prod.mk.injEq,
      Prod.mk.injEq] at hstream
    obtain ⟨hname, -, -, hpartition⟩ := hstream
    rw [hname, hpartition] at hlt
    rw [UInt64.lt_iff_toNat_lt, hoffset]
    exact hlt

/-- A partition was consumed from its start up to some offset. -/
theorem ReadUpTo.gapFree (hread : h.ReadUpTo topic logs positions) {log : String × UInt32}
    (hsome : ∃ c ∈ h.consumed, c.log = log) :
    ∃ max, ∀ offset, (∃ c ∈ h.consumed, c.log = log ∧ c.offset = offset) ↔ offset ≤ max := by
  obtain ⟨c, hc, hlog⟩ := hsome
  have hne : (h.consumed.filter (·.log = log)).map ConsumedRecord.offset ≠ [] :=
    List.ne_nil_of_mem (List.mem_map_of_mem (List.mem_filter.mpr ⟨hc, decide_eq_true hlog⟩))
  obtain ⟨max, hmem, -, hmax⟩ := exists_max hne
  obtain ⟨d, hd, rfl⟩ := List.mem_map.mp hmem
  obtain ⟨hd, hdlog⟩ := List.mem_filter.mp hd
  refine ⟨d.offset, fun offset => ⟨?_, fun hle => ?_⟩⟩
  · rintro ⟨e, he, helog, rfl⟩
    exact hmax _ (List.mem_map_of_mem (List.mem_filter.mpr ⟨he, decide_eq_true helog⟩))
  · obtain ⟨-, htopic, hlt, -⟩ := hread.consumed d hd
    have hbelow : offset.toNat < positions d.consumer d.partition :=
      lt_of_le_of_lt (UInt64.le_iff_toNat_le.mp hle) hlt
    obtain ⟨e, he, -, hpartition, hoffset⟩ := hread.read d.consumer d.partition _ hbelow
    refine ⟨e, he, ?_, UInt64.toNat_inj.mp hoffset⟩
    rw [← of_decide_eq_true hdlog, ConsumedRecord.log, ConsumedRecord.log, hpartition, htopic,
      (hread.consumed e he).2.1]

/-- The report finds no fault with the readers. -/
theorem ReadUpTo.report (hread : h.ReadUpTo topic logs positions) :
    ∃ report, h.verifyFromStart = some report ∧ report.monotonicityViolations = [] ∧
      report.divergentOffsets = [] ∧ report.offsetGaps = [] ∧
      ((∀ p ∈ h.produced, ∃ c ∈ h.consumed, c.id = p.id) → report.isOk = true) := by
  have hoffsets : ∀ c ∈ h.consumed, c.offset.toNat < 2 ^ 64 - 1 := by
    intro c hc
    have hlt := (hread.consumed c hc).2.2.1
    have hfits := hread.fits c.consumer c.partition
    omega
  have hconsistent : ∀ c ∈ h.consumed, ∀ d ∈ h.consumed, c.position = d.position → c.id = d.id := by
    intro c hc d hd hposition
    rw [ConsumedRecord.position, ConsumedRecord.position, Prod.mk.injEq, Prod.mk.injEq] at hposition
    obtain ⟨-, hpartition, hoffset⟩ := hposition
    have hat := (hread.consumed c hc).2.2.2
    rw [hpartition, hoffset, (hread.consumed d hd).2.2.2] at hat
    exact (Option.some.inj hat).symm
  obtain ⟨gaps, hreport, hgaps⟩ := exists_verifyFromStart hoffsets
  have hnone : gaps = [] := hgaps.mpr fun log hsome => hread.gapFree hsome
  have hordered := (foldl_checkOrder_eq_nil_iff h.consumed).mpr hread.ordered
  have hsame := (foldl_checkId_eq_nil_iff h.consumed).mpr hconsistent
  refine ⟨_, hreport, hordered, hsame, hnone, fun hdelivered => ?_⟩
  exact isOk_with_gaps_iff.mpr ⟨missingIds_eq_nil_iff.mpr hdelivered, hordered, hsame, hnone⟩

theorem ReadUpTo.delivered (hread : h.ReadUpTo topic logs positions) {name : String}
    {partition : UInt32} {o : ℕ} (ho : o < positions name partition) {id : UInt64}
    (hid : (logs partition)[o]? = some id) : ∃ c ∈ h.consumed, c.id = id := by
  obtain ⟨c, hc, -, rfl, rfl⟩ := hread.read name partition o ho
  exact ⟨c, hc, Option.some.inj ((hread.consumed c hc).2.2.2.symm.trans hid)⟩

end History
end Replog.Checker
