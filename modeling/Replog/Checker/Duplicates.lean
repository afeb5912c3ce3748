import Replog.Checker.Verdict
import Replog.Library.Transition
import Mathlib.Data.Finset.Prod
import Mathlib.Data.Finset.Card

/-!
# The duplicates of a run

Several readers go through every partition, so an id is consumed more than once even without a
duplicate. What a run reports as duplicates is computed from totals and from the number of readers.
The topic may be one that was there before, with records of an earlier run under the same ids; on a
new one the count is right as long as the readers get equally far or see nothing twice.
-/

namespace Replog.Checker
open Replog.Library

structure RunConfig where
  topic : String
  partitions : UInt32
  batchRecords : ℕ
  readersPerPartition : ℕ

/-- The summary of a run, as far as it is about duplicates. -/
structure RunSummary where
  report : Report
  readersPerPartition : ℕ

def RunSummary.extraDuplicates (s : RunSummary) : ℕ :=
  s.report.consumedTotal - s.report.distinctConsumed * s.readersPerPartition

/-! ## Runs -/

/-- The `number`th reader of a partition. -/
structure Reader where
  partition : UInt32
  number : ℕ
  deriving DecidableEq

def Reader.name (r : Reader) : String :=
  s!"reader-{Char.ofNat ((97 + r.number) % 256)}-{r.partition}"

structure RunState where
  ids : ℕ
  history : History
  /-- The ids handed out so far, with the partition they were to be produced to. -/
  sent : List (UInt64 × UInt32)
  /-- What every reader got, in the order of the history. -/
  deliveries : List (Reader × UInt64)

/-- A producer gets the acks for its next batch, or a reader its next batch of offsets and ids. -/
inductive Event where
  | produce (partition : UInt32) (acked : List UInt64)
  | next (reader : Reader) (batch : List (UInt64 × UInt64))

namespace RunState

def init : RunState := { ids := 0, history := .new, sent := [], deliveries := [] }

def batchIds (base batchRecords : ℕ) : List UInt64 :=
  (List.range batchRecords).map fun i => UInt64.ofNat (base + i)

/-- Only ids of the batch are acked. What a reader finds in its partition, how often and when is up
to the system under test. The sum of the ids may not overflow. -/
def step (cfg : RunConfig) (s : RunState) : Event → Option RunState
  | .produce partition acked =>
    let ids := batchIds s.ids cfg.batchRecords
    if partition < cfg.partitions ∧ s.ids + cfg.batchRecords < 2 ^ 64 ∧ acked ⊆ ids then
      some { s with
        ids := s.ids + cfg.batchRecords
        history := acked.foldl (fun h id => h.recordProduced id cfg.topic) s.history
        sent := s.sent ++ ids.map fun id => (id, partition) }
    else none
  | .next reader batch =>
    if reader.partition < cfg.partitions ∧ reader.number < cfg.readersPerPartition then
      some { s with
        history := batch.foldl (fun h e =>
          h.recordConsumed reader.name 0 cfg.topic reader.partition e.1 e.2) s.history
        deliveries := s.deliveries ++ batch.map fun e => (reader, e.2) }
    else none

def Free (_ : RunState) (_ : Event) : Prop := True

instance (s : RunState) (e : Event) : Decidable (Free s e) := inferInstanceAs (Decidable True)

/-- The topic is new: readers find only what was sent to their partition in this run. -/
def Fresh (s : RunState) : Event → Prop
  | .produce _ _ => True
  | .next reader batch => ∀ e ∈ batch, (e.2, reader.partition) ∈ s.sent

/-- The history is that of the deliveries. -/
structure Inv (cfg : RunConfig) (s : RunState) : Prop where
  number_lt : ∀ d ∈ s.deliveries, d.1.number < cfg.readersPerPartition
  consumed : s.history.consumed.map ConsumedRecord.id = s.deliveries.map Prod.snd

/-- Every id was handed out for one partition, and what is delivered was sent there. -/
structure FreshInv (s : RunState) : Prop where
  sent_lt : ∀ e ∈ s.sent, e.1.toNat < s.ids
  sent_unique : ∀ e ∈ s.sent, ∀ f ∈ s.sent, e.1 = f.1 → e.2 = f.2
  delivered : ∀ d ∈ s.deliveries, (d.2, d.1.partition) ∈ s.sent

variable {cfg : RunConfig} {s s' : RunState}

private theorem consumed_foldl_recordProduced (acked : List UInt64) (topic : String) (h : History) :
    (acked.foldl (fun h id => h.recordProduced id topic) h).consumed = h.consumed := by
  induction acked generalizing h with
  | nil => rfl
  | cons id acked ih => exact ih _

private theorem ids_foldl_recordConsumed (reader : Reader) (topic : String)
    (batch : List (UInt64 × UInt64)) (h : History) :
    (batch.foldl (fun h e => h.recordConsumed reader.name 0 topic reader.partition e.1 e.2)
      h).consumed.map ConsumedRecord.id = h.consumed.map ConsumedRecord.id ++ batch.map Prod.snd := by
  induction batch generalizing h with
  | nil => simp
  | cons e batch ih =>
    rw [List.foldl_cons, ih, History.recordConsumed, List.map_append]
    simp

private theorem toNat_of_mem_batchIds {base batchRecords : ℕ} (hfits : base + batchRecords < 2 ^ 64)
    {id : UInt64} (hid : id ∈ batchIds base batchRecords) :
    base ≤ id.toNat ∧ id.toNat < base + batchRecords := by
  obtain ⟨i, hi, rfl⟩ := List.mem_map.mp hid
  rw [List.mem_range] at hi
  rw [UInt64.toNat_ofNat', Nat.mod_eq_of_lt (by omega)]
  omega

theorem inv_init : init.Inv cfg where
  number_lt := nofun
  consumed := rfl

theorem Inv.step (h : s.Inv cfg) {e : Event} (hstep : s.step cfg e = some s') : s'.Inv cfg := by
  cases e with
  | produce partition acked =>
    rw [RunState.step] at hstep
    split at hstep
    · cases hstep
      exact {
        number_lt := h.number_lt
        consumed := by
          rw [consumed_foldl_recordProduced]
          exact h.consumed }
    · cases hstep
  | next reader batch =>
    rw [RunState.step] at hstep
    split at hstep
    · rename_i hguard
      cases hstep
      exact {
        number_lt := fun d hd => by
          rcases List.mem_append.mp hd with hd | hd
          · exact h.number_lt d hd
          · obtain ⟨e, he, rfl⟩ := List.mem_map.mp hd
            exact hguard.2
        consumed := by
          rw [ids_foldl_recordConsumed, h.consumed, List.map_append, List.map_map]
          rfl }
    · cases hstep

theorem inv_of_reach (h : Reach (step cfg) Free init s) : s.Inv cfg :=
  h.invariant inv_init fun _ _ _ hs _ hstep => hs.step hstep

/-! ## New topics -/

private theorem freshInv_init : init.FreshInv where
  sent_lt := nofun
  sent_unique := nofun
  delivered := nofun

theorem FreshInv.step (h : s.FreshInv) {e : Event} (hguard : s.Fresh e)
    (hstep : s.step cfg e = some s') : s'.FreshInv := by
  cases e with
  | produce partition acked =>
    rw [RunState.step] at hstep
    split at hstep
    · rename_i hids
      obtain ⟨-, hfits, -⟩ := hids
      cases hstep
      have hnew : ∀ f ∈ (batchIds s.ids cfg.batchRecords).map (fun id => (id, partition)),
          s.ids ≤ f.1.toNat ∧ f.1.toNat < s.ids + cfg.batchRecords ∧ f.2 = partition := by
        intro f hf
        obtain ⟨id, hid, rfl⟩ := List.mem_map.mp hf
        have hrange := toNat_of_mem_batchIds hfits hid
        exact ⟨hrange.1, hrange.2, rfl⟩
      exact {
        sent_lt := fun f hf => by
          rcases List.mem_append.mp hf with hf | hf
          · exact Nat.lt_add_right _ (h.sent_lt f hf)
          · exact (hnew f hf).2.1
        sent_unique := fun f hf g hg heq => by
          rcases List.mem_append.mp hf with hf | hf
          · rcases List.mem_append.mp hg with hg | hg
            · exact h.sent_unique f hf g hg heq
            · have := h.sent_lt f hf
              have := (hnew g hg).1
              rw [heq] at *
              omega
          · rcases List.mem_append.mp hg with hg | hg
            · have := h.sent_lt g hg
              have := (hnew f hf).1
              rw [heq] at *
              omega
            · rw [(hnew f hf).2.2, (hnew g hg).2.2]
        delivered := fun d hd => List.mem_append_left _ (h.delivered d hd) }
    · cases hstep
  | next reader batch =>
    rw [RunState.step] at hstep
    split at hstep
    · cases hstep
      exact { h with
        delivered := fun d hd => by
          rcases List.mem_append.mp hd with hd | hd
          · exact h.delivered d hd
          · obtain ⟨e, he, rfl⟩ := List.mem_map.mp hd
            exact hguard e he }
    · cases hstep

/-- Each id is consumed from one partition only. -/
def InOnePartition (s : RunState) : Prop :=
  ∀ d ∈ s.deliveries, ∀ e ∈ s.deliveries, d.2 = e.2 → d.1.partition = e.1.partition

instance : Decidable s.InOnePartition :=
  inferInstanceAs (Decidable (∀ d ∈ s.deliveries, ∀ e ∈ s.deliveries, _ → _))

/-- On a new topic an id goes with the partition it was handed out for. -/
theorem inOnePartition_of_fresh (h : Reach (step cfg) Fresh init s) : s.InOnePartition := by
  have hinv := h.invariant freshInv_init fun _ _ _ hs hguard hstep => hs.step hguard hstep
  intro d hd e he hid
  exact hinv.sent_unique _ (hinv.delivered d hd) _ (hinv.delivered e he) hid

/-! ## Pairs of a reader and an id -/

def consumedIds (s : RunState) : List UInt64 := (s.deliveries.map Prod.snd).dedup

/-- The pairs of a reader and an id, each of them once. -/
def pairs (s : RunState) : List (Reader × UInt64) := s.deliveries.dedup

/-- Each id that a reader got was got by every reader of the partition. -/
def Complete (cfg : RunConfig) (s : RunState) : Prop :=
  ∀ d ∈ s.deliveries, ∀ number < cfg.readersPerPartition,
    (⟨d.1.partition, number⟩, d.2) ∈ s.deliveries

def OnceEach (s : RunState) : Prop := s.deliveries.Nodup

instance : Decidable (s.Complete cfg) :=
  inferInstanceAs (Decidable (∀ d ∈ s.deliveries, ∀ number < cfg.readersPerPartition,
    (⟨d.1.partition, number⟩, d.2) ∈ s.deliveries))

instance : Decidable s.OnceEach := inferInstanceAs (Decidable s.deliveries.Nodup)

/-- The pairs, by id and number, where the partition goes with the id. -/
theorem card_pairs (hone : s.InOnePartition) : s.pairs.length =
    (s.deliveries.toFinset.image fun d => (d.2, d.1.number)).card := by
  rw [pairs, ← List.card_toFinset, Finset.card_image_of_injOn]
  intro d hd e he heq
  rw [Finset.mem_coe, List.mem_toFinset] at hd he
  obtain ⟨hid, hnumber⟩ := Prod.mk.inj heq
  have hpartition := hone d hd e he hid
  obtain ⟨⟨p, n⟩, id⟩ := d
  obtain ⟨⟨q, m⟩, id'⟩ := e
  simp only at hid hnumber hpartition
  rw [hid, hnumber, hpartition]

theorem Inv.pairs_subset (h : s.Inv cfg) :
    (s.deliveries.toFinset.image fun d => (d.2, d.1.number)) ⊆
      (s.deliveries.map Prod.snd).toFinset ×ˢ Finset.range cfg.readersPerPartition := by
  intro e he
  obtain ⟨d, hd, rfl⟩ := Finset.mem_image.mp he
  rw [List.mem_toFinset] at hd
  rw [Finset.mem_product, List.mem_toFinset, Finset.mem_range]
  exact ⟨List.mem_map_of_mem hd, h.number_lt d hd⟩

theorem card_product (cfg : RunConfig) (s : RunState) :
    ((s.deliveries.map Prod.snd).toFinset ×ˢ Finset.range cfg.readersPerPartition).card =
      s.consumedIds.length * cfg.readersPerPartition := by
  rw [Finset.card_product, List.card_toFinset, Finset.card_range, consumedIds]

private theorem Inv.pairs_le (h : s.Inv cfg) (hone : s.InOnePartition) :
    s.pairs.length ≤ s.consumedIds.length * cfg.readersPerPartition := by
  rw [card_pairs hone, ← card_product]
  exact Finset.card_le_card h.pairs_subset

private theorem Inv.pairs_eq_iff (h : s.Inv cfg) (hone : s.InOnePartition) :
    s.pairs.length = s.consumedIds.length * cfg.readersPerPartition ↔ s.Complete cfg := by
  rw [card_pairs hone, ← card_product]
  constructor
  · intro hcard d hd number hnumber
    have hall := Finset.eq_of_subset_of_card_le h.pairs_subset hcard.ge
    have hmem : (d.2, number) ∈ (s.deliveries.map Prod.snd).toFinset ×ˢ
        Finset.range cfg.readersPerPartition :=
      Finset.mem_product.mpr
        ⟨List.mem_toFinset.mpr (List.mem_map_of_mem hd), Finset.mem_range.mpr hnumber⟩
    rw [← hall] at hmem
    obtain ⟨⟨⟨p, n⟩, id⟩, he, heq⟩ := Finset.mem_image.mp hmem
    rw [List.mem_toFinset] at he
    obtain ⟨hid, rfl⟩ := Prod.mk.inj heq
    obtain rfl : id = d.2 := hid
    have hpartition := hone _ he d hd rfl
    exact hpartition ▸ he
  · intro hcomplete
    refine congrArg Finset.card (h.pairs_subset.antisymm fun e he => ?_)
    rw [Finset.mem_product, List.mem_toFinset, Finset.mem_range] at he
    obtain ⟨d, hd, hid⟩ := List.mem_map.mp he.1
    have hmem := hcomplete d hd e.2 he.2
    refine Finset.mem_image.mpr ⟨_, List.mem_toFinset.mpr hmem, ?_⟩
    rw [hid]

private theorem onceEach_iff : s.OnceEach ↔ s.pairs.length = s.deliveries.length := by
  constructor
  · intro hnodup
    rw [pairs, hnodup.dedup]
  · intro hlen
    rw [OnceEach, ← (List.dedup_sublist _).eq_of_length hlen]
    exact List.nodup_dedup _

/-! ## The summary -/

/-- The summary counts the deliveries beyond the first of each reader and id. -/
def CountsDuplicates (cfg : RunConfig) (s : RunState) (report : Report) : Prop :=
  RunSummary.extraDuplicates { report, readersPerPartition := cfg.readersPerPartition } =
    s.deliveries.length - s.pairs.length

theorem totals_of_verifyFromStart {h : History} {report : Report}
    (hreport : h.verifyFromStart = some report) : report.consumedTotal = h.consumed.length ∧
      report.distinctConsumed = (h.consumed.map ConsumedRecord.id).dedup.length := by
  rw [History.verifyFromStart, Option.map_eq_some_iff] at hreport
  obtain ⟨gaps, -, rfl⟩ := hreport
  exact ⟨rfl, Assoc.length_entries_counts ConsumedRecord.id h.consumed⟩

/-- Whenever a run ends, its summary counts the duplicates if and only if there are as many pairs as
ids times readers, or no pair came twice and there are no more. Where an id is consumed from one
partition only, as on a new topic, that is so if and only if every reader got every id consumed from
its partition or nobody got one twice. -/
theorem countsDuplicates_iff (h : Reach (step cfg) Free init s) {report : Report}
    (hreport : s.history.verifyFromStart = some report) :
    (CountsDuplicates cfg s report ↔
      s.pairs.length = s.consumedIds.length * cfg.readersPerPartition ∨
        s.OnceEach ∧ s.pairs.length ≤ s.consumedIds.length * cfg.readersPerPartition) ∧
      (s.InOnePartition → (CountsDuplicates cfg s report ↔ s.Complete cfg ∨ s.OnceEach)) := by
  have hinv := inv_of_reach h
  obtain ⟨htotal, hdistinct⟩ := totals_of_verifyFromStart hreport
  have hlength : s.history.consumed.length = s.deliveries.length := by
    have hlen := congrArg List.length hinv.consumed
    rwa [List.length_map, List.length_map] at hlen
  rw [hlength] at htotal
  rw [hinv.consumed] at hdistinct
  have hpairs : s.pairs.length ≤ s.deliveries.length := (List.dedup_sublist s.deliveries).length_le
  have hcounts : CountsDuplicates cfg s report ↔
      s.pairs.length = s.consumedIds.length * cfg.readersPerPartition ∨
        s.OnceEach ∧ s.pairs.length ≤ s.consumedIds.length * cfg.readersPerPartition := by
    rw [CountsDuplicates, RunSummary.extraDuplicates, htotal, hdistinct, onceEach_iff]
    change s.deliveries.length - s.consumedIds.length * cfg.readersPerPartition = _ ↔ _
    omega
  refine ⟨hcounts, fun hone => ?_⟩
  have hle := hinv.pairs_le hone
  rw [hcounts, hinv.pairs_eq_iff hone, and_iff_left hle]

/-- Two readers, one record that is in the log twice. -/
def retried : RunConfig :=
  { topic := "t", partitions := 1, batchRecords := 1, readersPerPartition := 2 }

theorem exists_report (hconsumed : ∀ c ∈ s.history.consumed, c.offset.toNat < 2 ^ 64 - 1) :
    ∃ report, s.history.verifyFromStart = some report := by
  obtain ⟨gaps, hreport, -⟩ := History.exists_verifyFromStart hconsumed
  exact ⟨_, hreport⟩

/-- Both readers read both copies. -/
theorem countsDuplicates_both : ∃ s report, Reach (step retried) Free init s ∧
    s.history.verifyFromStart = some report ∧ CountsDuplicates retried s report := by
  obtain ⟨s, hreach, hcomplete, hoffsets⟩ := Reach.exists_of_runSteps (step retried) Free init
    [.produce 0 [0], .next ⟨0, 0⟩ [(0, 0), (1, 0)], .next ⟨0, 1⟩ [(0, 0), (1, 0)]]
    (fun s => (s.InOnePartition ∧ s.Complete retried) ∧
      ∀ c ∈ s.history.consumed, c.offset.toNat < 2 ^ 64 - 1)
    (by decide)
  obtain ⟨report, hreport⟩ := exists_report hoffsets
  exact ⟨s, report, hreach, hreport,
    ((countsDuplicates_iff hreach hreport).2 hcomplete.1).mpr (.inl hcomplete.2)⟩

/-- The run ends before the second reader got anything, every acked id having been consumed by the
first, and the copy is not counted. -/
theorem hidden_duplicate : ∃ s report, Reach (step retried) Free init s ∧
    (∀ p ∈ s.history.produced, ∃ c ∈ s.history.consumed, c.id = p.id) ∧
    s.history.verifyFromStart = some report ∧ ¬ CountsDuplicates retried s report := by
  obtain ⟨s, hreach, hdrained, htotal, hdistinct, hextra, hoffsets⟩ :=
    Reach.exists_of_runSteps (step retried) Free init
      [.produce 0 [0], .next ⟨0, 0⟩ [(0, 0), (1, 0)]]
      (fun s => (∀ p ∈ s.history.produced, ∃ c ∈ s.history.consumed, c.id = p.id) ∧
        s.history.consumed.length = 2 ∧
        (s.history.consumed.map ConsumedRecord.id).dedup.length = 1 ∧
        s.deliveries.length - s.pairs.length = 1 ∧
        ∀ c ∈ s.history.consumed, c.offset.toNat < 2 ^ 64 - 1)
      (by decide)
  obtain ⟨report, hreport⟩ := exists_report hoffsets
  obtain ⟨htotal', hdistinct'⟩ := totals_of_verifyFromStart hreport
  refine ⟨s, report, hreach, hdrained, hreport, ?_⟩
  rw [CountsDuplicates, RunSummary.extraDuplicates, htotal', hdistinct', htotal, hdistinct, hextra]
  exact (by decide : ¬ 2 - 1 * 2 = 1)

end RunState
end Replog.Checker
