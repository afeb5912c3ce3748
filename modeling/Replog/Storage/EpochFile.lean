import Replog.Storage.EpochCheckpoint

/-!
# A checkpoint beside its log

A sound checkpoint goes with a log of a given length: no epoch starts behind its end. Then the
next epoch can be recorded, and what is written to the file is what is loaded from it.
-/

namespace Replog.Storage.EpochCheckpoint
open Replog.LittleEndian

/-- Epochs ascend, starts do not descend, and none is past the log's end. -/
structure Sound (ck : EpochCheckpoint) (logEnd : ℕ) : Prop where
  ascending : ck.entries.Pairwise fun a b => a.1 < b.1
  starts : ck.entries.Pairwise fun a b => a.2 ≤ b.2
  start_le : ∀ e ∈ ck.entries, e.2 ≤ logEnd

theorem Sound.nil {logEnd : ℕ} : (⟨[]⟩ : EpochCheckpoint).Sound logEnd :=
  ⟨.nil, .nil, nofun⟩

theorem Sound.of_le {ck : EpochCheckpoint} {n m : ℕ} (h : ck.Sound n)
    (hle : ∀ e ∈ ck.entries, e.2 ≤ m) : ck.Sound m := ⟨h.ascending, h.starts, hle⟩

theorem Sound.mono {ck : EpochCheckpoint} {n m : ℕ} (h : ck.Sound n) (hle : n ≤ m) : ck.Sound m :=
  h.of_le fun e he => (h.start_le e he).trans hle

theorem Sound.truncateTo {ck : EpochCheckpoint} {n : ℕ} (h : ck.Sound n) (m : ℕ) :
    (ck.truncateTo m).Sound (min m n) := by
  have hsub : (ck.truncateTo m).entries.Sublist ck.entries := List.takeWhile_sublist _
  refine ⟨h.ascending.sublist hsub, h.starts.sublist hsub, fun e he => ?_⟩
  have hcut : decide (e.2 < m) = true :=
    List.mem_takeWhile_imp (p := fun e : ℕ × ℕ => decide (e.2 < m)) he
  have hlt := of_decide_eq_true hcut
  have hstart := h.start_le e (hsub.subset he)
  omega

private theorem Sound.le_currentEpoch {ck : EpochCheckpoint} {n : ℕ} (h : ck.Sound n) {e : ℕ × ℕ}
    (he : e ∈ ck.entries) : e.1 ≤ ck.currentEpoch := by
  rw [currentEpoch]
  cases hlast : ck.entries.getLast? with
  | none =>
    rw [List.getLast?_eq_none_iff.mp hlast] at he
    exact absurd he List.not_mem_nil
  | some last =>
    obtain ⟨init, hinit⟩ := List.getLast?_eq_some_iff.mp hlast
    have hasc := h.ascending
    rw [hinit] at he hasc
    rcases List.mem_append.mp he with hin | hin
    · exact ((List.pairwise_append.mp hasc).2.2 e hin last List.mem_cons_self).le
    · rw [List.mem_singleton.mp hin]
      exact le_rfl

/-- A later epoch can start at the end of the log. -/
theorem Sound.append_eq {ck : EpochCheckpoint} {n epoch : ℕ} (h : ck.Sound n)
    (hlater : ck.currentEpoch < epoch) :
    ck.append epoch n = some ⟨ck.entries ++ [(epoch, n)]⟩ := by
  rw [currentEpoch] at hlater
  rw [append]
  cases hlast : ck.entries.getLast? with
  | none => rfl
  | some last =>
    have hstart := h.start_le last (List.mem_of_getLast? hlast)
    rw [hlast] at hlater
    simp only [Option.elim_some] at hlater
    dsimp only
    rw [if_neg (by omega), if_neg (by omega)]

theorem Sound.snoc {ck : EpochCheckpoint} {n epoch : ℕ} (h : ck.Sound n)
    (hlater : ck.currentEpoch < epoch) :
    (⟨ck.entries ++ [(epoch, n)]⟩ : EpochCheckpoint).Sound n := by
  refine ⟨List.pairwise_append.mpr ⟨h.ascending, List.pairwise_singleton _ _, ?_⟩,
    List.pairwise_append.mpr ⟨h.starts, List.pairwise_singleton _ _, ?_⟩, fun e he => ?_⟩
  · intro e he e' he'
    rw [List.mem_singleton.mp he']
    exact (h.le_currentEpoch he).trans_lt hlater
  · intro e he e' he'
    rw [List.mem_singleton.mp he']
    exact h.start_le e he
  · rcases List.mem_append.mp he with hin | hin
    · exact h.start_le e hin
    · rw [List.mem_singleton.mp hin]

/-! ## The file -/

/-- Entries are pairs of `u64`. -/
def Fits (ck : EpochCheckpoint) : Prop := ∀ e ∈ ck.entries, e.1 < 2 ^ 64 ∧ e.2 < 2 ^ 64

@[simp] theorem length_encodeEntry (e : ℕ × ℕ) : (encodeEntry e).length = ENTRY_FILE_BYTES := by
  simp [encodeEntry, ENTRY_FILE_BYTES]

theorem length_encode (ck : EpochCheckpoint) :
    ck.encode.length = ENTRY_FILE_BYTES * ck.entries.length := by
  obtain ⟨entries⟩ := ck
  induction entries with
  | nil => rfl
  | cons e es ih =>
    simp only [encode] at ih ⊢
    rw [List.flatMap_cons, List.length_append, ih, length_encodeEntry, List.length_cons]
    ring

private theorem parse_encode {rest : List (ℕ × ℕ)} (done : List (ℕ × ℕ))
    (hfits : ∀ e ∈ rest, e.1 < 2 ^ 64 ∧ e.2 < 2 ^ 64)
    (hascending : (done ++ rest).Pairwise fun a b => a.1 < b.1)
    (hstarts : (done ++ rest).Pairwise fun a b => a.2 ≤ b.2) :
    parse rest.length (rest.flatMap encodeEntry) done = some (done ++ rest) := by
  induction rest generalizing done with
  | nil => simp [parse]
  | cons e rest ih =>
    obtain ⟨⟨hepoch, hstart⟩, hrest⟩ := List.forall_mem_cons.mp hfits
    have hread : leValue ((encodeEntry e ++ rest.flatMap encodeEntry).take 8) = e.1 ∧
        leValue (((encodeEntry e ++ rest.flatMap encodeEntry).drop 8).take 8) = e.2 ∧
        (encodeEntry e ++ rest.flatMap encodeEntry).drop ENTRY_FILE_BYTES =
          rest.flatMap encodeEntry := by
      rw [encodeEntry, List.append_assoc]
      refine ⟨?_, ?_, ?_⟩
      · rw [List.take_left' (length_leBytes 8 _), leValue_leBytes_of_lt (by omega)]
      · rw [List.drop_left' (length_leBytes 8 _), List.take_left' (length_leBytes 8 _),
          leValue_leBytes_of_lt (by omega)]
      · rw [← List.append_assoc]
        exact List.drop_left' (by simp [ENTRY_FILE_BYTES])
    have hbroken : done.getLast?.any (fun last => e.1 ≤ last.1 || e.2 < last.2) = false := by
      cases hlast : done.getLast? with
      | none => rfl
      | some last =>
        have hmem := List.mem_of_getLast? hlast
        have hlt := (List.pairwise_append.mp hascending).2.2 last hmem e List.mem_cons_self
        have hle := (List.pairwise_append.mp hstarts).2.2 last hmem e List.mem_cons_self
        simp only [Option.any_some, Bool.or_eq_false_iff, decide_eq_false_iff_not]
        omega
    obtain ⟨hr1, hr2, hr3⟩ := hread
    rw [List.length_cons, List.flatMap_cons, parse, hr1, hr2, hr3]
    simp only [hbroken, Bool.false_eq_true, if_false]
    rw [ih _ hrest (by simpa using hascending) (by simpa using hstarts)]
    simp

/-- The file of a checkpoint; an empty one need not be there. -/
def Stored (ck : EpochCheckpoint) (file : Option (List UInt8)) : Prop :=
  file.getD [] = ck.encode

theorem Sound.load_stored {ck : EpochCheckpoint} {n : ℕ} {file : Option (List UInt8)}
    (h : ck.Sound n) (hfits : ck.Fits) (hfile : ck.Stored file) : load file = some ck := by
  cases file with
  | none =>
    have hlen : 0 = ENTRY_FILE_BYTES * ck.entries.length := by
      rw [← length_encode, ← hfile]
      rfl
    obtain ⟨entries⟩ := ck
    have hnil : entries = [] := by simpa [ENTRY_FILE_BYTES] using hlen
    rw [hnil]
    rfl
  | some bytes =>
    obtain rfl : bytes = ck.encode := hfile
    have hparse := parse_encode [] hfits h.ascending h.starts
    rw [List.nil_append] at hparse
    rw [load, length_encode, if_neg (by simp), Nat.mul_div_cancel_left _ (by decide), encode,
      hparse]
    rfl

private theorem take_encode (ck : EpochCheckpoint) (j : ℕ) :
    ck.encode.take (ENTRY_FILE_BYTES * j) = (⟨ck.entries.take j⟩ : EpochCheckpoint).encode := by
  obtain ⟨entries⟩ := ck
  simp only [encode]
  induction entries generalizing j with
  | nil => simp
  | cons e es ih =>
    cases j with
    | zero => simp
    | succ j =>
      have hsplit : ENTRY_FILE_BYTES * (j + 1) = (encodeEntry e).length + ENTRY_FILE_BYTES * j := by
        rw [length_encodeEntry]
        ring
      rw [List.take_succ_cons, List.flatMap_cons, List.flatMap_cons, hsplit,
        List.take_length_add_append, ih]

/-- The first bytes of a checkpoint file are those of its first entries, or end inside an entry
and do not load. -/
theorem take_stored (ck : EpochCheckpoint) (n : ℕ) :
    (∃ j, (⟨ck.entries.take j⟩ : EpochCheckpoint).Stored (some (ck.encode.take n))) ∨
      load (some (ck.encode.take n)) = none := by
  by_cases htorn : (ck.encode.take n).length % ENTRY_FILE_BYTES = 0
  · left
    obtain ⟨j, hj⟩ := Nat.dvd_of_mod_eq_zero htorn
    refine ⟨j, ?_⟩
    rw [Stored, ← take_encode, ← hj]
    simp
  · right
    rw [load, if_pos htorn]

theorem Sound.take {ck : EpochCheckpoint} {n : ℕ} (h : ck.Sound n) (j : ℕ) :
    (⟨ck.entries.take j⟩ : EpochCheckpoint).Sound n := by
  have hsub := List.take_sublist j ck.entries
  exact ⟨h.ascending.sublist hsub, h.starts.sublist hsub, fun e he => h.start_le e (hsub.subset he)⟩

end Replog.Storage.EpochCheckpoint
