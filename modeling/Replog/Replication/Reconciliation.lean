import Replog.Storage.EpochCheckpoint

/-!
# Reconciliation of a follower with its leader

A follower reports the last epoch of its checkpoint, the leader answers where that epoch ended
in its own history, and the follower cuts its log to the smaller of that and its own end.
-/

namespace Replog.Replication
open Replog.Storage

variable {α : Type}

/-- A log whose records carry their leader epochs, with the checkpoint that records them. -/
structure History (α : Type) where
  log : List (ℕ × α)
  checkpoint : EpochCheckpoint
  ordered : (log.map Prod.fst).Pairwise (· ≤ ·)
  exact : checkpoint.Exact (log.map Prod.fst)

namespace History

/-- The epoch of the last record, `0` for an empty log. -/
def lastEpoch (h : History α) : ℕ := h.log.getLast?.elim 0 Prod.fst

/-- The offset a follower truncates to. -/
def reconcileTarget (leader follower : History α) : ℕ :=
  min (leader.checkpoint.endOffsetFor follower.checkpoint.currentEpoch leader.log.length)
    follower.log.length

def reconciled (leader follower : History α) : List (ℕ × α) :=
  follower.log.take (reconcileTarget leader follower)

/-- One writer per epoch: equal epochs at one offset mean equal logs up to it. -/
def Matching (leader follower : History α) : Prop :=
  ∀ (n : ℕ) (x y : ℕ × α), leader.log[n]? = some x → follower.log[n]? = some y → x.1 = y.1 →
    leader.log.take (n + 1) = follower.log.take (n + 1)

private theorem currentEpoch_eq (h : History α) : h.checkpoint.currentEpoch = h.lastEpoch := by
  have hordered := h.ordered
  have hexact := h.exact
  rw [EpochCheckpoint.currentEpoch, lastEpoch]
  cases hlast : h.log.getLast? with
  | none =>
    have hnil := List.getLast?_eq_none_iff.mp hlast
    have hentries : h.checkpoint.entries = [] := by
      refine List.eq_nil_iff_forall_not_mem.mpr fun e he => ?_
      have hat := ((hexact.mem_iff e.1 e.2).mp he).1
      simp [hnil] at hat
    simp [hentries]
  | some x =>
    -- the last record's epoch has an entry, and no entry is above it
    have hat : (h.log.map Prod.fst)[h.log.length - 1]? = some x.1 := by
      rw [List.getElem?_map, ← List.getLast?_eq_getElem?, hlast]
      rfl
    obtain ⟨k, -, hfirst⟩ := EpochCheckpoint.exists_firstAt hat
    have hmem := (hexact.mem_iff x.1 k).mpr hfirst
    cases hentry : h.checkpoint.entries.getLast? with
    | none =>
      rw [List.getLast?_eq_none_iff.mp hentry] at hmem
      cases hmem
    | some e =>
      have he := ((hexact.mem_iff e.1 e.2).mp (List.mem_of_getLast? hentry)).1
      obtain ⟨hlt, -⟩ := List.getElem?_eq_some_iff.mp he
      rw [List.length_map] at hlt
      have hle : e.1 ≤ x.1 := EpochCheckpoint.get?_mono hordered (by omega) he hat
      have hge : x.1 ≤ e.1 := by
        obtain ⟨l, hl⟩ := List.getLast?_eq_some_iff.mp hentry
        have hasc := hexact.ascending
        rw [hl] at hmem hasc
        rcases List.mem_append.mp hmem with hmem | hmem
        · exact ((List.pairwise_append.mp hasc).2.2 _ hmem e (by simp)).le
        · rw [← List.mem_singleton.mp hmem]
      exact Nat.le_antisymm hle hge

private theorem reconcileTarget_eq (leader follower : History α) :
    reconcileTarget leader follower =
      min (leader.log.takeWhile fun x => x.1 ≤ follower.lastEpoch).length
        follower.log.length := by
  have hanswer := leader.exact.endOffsetFor_eq leader.ordered follower.lastEpoch
  rw [List.length_map, List.takeWhile_map, List.length_map] at hanswer
  rw [reconcileTarget, currentEpoch_eq, hanswer]
  rfl

private theorem exists_first_difference {l m : List α} (hlen : l.length ≤ m.length)
    (h : ¬ l <+: m) : ∃ d < l.length, l.take d = m.take d ∧ l[d]? ≠ m[d]? := by
  induction l generalizing m with
  | nil => exact absurd List.nil_prefix h
  | cons a l ih =>
    cases m with
    | nil => simp at hlen
    | cons b m =>
      by_cases hab : a = b
      · subst hab
        obtain ⟨d, hd, htake, hne⟩ := ih (by simpa using hlen)
          (fun hp => h (List.cons_prefix_cons.mpr ⟨rfl, hp⟩))
        exact ⟨d + 1, by simpa using hd, by simp [htake], by simpa using hne⟩
      · exact ⟨0, by simp, by simp, by simpa using hab⟩

/-- What the follower keeps is a prefix of the leader's log exactly when, wherever the two logs
first differ, the leader's record has an epoch above the follower's last one. -/
theorem reconciled_isPrefix_iff (leader follower : History α) :
    reconciled leader follower <+: leader.log ↔
      ∀ (d : ℕ) (x y : ℕ × α), leader.log.take d = follower.log.take d →
        leader.log[d]? = some x → follower.log[d]? = some y → x ≠ y →
        follower.lastEpoch < x.1 := by
  have htarget := reconcileTarget_eq leader follower
  have hcount := (List.takeWhile_prefix (l := leader.log)
    fun x => decide (x.1 ≤ follower.lastEpoch)).length_le
  constructor
  · intro hfront d x y hsame hx hy hne
    by_contra hle
    obtain ⟨hdL, hxEq⟩ := List.getElem?_eq_some_iff.mp hx
    obtain ⟨hdF, -⟩ := List.getElem?_eq_some_iff.mp hy
    -- the leader's records up to `d` are all at or below the follower's last epoch
    have hbelow : d < (leader.log.takeWhile fun x => x.1 ≤ follower.lastEpoch).length := by
      refine EpochCheckpoint.lt_length_takeWhile hdL fun m a hm ha => ?_
      have hmono := EpochCheckpoint.get?_mono leader.ordered hm
        (by rw [List.getElem?_map, ha]; rfl) (by rw [List.getElem?_map, hx]; rfl)
      simp only [decide_eq_true_eq]
      omega
    have hd : d < reconcileTarget leader follower := by
      rw [htarget]
      omega
    have heq : (reconciled leader follower)[d]? = some y := by
      rw [reconciled, List.getElem?_take_of_lt hd, hy]
    obtain ⟨rest, hrest⟩ := hfront
    have hx' : leader.log[d]? = some y := by
      rw [← hrest, List.getElem?_append_left, heq]
      exact (List.getElem?_eq_some_iff.mp heq).1
    rw [hx] at hx'
    exact hne (Option.some.inj hx')
  · intro hcond
    by_contra hnot
    have hlen : (reconciled leader follower).length = reconcileTarget leader follower := by
      rw [reconciled, List.length_take, htarget]
      omega
    obtain ⟨d, hd, htake, hne⟩ := exists_first_difference (by omega) hnot
    rw [hlen] at hd
    have hdL : d < leader.log.length := by omega
    have hdF : d < follower.log.length := by omega
    have hy : (reconciled leader follower)[d]? = some follower.log[d] := by
      rw [reconciled, List.getElem?_take_of_lt hd, List.getElem?_eq_getElem hdF]
    have hx : leader.log[d]? = some leader.log[d] := List.getElem?_eq_getElem hdL
    rw [reconciled, List.take_take, Nat.min_eq_left hd.le] at htake
    -- the answer stops before the first record of a later epoch
    have hle : leader.log[d].1 ≤ follower.lastEpoch := by
      simpa using EpochCheckpoint.of_lt_length_takeWhile
        (p := fun x : ℕ × α => decide (x.1 ≤ follower.lastEpoch)) (by omega) hx
    have hlt := hcond d _ _ htake.symm hx (List.getElem?_eq_getElem hdF) fun heq =>
      hne (by rw [hy, hx, heq])
    omega

/-- Led epochs 1 and 2, and never saw the record of epoch 3. -/
def staleLeader : History ℕ where
  log := [(1, 10), (2, 20)]
  checkpoint := ⟨[(1, 0), (2, 1)]⟩
  ordered := by decide
  exact := (EpochCheckpoint.Exact.nil.append_snoc (e := 1) (by decide) rfl).append_snoc
    (e := 2) (by decide) rfl

/-- Led epoch 3 without having seen the record of epoch 2. -/
def divergedFollower : History ℕ where
  log := [(1, 10), (3, 30)]
  checkpoint := ⟨[(1, 0), (3, 1)]⟩
  ordered := by decide
  exact := (EpochCheckpoint.Exact.nil.append_snoc (e := 1) (by decide) rfl).append_snoc
    (e := 3) (by decide) rfl

/-- One round is not enough: the follower keeps its record of epoch 3. -/
theorem reconciled_not_isPrefix : Matching staleLeader divergedFollower ∧
    ¬ reconciled staleLeader divergedFollower <+: staleLeader.log := by
  refine ⟨fun n x y hx hy hxy => ?_, by decide⟩
  match n with
  | 0 => rfl
  | 1 =>
    simp only [staleLeader, divergedFollower, List.getElem?_cons_succ, List.getElem?_cons_zero,
      Option.some.injEq] at hx hy
    subst hx hy
    cases hxy
  | n + 2 =>
    simp [staleLeader] at hx

end History
end Replog.Replication
