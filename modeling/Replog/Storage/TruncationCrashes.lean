import Replog.Library.Fallible
import Replog.Storage.LogLives

/-!
# A crash in a truncation

A truncation removes the segments behind the one that keeps the tail in ascending order. A crash
between the first and the last of these removals leaves a gap, and the directory does not open any
more; a crash at any other point leaves a log that has lost some of the records to be truncated.
-/

namespace Replog.Storage

variable {crc : List UInt8 → UInt32} {config : LogConfig}

/-- The directory after the first `j` file operations of a call. -/
def CrashAfter {α : Type} (x : LogM α) (s : Log × Fs) (j : ℕ) (d : Dir) : Prop :=
  ∃ ops, (resultState (x.run s)).2.trace = s.2.trace ++ ops ∧ j ≤ ops.length ∧
    d = (s.2.advance (ops.take j)).dir

/-- Opening finds the first `k` of the records `rs`, no fewer than `n`. -/
def OpensWith (crc : List UInt8 → UInt32) (config : LogConfig) (rs : List Record) (n : ℕ)
    (d : Dir) : Prop :=
  ∃ k, n ≤ k ∧ k ≤ rs.length ∧ ∀ clock, ∃ log fs,
    (Log.openDir crc config clock).run ⟨d, [], []⟩ = .ok log fs ∧ log.nextOffset = k ∧
      Refines crc config (log, fs) (rs.take k)

private theorem Opens.opensWith (hc : config.Valid) {rs : List Record} {n : ℕ} {d : Dir}
    (h : Opens crc config rs n d) : OpensWith crc config rs n d := by
  obtain ⟨k, hn, hk, hleft⟩ := h
  refine ⟨k, hn, hk, fun clock => ?_⟩
  obtain ⟨log, ops, hrun, hrep, -⟩ :=
    hleft.open LogFile.enduring_length hc hleft.kept_zero clock
  refine ⟨log, _, hrun, ?_, hrep.refines hc⟩
  have hnext : log.nextOffset = (rs.take k).length := hrep.nextOffset_eq
  rw [hnext, List.length_take, Nat.min_eq_left hk]

private theorem Gap.not_opensWith (hc : config.Valid) {rs : List Record} {n : ℕ} {d : Dir}
    {cs : List (List Record)} (h : Gap crc config d cs) : ¬ OpensWith crc config rs n d := by
  rintro ⟨k, -, -, hopen⟩
  obtain ⟨log, fs, hrun, -⟩ := hopen ⟨0, 0⟩
  obtain ⟨e, fs', hfail⟩ := h.openDir hc ⟨0, 0⟩
  rw [hrun] at hfail
  cases hfail

/-- A log whose truncation to `n` is cut short after `j` file operations opens again, with a part of
its records that has the first `n` of them, exactly when none of the files of the segments behind
the tail is gone yet or the last of their `.log` files is about to go. -/
theorem truncation_opens_iff (hconfig : config.validate = .ok ()) {s : Log × Fs}
    (h : Lived crc config Loses (.up s)) :
    ∃ rs, rs.length ≤ 2 ^ 64 ∧ Refines crc config s rs ∧
      ∀ n, s.1.startOffset ≤ n → n < s.1.nextOffset →
      ∀ j d, CrashAfter (Log.truncateSuffix crc n) s j d →
        (OpensWith crc config rs n d ↔ j = 0 ∨ 2 * ((s.1.behind n).length - 1) < j) := by
  have hc := config.validate_eq_ok_iff.mp hconfig
  obtain ⟨rs, hrep⟩ := h.ok hc
  refine ⟨rs, hrep.length_le, hrep.refines hc, fun n _ hn j d hd => ?_⟩
  rw [hrep.nextOffset_eq] at hn
  obtain ⟨cs, act, hok, rfl⟩ := hrep
  obtain ⟨log, ops, cs', act', hrun, -, -, -, hcuts⟩ := truncateSuffix_cuts hc hok hn
  obtain ⟨ops', htrace, -, rfl⟩ := hd
  rw [hrun] at htrace
  obtain rfl := List.append_cancel_left htrace
  constructor
  · intro hopens
    by_contra hnot
    obtain ⟨gap, hgap⟩ := hcuts.gap (j := j) (by omega) (by omega)
    exact hgap.not_opensWith hc hopens
  · exact fun hj => (hcuts.opens hj).opensWith hc

section Segments

/-- A value that leaves no room for another one in the smallest segment. -/
def largeAppend : LogOp := .append ⟨0, 0⟩ none (List.replicate 600 0)

/-- An empty log after `n` such values, each in a segment of its own. -/
def segmented : ℕ → Log × Fs
  | 0 => emptyLog
  | n + 1 => (largeAppend.step (fun _ => 0) (segmented n)).2

theorem segmented_lived {n : ℕ} (h : ∀ k < n, (segmented k).1.nextOffset < 2 ^ 64) :
    Lived (fun _ => 0) smallConfig Loses (.up (segmented n)) := by
  induction n with
  | zero =>
    exact .opened .new (show (Log.openDir (fun _ => 0) smallConfig ⟨0, 0⟩).run ⟨Dir.empty, [], []⟩ =
      .ok emptyLog.1 emptyLog.2 from rfl)
  | succ n ih =>
    exact .stepped (ih fun k hk => h k (by omega)) (h n (Nat.lt_succ_self n)) largeAppend

/-- The file operations of a truncation to nothing. -/
def truncationOps (s : Log × Fs) : List FsOp :=
  (resultState ((Log.truncateSuffix (fun _ => 0) 0).run s)).2.trace.drop s.2.trace.length

theorem segmented_crashAfter {j : ℕ} (hj : j ≤ 7) :
    CrashAfter (Log.truncateSuffix (fun _ => 0) 0) (segmented 3) j
      ((segmented 3).2.advance ((truncationOps (segmented 3)).take j)).dir :=
  ⟨truncationOps (segmented 3), by decide +kernel,
    hj.trans (show 7 ≤ (truncationOps (segmented 3)).length by decide +kernel), rfl⟩

theorem segmented_three : Lived (fun _ => 0) smallConfig Loses (.up (segmented 3)) ∧
    (segmented 3).1.startOffset = 0 ∧ (segmented 3).1.nextOffset = 3 ∧
    (segmented 3).1.behind 0 = [1, 2] :=
  ⟨segmented_lived (by decide +kernel), by decide +kernel, by decide +kernel, by decide +kernel⟩

/-- Two segments go: after two operations there is a gap, after three the log opens. -/
theorem truncation_opens_segmented :
    ∃ rs d d', CrashAfter (Log.truncateSuffix (fun _ => 0) 0) (segmented 3) 2 d ∧
      ¬ OpensWith (fun _ => 0) smallConfig rs 0 d ∧
      CrashAfter (Log.truncateSuffix (fun _ => 0) 0) (segmented 3) 3 d' ∧
      OpensWith (fun _ => 0) smallConfig rs 0 d' := by
  obtain ⟨hlived, hstart, hnext, hbehind⟩ := segmented_three
  obtain ⟨rs, -, -, hopens⟩ := truncation_opens_iff rfl hlived
  have hiff := hopens 0 hstart.le (by omega)
  rw [hbehind] at hiff
  have htwo := segmented_crashAfter (j := 2) (by decide)
  have hthree := segmented_crashAfter (j := 3) (by decide)
  exact ⟨rs, _, _, htwo, fun h => absurd ((hiff 2 _ htwo).mp h) (by decide), hthree,
    (hiff 3 _ hthree).mpr (by decide)⟩

/-- The process dies after it has removed the first of two segments. -/
theorem truncation_leaves_gap :
    ∃ s n j d, Lived (fun _ => 0) smallConfig Loses (.up s) ∧ s.1.startOffset ≤ n ∧
      n < s.1.nextOffset ∧ CrashAfter (Log.truncateSuffix (fun _ => 0) n) s j d ∧
      ∀ log fs, (Log.openDir (fun _ => 0) smallConfig ⟨0, 0⟩).run ⟨d, [], []⟩ ≠ .ok log fs := by
  obtain ⟨hlived, hstart, hnext, -⟩ := segmented_three
  refine ⟨segmented 3, 0, 1, _, hlived, hstart.le, by omega, segmented_crashAfter (by decide), ?_⟩
  intro log fs hrun
  have hfails : Library.okValue (fun _ _ => true) false
      ((Log.openDir (fun _ => 0) smallConfig ⟨0, 0⟩).run
      ⟨((segmented 3).2.advance ((truncationOps (segmented 3)).take 1)).dir, [], []⟩) = false := by
    decide +kernel
  rw [hrun] at hfails
  cases hfails

end Segments

end Replog.Storage
