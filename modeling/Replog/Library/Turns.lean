import Mathlib.Data.Int.CardIntervalMod

/-!
# Taking turns

A counter goes through `n` places in turn. Of `n` steps in a row, each place gets one.
-/

namespace Replog.Library

/-- How many of the counter's values from `first` on, below `next`, are at the place `j`. -/
def turns (n j first next : ℕ) : ℕ :=
  Nat.count (· ≡ j [MOD n]) next - Nat.count (· ≡ j [MOD n]) first

variable {n j first next : ℕ}

@[simp] theorem turns_self (n j first : ℕ) : turns n j first first = 0 := Nat.sub_self _

/-- The place has its turn. -/
theorem turns_succ (hle : first ≤ next) (hturn : next % n = j) :
    turns n j first (next + 1) = turns n j first next + 1 := by
  have hmod : next ≡ j [MOD n] := by
    rw [← hturn]
    exact (Nat.mod_modEq next n).symm
  have hmono := Nat.count_monotone (· ≡ j [MOD n]) hle
  rw [turns, Nat.count_succ, if_pos hmod, turns]
  omega

/-- Another place has its turn. -/
theorem turns_succ_of_ne (hj : j < n) (hturn : next % n ≠ j) :
    turns n j first (next + 1) = turns n j first next := by
  have hmod : ¬ next ≡ j [MOD n] := by
    intro hmod
    exact hturn (Eq.trans hmod (Nat.mod_eq_of_lt hj))
  rw [turns, Nat.count_succ, if_neg hmod, Nat.add_zero, turns]

/-- In `n * k` steps every place has `k` turns. -/
theorem le_turns {k : ℕ} (hj : j < n) (h : first + n * k ≤ next) : k ≤ turns n j first next := by
  have hcount := Nat.count_monotone (· ≡ j [MOD n]) h
  have hpos : 0 < n := Nat.zero_lt_of_lt hj
  have hwindow : Nat.count (· ≡ j [MOD n]) (first + n * k) =
      Nat.count (· ≡ j [MOD n]) first + k := by
    rw [Nat.count_modEq_card _ hpos, Nat.count_modEq_card _ hpos, Nat.add_mul_div_left _ _ hpos,
      Nat.add_mul_mod_self_left, Nat.add_right_comm]
  rw [turns]
  omega

end Replog.Library
