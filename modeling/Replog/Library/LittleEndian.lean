import Mathlib.Data.List.Basic
import Mathlib.Tactic.Ring

/-!
# Fixed-width little-endian numbers

`leBytes w n` writes the low `w` bytes of `n`, least significant first, and `leValue` reads
any byte string back. Writing keeps the number modulo `256 ^ w`, which is the wrap-around of
a cast to a `w`-byte unsigned integer.
-/

namespace Replog.LittleEndian

/-- The low `w` bytes of `n`, least significant byte first. -/
def leBytes : ℕ → ℕ → List UInt8
  | 0, _ => []
  | w + 1, n => UInt8.ofNat n :: leBytes w (n / 256)

/-- The number a byte string spells, least significant byte first. -/
def leValue : List UInt8 → ℕ
  | [] => 0
  | b :: bs => b.toNat + 256 * leValue bs

@[simp] theorem length_leBytes (w n : ℕ) : (leBytes w n).length = w := by
  induction w generalizing n with
  | zero => rfl
  | succ w ih => simp [leBytes, ih]

theorem leValue_leBytes (w n : ℕ) : leValue (leBytes w n) = n % 256 ^ w := by
  induction w generalizing n with
  | zero => simp [leBytes, leValue, Nat.mod_one]
  | succ w ih =>
    have hbyte : (UInt8.ofNat n).toNat = n % 256 := by simp
    rw [leBytes, leValue, ih, hbyte, Nat.pow_succ, Nat.mul_comm (256 ^ w) 256, Nat.mod_mul]

/-- A number that fits its field is read back unchanged. -/
@[simp] theorem leValue_leBytes_of_lt {w n : ℕ} (h : n < 256 ^ w) :
    leValue (leBytes w n) = n := by
  rw [leValue_leBytes, Nat.mod_eq_of_lt h]

theorem leValue_lt (bs : List UInt8) : leValue bs < 256 ^ bs.length := by
  induction bs with
  | nil => simp [leValue]
  | cons b bs ih =>
    have hb := b.toNat_lt
    simp only [leValue, List.length_cons, Nat.pow_succ]
    omega

/-- Of byte strings of one length no two spell the same number. -/
theorem leValue_inj {bs cs : List UInt8} (hlen : bs.length = cs.length)
    (h : leValue bs = leValue cs) : bs = cs := by
  induction bs generalizing cs with
  | nil => exact (List.length_eq_zero_iff.mp hlen.symm).symm
  | cons b bs ih =>
    obtain ⟨c, cs, rfl⟩ := List.exists_cons_of_length_eq_add_one hlen.symm
    have hb := b.toNat_lt
    have hc := c.toNat_lt
    simp only [leValue] at h
    have hbyte : b.toNat = c.toNat := by omega
    rw [UInt8.toNat_inj.mp hbyte, ih (Nat.succ.inj hlen) (by omega)]

/-- Every byte string is how its number is written in as many bytes. -/
theorem leBytes_leValue (bs : List UInt8) : leBytes bs.length (leValue bs) = bs := by
  refine leValue_inj (length_leBytes _ _) ?_
  rw [leValue_leBytes_of_lt (leValue_lt bs)]

theorem leValue_set_ne {bs : List UInt8} {i : ℕ} {b : UInt8} (hi : i < bs.length)
    (hb : bs[i]? ≠ some b) : leValue (bs.set i b) ≠ leValue bs := by
  intro h
  have hset := leValue_inj List.length_set h
  refine hb ?_
  rw [← hset, List.getElem?_set_self hi]

end Replog.LittleEndian
