import Mathlib.Data.BitVec
import Mathlib.Logic.Function.Iterate

/-!
# CRC-32

The remainder of a byte string, least significant bit first. A step of the remainder loses nothing:
the bit that is shifted out comes back as the top bit of the polynomial. So two strings that differ
in one byte only never have the same remainder.
-/

namespace Replog.Crc32

def polynomial : BitVec 32 := 0xEDB88320#32

def shift (c : BitVec 32) : BitVec 32 :=
  if c.getLsbD 0 then (c >>> 1) ^^^ polynomial else c >>> 1

/-- The remainder after one more byte. -/
def update (c : BitVec 32) (b : UInt8) : BitVec 32 :=
  shift^[8] (c ^^^ b.toBitVec.setWidth 32)

def crc32 (bytes : List UInt8) : UInt32 :=
  ⟨~~~ bytes.foldl update (BitVec.allOnes 32)⟩

example : crc32 [0x31, 0x32, 0x33, 0x34, 0x35, 0x36, 0x37, 0x38, 0x39] = 0xCBF43926 := by
  decide +kernel

/-- The top bit says which way a shift went. -/
theorem shift_top (c : BitVec 32) : (shift c).getLsbD 31 = c.getLsbD 0 := by
  have htop : (c >>> 1).getLsbD 31 = false := by
    rw [BitVec.getLsbD_ushiftRight]
    exact BitVec.getLsbD_of_ge c 32 le_rfl
  rw [shift]
  split_ifs with hlow
  · rw [BitVec.getLsbD_xor, htop, hlow]
    rfl
  · rw [htop]
    simpa using hlow

theorem shift_injective : Function.Injective shift := by
  intro c d h
  have hlow : c.getLsbD 0 = d.getLsbD 0 := by rw [← shift_top, ← shift_top, h]
  have hrest : c >>> 1 = d >>> 1 := by
    rw [shift, shift, hlow] at h
    split_ifs at h
    · exact (BitVec.xor_left_inj _).mp h
    · exact h
  refine BitVec.eq_of_getLsbD_eq fun i hi => ?_
  cases i with
  | zero => exact hlow
  | succ i =>
    have hbit := congrArg (fun x : BitVec 32 => x.getLsbD i) hrest
    simp only [BitVec.getLsbD_ushiftRight] at hbit
    rwa [Nat.add_comm] at hbit

theorem update_injective_left (b : UInt8) : Function.Injective fun c => update c b := fun _ _ h =>
  (BitVec.xor_left_inj _).mp (shift_injective.iterate 8 h)

theorem update_injective_right (c : BitVec 32) : Function.Injective (update c) := by
  intro b b' h
  have hbits := (BitVec.xor_right_inj _).mp (shift_injective.iterate 8 h)
  have hnat := congrArg BitVec.toNat hbits
  rw [BitVec.toNat_setWidth_of_le (by decide), BitVec.toNat_setWidth_of_le (by decide)] at hnat
  exact UInt8.toBitVec_inj.mp (BitVec.eq_of_toNat_eq hnat)

theorem foldl_injective (bytes : List UInt8) :
    Function.Injective fun c => bytes.foldl update c := by
  induction bytes with
  | nil => exact fun _ _ h => h
  | cons b bytes ih => exact fun _ _ h => update_injective_left b (ih h)

/-- A change of one byte shows. -/
theorem crc32_set_ne {bytes : List UInt8} {i : ℕ} {b : UInt8} (hi : i < bytes.length)
    (hb : bytes[i]? ≠ some b) : crc32 (bytes.set i b) ≠ crc32 bytes := by
  intro h
  have hfold : (bytes.set i b).foldl update (BitVec.allOnes 32) =
      bytes.foldl update (BitVec.allOnes 32) :=
    BitVec.not_inj.mp (congrArg UInt32.toBitVec h)
  rw [List.set_eq_take_append_cons_drop, if_pos hi] at hfold
  conv_rhs at hfold => rw [← List.take_append_drop i bytes, List.drop_eq_getElem_cons hi]
  rw [List.foldl_append, List.foldl_append, List.foldl_cons, List.foldl_cons] at hfold
  have hbyte := update_injective_right _ (foldl_injective _ hfold)
  exact hb (by rw [List.getElem?_eq_getElem hi, ← hbyte])

end Replog.Crc32
