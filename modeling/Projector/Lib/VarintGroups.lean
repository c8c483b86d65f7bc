import Projector.Lib.Bytes
import Mathlib.Tactic.IntervalCases

namespace Projector.Lib

section Groups
variable {value chunk : Nat}

/-- A group that others follow carries the continuation bit. -/
theorem varint_group_more (h : 128 ≤ value / 128 ^ chunk) :
    varint (value / 128 ^ chunk) =
      UInt8.ofNat (value / 128 ^ chunk % 128 + 128) :: varint (value / 128 ^ (chunk + 1)) := by
  rw [varint_large h, Nat.div_div_eq_div_mul, Nat.pow_succ]

theorem varint_group_last (h : value / 128 ^ chunk < 128) :
    varint (value / 128 ^ chunk) = [UInt8.ofNat (value / 128 ^ chunk % 128)] := by
  rw [varint_small h, Nat.mod_eq_of_lt h]

end Groups

/-- A number with the highest bit `bits - 1`. -/
structure HasBits (value bits : Nat) : Prop where
  positive : 0 < bits
  lower : 2 ^ (bits - 1) ≤ value
  upper : value < 2 ^ bits

section HasBits
variable {value bits chunk : Nat} (h : HasBits value bits)

theorem pow_128 (n : Nat) : 128 ^ n = 2 ^ (7 * n) := by
  rw [Nat.pow_mul]

include h

/-- Bits past the group are left. -/
theorem HasBits.more (hchunk : chunk + 1 < (bits + 6) / 7) : 128 ≤ value / 128 ^ chunk := by
  rw [Nat.le_div_iff_mul_le (Nat.pow_pos (by decide)), pow_128]
  calc 128 * 2 ^ (7 * chunk) = 2 ^ (7 * chunk + 7) := by rw [Nat.pow_add, Nat.mul_comm]
    _ ≤ 2 ^ (bits - 1) := Nat.pow_le_pow_right (by decide) (by omega)
    _ ≤ value := h.lower

/-- The last group holds what is left. -/
theorem HasBits.last (hchunk : chunk + 1 = (bits + 6) / 7) : value / 128 ^ chunk < 128 := by
  rw [Nat.div_lt_iff_lt_mul (Nat.pow_pos (by decide)), pow_128]
  calc value < 2 ^ bits := h.upper
    _ ≤ 2 ^ (7 * chunk + 7) := Nat.pow_le_pow_right (by decide) (by omega)
    _ = 128 * 2 ^ (7 * chunk) := by rw [Nat.pow_add, Nat.mul_comm]

theorem HasBits.groups_pos : 0 < (bits + 6) / 7 := by
  have := h.positive
  omega

/-- The groups of seven bits are counted by the bits. -/
theorem HasBits.varint_length (hchunk : chunk < (bits + 6) / 7) :
    (varint (value / 128 ^ chunk)).length = (bits + 6) / 7 - chunk := by
  obtain ⟨left, hleft⟩ := Nat.exists_eq_add_of_lt hchunk
  induction left generalizing chunk with
  | zero =>
    rw [varint_group_last (h.last (by omega))]
    simp only [List.length_singleton]
    omega
  | succ left ih =>
    rw [varint_group_more (h.more (by omega)), List.length_cons, ih (by omega) (by omega)]
    omega

end HasBits

/-- Seven bits of a number lie within two of its bytes. -/
theorem group_within_two_bytes {window shift : Nat} (hshift : shift < 8) :
    window % 65536 / 2 ^ shift % 128 = window / 2 ^ shift % 128 := by
  interval_cases shift <;> omega

end Projector.Lib
