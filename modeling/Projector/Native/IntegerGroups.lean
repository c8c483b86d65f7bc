import Projector.Lib.VarintGroups
import Projector.Native.CanonicalBytes

namespace Projector.Native
open Lib Projector.Encoded

section LittleEndian

theorem fromLittleEndian_cons (b : UInt8) (rest : Bytes) :
    fromLittleEndian (b :: rest) = b.toNat + 256 * fromLittleEndian rest := rfl

theorem fromLittleEndian_lt (bytes : Bytes) : fromLittleEndian bytes < 256 ^ bytes.length := by
  induction bytes with
  | nil => decide
  | cons b rest ih =>
    have hb := b.toNat_lt
    rw [fromLittleEndian_cons, List.length_cons, Nat.pow_succ]
    omega

theorem fromLittleEndian_append (bytes more : Bytes) :
    fromLittleEndian (bytes ++ more) =
      fromLittleEndian bytes + 256 ^ bytes.length * fromLittleEndian more := by
  induction bytes with
  | nil => simp [fromLittleEndian]
  | cons b rest ih =>
    rw [List.cons_append, fromLittleEndian_cons, fromLittleEndian_cons, ih, List.length_cons,
      Nat.pow_succ', Nat.mul_add, Nat.mul_assoc, Nat.add_assoc]

/-- Dropping the low bytes of a number divides it. -/
theorem fromLittleEndian_drop (bytes : Bytes) (k : Nat) :
    fromLittleEndian (bytes.drop k) = fromLittleEndian bytes / 256 ^ k := by
  induction k generalizing bytes with
  | zero => simp
  | succ k ih =>
    cases bytes with
    | nil => simp [fromLittleEndian]
    | cons b rest =>
      have hb := b.toNat_lt
      have hbyte : (b.toNat + 256 * fromLittleEndian rest) / 256 = fromLittleEndian rest := by omega
      rw [List.drop_succ_cons, ih, fromLittleEndian_cons, Nat.pow_succ', ← Nat.div_div_eq_div_mul,
        hbyte]

/-- The two bytes at `k` are the lowest digits of what is left above `k` bytes. -/
theorem window_bytes (bytes : Bytes) (k : Nat) :
    fromLittleEndian bytes / 256 ^ k % 65536 =
      (bytes[k]?.getD 0).toNat + 256 * (bytes[k + 1]?.getD 0).toNat := by
  have hlow : bytes[k]? = (bytes.drop k)[0]? := by rw [List.getElem?_drop, Nat.add_zero]
  have hhigh : bytes[k + 1]? = (bytes.drop k)[1]? := by rw [List.getElem?_drop]
  rw [← fromLittleEndian_drop, hlow, hhigh]
  match bytes.drop k with
  | [] => rfl
  | [b] =>
    simp only [fromLittleEndian_cons]
    simp [fromLittleEndian]
  | b :: c :: rest =>
    have hb := b.toNat_lt
    have hc := c.toNat_lt
    simp only [fromLittleEndian_cons]
    simp
    omega

end LittleEndian

section Chunks

/-- The group that the cursor takes from two bytes is a digit in base 128. -/
theorem integerGroup_eq (value : Bytes) (chunk : Nat) :
    integerGroup value chunk = fromLittleEndian value / 128 ^ chunk % 128 := by
  unfold integerGroup
  dsimp only
  rw [← window_bytes, group_within_two_bytes (by omega), Nat.div_div_eq_div_mul]
  congr 2
  rw [pow_128, show (256 : Nat) = 2 ^ 8 from rfl, ← Nat.pow_mul, ← Nat.pow_add]
  congr 1
  omega

/-- A byte below which some bytes lie gives a number its highest bit. -/
theorem hasBits_of_last {low : Bytes} {last : UInt8} (h : last ≠ 0) :
    HasBits (fromLittleEndian (low ++ [last])) (low.length * 8 + significantBits last) := by
  have hne : last.toNat ≠ 0 := fun h0 => h (UInt8.toNat_inj.mp h0)
  have hbits : significantBits last = Nat.log2 last.toNat + 1 := if_neg h
  have hlow := fromLittleEndian_lt low
  have hpow : (256 : Nat) ^ low.length = 2 ^ (low.length * 8) := by
    rw [Nat.mul_comm, Nat.pow_mul]
  have hvalue : fromLittleEndian (low ++ [last]) =
      fromLittleEndian low + 2 ^ (low.length * 8) * last.toNat := by
    rw [fromLittleEndian_append, hpow, fromLittleEndian_cons]
    simp [fromLittleEndian]
  have hle : 2 ^ Nat.log2 last.toNat ≤ last.toNat := Nat.log2_self_le hne
  have hlt : last.toNat < 2 ^ (Nat.log2 last.toNat + 1) := Nat.lt_log2_self
  rw [hpow] at hlow
  rw [hvalue, hbits]
  refine ⟨by omega, ?_, ?_⟩
  · calc 2 ^ (low.length * 8 + (Nat.log2 last.toNat + 1) - 1)
        = 2 ^ (low.length * 8) * 2 ^ Nat.log2 last.toNat := by rw [← Nat.pow_add]; congr 1
      _ ≤ 2 ^ (low.length * 8) * last.toNat := Nat.mul_le_mul_left _ hle
      _ ≤ _ := Nat.le_add_left _ _
  · calc fromLittleEndian low + 2 ^ (low.length * 8) * last.toNat
        < 2 ^ (low.length * 8) * (last.toNat + 1) := by rw [Nat.mul_add, Nat.mul_one]; omega
      _ ≤ 2 ^ (low.length * 8) * 2 ^ (Nat.log2 last.toNat + 1) := Nat.mul_le_mul_left _ hlt
      _ = _ := by rw [← Nat.pow_add]

/-- How a number is written in groups of seven bits. -/
inductive Grouped (value chunks : Nat) : Prop where
  | zero (hvalue : value = 0) (hchunks : chunks = 1)
  | bits {bits : Nat} (h : HasBits value bits) (hchunks : chunks = (bits + 6) / 7)
      (hfits : bits + 6 < usizeLimit)

theorem integerVarintChunks_ok {value : Bytes} {chunks : Nat}
    (h : integerVarintChunks value = .ok chunks) : Grouped (fromLittleEndian value) chunks := by
  unfold integerVarintChunks at h
  split at h
  · cases h
  · rename_i last hlast
    obtain ⟨low, rfl⟩ := List.getLast?_eq_some_iff.mp hlast
    have hlength : (low ++ [last]).length = low.length + 1 := by simp
    split at h
    · cases h
    · rename_i hminimal
      split at h
      · rename_i hzero
        subst hzero
        have hlow : low = [] := by
          by_contra hne
          have := List.length_pos_iff.mpr hne
          exact hminimal ⟨by omega, rfl⟩
        subst hlow
        cases h
        exact .zero rfl rfl
      · rename_i hne
        simp only [hlength, Nat.add_sub_cancel] at h
        unfold checkedAdd at h
        by_cases hfirst : low.length * 8 < usizeLimit
        · by_cases hsecond : low.length * 8 + significantBits last < usizeLimit
          · by_cases hthird : low.length * 8 + significantBits last + 6 < usizeLimit
            · simp only [hfirst, hsecond, hthird, if_true, Bind.bind, Except.bind,
                Except.ok.injEq] at h
              exact .bits (hasBits_of_last hne) h.symm hthird
            · simp [hfirst, hsecond, hthird, Bind.bind, Except.bind] at h
          · simp [hfirst, hsecond, Bind.bind, Except.bind] at h
        · simp [hfirst, Bind.bind, Except.bind] at h

theorem Grouped.varint_length {value chunks : Nat} (h : Grouped value chunks) :
    (varint value).length = chunks := by
  cases h with
  | zero hvalue hchunks =>
    rw [hvalue, hchunks]
    rfl
  | bits hbits hchunks =>
    have hlength := hbits.varint_length (show 0 < _ from hbits.groups_pos)
    rw [Nat.pow_zero, Nat.div_one] at hlength
    rw [hlength, hchunks, Nat.sub_zero]

theorem Grouped.chunks_pos {value chunks : Nat} (h : Grouped value chunks) : 0 < chunks := by
  cases h with
  | zero _ hchunks => omega
  | bits hbits hchunks => exact hchunks ▸ hbits.groups_pos

theorem Grouped.fits {value chunks chunk : Nat} (h : Grouped value chunks)
    (hchunk : chunk < chunks) : chunk * 7 < usizeLimit := by
  cases h with
  | zero hvalue hchunks =>
    have : chunk = 0 := by omega
    subst this
    decide
  | bits hbits hchunks hfits => omega

/-- The groups from one on, the way they are given out. -/
theorem Grouped.step {value chunks chunk : Nat} (h : Grouped value chunks)
    (hchunk : chunk < chunks) :
    varint (value / 128 ^ chunk) =
      UInt8.ofNat (value / 128 ^ chunk % 128 + if chunk + 1 = chunks then 0 else 128) ::
        if chunk + 1 < chunks then varint (value / 128 ^ (chunk + 1)) else [] := by
  by_cases hlast : chunk + 1 = chunks
  · rw [if_pos hlast, if_neg (by omega), Nat.add_zero]
    apply varint_group_last
    cases h with
    | zero hvalue => simp [hvalue]
    | bits hbits hchunks => exact hbits.last (hlast.trans hchunks)
  · rw [if_neg hlast, if_pos (by omega)]
    apply varint_group_more
    cases h with
    | zero _ hchunks => omega
    | bits hbits hchunks => exact hbits.more (by omega)

end Chunks

section Width

/-- `varint_width` counts the bytes of the number. -/
theorem varintWidth_eq (value : Nat) : varintWidth value = (varint value).length := by
  have hgen : ∀ fuel value, value ≤ fuel → varintWidthFrom fuel value = (varint value).length := by
    intro fuel
    induction fuel with
    | zero =>
      intro value h
      obtain rfl : value = 0 := by omega
      rfl
    | succ fuel ih =>
      intro value h
      unfold varintWidthFrom
      by_cases hlarge : 128 ≤ value
      · rw [if_pos hlarge, ih (value / 128) (by omega), varint_large hlarge, List.length_cons,
          Nat.add_comm]
      · rw [if_neg hlarge, varint_small (by omega), List.length_singleton]
  exact hgen value value (Nat.le_refl _)

end Width

end Projector.Native
