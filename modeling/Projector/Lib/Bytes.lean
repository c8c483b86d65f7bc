import Mathlib.Data.List.Basic
import Mathlib.Data.List.Induction
import Mathlib.Tactic.Ring

namespace Projector.Lib

abbrev Bytes := List UInt8

instance instLawfulBEqBytes : LawfulBEq Bytes := inferInstance

/-- The `width` low-order base-256 digits of `n`, most significant first. -/
def bigEndian : Nat → Nat → Bytes
  | 0, _ => []
  | width + 1, n => bigEndian width (n / 256) ++ [UInt8.ofNat n]

def fromBigEndian (bytes : Bytes) : Nat :=
  bytes.foldl (fun n b => n * 256 + b.toNat) 0

@[simp]
theorem length_bigEndian (width n : Nat) : (bigEndian width n).length = width := by
  induction width generalizing n with
  | zero => rfl
  | succ width ih => simp [bigEndian, ih]

/-- Packing loses nothing below the bound of the field. -/
theorem fromBigEndian_bigEndian {width n : Nat} (h : n < 256 ^ width) :
    fromBigEndian (bigEndian width n) = n := by
  induction width generalizing n with
  | zero =>
    simp only [pow_zero, Nat.lt_one_iff] at h
    subst h
    rfl
  | succ width ih =>
    have hq : n / 256 < 256 ^ width := by
      rw [pow_succ] at h
      omega
    have hi := ih hq
    simp only [fromBigEndian] at hi
    simp only [bigEndian, fromBigEndian, List.foldl_append, hi, List.foldl_cons, List.foldl_nil,
      UInt8.toNat_ofNat']
    omega

theorem fromBigEndian_snoc (bytes : Bytes) (b : UInt8) :
    fromBigEndian (bytes ++ [b]) = fromBigEndian bytes * 256 + b.toNat := by
  simp [fromBigEndian]

/-- Unpacking loses nothing either: the digits are those of the number read. -/
theorem bigEndian_fromBigEndian (bytes : Bytes) :
    bigEndian bytes.length (fromBigEndian bytes) = bytes := by
  induction bytes using List.reverseRecOn with
  | nil => rfl
  | append_singleton bytes b ih =>
    have hb := b.toNat_lt
    have hdiv : (fromBigEndian bytes * 256 + b.toNat) / 256 = fromBigEndian bytes := by omega
    have hmod : UInt8.ofNat (fromBigEndian bytes * 256 + b.toNat) = b := by
      apply UInt8.toNat_inj.mp
      rw [UInt8.toNat_ofNat']
      omega
    rw [List.length_append, List.length_singleton, fromBigEndian_snoc, bigEndian, hdiv, hmod, ih]

theorem fromBigEndian_lt (bytes : Bytes) : fromBigEndian bytes < 256 ^ bytes.length := by
  induction bytes using List.reverseRecOn with
  | nil => simp [fromBigEndian]
  | append_singleton bytes b ih =>
    have hb := b.toNat_lt
    rw [fromBigEndian_snoc, List.length_append, List.length_singleton, pow_succ]
    omega

/-- `n` in base 128, least significant digit first, with the continuation bit on
every byte but the last. The fuel bounds the number of continuation bytes. -/
def varintFrom : Nat → Nat → Bytes
  | 0, n => [UInt8.ofNat n]
  | fuel + 1, n =>
    if n < 128 then [UInt8.ofNat n]
    else UInt8.ofNat (n % 128 + 128) :: varintFrom fuel (n / 128)

def varint (n : Nat) : Bytes := varintFrom n n

/-- A payload preceded by its length. -/
def sized (payload : Bytes) : Bytes := varint payload.length ++ payload

/-- A small number never looks like a byte that continues. -/
theorem varint_head_ne {m n : Nat} (hm : m < 128) :
    UInt8.ofNat m ≠ UInt8.ofNat (n % 128 + 128) := by
  intro h
  have hv := congrArg UInt8.toNat h
  simp only [UInt8.toNat_ofNat'] at hv
  omega

theorem varintFrom_fuel {fuel n : Nat} (h : n ≤ fuel) : varintFrom fuel n = varint n := by
  have hgen : ∀ f g n, n ≤ f → n ≤ g → varintFrom f n = varintFrom g n := by
    intro f
    induction f with
    | zero =>
      intro g n hf _
      have hn : n < 128 := by omega
      cases g <;> simp [varintFrom, hn]
    | succ f ih =>
      intro g n hf hg
      by_cases hn : n < 128
      · cases g <;> simp [varintFrom, hn]
      · cases g with
        | zero => omega
        | succ g =>
          simp only [varintFrom, hn, if_false]
          rw [ih g (n / 128) (by omega) (by omega)]
  exact hgen fuel n n h (le_refl n)

theorem varint_small {n : Nat} (h : n < 128) : varint n = [UInt8.ofNat n] := by
  unfold varint
  cases n with
  | zero => rfl
  | succ n => simp [varintFrom, h]

theorem varint_large {n : Nat} (h : 128 ≤ n) :
    varint n = UInt8.ofNat (n % 128 + 128) :: varint (n / 128) := by
  cases n with
  | zero => omega
  | succ n =>
    have hn : ¬n + 1 < 128 := by omega
    conv => lhs; unfold varint
    simp only [varintFrom, hn, if_false]
    rw [varintFrom_fuel (by omega)]

/-- The digits tell the numbers apart and mark their own end. -/
theorem varint_append_inj {m n : Nat} {r s : Bytes} (h : varint m ++ r = varint n ++ s) :
    m = n ∧ r = s := by
  induction m using Nat.strong_induction_on generalizing n with
  | _ m ih =>
    rcases Nat.lt_or_ge m 128 with hm | hm <;> rcases Nat.lt_or_ge n 128 with hn | hn
    · simp only [varint_small hm, varint_small hn, List.singleton_append, List.cons.injEq] at h
      have hv := congrArg UInt8.toNat h.1
      simp only [UInt8.toNat_ofNat'] at hv
      exact ⟨by omega, h.2⟩
    · simp only [varint_small hm, varint_large hn, List.cons_append, List.cons.injEq] at h
      exact absurd h.1 (varint_head_ne hm)
    · simp only [varint_large hm, varint_small hn, List.cons_append, List.cons.injEq] at h
      exact absurd h.1.symm (varint_head_ne hn)
    · simp only [varint_large hm, varint_large hn, List.cons_append, List.cons.injEq] at h
      have hv := congrArg UInt8.toNat h.1
      simp only [UInt8.toNat_ofNat'] at hv
      obtain ⟨hq, hr⟩ := ih (m / 128) (by omega) h.2
      exact ⟨by omega, hr⟩

theorem sized_append_inj {a b r s : Bytes} (h : sized a ++ r = sized b ++ s) : a = b ∧ r = s := by
  simp only [sized, List.append_assoc] at h
  obtain ⟨hlen, hrest⟩ := varint_append_inj h
  exact List.append_inj hrest hlen

end Projector.Lib
