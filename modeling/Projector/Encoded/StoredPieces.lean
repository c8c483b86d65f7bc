import Projector.Encoded.ScopeRemap
import Projector.Native.IntegerGroups

namespace Projector.Encoded
open Lib Projector.Core Native

section Integers

theorem payloadAt_length {cols : Columns} {offset length : Nat} {payload : Bytes}
    (h : cols.payloadAt offset length = some payload) : payload.length = length := by
  unfold Columns.payloadAt at h
  split at h
  · rename_i hinside
    cases h
    rw [List.length_take, List.length_drop]
    omega
  · cases h

theorem fromLittleEndian_ne_zero {payload : Bytes} (hne : payload ≠ [])
    (h : payload.getLast? ≠ some 0) : fromLittleEndian payload ≠ 0 := by
  induction payload with
  | nil => exact absurd rfl hne
  | cons b rest ih =>
    rw [fromLittleEndian_cons]
    cases rest with
    | nil =>
      have hb : b ≠ 0 := fun hb => h (by rw [hb]; rfl)
      have hnat : b.toNat ≠ 0 := fun hz => hb (UInt8.toNat_inj.mp hz)
      omega
    | cons c rest =>
      have := ih (List.cons_ne_nil _ _) (by rwa [List.getLast?_cons_cons] at h)
      omega

theorem last_of_minimal {b : UInt8} {rest : Bytes} (h : Columns.minimalInteger (b :: rest) = true)
    (hne : rest ≠ []) : rest.getLast? ≠ some 0 := by
  intro hlast
  obtain ⟨c, others, rfl⟩ := List.exists_cons_of_ne_nil hne
  rw [Columns.minimalInteger, List.getLast?_cons_cons, hlast] at h
  simp at h

theorem minimal_of_last {payload : Bytes} (hne : payload ≠ []) (h : payload.getLast? ≠ some 0) :
    Columns.minimalInteger payload = true := by
  simp [Columns.minimalInteger, hne, h]

/-- A number has one minimal payload. -/
theorem fromLittleEndian_inj {s t : Bytes} (hs : Columns.minimalInteger s = true)
    (ht : Columns.minimalInteger t = true) (h : fromLittleEndian s = fromLittleEndian t) :
    s = t := by
  induction s generalizing t with
  | nil => cases hs
  | cons b s ih =>
    cases t with
    | nil => cases ht
    | cons c t =>
      rw [fromLittleEndian_cons, fromLittleEndian_cons] at h
      have hb := b.toNat_lt
      have hc := c.toNat_lt
      obtain rfl : b = c := UInt8.toNat_inj.mp (by omega)
      have hrest : fromLittleEndian s = fromLittleEndian t := by omega
      congr 1
      by_cases hsnil : s = []
      · by_cases htnil : t = []
        · rw [hsnil, htnil]
        · rw [hsnil] at hrest
          exact absurd hrest.symm (fromLittleEndian_ne_zero htnil (last_of_minimal ht htnil))
      · by_cases htnil : t = []
        · rw [htnil] at hrest
          exact absurd hrest (fromLittleEndian_ne_zero hsnil (last_of_minimal hs hsnil))
        · exact ih (minimal_of_last hsnil (last_of_minimal hs hsnil))
            (minimal_of_last htnil (last_of_minimal ht htnil)) hrest

end Integers

section Leaves
variable {cols : Columns} {term : Nat → Option Term} {cell : ComponentRow} {p : Piece}

theorem LeafView.of_none (h : LeafView cols term id cell p) (hkind : cell.kind = COMPONENT_NONE) :
    cell = ⟨COMPONENT_NONE, 0, 0⟩ ∧ p = .none := by
  cases h with
  | none => exact ⟨rfl, rfl⟩
  | node => cases hkind
  | scalar k => cases k <;> cases hkind
  | integer => cases hkind

theorem LeafView.of_node (h : LeafView cols term id cell p) (hkind : cell.kind = COMPONENT_NODE) :
    ∃ i t, cell = ⟨COMPONENT_NODE, i, 0⟩ ∧ p = .node t ∧ term i = some t := by
  cases h with
  | none => cases hkind
  | @node i t ht => exact ⟨i, t, rfl, rfl, ht⟩
  | scalar k => cases k <;> cases hkind
  | integer => cases hkind

/-- A payload is read as it is stored: nothing is mapped. -/
theorem LeafView.of_scalar {k : ScalarKind} (h : LeafView cols term id cell p)
    (hkind : cell.kind = k.code.toNat) :
    ∃ payload, cols.payloadAt cell.value cell.length = some payload ∧ p = .scalar k payload := by
  cases h with
  | none => cases k <;> cases hkind
  | node => cases k <;> cases hkind
  | @scalar offset length payload k' hpayload =>
    refine ⟨payload, hpayload, ?_⟩
    cases k <;> cases k' <;> first | rfl | cases hkind
  | integer => cases k <;> cases hkind

theorem LeafView.of_integer (h : LeafView cols term id cell p)
    (hkind : cell.kind = COMPONENT_INTEGER) :
    ∃ payload, cols.payloadAt cell.value cell.length = some payload ∧
      Columns.minimalInteger payload = true ∧ p = .integer (fromLittleEndian payload) := by
  cases h with
  | none => cases hkind
  | node => cases hkind
  | scalar k => cases k <;> cases hkind
  | integer hpayload hminimal => exact ⟨_, hpayload, hminimal, rfl⟩

theorem LeafView.code (h : LeafView cols term id cell p) : p.code.toNat = cell.kind := by
  cases h <;> rfl

end Leaves

/-- Equal pieces are stored with one kind and one length. -/
theorem LeafView.same {left right : Columns} {term term' : Nat → Option Term}
    {cell cell' : ComponentRow} {p : Piece} (hl : LeafView left term id cell p)
    (hr : LeafView right term' id cell' p) : cell.kind = cell'.kind ∧ cell.length = cell'.length := by
  have hkind : cell.kind = cell'.kind := hl.code.symm.trans hr.code
  refine ⟨hkind, ?_⟩
  cases hl with
  | none => rw [(hr.of_none hkind.symm).1]
  | node =>
    obtain ⟨i, t, hcell, -⟩ := hr.of_node hkind.symm
    rw [hcell]
  | @scalar offset length payload k hpayload =>
    obtain ⟨payload', hpayload', hp⟩ := hr.of_scalar hkind.symm
    have heq : payload = payload' := by simpa using hp
    exact (payloadAt_length hpayload).symm.trans (heq ▸ payloadAt_length hpayload')
  | @integer offset length payload hpayload hminimal =>
    obtain ⟨payload', hpayload', hminimal', hp⟩ := hr.of_integer hkind.symm
    have heq := fromLittleEndian_inj hminimal hminimal' (Piece.integer.inj hp)
    exact (payloadAt_length hpayload).symm.trans (heq ▸ payloadAt_length hpayload')

end Projector.Encoded
