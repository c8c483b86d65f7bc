import Projector.Encoded.CanonicalLengths
import Projector.Native.IntegerGroups
import Projector.Native.Metered

namespace Projector.Native
open Lib Projector.Core Projector.Encoded

/-- The payloads that `canonical_component` lets through. -/
def admitted (kind : Nat) (payload : Bytes) : Bool :=
  if kind = COMPONENT_TEXT then (fromUtf8? payload).isSome
  else if kind = COMPONENT_ENUM then
    !payload.isEmpty && !payload.any (fun b => decide (b.toNat ≥ 128))
  else true

/-- What `canonical_component` reads, apart from what it costs. -/
inductive ComponentAt (d : DirectColumns) (index : Nat) (item : Bool) :
    ComponentRow → CanonicalComponent → Prop where
  | none : ComponentAt d index item ⟨COMPONENT_NONE, 0, 0⟩ .none
  | node {id : Nat} (hid : 1 ≤ id ∧ id ≤ d.columns.nodeCount) :
      ComponentAt d index item ⟨COMPONENT_NODE, id, 0⟩ (.node id)
  | scalar {offset length : Nat} {payload : Bytes} (kind : ScalarKind)
      (hpayload : d.columns.payloadAt offset length = some payload)
      (hfits : offset + length < usizeLimit)
      (hadmitted : admitted kind.code.toNat payload = true) :
      ComponentAt d index item ⟨kind.code.toNat, offset, length⟩
        (.scalar kind.code.toNat payload)
  | integer {offset length : Nat} {payload : Bytes}
      (hpayload : d.columns.payloadAt offset length = some payload)
      (hfits : offset + length < usizeLimit)
      (hminimal : Columns.minimalInteger payload = true) :
      ComponentAt d index item ⟨COMPONENT_INTEGER, offset, length⟩ (.integer payload)
  | collection {kind start length : Nat} (hkind : kind = COMPONENT_SET ∨ kind = COMPONENT_SEQUENCE)
      (hitem : item = false)
      (hinside : start ≤ d.columns.itemCount ∧ length ≤ d.columns.itemCount - start) :
      ComponentAt d index item ⟨kind, start, length⟩ (.collection kind start length)

/-- The row of a component, and what is read from it. -/
def Reads (d : DirectColumns) (index : Nat) (item : Bool) (component : CanonicalComponent) : Prop :=
  ∃ row, d.columns.cellAt index item = some row ∧ ComponentAt d index item row component

section Rows
variable {d : DirectColumns} {index : Nat} {item : Bool}

theorem readUsize_ok {values : List Nat} {name : String} {v : Nat} :
    readUsize values index name = .ok v ↔ values[index]? = some v := by
  unfold readUsize
  split
  · rename_i value h
    rw [h]
    exact ⟨fun he => congrArg some (Except.ok.inj he), fun he => by rw [Option.some.inj he]⟩
  · rename_i h
    rw [h]
    exact ⟨fun he => (by cases he), fun he => (by cases he)⟩

theorem componentRow_ok {kind value length : Nat} :
    componentRow d index item = .ok (kind, value, length) ↔
      d.columns.cellAt index item = some ⟨kind, value, length⟩ := by
  unfold componentRow Columns.cellAt
  cases item with
  | true =>
    unfold itemKind
    simp only [if_true, kindsOf, valuesOf, lengthsOf, Columns.buffer]
    unfold readUsize
    cases d.columns.itemKinds[index]? <;> cases d.columns.itemValues[index]? <;>
      cases d.columns.itemLengths[index]? <;> simp [Bind.bind, Except.bind]
  | false =>
    unfold DirectColumns.fieldKind
    simp only [Bool.false_eq_true, if_false, kindsOf, valuesOf, lengthsOf, Columns.buffer]
    unfold readUsize
    cases d.columns.fieldKinds[index]? <;> cases d.columns.fieldValues[index]? <;>
      cases d.columns.fieldLengths[index]? <;> simp [Bind.bind, Except.bind]

theorem scalarRange_ok {start length : Nat} {payload : Bytes} :
    d.scalarRange start length = .ok payload ↔
      start + length < usizeLimit ∧ d.columns.payloadAt start length = some payload := by
  unfold DirectColumns.scalarRange Columns.payloadAt
  by_cases hlimit : start + length ≥ usizeLimit
  · rw [if_pos hlimit]
    exact ⟨fun h => (by cases h), fun h => absurd h.1 (by omega)⟩
  · rw [if_neg hlimit]
    by_cases hin : start + length ≤ d.columns.scalarBytes.length
    · have hin' : start ≤ d.columns.scalarBytes.length ∧
          length ≤ d.columns.scalarBytes.length - start := by omega
      rw [if_pos hin, if_pos hin']
      exact ⟨fun h => ⟨by omega, congrArg some (Except.ok.inj h)⟩,
        fun h => congrArg Except.ok (Option.some.inj h.2)⟩
    · have hin' : ¬(start ≤ d.columns.scalarBytes.length ∧
          length ≤ d.columns.scalarBytes.length - start) := by omega
      rw [if_neg hin, if_neg hin']
      exact ⟨fun h => (by cases h), fun h => (by cases h.2)⟩

theorem checkedNodeId_ok {id n : Nat} :
    d.checkedNodeId id = .ok n ↔ n = id ∧ 1 ≤ id ∧ id ≤ d.columns.nodeCount := by
  unfold DirectColumns.checkedNodeId
  split
  · rename_i hid
    exact ⟨fun h => ⟨(Except.ok.inj h).symm, hid⟩, fun h => by rw [h.1]⟩
  · rename_i hid
    exact ⟨fun h => (by cases h), fun h => absurd h.2 hid⟩

theorem fieldRange_ok {id start stop : Nat} :
    d.fieldRange id = .ok (start, stop) ↔ d.columns.rangeAt id = some (start, stop) := by
  unfold DirectColumns.fieldRange Columns.rangeAt
  by_cases hid : 1 ≤ id ∧ id ≤ d.columns.nodeCount
  · rw [ok_bind _ (checkedNodeId_ok.mpr ⟨rfl, hid⟩), if_pos hid]
    unfold readUsize
    cases d.columns.nodeFieldOffsets[id - 1]? <;> cases d.columns.nodeFieldOffsets[id]? <;>
      simp only [Bind.bind, Except.bind, reduceCtorEq]
    split <;> simp
  · have hbad : d.checkedNodeId id =
        .error (.malformed "encoded node reference is out of range") := if_neg hid
    rw [hbad, if_neg hid]
    exact ⟨fun h => (by cases h), fun h => (by cases h)⟩

theorem nodeTag_ok {id start stop tag : Nat} (hrange : d.columns.rangeAt id = some (start, stop)) :
    d.nodeTag id = .ok tag ↔ d.columns.nodeTags[id - 1]? = some tag := by
  unfold DirectColumns.nodeTag
  rw [ok_bind _ (checkedNodeId_ok.mpr ⟨rfl, Columns.rangeAt_inside hrange⟩)]
  exact readUsize_ok

end Rows

section Components
variable {β : Type} {m : Meter β} {d : DirectColumns} {index : Nat} {item : Bool}
  {component : CanonicalComponent} {b b' : β}

theorem checkScalar_ok {kind : Nat} {payload : Bytes}
    (h : checkScalar m kind payload b = .ok ((), b')) : admitted kind payload = true := by
  unfold checkScalar at h
  unfold admitted
  split at h
  · rename_i hkind
    rw [if_pos hkind]
    obtain ⟨_, _, _, h⟩ := metered_bind_ok h
    split at h
    · exact absurd h malformed_ne
    · rename_i hnone
      cases hutf8 : fromUtf8? payload with
      | none => simp [hutf8] at hnone
      | some text => rfl
  · rename_i htext
    rw [if_neg htext]
    split at h
    · rename_i hkind
      rw [if_pos hkind]
      obtain ⟨_, _, _, h⟩ := metered_bind_ok h
      split at h
      · exact absurd h malformed_ne
      · rename_i hascii
        obtain ⟨hempty, hany⟩ := not_or.mp hascii
        simp only [Bool.not_eq_true] at hempty hany
        rw [hempty, hany]
        rfl
    · rename_i henum
      rw [if_neg henum]

theorem checkScalar_gives {kind : Nat} {payload : Bytes} (h : admitted kind payload = true) :
    Gives m (checkScalar m kind payload) () := by
  unfold admitted at h
  unfold checkScalar
  split at h
  · rename_i hkind
    rw [if_pos hkind]
    refine (Gives.consumed _).bind ?_
    have hsome : ¬(fromUtf8? payload).isNone = true := by
      intro hnone
      rw [Option.isNone_iff_eq_none.mp hnone] at h
      cases h
    rw [if_neg hsome]
    exact .pure
  · rename_i htext
    rw [if_neg htext]
    split at h
    · rename_i hkind
      rw [if_pos hkind]
      refine (Gives.consumed _).bind ?_
      have hascii : ¬(payload.isEmpty = true ∨
          payload.any (fun b => decide (b.toNat ≥ 128)) = true) := by
        rw [Bool.and_eq_true, Bool.not_eq_true', Bool.not_eq_true'] at h
        rw [h.1, h.2]
        decide
      rw [if_neg hascii]
      exact .pure
    · rename_i henum
      rw [if_neg henum]
      exact .pure

theorem scalarKind_of {kind : Nat}
    (h : kind = COMPONENT_TEXT ∨ kind = COMPONENT_BYTES ∨ kind = COMPONENT_ENUM) :
    ∃ k : ScalarKind, kind = k.code.toNat := by
  rcases h with h | h | h
  · exact ⟨.text, h⟩
  · exact ⟨.bytes, h⟩
  · exact ⟨.enum, h⟩

/-- What `canonical_component` gives is what the row holds. -/
theorem canonicalComponent_ok (h : canonicalComponent m d index item b = .ok (component, b')) :
    Reads d index item component := by
  unfold canonicalComponent at h
  obtain ⟨⟨kind, value, length⟩, _, hrow, h⟩ := metered_bind_ok h
  refine ⟨⟨kind, value, length⟩, componentRow_ok.mp (lift_ok hrow), ?_⟩
  dsimp only at h
  split at h
  · rename_i hkind
    split at h
    · exact absurd h malformed_ne
    · rename_i hzero
      obtain ⟨rfl, rfl⟩ : value = 0 ∧ length = 0 := by omega
      rw [metered_pure_ok h, hkind]
      exact .none
  · split at h
    · rename_i hkind
      split at h
      · exact absurd h malformed_ne
      · rename_i hzero
        obtain rfl : length = 0 := by omega
        obtain ⟨id, _, hid, hdone⟩ := metered_bind_ok h
        obtain ⟨rfl, hin⟩ := checkedNodeId_ok.mp (lift_ok hid)
        rw [metered_pure_ok hdone, hkind]
        exact .node hin
    · split at h
      · rename_i hkind
        obtain ⟨payload, _, hpayload, h⟩ := metered_bind_ok h
        obtain ⟨_, _, hcheck, h⟩ := metered_bind_ok h
        obtain ⟨hfits, hpayload⟩ := scalarRange_ok.mp (lift_ok hpayload)
        obtain ⟨k, rfl⟩ := scalarKind_of hkind
        rw [metered_pure_ok h]
        exact .scalar k hpayload hfits (checkScalar_ok hcheck)
      · split at h
        · rename_i hkind
          obtain ⟨payload, _, hpayload, h⟩ := metered_bind_ok h
          obtain ⟨hfits, hpayload⟩ := scalarRange_ok.mp (lift_ok hpayload)
          split at h
          · rename_i hminimal
            rw [metered_pure_ok h, hkind]
            exact .integer hpayload hfits hminimal
          · exact absurd h malformed_ne
        · split at h
          · rename_i hkind
            split at h
            · exact absurd h malformed_ne
            · rename_i hitem
              split at h
              · exact absurd h malformed_ne
              · rename_i hinside
                rw [metered_pure_ok h]
                exact .collection hkind (by simpa using hitem) (by omega)
          · exact absurd h malformed_ne

/-- A component that can be read is given. -/
theorem canonicalComponent_gives (h : Reads d index item component) :
    Gives m (canonicalComponent m d index item) component := by
  obtain ⟨row, hrow, hcomponent⟩ := h
  unfold canonicalComponent
  cases hcomponent with
  | none => exact (Gives.lift (componentRow_ok.mpr hrow)).bind .pure
  | node hid =>
    exact (Gives.lift (componentRow_ok.mpr hrow)).bind
      ((Gives.lift (checkedNodeId_ok.mpr ⟨rfl, hid⟩)).bind .pure)
  | scalar kind hpayload hfits hadmitted =>
    refine (Gives.lift (componentRow_ok.mpr hrow)).bind ?_
    obtain ⟨hnone, hnode, -, -⟩ := scalar_ne kind
    have hkind : kind.code.toNat = COMPONENT_TEXT ∨ kind.code.toNat = COMPONENT_BYTES ∨
        kind.code.toNat = COMPONENT_ENUM := by
      cases kind
      · exact .inl rfl
      · exact .inr (.inl rfl)
      · exact .inr (.inr rfl)
    dsimp only
    rw [if_neg hnone, if_neg hnode, if_pos hkind]
    exact (Gives.lift (scalarRange_ok.mpr ⟨hfits, hpayload⟩)).bind
      ((checkScalar_gives hadmitted).bind .pure)
  | integer hpayload hfits hminimal =>
    refine (Gives.lift (componentRow_ok.mpr hrow)).bind ?_
    refine (Gives.lift (scalarRange_ok.mpr ⟨hfits, hpayload⟩)).bind ?_
    rw [if_pos hminimal]
    exact .pure
  | @collection kind start length hkind hitem hinside =>
    refine (Gives.lift (componentRow_ok.mpr hrow)).bind ?_
    have hin : ¬(start > d.columns.itemCount ∨ length > d.columns.itemCount - start) := by omega
    subst hitem
    cases hkind with
    | inl hset =>
      subst hset
      dsimp only [COMPONENT_SET, COMPONENT_NONE, COMPONENT_NODE, COMPONENT_TEXT, COMPONENT_BYTES,
        COMPONENT_ENUM, COMPONENT_INTEGER, COMPONENT_SEQUENCE]
      simp only [OfNat.ofNat_ne_zero, OfNat.ofNat_ne_one, Nat.reduceEqDiff, or_self, if_false,
        true_or, if_true, Bool.false_eq_true, if_neg hin]
      exact .pure
    | inr hsequence =>
      subst hsequence
      dsimp only [COMPONENT_SET, COMPONENT_NONE, COMPONENT_NODE, COMPONENT_TEXT, COMPONENT_BYTES,
        COMPONENT_ENUM, COMPONENT_INTEGER, COMPONENT_SEQUENCE]
      simp only [OfNat.ofNat_ne_zero, OfNat.ofNat_ne_one, Nat.reduceEqDiff, or_self, if_false,
        or_true, if_true, Bool.false_eq_true, if_neg hin]
      exact .pure

end Components

end Projector.Native
