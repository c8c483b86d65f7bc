import Projector.Encoded.Table
import Projector.Encoded.CanonicalTerms

namespace Projector.Encoded
open Lib Projector.Core Compiler

section Reads
variable {c : Cursor} {index start stop node tag : Nat} {item : Bool} {cell : ComponentRow}

theorem read_of_some {cols : Columns} {b : Buffer} {value : Nat}
    (h : (cols.buffer b)[index]? = some value) : cols.read b index = .ok value := by
  unfold Columns.read
  rw [h]

theorem cellAt_some {cols : Columns} (h : cols.cellAt index item = some cell) :
    cols.read (kindsOf item) index = .ok cell.kind ∧
    cols.read (valuesOf item) index = .ok cell.value ∧
    cols.read (lengthsOf item) index = .ok cell.length := by
  unfold Columns.cellAt at h
  simp only [Option.bind_eq_bind, Option.bind_eq_some_iff, Option.pure_def,
    Option.some.injEq] at h
  obtain ⟨kind, hkind, value, hvalue, length, hlength, rfl⟩ := h
  exact ⟨read_of_some hkind, read_of_some hvalue, read_of_some hlength⟩

theorem head_eq (h : c.columns.cellAt index item = some cell) :
    c.head index item = .ok (cell.kind, cell.value, cell.length) := by
  obtain ⟨hkind, hvalue, hlength⟩ := cellAt_some h
  unfold Cursor.head
  rw [ok_bind _ hkind, ok_bind _ hvalue, ok_bind _ hlength]
  rfl

theorem rangeAt_some {cols : Columns} (h : cols.rangeAt node = some (start, stop)) :
    cols.nodeId node = .ok node ∧ cols.fieldRange node = .ok (start, stop) := by
  unfold Columns.rangeAt at h
  split at h
  · rename_i hid
    have hnode : cols.nodeId node = .ok node := by
      unfold Columns.nodeId
      rw [if_pos hid]
    refine ⟨hnode, ?_⟩
    split at h
    · rename_i first last hfirst hlast
      split at h
      · rename_i hinside
        cases h
        unfold Columns.fieldRange
        rw [ok_bind _ hnode, ok_bind _ (read_of_some (b := .nodeFieldOffsets) hfirst),
          ok_bind _ (read_of_some (b := .nodeFieldOffsets) hlast)]
        have hok : ¬(start > stop ∨ stop > cols.fieldCount) := by omega
        rw [if_neg hok]
        rfl
      · cases h
    · cases h
  · cases h

theorem Columns.rangeAt_inside {cols : Columns} (h : cols.rangeAt node = some (start, stop)) :
    1 ≤ node ∧ node ≤ cols.nodeCount := by
  unfold Columns.rangeAt at h
  split at h
  · assumption
  · cases h

theorem nodeTag_of_range {cols : Columns} (hrange : cols.rangeAt node = some (start, stop))
    (htag : cols.nodeTags[node - 1]? = some tag) : cols.nodeTag node = .ok tag := by
  unfold Columns.nodeTag
  rw [ok_bind _ (rangeAt_some hrange).1]
  exact read_of_some (b := .nodeTags) htag

/-- Where a component lies decides how its document scope is mapped. -/
inductive Owned (c : Cursor) (index : Nat) : Option Nat → Bool → (Bytes → Bytes) → Prop where
  | item : Owned c index none true id
  | field {owner start stop tag : Nat} (hrange : c.columns.rangeAt owner = some (start, stop))
      (htag : c.columns.nodeTags[owner - 1]? = some tag) :
      Owned c index (some owner) false (Columns.rescopeOf c.scopeMap tag start index)

theorem scalarPart_eq {owner : Option Nat} {rescope : Bytes → Bytes} {kind offset length : Nat}
    {payload : Bytes} (howned : Owned c index owner item rescope)
    (hcell : c.columns.cellAt index item = some ⟨kind, offset, length⟩)
    (hpayload : c.columns.payloadAt offset length = some payload) :
    c.scalarPart owner index kind item =
      .ok (if kind = COMPONENT_BYTES then rescope payload else payload) := by
  obtain ⟨hkind, hvalue, hlength⟩ := cellAt_some hcell
  unfold Columns.payloadAt at hpayload
  split at hpayload
  · rename_i hinside
    cases hpayload
    unfold Cursor.scalarPart
    rw [ok_bind _ hkind, beq_self_eq_true, ok_bind _ (demand_true _), ok_bind _ hvalue,
      ok_bind _ hlength]
    have hin : (decide (offset ≤ c.columns.scalarBytes.length) &&
        decide (length ≤ c.columns.scalarBytes.length - offset)) = true := by simp [hinside]
    rw [hin, ok_bind _ (demand_true _)]
    cases howned with
    | item => simp [pure, Except.pure]
    | @field owner start stop tag hrange htag =>
      by_cases hbytes : kind = COMPONENT_BYTES
      · have hplain : (false || kind != COMPONENT_BYTES) = false := by simp [hbytes]
        have htagIs : c.columns.tagIs owner .anonymousIndividual =
            .ok (tag == Constructor.tag .anonymousIndividual) := by
          unfold Columns.tagIs
          rw [ok_bind _ (nodeTag_of_range hrange htag)]
          rfl
        simp only [hplain, if_pos hbytes, Bool.false_eq_true, if_false]
        rw [ok_bind _ htagIs]
        unfold Columns.rescopeOf
        by_cases hanonymous : tag = Constructor.tag .anonymousIndividual
        · simp only [hanonymous, beq_self_eq_true, Bool.not_true, Bool.false_eq_true, if_false,
            true_and]
          rw [ok_bind _ (rangeAt_some hrange).2]
          dsimp only
          split <;> rfl
        · simp [hanonymous, pure, Except.pure]
      · have hplain : (false || kind != COMPONENT_BYTES) = true := by simp [hbytes]
        simp only [hplain, if_neg hbytes, if_true]
        rfl
  · cases hpayload

theorem itemNode_of_cell {cols : Columns} {fuel : Nat} {scopeMap : Bytes → Option Bytes}
    {t : Term} (hcell : cols.cellAt index true = some ⟨COMPONENT_NODE, node, 0⟩)
    (ht : cols.termAt scopeMap fuel node = some t) : cols.itemNode index = .ok node := by
  obtain ⟨hkind, hvalue, hlength⟩ := cellAt_some hcell
  obtain ⟨_, _, _, _, _, _, _, hview⟩ := termAt_some ht
  change cols.read .itemKinds index = _ at hkind
  change cols.read .itemLengths index = _ at hlength
  change cols.read .itemValues index = _ at hvalue
  unfold Columns.itemNode
  rw [ok_bind _ hkind, ok_bind _ hlength]
  simp only [ne_eq, not_true_eq_false, or_self, if_false]
  rw [ok_bind _ hvalue]
  exact (rangeAt_some hview.range).1

theorem nodeId_of_term {cols : Columns} {fuel : Nat} {scopeMap : Bytes → Option Bytes}
    {t : Term} (ht : cols.termAt scopeMap fuel node = some t) : cols.nodeId node = .ok node := by
  obtain ⟨_, _, _, _, _, _, _, hview⟩ := termAt_some ht
  exact (rangeAt_some hview.range).1

end Reads

section Kinds

theorem scalar_isPlain (k : ScalarKind) : isPlainScalar k.code.toNat = true := by
  cases k <;> rfl

theorem scalar_ne (k : ScalarKind) :
    k.code.toNat ≠ COMPONENT_NONE ∧ k.code.toNat ≠ COMPONENT_NODE ∧
    k.code.toNat ≠ COMPONENT_SET ∧ k.code.toNat ≠ COMPONENT_SEQUENCE := by
  cases k <;> decide

theorem scalar_bytes (k : ScalarKind) : k.code.toNat = COMPONENT_BYTES ↔ k = .bytes := by
  cases k <;> simp [ScalarKind.code, COMPONENT_BYTES]

theorem length_sized (payload : Bytes) :
    (sized payload).length = Cursor.varintLength payload.length + payload.length := by
  simp [sized, Cursor.varintLength]

end Kinds

section Components
variable {c : Cursor} {index : Nat} {item : Bool} {owner : Option Nat} {fuel : Nat}
  {rescope : Bytes → Bytes} {row : ComponentRow} {p : Piece} {lengths : Lengths}

/-- A child that a generator yields: it stands for a term with a shorter code. -/
def ChildOf (c : Cursor) (fuel bound : Nat) (x : Read Nat) : Prop :=
  ∃ child t, x = .ok child ∧ c.columns.termAt c.scopeMap fuel child = some t ∧
    t.encode.length < bound

/-- The children of a list have been measured. -/
def Measured (c : Cursor) (fuel : Nat) (lengths : Lengths) (children : List (Read Nat)) : Prop :=
  ∀ child t, .ok child ∈ children → c.columns.termAt c.scopeMap fuel child = some t →
    lengths child = some t.encode.length

theorem Measured.sublist {xs ys : List (Read Nat)} (h : Measured c fuel lengths ys)
    (hsub : ∀ x ∈ xs, x ∈ ys) : Measured c fuel lengths xs :=
  fun child t hmem ht => h child t (hsub _ hmem) ht

theorem cached_eq {child : Nat} {n : Nat} (h : lengths child = some n) :
    Cursor.cachedNodeLength lengths child = .ok n := by
  unfold Cursor.cachedNodeLength
  rw [h]

theorem leaf_children {nested : Nat → List (Read Nat)} (howned : Owned c index owner item rescope)
    (hrow : c.columns.cellAt index item = some row)
    (hleaf : LeafView c.columns (c.columns.termAt c.scopeMap fuel) rescope row p) :
    ∀ x ∈ c.childIdsWith nested owner index item, ChildOf c fuel p.encode.length x := by
  intro x hx
  unfold Cursor.childIdsWith at hx
  rw [head_eq hrow] at hx
  cases hleaf with
  | none => simp at hx
  | @node child t ht =>
    simp only [nodeId_of_term ht, COMPONENT_NODE, COMPONENT_NONE, one_ne_zero, ne_eq,
      not_true_eq_false, if_false, if_true, List.mem_singleton] at hx
    refine ⟨child, t, hx, ht, ?_⟩
    simp only [Piece.encode, List.length_cons, length_sized]
    omega
  | scalar kind hpayload =>
    obtain ⟨hnone, hnode, -, -⟩ := scalar_ne kind
    simp [hnone, hnode, scalar_isPlain, scalarPart_eq howned hrow hpayload] at hx
  | integer hpayload hminimal =>
    simp [COMPONENT_INTEGER, COMPONENT_NONE, COMPONENT_NODE, isPlainScalar, COMPONENT_TEXT,
      COMPONENT_BYTES, COMPONENT_ENUM,
      show c.scalarPart owner index 4 item = _ from scalarPart_eq howned hrow hpayload,
      hminimal] at hx

theorem leaf_length {nested : Nat → List (Read Nat)} {nestedLength : Nat → Read Nat}
    (howned : Owned c index owner item rescope)
    (hrow : c.columns.cellAt index item = some row)
    (hleaf : LeafView c.columns (c.columns.termAt c.scopeMap fuel) rescope row p)
    (hmeasured : Measured c fuel lengths (c.childIdsWith nested owner index item)) :
    c.componentLengthWith lengths nestedLength owner index item = .ok p.encode.length := by
  unfold Measured Cursor.childIdsWith at hmeasured
  unfold Cursor.componentLengthWith
  rw [head_eq hrow] at hmeasured
  rw [ok_bind _ (head_eq hrow)]
  cases hleaf with
  | none => simp [Piece.encode, pure, Except.pure]
  | @node child t ht =>
    have hlength : lengths child = some t.encode.length := by
      apply hmeasured child t _ ht
      simp [COMPONENT_NODE, COMPONENT_NONE, nodeId_of_term ht]
    simp only [COMPONENT_NODE, COMPONENT_NONE, one_ne_zero, ne_eq, not_true_eq_false, if_false,
      if_true]
    rw [ok_bind _ (nodeId_of_term ht), ok_bind _ (cached_eq hlength)]
    simp only [Piece.encode, List.length_cons, length_sized, pure, Except.pure, Except.ok.injEq]
    omega
  | scalar kind hpayload =>
    obtain ⟨hnone, hnode, -, -⟩ := scalar_ne kind
    simp only [hnone, hnode, scalar_isPlain, if_false, if_true]
    rw [ok_bind _ (scalarPart_eq howned hrow hpayload)]
    simp only [Piece.encode, List.length_cons, length_sized, pure, Except.pure, scalar_bytes,
      Except.ok.injEq]
    omega
  | integer hpayload hminimal =>
    have hpart := scalarPart_eq howned hrow hpayload
    simp only [COMPONENT_INTEGER, COMPONENT_BYTES, COMPONENT_NONE, COMPONENT_NODE, isPlainScalar,
      COMPONENT_TEXT, COMPONENT_ENUM] at hpart ⊢
    simp only [OfNat.ofNat_ne_zero, OfNat.ofNat_ne_one, Nat.reduceBEq,
      Nat.reduceEqDiff, Bool.or_self, Bool.false_eq_true, if_false, if_true] at hpart ⊢
    rw [ok_bind _ hpart, if_pos hminimal]
    simp only [Piece.encode, List.length_cons, Cursor.varintLength, pure, Except.pure,
      Except.ok.injEq]
    omega

theorem forall₂_left {α β : Type} {rel : α → β → Prop} {xs : List α} {ys : List β}
    (h : List.Forall₂ rel xs ys) {x : α} (hx : x ∈ xs) : ∃ y ∈ ys, rel x y := by
  induction h with
  | nil => cases hx
  | cons hrel _ ih =>
    cases hx with
    | head => exact ⟨_, List.mem_cons_self, hrel⟩
    | tail _ hmem =>
      obtain ⟨y, hy, hxy⟩ := ih hmem
      exact ⟨y, List.mem_cons_of_mem _ hy, hxy⟩

theorem forall₂_of_mem {α β : Type} {rel rel' : α → β → Prop} {xs : List α} {ys : List β}
    (h : List.Forall₂ rel xs ys) (himp : ∀ x y, x ∈ xs → rel x y → rel' x y) :
    List.Forall₂ rel' xs ys := by
  induction h with
  | nil => exact .nil
  | cons hrel _ ih =>
    exact .cons (himp _ _ List.mem_cons_self hrel)
      (ih fun x y hx => himp x y (List.mem_cons_of_mem _ hx))

/-- A loop that adds up lengths. -/
theorem foldlM_lengths {α β : Type} (f : Nat → α → Read Nat) (size : β → Nat) {xs : List α}
    (ys : List β) (h : List.Forall₂ (fun x y => ∀ r, f r x = .ok (r + size y)) xs ys) (r : Nat) :
    xs.foldlM f r = .ok (r + (ys.map size).sum) := by
  induction h generalizing r with
  | nil => rfl
  | @cons x y xs ys hxy _ ih =>
    rw [List.foldlM_cons, ok_bind _ (hxy r), ih, List.map_cons, List.sum_cons, Nat.add_assoc]

theorem length_encodeTerms (items : List Term) :
    (Term.encodeAll items).length = (items.map fun t => (sized t.encode).length).sum := by
  rw [Term.encodeAll_eq, List.length_flatMap]

theorem length_encodePieces (items : List Piece) :
    (Piece.encodeAll items).length = (items.map fun q => q.encode.length).sum := by
  rw [Piece.encodeAll_eq, List.length_flatMap]

theorem Term.length_le_encodeAll {items : List Term} {t : Term} (h : t ∈ items) :
    t.encode.length ≤ (Term.encodeAll items).length := by
  obtain ⟨before, after, rfl⟩ := List.append_of_mem h
  rw [length_encodeTerms, List.map_append, List.map_cons, List.sum_append, List.sum_cons,
    length_sized]
  omega

theorem Piece.length_le_encodeAll {items : List Piece} {q : Piece} (h : q ∈ items) :
    q.encode.length ≤ (Piece.encodeAll items).length := by
  obtain ⟨before, after, rfl⟩ := List.append_of_mem h
  rw [length_encodePieces, List.map_append, List.map_cons, List.sum_append, List.sum_cons]
  omega

theorem ChildOf.mono {bound more : Nat} {x : Read Nat} (h : ChildOf c fuel bound x)
    (hle : bound ≤ more) : ChildOf c fuel more x := by
  obtain ⟨child, t, hx, ht, hlt⟩ := h
  exact ⟨child, t, hx, ht, by omega⟩

theorem item_children {j : Nat} {q : Piece}
    (h : c.columns.itemPiece (c.columns.termAt c.scopeMap fuel) j = some q) :
    ∀ x ∈ c.itemChildIds j, ChildOf c fuel q.encode.length x := by
  obtain ⟨row, hrow, hleaf⟩ := itemPiece_some h
  exact leaf_children .item hrow hleaf

theorem item_length {j : Nat} {q : Piece}
    (h : c.columns.itemPiece (c.columns.termAt c.scopeMap fuel) j = some q)
    (hmeasured : Measured c fuel lengths (c.itemChildIds j)) :
    c.itemLength lengths j = .ok q.encode.length := by
  obtain ⟨row, hrow, hleaf⟩ := itemPiece_some h
  exact leaf_length .item hrow hleaf hmeasured

section Collections
variable {id start length : Nat}

theorem set_childIds (hrow : c.columns.cellAt index false = some ⟨COMPONENT_SET, start, length⟩)
    (hinside : start ≤ c.columns.itemCount ∧ length ≤ c.columns.itemCount - start) :
    c.componentChildIds id index = (List.range' start length).flatMap
      fun j => [c.columns.itemNode j] := by
  unfold Cursor.componentChildIds Cursor.childIdsWith
  rw [head_eq hrow]
  have hin : ¬(start > c.columns.itemCount ∨ length > c.columns.itemCount - start) := by omega
  simp [COMPONENT_SET, COMPONENT_NONE, COMPONENT_NODE, isPlainScalar, COMPONENT_TEXT,
    COMPONENT_BYTES, COMPONENT_ENUM, COMPONENT_INTEGER, hin]

theorem sequence_childIds
    (hrow : c.columns.cellAt index false = some ⟨COMPONENT_SEQUENCE, start, length⟩)
    (hinside : start ≤ c.columns.itemCount ∧ length ≤ c.columns.itemCount - start) :
    c.componentChildIds id index = (List.range' start length).flatMap c.itemChildIds := by
  unfold Cursor.componentChildIds Cursor.childIdsWith
  rw [head_eq hrow]
  have hin : ¬(start > c.columns.itemCount ∨ length > c.columns.itemCount - start) := by omega
  simp [COMPONENT_SET, COMPONENT_SEQUENCE, COMPONENT_NONE, COMPONENT_NODE, isPlainScalar,
    COMPONENT_TEXT, COMPONENT_BYTES, COMPONENT_ENUM, COMPONENT_INTEGER, hin]

theorem set_length (hrow : c.columns.cellAt index false = some ⟨COMPONENT_SET, start, length⟩)
    (hinside : start ≤ c.columns.itemCount ∧ length ≤ c.columns.itemCount - start)
    {nested : Nat → Read Nat} {owner : Option Nat} :
    c.componentLengthWith lengths nested owner index false =
      (List.range' start length).foldlM
        (fun result j => do
          let child ← c.columns.itemNode j
          let childLength ← Cursor.cachedNodeLength lengths child
          pure (result + (Cursor.varintLength childLength + childLength)))
        (1 + Cursor.varintLength length) := by
  unfold Cursor.componentLengthWith
  rw [ok_bind _ (head_eq hrow)]
  have hin : ¬(start > c.columns.itemCount ∨ length > c.columns.itemCount - start) := by omega
  simp [COMPONENT_SET, COMPONENT_NONE, COMPONENT_NODE, isPlainScalar, COMPONENT_TEXT,
    COMPONENT_BYTES, COMPONENT_ENUM, COMPONENT_INTEGER, hin]

theorem sequence_length
    (hrow : c.columns.cellAt index false = some ⟨COMPONENT_SEQUENCE, start, length⟩)
    (hinside : start ≤ c.columns.itemCount ∧ length ≤ c.columns.itemCount - start)
    {nested : Nat → Read Nat} {owner : Option Nat} :
    c.componentLengthWith lengths nested owner index false =
      (List.range' start length).foldlM
        (fun result j => do
          let itemLength ← nested j
          pure (result + itemLength))
        (1 + Cursor.varintLength length) := by
  unfold Cursor.componentLengthWith
  rw [ok_bind _ (head_eq hrow)]
  have hin : ¬(start > c.columns.itemCount ∨ length > c.columns.itemCount - start) := by omega
  simp [COMPONENT_SET, COMPONENT_SEQUENCE, COMPONENT_NONE, COMPONENT_NODE, isPlainScalar,
    COMPONENT_TEXT, COMPONENT_BYTES, COMPONENT_ENUM, COMPONENT_INTEGER, hin]

end Collections

section Fields
variable {id start stop tag : Nat}

theorem field_children (hrange : c.columns.rangeAt id = some (start, stop))
    (htag : c.columns.nodeTags[id - 1]? = some tag)
    (h : c.columns.fieldPiece (c.columns.termAt c.scopeMap fuel)
      (Columns.rescopeOf c.scopeMap tag start index) index = some p) :
    ∀ x ∈ c.componentChildIds id index, ChildOf c fuel p.encode.length x := by
  obtain ⟨row, hrow, hview⟩ := fieldPiece_some h
  cases hview with
  | leaf hleaf => exact leaf_children (.field hrange htag) hrow hleaf
  | @set first length items hinside hitems =>
    intro x hx
    rw [set_childIds hrow hinside, List.mem_flatMap] at hx
    obtain ⟨j, hj, hx⟩ := hx
    obtain ⟨t, ht, hmember⟩ := forall₂_left (mapM_some.mp hitems) hj
    obtain ⟨child, hcell, hterm⟩ := memberTerm_some hmember
    refine ⟨child, t, ?_, hterm, ?_⟩
    · rw [List.mem_singleton.mp hx, itemNode_of_cell hcell hterm]
    · have hle := Term.length_le_encodeAll ht
      simp only [Piece.encode, List.length_cons, List.length_append]
      omega
  | @sequence first length items hinside hitems =>
    intro x hx
    rw [sequence_childIds hrow hinside, List.mem_flatMap] at hx
    obtain ⟨j, hj, hx⟩ := hx
    obtain ⟨q, hq, hpiece⟩ := forall₂_left (mapM_some.mp hitems) hj
    have hle := Piece.length_le_encodeAll hq
    apply (item_children hpiece x hx).mono
    simp only [Piece.encode, List.length_cons, List.length_append]
    omega

theorem field_length (hrange : c.columns.rangeAt id = some (start, stop))
    (htag : c.columns.nodeTags[id - 1]? = some tag)
    (h : c.columns.fieldPiece (c.columns.termAt c.scopeMap fuel)
      (Columns.rescopeOf c.scopeMap tag start index) index = some p)
    (hmeasured : Measured c fuel lengths (c.componentChildIds id index)) :
    c.componentLength lengths id index = .ok p.encode.length := by
  obtain ⟨row, hrow, hview⟩ := fieldPiece_some h
  unfold Cursor.componentLength
  cases hview with
  | leaf hleaf => exact leaf_length (.field hrange htag) hrow hleaf hmeasured
  | @set first length items hinside hitems =>
    rw [set_childIds hrow hinside] at hmeasured
    have hitems := mapM_some.mp hitems
    have hcount : length = items.length := by simpa using hitems.length_eq
    rw [set_length hrow hinside, foldlM_lengths _ (fun t : Term => (sized t.encode).length) items ?_]
    · rw [← length_encodeTerms, hcount]
      simp only [Piece.encode, List.length_cons, List.length_append, Cursor.varintLength,
        Except.ok.injEq]
      omega
    · refine forall₂_of_mem hitems fun j t hj hmember r => ?_
      obtain ⟨child, hcell, hterm⟩ := memberTerm_some hmember
      have hnode := itemNode_of_cell hcell hterm
      have hlength := hmeasured child t (List.mem_flatMap.mpr ⟨j, hj, by simp [hnode]⟩) hterm
      rw [ok_bind _ hnode, ok_bind _ (cached_eq hlength), length_sized]
      rfl
  | @sequence first length items hinside hitems =>
    rw [sequence_childIds hrow hinside] at hmeasured
    have hitems := mapM_some.mp hitems
    have hcount : length = items.length := by simpa using hitems.length_eq
    rw [sequence_length hrow hinside, foldlM_lengths _ (fun q : Piece => q.encode.length) items ?_]
    · rw [← length_encodePieces, hcount]
      simp only [Piece.encode, List.length_cons, List.length_append, Cursor.varintLength,
        Except.ok.injEq]
      omega
    · refine forall₂_of_mem hitems fun j q hj hpiece r => ?_
      have hlength := item_length hpiece
        (hmeasured.sublist fun x hx => List.mem_flatMap.mpr ⟨j, hj, hx⟩)
      rw [ok_bind _ hlength]
      rfl

end Fields

end Components

end Projector.Encoded
