import Mathlib.Data.Fintype.EquivFin
import Mathlib.Logic.Relation
import Mathlib.Order.Interval.Finset.Nat
import Projector.Encoded.SafeReads
import Projector.Encoded.NodeLength

namespace Projector.Encoded
open Lib Projector.Core Compiler Relation

namespace Columns
variable (cols : Columns)

/-- The components of a node: its fields, and the items of its collections. -/
inductive Owns (id : Nat) : Nat → Bool → Prop where
  | field {start stop index : Nat} (hrange : cols.rangeAt id = some (start, stop))
      (hindex : start ≤ index ∧ index < stop) : Owns id index false
  | item {field index : Nat} {row : ComponentRow} (hfield : Owns id field false)
      (hrow : cols.cellAt field false = some row)
      (hkind : row.kind = COMPONENT_SET ∨ row.kind = COMPONENT_SEQUENCE)
      (hindex : row.value ≤ index ∧ index < row.value + row.length) : Owns id index true

def HasChild (id child : Nat) : Prop :=
  ∃ index item length, cols.Owns id index item ∧
    cols.cellAt index item = some ⟨COMPONENT_NODE, child, length⟩

/-- No node that can be reached from a node reaches itself. -/
def Acyclic (id : Nat) : Prop :=
  ∀ n, ReflTransGen cols.HasChild id n → ¬TransGen cols.HasChild n n

/-- Every integer that can be reached from a node is minimally encoded. -/
def MinimalIntegers (id : Nat) : Prop :=
  ∀ n, ReflTransGen cols.HasChild id n → ∀ index item offset length payload,
    cols.Owns n index item → cols.cellAt index item = some ⟨COMPONENT_INTEGER, offset, length⟩ →
    cols.payloadAt offset length = some payload → minimalInteger payload = true

end Columns

theorem forall₂_exists {α β : Type} {rel : α → β → Prop} {xs : List α}
    (hall : ∀ x ∈ xs, ∃ y, rel x y) : ∃ ys, List.Forall₂ rel xs ys := by
  induction xs with
  | nil => exact ⟨[], .nil⟩
  | cons x xs ih =>
    obtain ⟨y, hy⟩ := hall x List.mem_cons_self
    obtain ⟨ys, hys⟩ := ih fun z hz => hall z (List.mem_cons_of_mem _ hz)
    exact ⟨y :: ys, .cons hy hys⟩

section Rows
variable {b : Buffers} {cols : Columns} (h : Referenced b) (hs : Shows b cols)

theorem some_of_read {buffer : Buffer} {index value : Nat}
    (hread : cols.read buffer index = .ok value) : (cols.buffer buffer)[index]? = some value := by
  unfold Columns.read at hread
  split at hread
  · rename_i v hv
    rw [hv, Except.ok.inj hread]
  · cases hread

def rowOf (b : Buffers) (owner : Owner) : ComponentRow :=
  ⟨owner.kind b, owner.value b, owner.length b⟩

def ownerAt (index : Nat) (item : Bool) : Owner := if item then .item index else .field index

theorem isCollection_of_kind {f : Nat}
    (hkind : row b .fieldKinds f = COMPONENT_SET ∨ row b .fieldKinds f = COMPONENT_SEQUENCE) :
    isCollection b f = true := by
  simpa [isCollection, isCollectionKind] using hkind

theorem Columns.MinimalIntegers.child {id child : Nat} (hminimal : cols.MinimalIntegers id)
    (hchild : cols.HasChild id child) : cols.MinimalIntegers child :=
  fun n hn => hminimal n (.head hchild hn)

theorem scalarKind_of_scalar {owner : Owner} (hscalar : owner.isScalar b = true)
    (hinteger : owner.kind b ≠ COMPONENT_INTEGER) :
    ∃ k, Columns.scalarKindOf? (owner.kind b) = some k := by
  unfold Owner.isScalar isScalarKind at hscalar
  simp only [Bool.or_eq_true, beq_iff_eq] at hscalar
  cases hscalar with
  | inl hscalar =>
    cases hscalar with
    | inl hscalar =>
      cases hscalar with
      | inl hk => exact ⟨.text, by rw [hk]; rfl⟩
      | inr hk => exact ⟨.bytes, by rw [hk]; rfl⟩
    | inr hk => exact absurd hk hinteger
  | inr hk => exact ⟨.enum, by rw [hk]; rfl⟩

include h hs

theorem cellAt_eq (index : Nat) (item : Bool) (hin : (ownerAt index item).InTable b) :
    cols.cellAt index item = some (rowOf b (ownerAt index item)) := by
  unfold Columns.cellAt
  cases item with
  | true =>
    have hin : index < rowCount b .itemKinds := hin
    have hkind := some_of_read (hs.read .itemKinds index hin)
    have hvalue := some_of_read (hs.read .itemValues index (h.itemValues ▸ hin))
    have hlength := some_of_read (hs.read .itemLengths index (h.itemLengths ▸ hin))
    simp only [kindsOf, valuesOf, lengthsOf, if_true, hkind, hvalue, hlength]
    rfl
  | false =>
    have hin : index < rowCount b .fieldKinds := hin
    have hkind := some_of_read (hs.read .fieldKinds index hin)
    have hvalue := some_of_read (hs.read .fieldValues index (h.fieldValues ▸ hin))
    have hlength := some_of_read (hs.read .fieldLengths index (h.fieldLengths ▸ hin))
    simp only [kindsOf, valuesOf, lengthsOf, Bool.false_eq_true, if_false, hkind, hvalue, hlength]
    rfl

theorem rangeAt_eq {id : Nat} (hid : 1 ≤ id ∧ id ≤ rowCount b .nodeTags) :
    ∃ start stop tag, cols.rangeAt id = some (start, stop) ∧ stop ≤ rowCount b .fieldKinds ∧
      cols.nodeTags[id - 1]? = some tag := by
  have hlow := some_of_read (hs.read .nodeFieldOffsets (id - 1)
    (by rw [Buffer.column, h.offsets]; omega))
  have hhigh := some_of_read (hs.read .nodeFieldOffsets id (by rw [Buffer.column, h.offsets]; omega))
  have htag := some_of_read (hs.read .nodeTags (id - 1) (by rw [Buffer.column]; omega))
  have hmono := h.monotone (id - 1) (by omega)
  have hwithin := (h.fieldTiles.within (List.mem_range.mpr (show id - 1 < _ by omega))).2
  rw [show id - 1 + 1 = id by omega] at hmono
  simp only [fieldSpan, show id - 1 + 1 = id by omega] at hwithin
  refine ⟨row b .nodeFieldOffsets (id - 1), row b .nodeFieldOffsets id, row b .nodeTags (id - 1),
    ?_, by omega, htag⟩
  unfold Columns.rangeAt
  rw [hs.nodeCount, if_pos hid]
  have hlow : cols.nodeFieldOffsets[id - 1]? = _ := hlow
  have hhigh : cols.nodeFieldOffsets[id]? = _ := hhigh
  rw [hlow, hhigh]
  dsimp only [Buffer.column]
  rw [hs.fieldCount, if_pos (by omega)]

theorem payloadAt_eq {owner : Owner} (howner : owner.InTable b)
    (hscalar : owner.isScalar b = true) :
    ∃ payload, cols.payloadAt (owner.value b) (owner.length b) = some payload := by
  have hinside := h.scalar_inBounds owner howner hscalar
  unfold Columns.payloadAt
  rw [hs.scalarBytes, if_pos (by omega)]
  exact ⟨_, rfl⟩

/-- The components of a node are rows of the table. -/
theorem owns_inTable {id index : Nat} {item : Bool} (hown : cols.Owns id index item) :
    (ownerAt index item).InTable b := by
  induction hown with
  | field hrange hindex =>
    unfold Columns.rangeAt at hrange
    split at hrange
    · split at hrange
      · split at hrange
        · rename_i hinside
          cases hrange
          rw [hs.fieldCount] at hinside
          exact Nat.lt_of_lt_of_le hindex.2 hinside.2
        · cases hrange
      · cases hrange
    · cases hrange
  | @item field index row hfield hrow hkind hindex ih =>
    have hfield : field < rowCount b .fieldKinds := ih
    rw [cellAt_eq h hs field false hfield] at hrow
    cases hrow
    exact h.item_lt hfield (isCollection_of_kind hkind) hindex

/-- A component that is no collection has been looked at as a leaf. -/
theorem owns_leaf {id index : Nat} {item : Bool} (hown : cols.Owns id index item)
    (hleaf : (ownerAt index item).kind b ≠ COMPONENT_SET ∧
      (ownerAt index item).kind b ≠ COMPONENT_SEQUENCE) :
    (ownerAt index item).IsLeaf b (rowCount b .nodeTags) := by
  cases item with
  | false =>
    have hin : index < rowCount b .fieldKinds := owns_inTable h hs hown
    have hcol : isCollection b index = false := by
      have hleaf : row b .fieldKinds index ≠ COMPONENT_SET ∧
        row b .fieldKinds index ≠ COMPONENT_SEQUENCE := hleaf
      simpa [isCollection, isCollectionKind] using hleaf
    exact h.leaves index hin (.field index) (Referenced.field_mem_leaves hcol)
  | true =>
    cases hown with
    | @item field _ row hfield hrow hkind hindex =>
      have hin : field < rowCount b .fieldKinds := owns_inTable h hs hfield
      rw [cellAt_eq h hs field false hin] at hrow
      cases hrow
      exact h.leaves field hin (.item index)
        (Referenced.item_mem_leaves (isCollection_of_kind hkind) hindex)

theorem child_inRange {id child : Nat} (hchild : cols.HasChild id child) :
    1 ≤ child ∧ child ≤ rowCount b .nodeTags := by
  obtain ⟨index, item, length, hown, hrow⟩ := hchild
  rw [cellAt_eq h hs _ _ (owns_inTable h hs hown)] at hrow
  have hrow := Option.some.inj hrow
  have hkind : (ownerAt index item).kind b = COMPONENT_NODE := congrArg ComponentRow.kind hrow
  have hvalue : (ownerAt index item).value b = child := congrArg ComponentRow.value hrow
  have hleaf := owns_leaf h hs hown (by
    rw [hkind]
    exact ⟨by decide, by decide⟩)
  rw [← hvalue]
  exact (hleaf.node hkind).2

/-- On a finite table a node without a cycle under it is well founded. -/
theorem acc_of_acyclic {id : Nat} (hacyclic : cols.Acyclic id) :
    Acc (fun child n => cols.HasChild n child) id := by
  let Below := { n // ReflTransGen cols.HasChild id n }
  have hfinite : Finite Below := by
    have hsub : { n | ReflTransGen cols.HasChild id n } ⊆
        insert id (Set.Icc 1 (rowCount b .nodeTags)) := by
      intro n hn
      cases ReflTransGen.cases_tail hn with
      | inl heq => exact .inl heq
      | inr hstep =>
        obtain ⟨m, -, hchild⟩ := hstep
        exact .inr (child_inRange h hs hchild)
    exact ((Set.finite_Icc _ _).insert id).subset hsub
  let under : Below → Below → Prop := fun x y => TransGen cols.HasChild y.1 x.1
  have htrans : IsTrans Below under := ⟨fun _ _ _ hxy hyz => hyz.trans hxy⟩
  have hirrefl : Std.Irrefl under := ⟨fun x => hacyclic x.1 x.2⟩
  have hwf := Finite.wellFounded_of_trans_of_irrefl under
  have hall : ∀ x : Below, Acc (fun child n => cols.HasChild n child) x.1 := by
    intro x
    induction x using hwf.induction with
    | _ x ih =>
      refine ⟨_, fun child hchild => ?_⟩
      exact ih ⟨child, x.2.tail hchild⟩ (.single hchild)
  exact hall ⟨id, .refl⟩

/-- A component that is no collection stands for something. -/
theorem leafPiece_exists {id index : Nat} {item : Bool} {term : Nat → Option Term}
    {rescope : Bytes → Bytes} (hown : cols.Owns id index item)
    (hleaf : (ownerAt index item).kind b ≠ COMPONENT_SET ∧
      (ownerAt index item).kind b ≠ COMPONENT_SEQUENCE)
    (hchild : ∀ child, cols.HasChild id child → ∃ t, term child = some t)
    (hminimal : cols.MinimalIntegers id) :
    ∃ p, cols.leafPiece term rescope (rowOf b (ownerAt index item)) = some p := by
  have hin := owns_inTable h hs hown
  have hrow := cellAt_eq h hs _ _ hin
  have hshape := owns_leaf h hs hown hleaf
  unfold Columns.leafPiece
  by_cases hnone : (rowOf b (ownerAt index item)).kind = COMPONENT_NONE
  · have hzero : (rowOf b (ownerAt index item)).value = 0 ∧
        (rowOf b (ownerAt index item)).length = 0 := hshape.none hnone
    rw [if_pos hnone, if_pos hzero]
    exact ⟨_, rfl⟩
  · rw [if_neg hnone]
    by_cases hnode : (rowOf b (ownerAt index item)).kind = COMPONENT_NODE
    · have hlength : (rowOf b (ownerAt index item)).length = 0 := (hshape.node hnode).1
      obtain ⟨t, ht⟩ := hchild (rowOf b (ownerAt index item)).value
        ⟨index, item, (rowOf b (ownerAt index item)).length, hown, by rw [hrow, ← hnode]⟩
      rw [if_pos hnode, if_pos hlength, ht]
      exact ⟨_, rfl⟩
    · rw [if_neg hnode]
      have hscalar : (ownerAt index item).isScalar b = true :=
        (hshape.kinds.resolve_left hnone).resolve_left hnode
      obtain ⟨payload, hpayload⟩ := payloadAt_eq h hs hin hscalar
      have hpayload : cols.payloadAt (rowOf b (ownerAt index item)).value
        (rowOf b (ownerAt index item)).length = some payload := hpayload
      rw [hpayload]
      by_cases hinteger : (rowOf b (ownerAt index item)).kind = COMPONENT_INTEGER
      · have hmin := hminimal id .refl index item _ _ payload hown
          (by rw [hrow, ← hinteger]) hpayload
        rw [if_pos hinteger]
        dsimp only
        rw [if_pos hmin]
        exact ⟨_, rfl⟩
      · rw [if_neg hinteger]
        obtain ⟨k, hk⟩ := scalarKind_of_scalar hscalar hinteger
        have hk : Columns.scalarKindOf? (rowOf b (ownerAt index item)).kind = some k := hk
        rw [hk]
        exact ⟨_, rfl⟩

theorem fieldPiece_exists {node index : Nat} {term : Nat → Option Term} {rescope : Bytes → Bytes}
    (hown : cols.Owns node index false)
    (hchild : ∀ child, cols.HasChild node child → ∃ t, term child = some t)
    (hminimal : cols.MinimalIntegers node) :
    ∃ p, cols.fieldPiece term rescope index = some p := by
  have hin : index < rowCount b .fieldKinds := owns_inTable h hs hown
  have hrow := cellAt_eq h hs index false hin
  unfold Columns.fieldPiece
  rw [hrow]
  dsimp only
  by_cases hkind : (rowOf b (ownerAt index false)).kind = COMPONENT_SET ∨
      (rowOf b (ownerAt index false)).kind = COMPONENT_SEQUENCE
  · have hcol := isCollection_of_kind hkind
    have hwithin := (h.itemTiles.within (Referenced.mem_collections.mpr ⟨hin, hcol⟩)).2
    have hinside : (rowOf b (ownerAt index false)).value ≤ cols.itemCount ∧
        (rowOf b (ownerAt index false)).length ≤
          cols.itemCount - (rowOf b (ownerAt index false)).value := by
      rw [hs.itemCount]
      simp only [itemSpan] at hwithin
      simp only [rowOf, ownerAt, Owner.value, Owner.length, Bool.false_eq_true, if_false]
      omega
    have hitem : ∀ j ∈ List.range' (rowOf b (ownerAt index false)).value
        (rowOf b (ownerAt index false)).length, cols.Owns node j true := fun j hj =>
      .item hown hrow hkind (List.mem_range'_1.mp hj)
    rw [if_pos hkind, if_pos hinside]
    by_cases hset : (rowOf b (ownerAt index false)).kind = COMPONENT_SET
    · rw [if_pos hset]
      obtain ⟨items, hitems⟩ := forall₂_exists (fun j hj => by
        have hown := hitem j hj
        have hnode : (ownerAt j true).kind b = COMPONENT_NODE :=
          h.setItems index hin hset (.item j)
            (Referenced.item_mem_leaves hcol (List.mem_range'_1.mp hj))
        have hcell := cellAt_eq h hs _ _ (owns_inTable h hs hown)
        have hleaf := owns_leaf h hs hown (by
          rw [hnode]
          exact ⟨by decide, by decide⟩)
        obtain ⟨t, ht⟩ := hchild ((ownerAt j true).value b)
          ⟨j, true, (ownerAt j true).length b, hown, by rw [hcell, rowOf, hnode]⟩
        refine ⟨t, ?_⟩
        show cols.memberTerm term j = some t
        unfold Columns.memberTerm
        rw [hcell]
        dsimp only [rowOf]
        rw [if_pos ⟨hnode, (hleaf.node hnode).1⟩, ht])
      rw [mapM_some.mpr hitems]
      exact ⟨_, rfl⟩
    · rw [if_neg hset]
      obtain ⟨items, hitems⟩ := forall₂_exists (fun j hj => by
        have hown := hitem j hj
        have hcell := cellAt_eq h hs _ _ (owns_inTable h hs hown)
        have hleaf := h.leaves index hin (.item j)
          (Referenced.item_mem_leaves hcol (List.mem_range'_1.mp hj))
        have hkinds : (ownerAt j true).kind b ≠ COMPONENT_SET ∧
            (ownerAt j true).kind b ≠ COMPONENT_SEQUENCE := hleaf.not_collection
        obtain ⟨p, hp⟩ := leafPiece_exists h hs hown hkinds hchild hminimal
        refine ⟨p, ?_⟩
        show cols.itemPiece term j = some p
        unfold Columns.itemPiece
        rw [hcell]
        exact hp)
      rw [mapM_some.mpr hitems]
      exact ⟨_, rfl⟩
  · rw [if_neg hkind]
    exact leafPiece_exists h hs hown (not_or.mp hkind) hchild hminimal

/-- The children of a node, whose number is bounded, stand for terms of one depth. -/
theorem children_terms (scopeMap : Bytes → Option Bytes) (id : Nat)
    (hchild : ∀ child, cols.HasChild id child → ∃ t, cols.Stands scopeMap child t) :
    ∃ fuel, ∀ child, cols.HasChild id child → ∃ t, cols.termAt scopeMap fuel child = some t := by
  have hbounded : ∀ bound, ∃ fuel, ∀ child, child < bound → cols.HasChild id child →
      ∃ t, cols.termAt scopeMap fuel child = some t := by
    intro bound
    induction bound with
    | zero => exact ⟨0, fun child hlt => absurd hlt (Nat.not_lt_zero _)⟩
    | succ bound ih =>
      obtain ⟨fuel, hfuel⟩ := ih
      by_cases hlast : cols.HasChild id bound
      · obtain ⟨t, more, ht⟩ := hchild bound hlast
        refine ⟨max fuel more, fun child hlt hhas => ?_⟩
        cases Nat.lt_succ_iff_lt_or_eq.mp hlt with
        | inl hlt =>
          obtain ⟨s, hs⟩ := hfuel child hlt hhas
          exact ⟨s, termAt_more (Nat.le_max_left _ _) child s hs⟩
        | inr heq => exact ⟨t, heq ▸ termAt_more (Nat.le_max_right _ _) bound t ht⟩
      · refine ⟨fuel, fun child hlt hhas => ?_⟩
        cases Nat.lt_succ_iff_lt_or_eq.mp hlt with
        | inl hlt => exact hfuel child hlt hhas
        | inr heq => exact absurd (heq ▸ hhas) hlast
  obtain ⟨fuel, hfuel⟩ := hbounded (rowCount b .nodeTags + 1)
  refine ⟨fuel, fun child hhas => hfuel child ?_ hhas⟩
  have := (child_inRange h hs hhas).2
  omega

/-- A node without a cycle under it stands for a term. -/
theorem stands_of_acyclic (scopeMap : Bytes → Option Bytes) {id : Nat}
    (hid : 1 ≤ id ∧ id ≤ rowCount b .nodeTags) (hacyclic : cols.Acyclic id)
    (hminimal : cols.MinimalIntegers id) : ∃ t, cols.Stands scopeMap id t := by
  have hacc := acc_of_acyclic h hs hacyclic
  clear hacyclic
  induction hacc with
  | intro id _ ih =>
    obtain ⟨fuel, hfuel⟩ := children_terms h hs scopeMap id
      fun child hchild => ih child hchild (child_inRange h hs hchild)
        (hminimal.child hchild)
    obtain ⟨start, stop, tag, hrange, -, htag⟩ := rangeAt_eq h hs hid
    have hpieces : ∀ index ∈ List.range' start (stop - start), ∃ p,
        cols.fieldPiece (cols.termAt scopeMap fuel)
          (Columns.rescopeOf scopeMap tag start index) index = some p := by
      intro index hindex
      have hin := List.mem_range'_1.mp hindex
      exact fieldPiece_exists h hs (.field hrange (by omega)) hfuel hminimal
    obtain ⟨fields, hfields⟩ := forall₂_exists hpieces
    exact ⟨_, fuel + 1, NodeView.termAt ⟨hrange, htag, hfields⟩⟩

end Rows

end Projector.Encoded
