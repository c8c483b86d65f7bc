import Projector.Lib.TreeCode
import Projector.Lib.Effects
import Projector.Encoded.CanonicalCursor

namespace Projector.Encoded
open Lib Projector.Core Compiler

/-- The kind, the value and the length of a row of fields or of items. -/
structure ComponentRow where
  kind : Nat
  value : Nat
  length : Nat

namespace Columns
variable (cols : Columns)

def cellAt (index : Nat) (item : Bool) : Option ComponentRow := do
  let kind ← (cols.buffer (kindsOf item))[index]?
  let value ← (cols.buffer (valuesOf item))[index]?
  let length ← (cols.buffer (lengthsOf item))[index]?
  pure ⟨kind, value, length⟩

def payloadAt (offset length : Nat) : Option Bytes :=
  if offset ≤ cols.scalarBytes.length ∧ length ≤ cols.scalarBytes.length - offset then
    some ((cols.scalarBytes.drop offset).take length)
  else none

/-- The rows of fields of a node. -/
def rangeAt (id : Nat) : Option (Nat × Nat) :=
  if 1 ≤ id ∧ id ≤ cols.nodeCount then
    match cols.nodeFieldOffsets[id - 1]?, cols.nodeFieldOffsets[id]? with
    | some start, some stop =>
      if start ≤ stop ∧ stop ≤ cols.fieldCount then some (start, stop) else none
    | _, _ => none
  else none

/-- The kinds of payloads that are written as they are, by their code. -/
def scalarKindOf? (kind : Nat) : Option ScalarKind :=
  if kind = COMPONENT_TEXT then some .text
  else if kind = COMPONENT_BYTES then some .bytes
  else if kind = COMPONENT_ENUM then some .enum
  else none

/-- What a component other than a collection stands for. -/
def leafPiece (term : Nat → Option Term) (rescope : Bytes → Bytes) (cell : ComponentRow) :
    Option Piece :=
  if cell.kind = COMPONENT_NONE then
    if cell.value = 0 ∧ cell.length = 0 then some .none else none
  else if cell.kind = COMPONENT_NODE then
    if cell.length = 0 then (term cell.value).map .node else none
  else if cell.kind = COMPONENT_INTEGER then
    match cols.payloadAt cell.value cell.length with
    | some payload =>
      if minimalInteger payload then some (.integer (fromLittleEndian payload)) else none
    | none => none
  else
    match scalarKindOf? cell.kind, cols.payloadAt cell.value cell.length with
    | some kind, some payload =>
      some (.scalar kind (if kind = .bytes then rescope payload else payload))
    | _, _ => none

/-- What a member of a set stands for. -/
def memberTerm (term : Nat → Option Term) (index : Nat) : Option Term :=
  match cols.cellAt index true with
  | some ⟨kind, value, length⟩ =>
    if kind = COMPONENT_NODE ∧ length = 0 then term value else none
  | none => none

/-- What an item of a sequence stands for. -/
def itemPiece (term : Nat → Option Term) (index : Nat) : Option Piece :=
  match cols.cellAt index true with
  | some cell => cols.leafPiece term id cell
  | none => none

/-- What a field stands for: collections keep the order in which they are stored. -/
def fieldPiece (term : Nat → Option Term) (rescope : Bytes → Bytes) (index : Nat) :
    Option Piece :=
  match cols.cellAt index false with
  | none => none
  | some cell =>
    if cell.kind = COMPONENT_SET ∨ cell.kind = COMPONENT_SEQUENCE then
      if cell.value ≤ cols.itemCount ∧ cell.length ≤ cols.itemCount - cell.value then
        let items := List.range' cell.value cell.length
        if cell.kind = COMPONENT_SET then (items.mapM (cols.memberTerm term)).map .set
        else (items.mapM (cols.itemPiece term)).map .sequence
      else none
    else cols.leafPiece term rescope cell

/-- The mapping of the field at `index` of a node whose fields begin at `start`. -/
def rescopeOf (scopeMap : Bytes → Option Bytes) (tag start index : Nat) : Bytes → Bytes :=
  if tag = Constructor.anonymousIndividual.tag ∧ index = start then
    fun payload => (scopeMap payload).getD payload
  else id

/-- The term that a node stands for after scope remapping, if it is at most as deep as
the fuel and every row under it is well formed. -/
def termAt (scopeMap : Bytes → Option Bytes) : Nat → Nat → Option Term
  | 0, _ => none
  | fuel + 1, id =>
    match cols.rangeAt id, cols.nodeTags[id - 1]? with
    | some (start, stop), some tag =>
      ((List.range' start (stop - start)).mapM fun index =>
        cols.fieldPiece (termAt scopeMap fuel) (rescopeOf scopeMap tag start index) index).map
          (.mk tag)
    | _, _ => none

/-- A node stands for a term. -/
def Stands (scopeMap : Bytes → Option Bytes) (id : Nat) (t : Term) : Prop :=
  ∃ fuel, cols.termAt scopeMap fuel id = some t

end Columns

section Views
variable {cols : Columns} {scopeMap : Bytes → Option Bytes} {term : Nat → Option Term}
  {rescope : Bytes → Bytes} {index : Nat} {item : Bool}

/-- The components other than collections. -/
inductive LeafView (cols : Columns) (term : Nat → Option Term) (rescope : Bytes → Bytes) :
    ComponentRow → Piece → Prop where
  | none : LeafView cols term rescope ⟨COMPONENT_NONE, 0, 0⟩ .none
  | node {id : Nat} {t : Term} (h : term id = some t) :
      LeafView cols term rescope ⟨COMPONENT_NODE, id, 0⟩ (.node t)
  | scalar {offset length : Nat} {payload : Bytes} (kind : ScalarKind)
      (h : cols.payloadAt offset length = some payload) :
      LeafView cols term rescope ⟨kind.code.toNat, offset, length⟩
        (.scalar kind (if kind = .bytes then rescope payload else payload))
  | integer {offset length : Nat} {payload : Bytes}
      (h : cols.payloadAt offset length = some payload)
      (hminimal : Columns.minimalInteger payload = true) :
      LeafView cols term rescope ⟨COMPONENT_INTEGER, offset, length⟩
        (.integer (fromLittleEndian payload))

theorem scalarKindOf_eq {kind : Nat} {k : ScalarKind} (h : Columns.scalarKindOf? kind = some k) :
    kind = k.code.toNat := by
  unfold Columns.scalarKindOf? at h
  split at h
  · cases h
    assumption
  · split at h
    · cases h
      assumption
    · split at h
      · cases h
        assumption
      · cases h

theorem leafPiece_some {cell : ComponentRow} {p : Piece}
    (h : cols.leafPiece term rescope cell = some p) : LeafView cols term rescope cell p := by
  obtain ⟨kind, value, length⟩ := cell
  unfold Columns.leafPiece at h
  dsimp only at h
  split at h
  · rename_i hkind
    split at h
    · rename_i hzero
      obtain ⟨rfl, rfl⟩ := hzero
      cases h
      exact hkind ▸ .none
    · cases h
  · split at h
    · rename_i hkind
      split at h
      · rename_i hzero
        obtain ⟨t, ht, rfl⟩ := Option.map_eq_some_iff.mp h
        subst hzero hkind
        exact .node ht
      · cases h
    · split at h
      · rename_i hkind
        subst hkind
        split at h
        · rename_i payload hpayload
          split at h
          · rename_i hminimal
            cases h
            exact .integer hpayload hminimal
          · cases h
        · cases h
      · split at h
        · rename_i k payload hk hpayload
          cases h
          rw [scalarKindOf_eq hk]
          exact .scalar k hpayload
        · cases h

/-- The components of a node. -/
inductive FieldView (cols : Columns) (term : Nat → Option Term) (rescope : Bytes → Bytes) :
    ComponentRow → Piece → Prop where
  | leaf {cell : ComponentRow} {p : Piece} (h : LeafView cols term rescope cell p) :
      FieldView cols term rescope cell p
  | set {start length : Nat} {items : List Term}
      (hinside : start ≤ cols.itemCount ∧ length ≤ cols.itemCount - start)
      (hitems : (List.range' start length).mapM (cols.memberTerm term) = some items) :
      FieldView cols term rescope ⟨COMPONENT_SET, start, length⟩ (.set items)
  | sequence {start length : Nat} {items : List Piece}
      (hinside : start ≤ cols.itemCount ∧ length ≤ cols.itemCount - start)
      (hitems : (List.range' start length).mapM (cols.itemPiece term) = some items) :
      FieldView cols term rescope ⟨COMPONENT_SEQUENCE, start, length⟩ (.sequence items)

theorem fieldPiece_some {p : Piece} (h : cols.fieldPiece term rescope index = some p) :
    ∃ cell, cols.cellAt index false = some cell ∧ FieldView cols term rescope cell p := by
  unfold Columns.fieldPiece at h
  split at h
  · cases h
  · rename_i cell hcell
    refine ⟨cell, hcell, ?_⟩
    obtain ⟨kind, value, length⟩ := cell
    dsimp only at h
    split at h
    · rename_i hkind
      split at h
      · rename_i hinside
        split at h
        · rename_i hset
          obtain ⟨items, hitems, rfl⟩ := Option.map_eq_some_iff.mp h
          subst hset
          exact .set hinside hitems
        · rename_i hset
          obtain ⟨items, hitems, rfl⟩ := Option.map_eq_some_iff.mp h
          obtain rfl := hkind.resolve_left hset
          exact .sequence hinside hitems
      · cases h
    · exact .leaf (leafPiece_some h)

theorem itemPiece_some {p : Piece} (h : cols.itemPiece term index = some p) :
    ∃ cell, cols.cellAt index true = some cell ∧ LeafView cols term id cell p := by
  unfold Columns.itemPiece at h
  split at h
  · rename_i cell hcell
    exact ⟨cell, hcell, leafPiece_some h⟩
  · cases h

theorem memberTerm_some {t : Term} (h : cols.memberTerm term index = some t) :
    ∃ id, cols.cellAt index true = some ⟨COMPONENT_NODE, id, 0⟩ ∧ term id = some t := by
  unfold Columns.memberTerm at h
  split at h
  · rename_i kind value length hcell
    split at h
    · rename_i hnode
      obtain ⟨rfl, rfl⟩ := hnode
      exact ⟨value, hcell, h⟩
    · cases h
  · cases h

/-- The rows of a node that stands for a term. -/
structure NodeView (cols : Columns) (scopeMap : Bytes → Option Bytes) (fuel id : Nat)
    (start stop tag : Nat) (fields : List Piece) : Prop where
  range : cols.rangeAt id = some (start, stop)
  tagged : cols.nodeTags[id - 1]? = some tag
  fields : List.Forall₂
    (fun index p => cols.fieldPiece (cols.termAt scopeMap fuel)
      (Columns.rescopeOf scopeMap tag start index) index = some p)
    (List.range' start (stop - start)) fields

theorem mapM_some {α β : Type} {f : α → Option β} {xs : List α} {ys : List β} :
    xs.mapM f = some ys ↔ List.Forall₂ (fun x y => f x = some y) xs ys := by
  induction xs generalizing ys with
  | nil =>
    simp only [List.mapM_nil, List.forall₂_nil_left_iff]
    exact ⟨fun h => (Option.some.inj h).symm, fun h => h ▸ rfl⟩
  | cons x xs ih =>
    simp only [List.mapM_cons, List.forall₂_cons_left_iff]
    constructor
    · intro h
      cases hx : f x with
      | none => simp [hx] at h
      | some y =>
        cases hxs : xs.mapM f with
        | none => simp [hx, hxs] at h
        | some zs =>
          simp only [hx, hxs, Option.bind_eq_bind, Option.bind_some, Option.pure_def,
            Option.some.injEq] at h
          exact ⟨y, zs, rfl, ih.mp hxs, h.symm⟩
    · rintro ⟨y, zs, hy, hzs, rfl⟩
      simp [hy, ih.mpr hzs]

theorem termAt_some {fuel id : Nat} {t : Term} (h : cols.termAt scopeMap fuel id = some t) :
    ∃ previous start stop tag fields, fuel = previous + 1 ∧ t = .mk tag fields ∧
      NodeView cols scopeMap previous id start stop tag fields := by
  cases fuel with
  | zero => cases h
  | succ fuel =>
    unfold Columns.termAt at h
    split at h
    · rename_i start stop tag hrange htag
      obtain ⟨fields, hfields, rfl⟩ := Option.map_eq_some_iff.mp h
      exact ⟨fuel, start, stop, tag, fields, rfl, rfl, hrange, htag, mapM_some.mp hfields⟩
    · cases h

theorem NodeView.termAt {fuel id start stop tag : Nat} {fields : List Piece}
    (h : NodeView cols scopeMap fuel id start stop tag fields) :
    cols.termAt scopeMap (fuel + 1) id = some (.mk tag fields) := by
  unfold Columns.termAt
  simp only [h.range, h.tagged, mapM_some.mpr h.fields, Option.map_some]

end Views

section Monotone
variable {cols : Columns} {scopeMap : Bytes → Option Bytes} {term more : Nat → Option Term}
  {rescope : Bytes → Bytes}

/-- One partial reading of the nodes extends another. -/
def Extends (term more : Nat → Option Term) : Prop :=
  ∀ id t, term id = some t → more id = some t

variable (hext : Extends term more)

include hext

theorem leafPiece_extends {cell : ComponentRow} {p : Piece}
    (h : cols.leafPiece term rescope cell = some p) :
    cols.leafPiece more rescope cell = some p := by
  unfold Columns.leafPiece at h ⊢
  split at h
  · rename_i hkind
    rw [if_pos hkind]
    exact h
  · rename_i hnone
    rw [if_neg hnone]
    split at h
    · rename_i hkind
      rw [if_pos hkind]
      split at h
      · rename_i hzero
        obtain ⟨t, ht, rfl⟩ := Option.map_eq_some_iff.mp h
        rw [if_pos hzero, hext _ _ ht]
        rfl
      · cases h
    · rename_i hnode
      rw [if_neg hnode]
      exact h

theorem memberTerm_extends {index : Nat} {t : Term} (h : cols.memberTerm term index = some t) :
    cols.memberTerm more index = some t := by
  obtain ⟨id, hcell, ht⟩ := memberTerm_some h
  unfold Columns.memberTerm
  simp only [hcell, and_self, if_true, hext _ _ ht]

theorem itemPiece_extends {index : Nat} {p : Piece} (h : cols.itemPiece term index = some p) :
    cols.itemPiece more index = some p := by
  unfold Columns.itemPiece at h ⊢
  split at h
  · exact leafPiece_extends hext h
  · cases h

theorem fieldPiece_extends {index : Nat} {p : Piece}
    (h : cols.fieldPiece term rescope index = some p) :
    cols.fieldPiece more rescope index = some p := by
  obtain ⟨cell, hcell, hview⟩ := fieldPiece_some h
  cases hview with
  | leaf hleaf =>
    unfold Columns.fieldPiece at h ⊢
    simp only [hcell] at h ⊢
    split at h
    · rename_i hkind
      cases hleaf with
      | none => simp [COMPONENT_NONE, COMPONENT_SET, COMPONENT_SEQUENCE] at hkind
      | node => simp [COMPONENT_NODE, COMPONENT_SET, COMPONENT_SEQUENCE] at hkind
      | scalar kind => cases kind <;> simp [ScalarKind.code, COMPONENT_SET, COMPONENT_SEQUENCE] at hkind
      | integer => simp [COMPONENT_INTEGER, COMPONENT_SET, COMPONENT_SEQUENCE] at hkind
    · rename_i hkind
      rw [if_neg hkind]
      exact leafPiece_extends hext h
  | set hinside hitems =>
    have hmore := mapM_some.mpr ((mapM_some.mp hitems).imp fun _ _ => memberTerm_extends hext)
    simp [Columns.fieldPiece, hcell, hinside, hmore]
  | sequence hinside hitems =>
    have hmore := mapM_some.mpr ((mapM_some.mp hitems).imp fun _ _ => itemPiece_extends hext)
    simp [Columns.fieldPiece, hcell, hinside, hmore, COMPONENT_SET, COMPONENT_SEQUENCE]

end Monotone

section Stands
variable {cols : Columns} {scopeMap : Bytes → Option Bytes}

theorem termAt_extends (fuel : Nat) :
    Extends (cols.termAt scopeMap fuel) (cols.termAt scopeMap (fuel + 1)) := by
  induction fuel with
  | zero =>
    intro id t h
    cases h
  | succ fuel ih =>
    intro id t h
    obtain ⟨previous, start, stop, tag, fields, hfuel, rfl, hview⟩ := termAt_some h
    obtain rfl := Nat.succ.inj hfuel
    exact NodeView.termAt
      ⟨hview.range, hview.tagged, hview.fields.imp fun _ _ => fieldPiece_extends ih⟩

theorem termAt_more {fuel more : Nat} (hle : fuel ≤ more) :
    Extends (cols.termAt scopeMap fuel) (cols.termAt scopeMap more) := by
  induction hle with
  | refl => exact fun _ _ h => h
  | step _ ih => exact fun id t h => termAt_extends _ id t (ih id t h)

/-- A node stands for at most one term. -/
theorem Columns.Stands.unique {id : Nat} {s t : Term} (hs : cols.Stands scopeMap id s)
    (ht : cols.Stands scopeMap id t) : s = t := by
  obtain ⟨f, hs⟩ := hs
  obtain ⟨g, ht⟩ := ht
  have hs' := termAt_more (Nat.le_max_left f g) _ _ hs
  have ht' := termAt_more (Nat.le_max_right f g) _ _ ht
  exact Option.some.inj (hs'.symm.trans ht')

end Stands

end Projector.Encoded
