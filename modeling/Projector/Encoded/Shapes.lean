import Projector.Encoded.Preflight
import Projector.Encoded.Table

namespace Projector.Encoded
open Lib Projector.Core Compiler

/-- A table whose every row passes the inspection. -/
structure Preflighted (cols : Columns) (nodes : List Node) : Prop extends
    EncodesNodes cols nodes where
  inspected : ∀ id v, Holds nodes id v → cols.inspectNode id = .ok none

/-- The arity of a value was checked, and its fields start at `start`. -/
structure Opened (cols : Columns) (nodes : List Node) (id : Nat) (v : Node) (arity start : Nat) :
    Prop where
  read : cols.exactFields id arity = .ok start
  length : v.fields.length = arity
  cell : ∀ i < arity, FieldCell cols nodes (start + i) (v.field i)

section Opening
variable {cols : Columns} {nodes : List Node} (table : EncodesNodes cols nodes)
  {id arity start minimum : Nat} {v : Node}

include table in
theorem opened (h : Holds nodes id v)
    (hr : cols.exactFields id arity = .ok start) : Opened cols nodes id v arity start := by
  obtain ⟨hlen, hfields⟩ := exactFields_ok table h hr
  refine ⟨hr, hlen, ?_⟩
  intro i hi
  apply hfields i
  unfold Node.field
  rw [List.getD_eq_getElem?_getD, List.getElem?_eq_getElem (by omega)]
  rfl

theorem child_of_field {w : Node} {i : Nat} (h : v.field i = .node w) : v.child i = w := by
  simp [Node.child, h]

theorem items_of_field {ws : List Node} {i : Nat} (h : v.field i = .set ws) : v.items i = ws := by
  simp [Node.items, h]

include table in
theorem Opened.node (ho : Opened cols nodes id v arity start) (i : Nat) (hi : i < arity) {j : Nat}
    (hr : cols.fieldNode (start + i) = .ok j) :
    v.field i = .node (v.child i) ∧ Holds nodes j (v.child i) := by
  obtain ⟨w, hw, hj⟩ := fieldNode_ok table (ho.cell i hi) hr
  rw [child_of_field hw]
  exact ⟨hw, hj⟩

include table in
theorem Opened.set (ho : Opened cols nodes id v arity start) (i : Nat) (hi : i < arity)
    {ids : List Nat} (hr : cols.nodeSet (start + i) minimum = .ok ids) :
    v.field i = .set (v.items i) ∧ minimum ≤ (v.items i).length ∧
      List.Forall₂ (Holds nodes) ids (v.items i) ∧
      StrictOn Node.canonicalBytes (v.items i) := by
  obtain ⟨ws, hw, hmin, hids, hsorted⟩ := nodeSet_ok table (ho.cell i hi) hr
  rw [items_of_field hw]
  exact ⟨hw, hmin, hids, hsorted⟩

theorem Opened.text (ho : Opened cols nodes id v arity start) (i : Nat) (hi : i < arity)
    {maximum : Nat} {exceeds notUtf8 text : String}
    (hr : cols.boundedText (start + i) maximum exceeds notUtf8 = .ok text) :
    v.text i = text := by
  have hc := boundedText_ok (ho.cell i hi) hr
  simp [Node.text, hc]

end Opening

section Values
variable {cols : Columns} {nodes : List Node} (pre : Preflighted cols nodes) {id : Nat} {v : Node}

include pre in
theorem inspected_as (h : Holds nodes id v) {c : Constructor} (hc : v.constructor = c) :
    cols.inspectConstructor id c = .ok none := by
  have hi := pre.inspected id v h
  unfold Columns.inspectNode at hi
  rw [ok_bind _ (nodeTag_eq pre.toEncodesNodes h), Constructor.ofTag_tag, hc] at hi
  exact hi

theorem isOf_iff {c : Constructor} : v.isOf c = true ↔ v.constructor = c := by
  simp [Node.isOf]

include pre in
theorem iriText_eq (h : Holds nodes id v) (hc : v.constructor = .iri) :
    cols.iriText id = .ok (v.text 0) := by
  obtain ⟨text, htext, -⟩ := bind_ok (inspected_as pre h hc)
  rw [htext]
  obtain ⟨_, -, hr⟩ := bind_ok htext
  obtain ⟨_, -, hr⟩ := bind_ok hr
  obtain ⟨start, hstart, hr⟩ := bind_ok hr
  have ho := opened pre.toEncodesNodes h hstart
  rw [ho.text 0 (by omega) hr]

theorem entityKindOf?_text (kind : EntityKind) :
    Columns.entityKindOf? (utf8 kind.text) = some kind := by
  cases kind <;> decide +kernel

include pre in
/-- An entity is read as its kind and its IRI. -/
theorem entity_eq (h : Holds nodes id v) (hc : v.constructor = .entity) :
    ∃ kind iri, cols.entity id = .ok (kind, iri) ∧ v.entityKind? = some kind ∧
      Holds nodes iri (v.child 1) ∧ (v.child 1).constructor = .iri ∧
      v.fields = [.enum kind, .node (v.child 1)] := by
  obtain ⟨⟨kind, iri⟩, hentity, -⟩ := bind_ok (inspected_as pre h hc)
  refine ⟨kind, iri, hentity, ?_⟩
  obtain ⟨_, -, hr⟩ := bind_ok hentity
  obtain ⟨_, -, hr⟩ := bind_ok hr
  obtain ⟨start, hstart, hr⟩ := bind_ok hr
  have ho := opened pre.toEncodesNodes h hstart
  obtain ⟨payload, hpayload, hr⟩ := bind_ok hr
  obtain ⟨kind', hk, rfl⟩ := enumField_ok (ho.cell 0 (by omega)) hpayload
  rw [entityKindOf?_text] at hr
  obtain ⟨iri', hiri, hr⟩ := bind_ok hr
  obtain ⟨hfield, hchild⟩ := ho.node pre.toEncodesNodes 1 (by omega) hiri
  obtain ⟨isIri, htag, hr⟩ := bind_ok hr
  obtain ⟨_, hdemand, hr⟩ := bind_ok hr
  cases hr
  rw [tagIs_eq pre.toEncodesNodes hchild] at htag
  cases htag
  refine ⟨?_, hchild, isOf_iff.mp (demand_ok hdemand), ?_⟩
  · simp [Node.entityKind?, hc, hk]
  · obtain ⟨a, b, hab⟩ := List.length_eq_two.mp ho.length
    simp only [Node.field, hab] at hk hfield
    simp only [hab]
    rw [← hk, ← hfield]
    rfl

theorem isEntity_constructor {kind : EntityKind} (h : v.isEntity kind = true) :
    v.constructor = .entity := by
  simp only [Node.isEntity, beq_iff_eq, Node.entityKind?] at h
  split at h
  · assumption
  · cases h

include pre in
theorem namedIri_eq (h : Holds nodes id v) (kind : EntityKind) :
    cols.namedIri kind id = .ok (if v.isEntity kind then some v.entityIri else none) := by
  unfold Columns.namedIri
  rw [ok_bind _ (tagIs_eq pre.toEncodesNodes h .entity)]
  by_cases hc : v.constructor = .entity
  · obtain ⟨actual, iri, hentity, hkind, hiri, hsort, -⟩ := entity_eq pre h hc
    have hv : v.isEntity kind = decide (actual = kind) := by
      rw [Bool.eq_iff_iff]
      simp [Node.isEntity, hkind]
    have hof : v.isOf .entity = true := isOf_iff.mpr hc
    simp only [hof, Bool.not_true, Bool.false_eq_true, if_false, hv, decide_eq_true_eq]
    rw [ok_bind _ hentity]
    simp only
    split
    · rw [iriText_eq pre hiri hsort]
      rfl
    · rfl
  · have hof : v.isOf .entity = false := by simp [Node.isOf, hc]
    have hv : v.isEntity kind = false := by
      by_contra hne
      exact hc (isEntity_constructor (Bool.not_eq_false _ ▸ hne))
    simp only [hof, hv, Bool.not_false, if_true]
    rfl

include pre in
theorem isNamed_eq (h : Holds nodes id v) (kind : EntityKind) :
    cols.isNamed kind id = .ok (v.isEntity kind) := by
  unfold Columns.isNamed
  rw [ok_bind _ (tagIs_eq pre.toEncodesNodes h .entity)]
  by_cases hc : v.constructor = .entity
  · obtain ⟨actual, iri, hentity, hkind, -⟩ := entity_eq pre h hc
    have hof : v.isOf .entity = true := isOf_iff.mpr hc
    simp only [hof, Bool.not_true, Bool.false_eq_true, if_false]
    rw [ok_bind _ hentity]
    simp only [Node.isEntity, hkind, Option.some_beq_some]
    rfl
  · have hof : v.isOf .entity = false := by simp [Node.isOf, hc]
    have hv : v.isEntity kind = false := by
      by_contra hne
      exact hc (isEntity_constructor (Bool.not_eq_false _ ▸ hne))
    simp only [hof, hv, Bool.not_false, if_true]
    rfl

include pre in
theorem isNamedOr_eq (h : Holds nodes id v) (kind : EntityKind) (cs : List Constructor) :
    cols.isNamedOr kind cs id = .ok (v.isEntity kind || cs.contains v.constructor) := by
  unfold Columns.isNamedOr
  rw [ok_bind _ (isNamed_eq pre h kind)]
  cases v.isEntity kind with
  | true => rfl
  | false =>
    simp only [Bool.false_eq_true, if_false, Bool.false_or]
    exact tagIn_eq pre.toEncodesNodes h cs

include pre in
theorem isTagOrIndividual_eq (h : Holds nodes id v) (cs : List Constructor) :
    cols.isTagOrIndividual cs id =
      .ok (cs.contains v.constructor || v.isEntity .namedIndividual) := by
  unfold Columns.isTagOrIndividual
  rw [ok_bind _ (tagIn_eq pre.toEncodesNodes h cs)]
  cases cs.contains v.constructor with
  | true => rfl
  | false =>
    simp only [Bool.false_eq_true, if_false, Bool.false_or]
    exact isNamed_eq pre h .namedIndividual

include pre in
/-- The inverse of a property is the inverse of a named one. -/
theorem inverse_shape (h : Holds nodes id v) (hc : v.constructor = .objectInverseOf) :
    ∃ start property, Opened cols nodes id v 1 start ∧ cols.fieldNode start = .ok property ∧
      v.field 0 = .node (v.child 0) ∧ Holds nodes property (v.child 0) ∧
      (v.child 0).isEntity .objectProperty = true := by
  obtain ⟨start, hstart, hr⟩ := bind_ok (inspected_as pre h hc)
  have ho := opened pre.toEncodesNodes h hstart
  obtain ⟨_, hdemand, -⟩ := bind_ok hr
  obtain ⟨property, hproperty, hr⟩ := bind_ok hdemand
  obtain ⟨hfield, hchild⟩ := ho.node pre.toEncodesNodes 0 (by omega) hproperty
  obtain ⟨named, hnamed, hr⟩ := bind_ok hr
  have htest : named = (v.child 0).isEntity .objectProperty :=
    Except.ok.inj (hnamed.symm.trans (isNamed_eq pre hchild .objectProperty))
  exact ⟨start, property, ho, hproperty, hfield, hchild, htest ▸ demand_ok hr⟩

/-- The named property under a property expression and the hash of the expression. -/
def propertyParts? (v : Node) : Option (String × Int) :=
  if v.isEntity .objectProperty then some (v.entityIri, combine 4153 [owlapiIriHash v.entityIri])
  else if v.isOf .objectInverseOf then
    some ((v.child 0).entityIri, combine 4241 [combine 4153 [owlapiIriHash (v.child 0).entityIri]])
  else none

theorem propertyParts?_fst (v : Node) : (propertyParts? v).map Prod.fst = namedProperty? v := by
  unfold propertyParts? namedProperty?
  split
  · rfl
  · split <;> rfl

include pre in
theorem projectedObjectPropertyParts_eq (h : Holds nodes id v) :
    cols.projectedObjectPropertyParts id = .ok (propertyParts? v) := by
  unfold Columns.projectedObjectPropertyParts Columns.namedObjectPropertyIri propertyParts?
  rw [ok_bind _ (namedIri_eq pre h .objectProperty)]
  by_cases hn : v.isEntity .objectProperty = true
  · simp only [hn, if_true]
    rfl
  · simp only [hn, if_false, Bool.false_eq_true]
    rw [ok_bind _ (tagIs_eq pre.toEncodesNodes h .objectInverseOf)]
    by_cases hi : v.isOf .objectInverseOf = true
    · obtain ⟨start, property, ho, hproperty, -, hchild, hobject⟩ :=
        inverse_shape pre h (isOf_iff.mp hi)
      simp only [hi, Bool.not_true, Bool.false_eq_true, if_false, if_true]
      rw [ok_bind _ ho.read, ok_bind _ hproperty, ok_bind _ (namedIri_eq pre hchild _)]
      simp only [hobject, if_true]
      rfl
    · simp only [hi, Bool.not_false, if_true, if_false, Bool.false_eq_true]
      rfl

include pre in
theorem projectedObjectPropertyIri_eq (h : Holds nodes id v) :
    cols.projectedObjectPropertyIri id = .ok (namedProperty? v) := by
  unfold Columns.projectedObjectPropertyIri
  rw [ok_bind _ (projectedObjectPropertyParts_eq pre h), propertyParts?_fst]
  rfl

include pre in
theorem isSupportedObjectPropertyExpression_eq (h : Holds nodes id v) :
    cols.isSupportedObjectPropertyExpression id = .ok (namedProperty? v).isSome := by
  unfold Columns.isSupportedObjectPropertyExpression
  rw [ok_bind _ (projectedObjectPropertyIri_eq pre h)]
  rfl

theorem entity_hash {kind : EntityKind} (h : v.isEntity kind = true)
    (hclass : kind ≠ .classEntity) (hobject : kind ≠ .objectProperty) :
    owlapiHash v = some (owlapiIriHash v.entityIri) := by
  have hc := isEntity_constructor h
  simp only [Node.isEntity, beq_iff_eq] at h
  rw [owlapiHash_eq]
  unfold hashFrom
  rw [hc]
  simp only [h]
  cases kind <;> simp_all

theorem objectProperty_hash (h : v.isEntity .objectProperty = true) :
    owlapiHash v = some (combine 4153 [owlapiIriHash v.entityIri]) := by
  have hc := isEntity_constructor h
  simp only [Node.isEntity, beq_iff_eq] at h
  rw [owlapiHash_eq]
  unfold hashFrom
  rw [hc]
  simp only [h]

include pre in
/-- The hash of the scalar compiler is the one that was combined from the columns. -/
theorem propertyParts?_hash (h : Holds nodes id v) {iri : String} {hash : Int}
    (hp : propertyParts? v = some (iri, hash)) : owlapiHash v = some hash := by
  unfold propertyParts? at hp
  split at hp
  · rename_i hn
    cases hp
    exact objectProperty_hash hn
  · split at hp
    · rename_i hi
      cases hp
      have hc := isOf_iff.mp hi
      obtain ⟨-, -, -, -, hfield, -, hobject⟩ := inverse_shape pre h hc
      rw [owlapiHash_eq]
      unfold hashFrom
      rw [hc]
      simp only [hfield, fieldHash, objectProperty_hash hobject]
      rfl
    · cases hp

end Values

end Projector.Encoded
