import Projector.Encoded.Shapes

namespace Projector.Encoded
open Lib Projector.Core Compiler

variable {cols : Columns} {nodes : List Node} (pre : Preflighted cols nodes) {id : Nat} {v : Node}

section Tests

include pre in
theorem demandField_ok {arity start i : Nat} (ho : Opened cols nodes id v arity start)
    (hi : i < arity) {test : Nat → Read Bool} {message : String} {a : Unit}
    (hr : cols.demandField (start + i) test message = .ok a) :
    ∃ j, cols.fieldNode (start + i) = .ok j ∧ v.field i = .node (v.child i) ∧
      Holds nodes j (v.child i) ∧ test j = .ok true := by
  obtain ⟨j, hj, hr⟩ := bind_ok hr
  obtain ⟨hfield, hchild⟩ := ho.node pre.toEncodesNodes i hi hj
  obtain ⟨ok, htest, hr⟩ := bind_ok hr
  exact ⟨j, hj, hfield, hchild, demand_ok hr ▸ htest⟩

theorem demandAll_ok {test : Nat → Read Bool} {message : String} {ids : List Nat} {a : Unit}
    (h : Columns.demandAll test message ids = .ok a) : ∀ i ∈ ids, test i = .ok true := by
  induction ids with
  | nil => simp
  | cons j rest ih =>
    obtain ⟨ok, htest, h⟩ := bind_ok h
    obtain ⟨_, hd, h⟩ := bind_ok h
    intro i hi
    cases List.mem_cons.mp hi with
    | inl he => exact he ▸ demand_ok hd ▸ htest
    | inr hr => exact ih h i hr

theorem allPass_ok {test : Nat → Read Bool} {ids : List Nat}
    (h : Columns.allPass test ids = .ok true) : ∀ i ∈ ids, test i = .ok true := by
  induction ids with
  | nil => simp
  | cons j rest ih =>
    obtain ⟨ok, htest, h⟩ := bind_ok h
    obtain ⟨others, hrest, h⟩ := bind_ok h
    have hboth := Except.ok.inj h
    simp only [Bool.and_eq_true] at hboth
    obtain ⟨rfl, rfl⟩ := hboth
    intro i hi
    cases List.mem_cons.mp hi with
    | inl he => exact he ▸ htest
    | inr hr => exact ih hrest i hr

theorem fallbackUnless_none {c : Bool} {reason : String}
    (h : (pure (fallbackUnless c reason) : Inspection) = .ok none) : c = true := by
  cases c with
  | true => rfl
  | false => cases h

/-- What holds of the identifiers of some nodes holds of the nodes. -/
theorem forall_of_ids {ids : List Nat} {vs : List Node} (h : List.Forall₂ (Holds nodes) ids vs)
    {p : Node → Prop} (hp : ∀ i ∈ ids, ∀ w, Holds nodes i w → p w) : ∀ w ∈ vs, p w := by
  induction h with
  | nil => simp
  | @cons i w ids vs hw _ ih =>
    intro x hx
    cases List.mem_cons.mp hx with
    | inl he => exact he ▸ hp i List.mem_cons_self w hw
    | inr hr => exact ih (fun j hj => hp j (List.mem_cons_of_mem i hj)) x hr

end Tests

section Literals

include pre in
theorem literalParts_eq (h : Holds nodes id v) (hc : v.constructor = .literal) :
    cols.literalParts id = .ok (v.text 0, (v.child 1).entityIri) := by
  obtain ⟨⟨lexical, datatype⟩, hparts, -⟩ := bind_ok (inspected_as pre h hc)
  rw [hparts]
  obtain ⟨_, -, hr⟩ := bind_ok hparts
  obtain ⟨_, -, hr⟩ := bind_ok hr
  obtain ⟨start, hstart, hr⟩ := bind_ok hr
  have ho := opened pre.toEncodesNodes h hstart
  obtain ⟨text, htext, hr⟩ := bind_ok hr
  have hlexical := ho.text 0 (by omega) htext
  obtain ⟨j, hj, hr⟩ := bind_ok hr
  obtain ⟨-, hchild⟩ := ho.node pre.toEncodesNodes 1 (by omega) hj
  obtain ⟨named, hnamed, hr⟩ := bind_ok hr
  rw [Columns.namedDatatypeIri, namedIri_eq pre hchild] at hnamed
  cases hnamed
  cases hd : (v.child 1).isEntity .datatype with
  | false =>
    simp only [hd, Bool.false_eq_true, if_false] at hr
    cases hr
  | true =>
    simp only [hd, if_true] at hr
    have hresult : lexical = text ∧ datatype = (v.child 1).entityIri := by
      obtain ⟨kind, -, hr⟩ := bind_ok hr
      split at hr
      · obtain ⟨_, -, hr⟩ := bind_ok hr
        obtain ⟨_, -, hr⟩ := bind_ok hr
        obtain ⟨_, -, hr⟩ := bind_ok hr
        cases hr
        exact ⟨rfl, rfl⟩
      · split at hr
        · obtain ⟨_, -, hr⟩ := bind_ok hr
          obtain ⟨_, -, hr⟩ := bind_ok hr
          cases hr
          exact ⟨rfl, rfl⟩
        · cases hr
    obtain ⟨rfl, rfl⟩ := hresult
    rw [hlexical]

end Literals

section Annotations

theorem demandAll_pass {test : Nat → Read Bool} {message : String} {ids : List Nat}
    (h : ∀ i ∈ ids, test i = .ok true) : Columns.demandAll test message ids = .ok () := by
  induction ids with
  | nil => rfl
  | cons j rest ih =>
    unfold Columns.demandAll
    rw [ok_bind _ (h j List.mem_cons_self), demand_true, ok_bind _ rfl]
    exact ih (fun i hi => h i (List.mem_cons_of_mem j hi))

include pre in
/-- An annotation set field that was read: its members are annotations. -/
theorem annotationSet_ok {arity start i : Nat} (ho : Opened cols nodes id v arity start)
    (hi : i < arity) {ids : List Nat} (hr : cols.annotationSet (start + i) = .ok ids) :
    v.field i = .set (v.items i) ∧ List.Forall₂ (Holds nodes) ids (v.items i) ∧
      ∀ w ∈ v.items i, w.constructor = .annotationTerm := by
  obtain ⟨ids', hset, hr⟩ := bind_ok hr
  obtain ⟨_, hall, hr⟩ := bind_ok hr
  cases hr
  obtain ⟨hfield, -, hids, -⟩ := ho.set pre.toEncodesNodes i hi hset
  refine ⟨hfield, hids, forall_of_ids hids ?_⟩
  intro j hj w hw
  have htag := demandAll_ok hall j hj
  rw [tagIs_eq pre.toEncodesNodes hw] at htag
  exact isOf_iff.mp (Except.ok.inj htag)

/-- The parts of an annotation, as the table holds them. -/
structure AnnotationShape (cols : Columns) (nodes : List Node) (id : Nat) (v : Node)
    (start property value : Nat) (ids : List Nat) : Prop where
  opened : Opened cols nodes id v 3 start
  readProperty : cols.fieldNode start = .ok property
  propertyField : v.field 0 = .node (v.child 0)
  holdsProperty : Holds nodes property (v.child 0)
  named : (v.child 0).isEntity .annotationProperty = true
  readValue : cols.fieldNode (start + 1) = .ok value
  valueField : v.field 1 = .node (v.child 1)
  holdsValue : Holds nodes value (v.child 1)
  valueTag : Columns.annotationValueTags.contains (v.child 1).constructor = true
  nested : cols.annotationSet (start + 2) = .ok ids
  nestedField : v.field 2 = .set (v.items 2)

include pre in
theorem annotation_shape (h : Holds nodes id v) (hc : v.constructor = .annotationTerm) :
    ∃ start property value ids, AnnotationShape cols nodes id v start property value ids := by
  obtain ⟨start, hstart, hr⟩ := bind_ok (inspected_as pre h hc)
  have ho := opened pre.toEncodesNodes h hstart
  obtain ⟨_, hproperty, hr⟩ := bind_ok hr
  obtain ⟨property, hp, hpfield, hpholds, hnamed⟩ :=
    demandField_ok pre ho (i := 0) (by omega) hproperty
  rw [Columns.isNamedAnnotationProperty, isNamed_eq pre hpholds] at hnamed
  obtain ⟨_, hvalue, hr⟩ := bind_ok hr
  obtain ⟨value, hv, hvfield, hvholds, htag⟩ := demandField_ok pre ho (i := 1) (by omega) hvalue
  rw [tagIn_eq pre.toEncodesNodes hvholds] at htag
  obtain ⟨ids, hids, -⟩ := bind_ok hr
  obtain ⟨hnfield, -, -⟩ := annotationSet_ok pre ho (i := 2) (by omega) hids
  exact ⟨start, property, value, ids, ho, hp, hpfield, hpholds, Except.ok.inj hnamed, hv, hvfield,
    hvholds, Except.ok.inj htag, hids, hnfield⟩

/-- A hash as the encoded compiler reads it: a key that is not UTF-8 raises. -/
def readHash (hash : Option Int) : Read Int :=
  match hash with
  | some hash => .ok hash
  | none => .error .unicodeEncode

include pre in
theorem anonymous_shape (h : Holds nodes id v) (hc : v.constructor = .anonymousIndividual) :
    ∃ start, Opened cols nodes id v 2 start ∧
      cols.scalarPayload start COMPONENT_BYTES = .ok (v.payload 0) ∧
      cols.scalarPayload (start + 1) COMPONENT_BYTES = .ok (v.payload 1) ∧
      v.fields = [.bytes (v.payload 0), .bytes (v.payload 1)] := by
  obtain ⟨start, hstart, hr⟩ := bind_ok (inspected_as pre h hc)
  have ho := opened pre.toEncodesNodes h hstart
  obtain ⟨scope, hscope, hr⟩ := bind_ok hr
  obtain ⟨key, hkey, -⟩ := bind_ok hr
  have hsfield := bytesField_ok (ho.cell 0 (by omega)) hscope
  have hkfield := bytesField_ok (ho.cell 1 (by omega)) hkey
  have hs : v.payload 0 = scope := by simp [Node.payload, hsfield]
  have hk : v.payload 1 = key := by simp [Node.payload, hkfield]
  rw [hs, hk]
  refine ⟨start, ho, hscope, hkey, ?_⟩
  obtain ⟨a, b, hab⟩ := List.length_eq_two.mp ho.length
  simp only [Node.field, hab] at hsfield hkfield
  rw [hab, ← hsfield, ← hkfield]
  rfl

include pre in
theorem annotationValueHash_eq (h : Holds nodes id v)
    (hc : Columns.annotationValueTags.contains v.constructor = true) :
    cols.annotationValueHash id = readHash (owlapiHash v) := by
  simp only [Columns.annotationValueTags, List.contains_iff_mem, List.mem_cons,
    List.not_mem_nil, or_false] at hc
  unfold Columns.annotationValueHash
  rw [ok_bind _ (nodeTag_eq pre.toEncodesNodes h), owlapiHash_eq]
  unfold hashFrom
  rcases hc with hc | hc | hc
  · simp only [hc, if_true]
    rw [ok_bind _ (iriText_eq pre h hc)]
    rfl
  · obtain ⟨start, ho, -, hkey, -⟩ := anonymous_shape pre h hc
    simp only [hc, Constructor.tag]
    simp only [Nat.reduceEqDiff, if_false, if_true]
    rw [ok_bind _ ho.read, ok_bind _ hkey]
    cases fromUtf8? (v.payload 1) <;> rfl
  · simp only [hc, Constructor.tag]
    simp only [Nat.reduceEqDiff, if_false, if_true]
    rw [ok_bind _ (literalParts_eq pre h hc)]
    rfl

include pre in
theorem annotationHash_eq (h : Holds nodes id v) (hc : v.constructor = .annotationTerm) :
    cols.annotationHash id = readHash (owlapiHash v) := by
  obtain ⟨start, property, value, ids, shape⟩ := annotation_shape pre h hc
  have hof : v.isOf .annotationTerm = true := isOf_iff.mpr hc
  unfold Columns.annotationHash
  rw [ok_bind _ (tagIs_eq pre.toEncodesNodes h _), hof, demand_true, ok_bind _ rfl,
    ok_bind _ shape.opened.read, ok_bind _ shape.readProperty, Columns.namedAnnotationPropertyIri,
    ok_bind _ (namedIri_eq pre shape.holdsProperty _)]
  simp only [shape.named, if_true]
  rw [ok_bind _ shape.readValue, annotationValueHash_eq pre shape.holdsValue shape.valueTag,
    owlapiHash_eq v]
  have hproperty := entity_hash shape.named (by decide) (by decide)
  unfold hashFrom
  simp only [hc, shape.propertyField, shape.valueField, fieldHash, hproperty]
  cases owlapiHash (v.child 1) with
  | none => rfl
  | some hash =>
    simp only [readHash]
    rw [ok_bind _ rfl, ok_bind _ shape.nested]
    rfl

include pre in
theorem annotationHashFrom_eq {ids : List Nat} {vs : List Node}
    (h : List.Forall₂ (Holds nodes) ids vs) (hall : ∀ w ∈ vs, w.constructor = .annotationTerm)
    (result : Int) : cols.annotationHashFrom result ids = readHash (setHashFrom result vs) := by
  induction h generalizing result with
  | nil => rfl
  | @cons i w ids vs hw _ ih =>
    unfold Columns.annotationHashFrom setHashFrom
    rw [annotationHash_eq pre hw (hall w List.mem_cons_self)]
    cases owlapiHash w with
    | none => rfl
    | some hash => exact ih (fun x hx => hall x (List.mem_cons_of_mem w hx)) _

include pre in
/-- The hash of the annotations of an axiom is that of the scalar compiler. -/
theorem annotationSetHash_eq {arity start i : Nat} (ho : Opened cols nodes id v arity start)
    (hi : i < arity) {ids : List Nat} (hr : cols.annotationSet (start + i) = .ok ids) :
    cols.annotationSetHash (start + i) = readHash (fieldHash (v.field i)) := by
  obtain ⟨hfield, hids, hall⟩ := annotationSet_ok pre ho hi hr
  unfold Columns.annotationSetHash
  rw [ok_bind _ hr, annotationHashFrom_eq pre hids hall, hfield]
  rfl

end Annotations

end Projector.Encoded
