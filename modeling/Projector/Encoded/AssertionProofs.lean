import Projector.Encoded.ReachedNames

namespace Projector.Encoded
open Lib Projector.Core Compiler

/-- Generated identifiers by node and by value that agree on the individuals of some values. -/
def SameNames (nodes : List Node) (anonymousIds : Columns.AnonymousIds)
    (blankIds : Dict Node String) (values : List Node) : Prop :=
  ∀ j w, Holds nodes j w → w ∈ values.flatMap Node.anonymousValues →
    ∃ s, anonymousIds.lookup j = some s ∧ blankIds.lookup w = some s

/-- The name of an individual under generated identifiers. -/
def individualName (blankIds : Dict Node String) (v : Node) : String :=
  if v.isEntity .namedIndividual then v.entityIri else blankIds.getOr v (coreBlankId v)

section Classes
variable {cols : Columns} {nodes : List Node} (pre : Preflighted cols nodes) {id : Nat} {v : Node}
include pre

/-- The parts of a class assertion, when both are named. -/
def classAssertionParts? (v : Node) : Option (String × String) :=
  if (v.child 1).isEntity .namedIndividual && (v.child 0).isEntity .classEntity then
    some ((v.child 1).entityIri, (v.child 0).entityIri)
  else none

theorem classAssertionIris_eq (h : Holds nodes id v) (hc : v.constructor = .classAssertion) :
    cols.classAssertionIris id = .ok (classAssertionParts? v) := by
  have table := pre.toEncodesNodes
  obtain ⟨start, hstart, hr⟩ := bind_ok (inspected_as pre h hc)
  have ho := opened table h hstart
  obtain ⟨expression, hexpression, hr⟩ := bind_ok hr
  obtain ⟨-, hclass⟩ := ho.node table 0 (by omega) hexpression
  obtain ⟨_, -, hr⟩ := bind_ok hr
  obtain ⟨individual, hindividual, -⟩ := bind_ok hr
  obtain ⟨-, hnamed⟩ := ho.node table 1 (by omega) hindividual
  unfold Columns.classAssertionIris Columns.namedClassIri Columns.namedIndividualIri
  rw [ok_bind _ (tagIs_eq table h _), isOf_iff.mpr hc, demand_true, ok_bind _ rfl,
    ok_bind _ hstart, ok_bind _ hexpression, ok_bind _ (namedIri_eq pre hclass _),
    ok_bind _ hindividual, ok_bind _ (namedIri_eq pre hnamed _)]
  unfold classAssertionParts?
  cases (v.child 0).isEntity .classEntity <;> cases (v.child 1).isEntity .namedIndividual <;> rfl

/-- The property of a domain or range axiom is named or the inverse of a named one. -/
theorem propertyClassIris_eq {c : Constructor} (h : Holds nodes id v) (hc : v.constructor = c)
    (hdomain : c = .objectPropertyDomain ∨ c = .objectPropertyRange) :
    cols.propertyClassIris c id = .ok (namedParts? v) := by
  have table := pre.toEncodesNodes
  have hinspected : cols.inspectDomainRange id = .ok none := by
    rcases hdomain with rfl | rfl <;> exact inspected_as pre h hc
  obtain ⟨start, hstart, hr⟩ := bind_ok hinspected
  have ho := opened table h hstart
  obtain ⟨property, hproperty, hr⟩ := bind_ok hr
  obtain ⟨-, hpholds⟩ := ho.node table 0 (by omega) hproperty
  rw [ok_bind _ (isSupportedObjectPropertyExpression_eq pre hpholds)] at hr
  obtain ⟨classId, hclassId, hr⟩ := bind_ok hr
  obtain ⟨-, hcholds⟩ := ho.node table 1 (by omega) hclassId
  obtain ⟨_, -, hr⟩ := bind_ok hr
  obtain ⟨_, -, hr⟩ := bind_ok hr
  have hsupported : (namedProperty? (v.child 0)).isSome = true :=
    (Bool.and_eq_true_iff.mp (fallbackUnless_none hr)).1
  unfold Columns.propertyClassIris Columns.namedObjectPropertyIri Columns.namedClassIri
  rw [ok_bind _ (tagIs_eq table h _), isOf_iff.mpr hc, demand_true, ok_bind _ rfl,
    ok_bind _ hstart, ok_bind _ hproperty, ok_bind _ (namedIri_eq pre hpholds _),
    ok_bind _ hclassId, ok_bind _ (namedIri_eq pre hcholds _),
    ok_bind _ (tagIs_eq table hpholds _)]
  unfold namedParts?
  cases hnamed : (v.child 0).isEntity .objectProperty with
  | true => cases (v.child 1).isEntity .classEntity <;> rfl
  | false =>
    have hinverse : (v.child 0).isOf .objectInverseOf = true := by
      simp only [namedProperty?, hnamed, Bool.false_eq_true, if_false] at hsupported
      split at hsupported
      · assumption
      · cases hsupported
    rw [hinverse]
    rfl

end Classes

section Individuals
variable {cols : Columns} {nodes : List Node} (pre : Preflighted cols nodes) {id : Nat} {v : Node}
  {anonymousIds : Columns.AnonymousIds} {blankIds : Dict Node String} {values : List Node}
  (names : SameNames nodes anonymousIds blankIds values)
include pre

/-- An individual under a field of a value is listed with the value. -/
theorem listed_of_field {w : Node} {i : Nat} (h : Holds nodes id v) (hv : v ∈ values)
    (hfield : v.field i = .node w) (hc : w.constructor = .anonymousIndividual) :
    w ∈ values.flatMap Node.anonymousValues :=
  List.mem_flatMap.mpr
    ⟨v, hv, (mem_anonymousValues_iff pre h).mpr ⟨.single ⟨i, .inl hfield⟩, hc⟩⟩

include names

omit pre in
theorem generatedId_eq (h : Holds nodes id v) (hlisted : v ∈ values.flatMap Node.anonymousValues) :
    anonymousIds.lookup id = some (blankIds.getOr v (coreBlankId v)) := by
  obtain ⟨s, hs, hblank⟩ := names id v h hlisted
  unfold Dict.getOr
  rw [hs, hblank]
  rfl

theorem individualId_eq (h : Holds nodes id v)
    (hv : v.isEntity .namedIndividual = true ∨ v ∈ values.flatMap Node.anonymousValues) :
    cols.individualId anonymousIds id = .ok (some (individualName blankIds v)) := by
  unfold Columns.individualId Columns.namedIndividualIri individualName
  rw [ok_bind _ (namedIri_eq pre h _)]
  cases hnamed : v.isEntity .namedIndividual with
  | true => rfl
  | false =>
    rcases hv with hv | hlisted
    · rw [hnamed] at hv
      cases hv
    · obtain ⟨r, -, hr⟩ := List.mem_flatMap.mp hlisted
      have hanonymous := isOf_iff.mpr (Node.occurs_of_anonymousValues r hr).2
      simp only [Bool.false_eq_true, if_false]
      rw [ok_bind _ (tagIs_eq pre.toEncodesNodes h _), hanonymous,
        generatedId_eq names h hlisted]
      rfl

/-- An individual of an assertion is named as in the scalar compiler. -/
theorem individualField_eq {arity start i : Nat} (h : Holds nodes id v) (hv : v ∈ values)
    (ho : Opened cols nodes id v arity start) (hi : i < arity) {j : Nat}
    (hj : cols.fieldNode (start + i) = .ok j)
    (hindividual : cols.isSupportedIndividual j = .ok true) :
    cols.individualId anonymousIds j = .ok (some (individualName blankIds (v.child i))) := by
  obtain ⟨hfield, hchild⟩ := ho.node pre.toEncodesNodes i hi hj
  rw [Columns.isSupportedIndividual, isTagOrIndividual_eq pre hchild] at hindividual
  apply individualId_eq pre names hchild
  have heither := Bool.or_eq_true_iff.mp (Except.ok.inj hindividual)
  rcases heither with hanonymous | hnamed
  · right
    apply listed_of_field pre h hv hfield
    simpa using hanonymous
  · exact .inl hnamed

theorem objectPropertyAssertionIris_eq (h : Holds nodes id v) (hv : v ∈ values)
    (hc : v.constructor = .objectPropertyAssertion) :
    (v.child 0).isEntity .objectProperty = true ∧
      cols.objectPropertyAssertionIris anonymousIds id =
        .ok (individualName blankIds (v.child 1), (v.child 0).entityIri,
          individualName blankIds (v.child 2)) := by
  have table := pre.toEncodesNodes
  obtain ⟨start, hstart, hr⟩ := bind_ok (inspected_as pre h hc)
  have ho := opened table h hstart
  obtain ⟨property, hproperty, hr⟩ := bind_ok hr
  obtain ⟨-, hpholds⟩ := ho.node table 0 (by omega) hproperty
  rw [Columns.isNamedObjectProperty, ok_bind _ (isNamed_eq pre hpholds _)] at hr
  obtain ⟨source, hsource, hr⟩ := bind_ok hr
  obtain ⟨sourceOk, hsourceOk, hr⟩ := bind_ok hr
  obtain ⟨target, htarget, hr⟩ := bind_ok hr
  obtain ⟨targetOk, htargetOk, hr⟩ := bind_ok hr
  obtain ⟨_, -, hr⟩ := bind_ok hr
  have hall := fallbackUnless_none hr
  simp only [Bool.and_eq_true] at hall
  obtain ⟨⟨hnamed, rfl⟩, rfl⟩ := hall
  refine ⟨hnamed, ?_⟩
  unfold Columns.objectPropertyAssertionIris Columns.namedObjectPropertyIri
  rw [ok_bind _ (tagIs_eq table h _), isOf_iff.mpr hc, demand_true, ok_bind _ rfl,
    ok_bind _ hstart, ok_bind _ hproperty, ok_bind _ (namedIri_eq pre hpholds _),
    ok_bind _ hsource,
    ok_bind _ (individualField_eq pre names h hv ho (by omega) hsource hsourceOk),
    ok_bind _ htarget,
    ok_bind _ (individualField_eq pre names h hv ho (by omega) htarget htargetOk), hnamed]
  rfl

end Individuals

section Annotations
variable {cols : Columns} {nodes : List Node} (pre : Preflighted cols nodes) {id : Nat} {v : Node}
  {anonymousIds : Columns.AnonymousIds} {blankIds : Dict Node String} {values : List Node}
  (names : SameNames nodes anonymousIds blankIds values)

/-- What an annotation value is rendered to, and whether it is a literal that is not text. -/
def renderedValue (blankIds : Dict Node String) (value : Node) : String × Bool :=
  match value.constructor with
  | .iri => (value.text 0, false)
  | .anonymousIndividual => (individualName blankIds value, false)
  | _ =>
    let datatype := (value.child 1).entityIri
    if datatype = XSD_STRING_IRI ∨ datatype = RDF_PLAIN_LITERAL_IRI then (value.text 0, false)
    else (renderTypedLiteral (value.text 0) datatype, true)

theorem unnamed_of_anonymous (hc : v.constructor = .anonymousIndividual) :
    v.isEntity .namedIndividual = false := by
  by_contra hne
  have hentity := isEntity_constructor (Bool.not_eq_false _ ▸ hne)
  rw [hc] at hentity
  cases hentity

include pre names

theorem annotationValue_eq (h : Holds nodes id v)
    (hv : Columns.annotationValueTags.contains v.constructor = true)
    (hlisted : v.constructor = .anonymousIndividual → v ∈ values.flatMap Node.anonymousValues) :
    cols.annotationValue anonymousIds id = .ok (renderedValue blankIds v) := by
  have table := pre.toEncodesNodes
  simp only [Columns.annotationValueTags, List.contains_iff_mem, List.mem_cons,
    List.not_mem_nil, or_false] at hv
  unfold Columns.annotationValue renderedValue
  rw [ok_bind _ (tagIs_eq table h _), ok_bind _ (tagIs_eq table h _)]
  rcases hv with hc | hc | hc
  · have hiri : v.isOf .iri = true := isOf_iff.mpr hc
    rw [hiri, if_pos rfl, ok_bind _ (iriText_eq pre h hc), hc]
    rfl
  · have hiri : v.isOf .iri = false := by simp [Node.isOf, hc]
    have hanonymous : v.isOf .anonymousIndividual = true := isOf_iff.mpr hc
    rw [hiri, if_neg Bool.false_ne_true, hanonymous, if_pos rfl,
      generatedId_eq names h (hlisted hc), hc]
    simp only [individualName, unnamed_of_anonymous hc, Bool.false_eq_true, if_false]
    rfl
  · have hiri : v.isOf .iri = false := by simp [Node.isOf, hc]
    have hanonymous : v.isOf .anonymousIndividual = false := by simp [Node.isOf, hc]
    rw [hiri, if_neg Bool.false_ne_true, hanonymous, if_neg Bool.false_ne_true,
      ok_bind _ (literalParts_eq pre h hc), hc]
    simp only
    split <;> rfl

/-- The edge of an annotation of a class by a property of the profile. -/
def annotationParts (classIris : List String) (blankIds : Dict Node String) (v : Node) :
    Option (Edge String) × Bool :=
  if (v.child 1).isOf .iri && classIris.contains ((v.child 1).text 0) &&
      annotationProperties.contains (v.child 0).entityIri then
    (some ⟨(v.child 1).text 0, annotationRelation (v.child 0).entityIri,
      (renderedValue blankIds (v.child 2)).1⟩, (renderedValue blankIds (v.child 2)).2)
  else (none, false)

theorem annotationAssertionEdge_eq (classIris : List String) (h : Holds nodes id v)
    (hv : v ∈ values) (hc : v.constructor = .annotationAssertion) :
    cols.annotationAssertionEdge classIris anonymousIds id =
      .ok (annotationParts classIris blankIds v) := by
  have table := pre.toEncodesNodes
  obtain ⟨start, hstart, hr⟩ := bind_ok (inspected_as pre h hc)
  have ho := opened table h hstart
  obtain ⟨_, hproperty, hr⟩ := bind_ok hr
  obtain ⟨property, hp, -, hpholds, hnamed⟩ := demandField_ok pre ho (i := 0) (by omega) hproperty
  rw [Columns.isNamedAnnotationProperty, isNamed_eq pre hpholds] at hnamed
  rw [Nat.add_zero] at hp
  obtain ⟨_, hsubject, hr⟩ := bind_ok hr
  obtain ⟨subject, hs, -, hsholds, hsubject⟩ :=
    demandField_ok pre ho (i := 1) (by omega) hsubject
  rw [tagIn_eq table hsholds] at hsubject
  obtain ⟨_, hvalue, -⟩ := bind_ok hr
  obtain ⟨value, hw, hfield, hwholds, hvalue⟩ := demandField_ok pre ho (i := 2) (by omega) hvalue
  rw [tagIn_eq table hwholds] at hvalue
  have hrendered := annotationValue_eq pre names hwholds (Except.ok.inj hvalue)
    fun hanonymous => listed_of_field pre h hv hfield hanonymous
  unfold Columns.annotationAssertionEdge Columns.namedAnnotationPropertyIri annotationParts
  rw [ok_bind _ (tagIs_eq table h _), isOf_iff.mpr hc, demand_true, ok_bind _ rfl,
    ok_bind _ hstart, ok_bind _ hp, ok_bind _ (namedIri_eq pre hpholds _), ok_bind _ hs,
    ok_bind _ (tagIs_eq table hsholds _)]
  cases hiri : (v.child 1).isOf .iri with
  | false =>
    simp only [Bool.false_eq_true, if_false, Except.ok.inj hnamed, if_true, Bool.false_and]
    change (cols.tagIn subject _ >>= fun _ => _) = _
    rw [ok_bind _ (tagIn_eq table hsholds _), Except.ok.inj hsubject]
    rfl
  | true =>
    simp only [if_true, Except.ok.inj hnamed, Bool.true_and]
    rw [iriText_eq pre hsholds (isOf_iff.mp hiri)]
    change (cols.tagIn subject _ >>= fun _ => _) = _
    rw [ok_bind _ (tagIn_eq table hsholds _), Except.ok.inj hsubject]
    simp only [Bool.not_true, Bool.false_eq_true, if_false]
    cases classIris.contains ((v.child 1).text 0) with
    | false => rfl
    | true =>
      cases annotationProperties.contains (v.child 0).entityIri with
      | false => rfl
      | true =>
        simp only [Bool.not_true, Bool.or_self, Bool.false_eq_true, if_false, Bool.and_self,
          if_true]
        rw [ok_bind _ hw, ok_bind _ hrendered]
        rfl

end Annotations

end Projector.Encoded
