import Projector.Lib.Bytes
import Projector.Edge

namespace Projector.Core
open Lib

inductive EntityKind where
  | classEntity
  | datatype
  | objectProperty
  | dataProperty
  | annotationProperty
  | namedIndividual
  deriving DecidableEq, Repr

/-- The payload of an entity kind in a column table. -/
def EntityKind.text : EntityKind → String
  | .classEntity => "class"
  | .datatype => "datatype"
  | .objectProperty => "object_property"
  | .dataProperty => "data_property"
  | .annotationProperty => "annotation_property"
  | .namedIndividual => "named_individual"

/-- The constructors of the frozen structural schema. -/
inductive Constructor where
  | iri | entity | anonymousIndividual | literal | annotationTerm
  | objectInverseOf | objectPropertyChain
  | facetRestriction | dataIntersectionOf | dataUnionOf | dataComplementOf | dataOneOf
  | datatypeRestriction
  | objectIntersectionOf | objectUnionOf | objectComplementOf | objectOneOf
  | objectSomeValuesFrom | objectAllValuesFrom | objectHasValue | objectHasSelf
  | objectMinCardinality | objectMaxCardinality | objectExactCardinality
  | dataSomeValuesFrom | dataAllValuesFrom | dataHasValue
  | dataMinCardinality | dataMaxCardinality | dataExactCardinality
  | declaration | subClassOf | equivalentClasses | disjointClasses | disjointUnion
  | subObjectPropertyOf | equivalentObjectProperties | disjointObjectProperties
  | inverseObjectProperties | objectPropertyDomain | objectPropertyRange
  | functionalObjectProperty | inverseFunctionalObjectProperty | reflexiveObjectProperty
  | irreflexiveObjectProperty | symmetricObjectProperty | asymmetricObjectProperty
  | transitiveObjectProperty
  | subDataPropertyOf | equivalentDataProperties | disjointDataProperties
  | dataPropertyDomain | dataPropertyRange | functionalDataProperty
  | datatypeDefinition | hasKey
  | sameIndividual | differentIndividuals | classAssertion | objectPropertyAssertion
  | negativeObjectPropertyAssertion | dataPropertyAssertion | negativeDataPropertyAssertion
  | annotationAssertion | subAnnotationPropertyOf | annotationPropertyDomain
  | annotationPropertyRange
  | swrlVariable | classAtom | dataRangeAtom | objectPropertyAtom | dataPropertyAtom | builtInAtom
  | sameIndividualAtom | differentIndividualsAtom | swrlRule
  deriving DecidableEq, Repr

namespace Constructor

def tag : Constructor → Nat
  | iri => 1 | entity => 2 | anonymousIndividual => 3 | literal => 4 | annotationTerm => 5
  | objectInverseOf => 10 | objectPropertyChain => 11
  | facetRestriction => 20 | dataIntersectionOf => 21 | dataUnionOf => 22
  | dataComplementOf => 23 | dataOneOf => 24 | datatypeRestriction => 25
  | objectIntersectionOf => 30 | objectUnionOf => 31 | objectComplementOf => 32
  | objectOneOf => 33 | objectSomeValuesFrom => 34 | objectAllValuesFrom => 35
  | objectHasValue => 36 | objectHasSelf => 37 | objectMinCardinality => 38
  | objectMaxCardinality => 39 | objectExactCardinality => 40
  | dataSomeValuesFrom => 41 | dataAllValuesFrom => 42 | dataHasValue => 43
  | dataMinCardinality => 44 | dataMaxCardinality => 45 | dataExactCardinality => 46
  | declaration => 60 | subClassOf => 61 | equivalentClasses => 62 | disjointClasses => 63
  | disjointUnion => 64
  | subObjectPropertyOf => 70 | equivalentObjectProperties => 71
  | disjointObjectProperties => 72 | inverseObjectProperties => 73
  | objectPropertyDomain => 74 | objectPropertyRange => 75
  | functionalObjectProperty => 76 | inverseFunctionalObjectProperty => 77
  | reflexiveObjectProperty => 78 | irreflexiveObjectProperty => 79
  | symmetricObjectProperty => 80 | asymmetricObjectProperty => 81
  | transitiveObjectProperty => 82
  | subDataPropertyOf => 90 | equivalentDataProperties => 91 | disjointDataProperties => 92
  | dataPropertyDomain => 93 | dataPropertyRange => 94 | functionalDataProperty => 95
  | datatypeDefinition => 100 | hasKey => 101
  | sameIndividual => 110 | differentIndividuals => 111 | classAssertion => 112
  | objectPropertyAssertion => 113 | negativeObjectPropertyAssertion => 114
  | dataPropertyAssertion => 115 | negativeDataPropertyAssertion => 116
  | annotationAssertion => 120 | subAnnotationPropertyOf => 121
  | annotationPropertyDomain => 122 | annotationPropertyRange => 123
  | swrlVariable => 140 | classAtom => 141 | dataRangeAtom => 142 | objectPropertyAtom => 143
  | dataPropertyAtom => 144 | builtInAtom => 145 | sameIndividualAtom => 146
  | differentIndividualsAtom => 147 | swrlRule => 148

/-- The name of the class of model values, as diagnostics and errors print it. -/
def name : Constructor → String
  | iri => "IRI" | entity => "Entity" | anonymousIndividual => "AnonymousIndividual"
  | literal => "Literal" | annotationTerm => "Annotation"
  | objectInverseOf => "ObjectInverseOf" | objectPropertyChain => "ObjectPropertyChain"
  | facetRestriction => "FacetRestriction" | dataIntersectionOf => "DataIntersectionOf"
  | dataUnionOf => "DataUnionOf" | dataComplementOf => "DataComplementOf"
  | dataOneOf => "DataOneOf" | datatypeRestriction => "DatatypeRestriction"
  | objectIntersectionOf => "ObjectIntersectionOf" | objectUnionOf => "ObjectUnionOf"
  | objectComplementOf => "ObjectComplementOf" | objectOneOf => "ObjectOneOf"
  | objectSomeValuesFrom => "ObjectSomeValuesFrom"
  | objectAllValuesFrom => "ObjectAllValuesFrom"
  | objectHasValue => "ObjectHasValue" | objectHasSelf => "ObjectHasSelf"
  | objectMinCardinality => "ObjectMinCardinality"
  | objectMaxCardinality => "ObjectMaxCardinality"
  | objectExactCardinality => "ObjectExactCardinality"
  | dataSomeValuesFrom => "DataSomeValuesFrom" | dataAllValuesFrom => "DataAllValuesFrom"
  | dataHasValue => "DataHasValue" | dataMinCardinality => "DataMinCardinality"
  | dataMaxCardinality => "DataMaxCardinality"
  | dataExactCardinality => "DataExactCardinality"
  | declaration => "Declaration" | subClassOf => "SubClassOf"
  | equivalentClasses => "EquivalentClasses" | disjointClasses => "DisjointClasses"
  | disjointUnion => "DisjointUnion" | subObjectPropertyOf => "SubObjectPropertyOf"
  | equivalentObjectProperties => "EquivalentObjectProperties"
  | disjointObjectProperties => "DisjointObjectProperties"
  | inverseObjectProperties => "InverseObjectProperties"
  | objectPropertyDomain => "ObjectPropertyDomain"
  | objectPropertyRange => "ObjectPropertyRange"
  | functionalObjectProperty => "FunctionalObjectProperty"
  | inverseFunctionalObjectProperty => "InverseFunctionalObjectProperty"
  | reflexiveObjectProperty => "ReflexiveObjectProperty"
  | irreflexiveObjectProperty => "IrreflexiveObjectProperty"
  | symmetricObjectProperty => "SymmetricObjectProperty"
  | asymmetricObjectProperty => "AsymmetricObjectProperty"
  | transitiveObjectProperty => "TransitiveObjectProperty"
  | subDataPropertyOf => "SubDataPropertyOf"
  | equivalentDataProperties => "EquivalentDataProperties"
  | disjointDataProperties => "DisjointDataProperties"
  | dataPropertyDomain => "DataPropertyDomain" | dataPropertyRange => "DataPropertyRange"
  | functionalDataProperty => "FunctionalDataProperty"
  | datatypeDefinition => "DatatypeDefinition" | hasKey => "HasKey"
  | sameIndividual => "SameIndividual" | differentIndividuals => "DifferentIndividuals"
  | classAssertion => "ClassAssertion" | objectPropertyAssertion => "ObjectPropertyAssertion"
  | negativeObjectPropertyAssertion => "NegativeObjectPropertyAssertion"
  | dataPropertyAssertion => "DataPropertyAssertion"
  | negativeDataPropertyAssertion => "NegativeDataPropertyAssertion"
  | annotationAssertion => "AnnotationAssertion"
  | subAnnotationPropertyOf => "SubAnnotationPropertyOf"
  | annotationPropertyDomain => "AnnotationPropertyDomain"
  | annotationPropertyRange => "AnnotationPropertyRange"
  | swrlVariable => "Variable" | classAtom => "ClassAtom" | dataRangeAtom => "DataRangeAtom"
  | objectPropertyAtom => "ObjectPropertyAtom" | dataPropertyAtom => "DataPropertyAtom"
  | builtInAtom => "BuiltInAtom" | sameIndividualAtom => "SameIndividualAtom"
  | differentIndividualsAtom => "DifferentIndividualsAtom" | swrlRule => "SWRLRule"

def all : List Constructor :=
  [iri, entity, anonymousIndividual, literal, annotationTerm, objectInverseOf, objectPropertyChain,
   facetRestriction, dataIntersectionOf, dataUnionOf, dataComplementOf, dataOneOf,
   datatypeRestriction, objectIntersectionOf, objectUnionOf, objectComplementOf, objectOneOf,
   objectSomeValuesFrom, objectAllValuesFrom, objectHasValue, objectHasSelf,
   objectMinCardinality, objectMaxCardinality, objectExactCardinality, dataSomeValuesFrom,
   dataAllValuesFrom, dataHasValue, dataMinCardinality, dataMaxCardinality,
   dataExactCardinality, declaration, subClassOf, equivalentClasses, disjointClasses,
   disjointUnion, subObjectPropertyOf, equivalentObjectProperties, disjointObjectProperties,
   inverseObjectProperties, objectPropertyDomain, objectPropertyRange,
   functionalObjectProperty, inverseFunctionalObjectProperty, reflexiveObjectProperty,
   irreflexiveObjectProperty, symmetricObjectProperty, asymmetricObjectProperty,
   transitiveObjectProperty, subDataPropertyOf, equivalentDataProperties,
   disjointDataProperties, dataPropertyDomain, dataPropertyRange, functionalDataProperty,
   datatypeDefinition, hasKey, sameIndividual, differentIndividuals, classAssertion,
   objectPropertyAssertion, negativeObjectPropertyAssertion, dataPropertyAssertion,
   negativeDataPropertyAssertion, annotationAssertion, subAnnotationPropertyOf,
   annotationPropertyDomain, annotationPropertyRange, swrlVariable, classAtom, dataRangeAtom,
   objectPropertyAtom, dataPropertyAtom, builtInAtom, sameIndividualAtom,
   differentIndividualsAtom, swrlRule]

/-- The constructor of a schema tag. -/
def ofTag? (tag : Nat) : Option Constructor := all.find? (fun c => c.tag == tag)

theorem ofTag_tag (c : Constructor) : ofTag? c.tag = some c := by
  cases c <;> rfl

theorem tag_inj {c d : Constructor} (h : c.tag = d.tag) : c = d := by
  have hc := ofTag_tag c
  rw [h, ofTag_tag d] at hc
  exact (Option.some.inj hc).symm

/-- The values that are axioms of an ontology. -/
def isAxiom (c : Constructor) : Bool := 60 ≤ c.tag && c.tag ≤ 123

end Constructor

mutual

/-- A structural value: its constructor and its fields in declaration order. -/
inductive Node where
  | mk (constructor : Constructor) (fields : List Component)

inductive Component where
  | none
  | node (node : Node)
  | text (text : String)
  | bytes (payload : Bytes)
  | integer (value : Nat)
  | enum (kind : EntityKind)
  | set (items : List Node)
  | sequence (items : List Component)

end

namespace Node

def constructor : Node → Constructor
  | mk c _ => c

def fields : Node → List Component
  | mk _ fields => fields

@[simp] theorem constructor_mk (c : Constructor) (fs : List Component) :
    (mk c fs).constructor = c := rfl

@[simp] theorem fields_mk (c : Constructor) (fs : List Component) : (mk c fs).fields = fs := rfl

end Node

namespace Component

/-- The kind byte of a field. -/
def kind : Component → UInt8
  | none => 0
  | node _ => 1
  | text _ => 2
  | bytes _ => 3
  | integer _ => 4
  | enum _ => 5
  | set _ => 6
  | sequence _ => 7

end Component

/-! A constructed value has the fields of its class, so an attribute always
exists. The accessors below are total on trees of any shape: a field that is
absent, or of another kind, reads as the empty value of the kind asked for. -/

instance : Inhabited Node := ⟨.mk .iri []⟩

namespace Node

def field (n : Node) (index : Nat) : Component := n.fields.getD index .none

def child (n : Node) (index : Nat) : Node :=
  match n.field index with
  | .node child => child
  | _ => default

def text (n : Node) (index : Nat) : String :=
  match n.field index with
  | .text text => text
  | _ => ""

def payload (n : Node) (index : Nat) : Bytes :=
  match n.field index with
  | .bytes payload => payload
  | _ => []

def integer (n : Node) (index : Nat) : Nat :=
  match n.field index with
  | .integer value => value
  | _ => 0

/-- The members of a set field. -/
def items (n : Node) (index : Nat) : List Node :=
  match n.field index with
  | .set items => items
  | _ => []

/-- The kind of an entity; nothing else has one. -/
def entityKind? (n : Node) : Option EntityKind :=
  match n.constructor, n.field 0 with
  | .entity, .enum kind => some kind
  | _, _ => none

def isOf (n : Node) (c : Constructor) : Bool := n.constructor == c

def isEntity (n : Node) (kind : EntityKind) : Bool := n.entityKind? == some kind

/-- `value.iri.value` of an entity. -/
def entityIri (n : Node) : String := (n.child 1).text 0

end Node

section Values

def iri (value : String) : Node := .mk .iri [.text value]

def entity (kind : EntityKind) (value : String) : Node :=
  .mk .entity [.enum kind, .node (iri value)]

def owlClass (value : String) : Node := entity .classEntity value

def objectProperty (value : String) : Node := entity .objectProperty value

def anonymousIndividual (scope key : Bytes) : Node :=
  .mk .anonymousIndividual [.bytes scope, .bytes key]

end Values

end Projector.Core
