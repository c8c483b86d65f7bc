import Projector.Encoded.Columns

namespace Projector.Encoded
open Lib Projector.Core Compiler

/-- What inspecting a row reports: nothing, or the reason to fall back to the scalar
compiler. Rows that break the schema are refused. -/
abbrev Inspection := Read (Option String)

def fallbackUnless (c : Bool) (reason : String) : Option String :=
  if c then none else some reason

namespace Columns
variable (cols : Columns)

section Classification

def restrictionTags : List Constructor :=
  [.objectSomeValuesFrom, .objectAllValuesFrom, .objectMinCardinality, .objectMaxCardinality]

def aggregateTags : List Constructor := [.objectIntersectionOf, .objectUnionOf]

def nonprojectingTags : List Constructor :=
  [.objectComplementOf, .objectOneOf, .objectHasValue, .objectHasSelf]

def compositeDataRangeTags : List Constructor :=
  [.dataIntersectionOf, .dataUnionOf, .dataComplementOf, .dataOneOf, .datatypeRestriction]

def classExpressionTags : List Constructor :=
  [.objectIntersectionOf, .objectUnionOf, .objectComplementOf, .objectOneOf,
   .objectSomeValuesFrom, .objectAllValuesFrom, .objectHasValue, .objectHasSelf,
   .objectMinCardinality, .objectMaxCardinality, .objectExactCardinality,
   .dataSomeValuesFrom, .dataAllValuesFrom, .dataHasValue, .dataMinCardinality,
   .dataMaxCardinality, .dataExactCardinality]

def swrlAtomTags : List Constructor :=
  [.classAtom, .dataRangeAtom, .objectPropertyAtom, .dataPropertyAtom, .builtInAtom,
   .sameIndividualAtom, .differentIndividualsAtom]

/-- A named entity of a kind, or one of some constructors. -/
def isNamedOr (kind : EntityKind) (cs : List Constructor) (id : Nat) : Read Bool := do
  let named ← cols.isNamed kind id
  if named then pure true else cols.tagIn id cs

def isDataRange := cols.isNamedOr .datatype compositeDataRangeTags
def isValidatedClassExpression :=
  cols.isNamedOr .classEntity (aggregateTags ++ restrictionTags ++ nonprojectingTags)
def isClassExpression := cols.isNamedOr .classEntity classExpressionTags
def isSupportedOperand := cols.isNamedOr .classEntity (restrictionTags ++ nonprojectingTags)

/-- One of some constructors, or a named individual. -/
def isTagOrIndividual (cs : List Constructor) (id : Nat) : Read Bool := do
  let tagged ← cols.tagIn id cs
  if tagged then pure true else cols.isNamedIndividual id

def isSupportedIndividual := cols.isTagOrIndividual [.anonymousIndividual]
def isSwrlIndividualArgument := cols.isTagOrIndividual [.swrlVariable, .anonymousIndividual]
def isSwrlDataArgument (id : Nat) : Read Bool := cols.tagIn id [.literal, .swrlVariable]

def isSupportedObjectPropertyExpression (id : Nat) : Read Bool := do
  let iri ← cols.projectedObjectPropertyIri id
  pure iri.isSome

end Classification

section Families

/-- A node field that passes a test. -/
def demandField (index : Nat) (test : Nat → Read Bool) (message : String) : Read Unit := do
  let id ← cols.fieldNode index
  let ok ← test id
  demand ok message

/-- A set field, of at least `minimum` members that each pass a test. -/
def demandSet (index minimum : Nat) (test : Nat → Read Bool) (message : String) :
    Read (List Nat) := do
  let ids ← cols.nodeSet index minimum
  demandAll test message ids
  pure ids

/-- Whether every member passes a test; all of them are looked at. -/
def allPass (test : Nat → Read Bool) : List Nat → Read Bool
  | [] => pure true
  | id :: rest => do
    let ok ← test id
    let others ← allPass test rest
    pure (ok && others)

/-- An axiom about one term: the term and the annotations. -/
def inspectUnary (id : Nat) (test : Nat → Read Bool) (message : String) : Inspection := do
  let start ← cols.exactFields id 2
  cols.demandField start test message
  let _ ← cols.annotationSet (start + 1)
  pure none

/-- An axiom about two terms. -/
def inspectBinary (id : Nat) (first : Nat → Read Bool) (firstMessage : String)
    (second : Nat → Read Bool) (secondMessage : String) : Inspection := do
  let start ← cols.exactFields id 3
  cols.demandField start first firstMessage
  cols.demandField (start + 1) second secondMessage
  let _ ← cols.annotationSet (start + 2)
  pure none

/-- An axiom about three terms. -/
def inspectTernary (id : Nat) (first : Nat → Read Bool) (firstMessage : String)
    (second : Nat → Read Bool) (secondMessage : String) (third : Nat → Read Bool)
    (thirdMessage : String) : Inspection := do
  let start ← cols.exactFields id 4
  cols.demandField start first firstMessage
  cols.demandField (start + 1) second secondMessage
  cols.demandField (start + 2) third thirdMessage
  let _ ← cols.annotationSet (start + 3)
  pure none

/-- An axiom about a set of terms. -/
def inspectMembers (id : Nat) (test : Nat → Read Bool) (message : String) : Inspection := do
  let start ← cols.exactFields id 2
  let _ ← cols.demandSet start 2 test message
  let _ ← cols.annotationSet (start + 1)
  pure none

/-- A term of one field that passes a test. -/
def inspectOperand (id : Nat) (test : Nat → Read Bool) (message : String) : Inspection := do
  let start ← cols.exactFields id 1
  cols.demandField start test message
  pure none

/-- A term of two fields that each pass a test. -/
def inspectOperands (id : Nat) (first : Nat → Read Bool) (firstMessage : String)
    (second : Nat → Read Bool) (secondMessage : String) : Inspection := do
  let start ← cols.exactFields id 2
  cols.demandField start first firstMessage
  cols.demandField (start + 1) second secondMessage
  pure none

end Families

section Terms

def inspectIri (id : Nat) : Inspection := do
  let _ ← cols.iriText id
  pure none

def inspectEntity (id : Nat) : Inspection := do
  let _ ← cols.entity id
  pure none

def inspectLiteral (id : Nat) : Inspection := do
  let _ ← cols.literalParts id
  pure none

def inspectAnonymous (id : Nat) : Inspection := do
  let start ← cols.exactFields id 2
  let documentScope ← cols.scalarPayload start COMPONENT_BYTES
  let localKey ← cols.scalarPayload (start + 1) COMPONENT_BYTES
  demand (documentScope.length == 32) "encoded subset anonymous document scope is not bytes32"
  demand (!localKey.isEmpty) "encoded subset anonymous local key is empty"
  pure none

def annotationValueTags : List Constructor := [.iri, .anonymousIndividual, .literal]

def inspectAnnotation (id : Nat) : Inspection := do
  let start ← cols.exactFields id 3
  cols.demandField start cols.isNamedAnnotationProperty
    "encoded subset Annotation property is not a named annotation property"
  cols.demandField (start + 1) (cols.tagIn · annotationValueTags)
    "encoded subset Annotation value has the wrong constructor"
  let _ ← cols.annotationSet (start + 2)
  pure none

def inspectPropertyChain (id : Nat) : Inspection := do
  let start ← cols.exactFields id 1
  let ids ← cols.nodeSequence start 2
  demandAll cols.isSupportedObjectPropertyExpression
    ("encoded subset ObjectPropertyChain item is not a supported " ++
      "object property expression") ids
  pure none

/-- The operands of an n-ary data range, which must be flattened. -/
def demandDataOperands (c : Constructor) : List Nat → Read Unit
  | [] => pure ()
  | id :: rest => do
    let same ← cols.tagIs id c
    demand (!same) ("encoded subset " ++ c.name ++ " operands are not flattened")
    let range ← cols.isDataRange id
    demand range ("encoded subset " ++ c.name ++ " operand is not a data range")
    demandDataOperands c rest

def inspectDataAggregate (id : Nat) (c : Constructor) : Inspection := do
  let start ← cols.exactFields id 1
  let ids ← cols.nodeSet start 2
  cols.demandDataOperands c ids
  pure none

def inspectMembersTerm (id minimum : Nat) (test : Nat → Read Bool) (message : String) :
    Inspection := do
  let start ← cols.exactFields id 1
  let _ ← cols.demandSet start minimum test message
  pure none

def inspectDatatypeRestriction (id : Nat) : Inspection := do
  let start ← cols.exactFields id 2
  cols.demandField start cols.isNamedDatatype
    "encoded subset DatatypeRestriction datatype is not a named datatype"
  let _ ← cols.demandSet (start + 1) 1 (cols.tagIs · .facetRestriction)
    "encoded subset DatatypeRestriction item is not a FacetRestriction"
  pure none

def inspectComplement (id : Nat) : Inspection := do
  let start ← cols.exactFields id 1
  let operand ← cols.fieldNode start
  let expression ← cols.isClassExpression operand
  demand expression "encoded subset ObjectComplementOf operand is not a class expression"
  let validated ← cols.isValidatedClassExpression operand
  pure (fallbackUnless validated
    ("encoded subset ObjectComplementOf operand is outside the validated " ++
      "class-expression envelope"))

def inspectAggregate (id : Nat) : Inspection := do
  let start ← cols.exactFields id 1
  let ids ← cols.nodeSet start 2
  let supported ← allPass cols.isSupportedOperand ids
  pure (fallbackUnless supported
    ("encoded subset aggregate expressions require named, restriction, or " ++
      "bounded non-projecting operands"))

/-- The property and filler of a restriction, from the index of its property field. -/
def inspectRestrictionAt (index : Nat) : Inspection := do
  let supported ← cols.isSupportedObjectPropertyExpression (← cols.fieldNode index)
  let named ← cols.isNamedClass (← cols.fieldNode (index + 1))
  pure (fallbackUnless (supported && named)
    ("encoded subset requires a supported property expression and named filler " ++
      "in restrictions"))

def inspectRestriction (id : Nat) : Inspection := do
  let start ← cols.exactFields id 2
  cols.inspectRestrictionAt start

def inspectCardinality (id : Nat) : Inspection := do
  let start ← cols.exactFields id 3
  cols.canonicalIntegerBytes start
  cols.inspectRestrictionAt (start + 1)

end Terms

section Rules

def inspectClassAtom (id : Nat) : Inspection := do
  let start ← cols.exactFields id 2
  let validated ← cols.isValidatedClassExpression (← cols.fieldNode start)
  cols.demandField (start + 1) cols.isSwrlIndividualArgument
    "encoded subset ClassAtom argument is not an individual argument"
  pure (fallbackUnless validated
    "encoded subset requires a validated class predicate in ClassAtom")

def inspectObjectPropertyAtom (id : Nat) : Inspection := do
  let start ← cols.exactFields id 3
  cols.demandField start cols.isSupportedObjectPropertyExpression
    ("encoded subset ObjectPropertyAtom predicate is not a supported object " ++
      "property expression")
  cols.demandField (start + 1) cols.isSwrlIndividualArgument
    "encoded subset ObjectPropertyAtom argument is not an individual argument"
  cols.demandField (start + 2) cols.isSwrlIndividualArgument
    "encoded subset ObjectPropertyAtom argument is not an individual argument"
  pure none

def inspectDataPropertyAtom (id : Nat) : Inspection := do
  let start ← cols.exactFields id 3
  cols.demandField start cols.isNamedDataProperty
    "encoded subset DataPropertyAtom predicate is not a data property"
  cols.demandField (start + 1) cols.isSwrlIndividualArgument
    "encoded subset DataPropertyAtom source is not an individual argument"
  cols.demandField (start + 2) cols.isSwrlDataArgument
    "encoded subset DataPropertyAtom target is not a data argument"
  pure none

def inspectBuiltInAtom (id : Nat) : Inspection := do
  let start ← cols.exactFields id 2
  cols.demandField start (cols.tagIs · .iri)
    "encoded subset BuiltInAtom predicate does not reference an IRI"
  let ids ← cols.nodeSequence (start + 1) 0
  demandAll cols.isSwrlDataArgument
    "encoded subset BuiltInAtom argument is not a data argument" ids
  pure none

def inspectIndividualAtom (id : Nat) (c : Constructor) : Inspection :=
  let message := "encoded subset " ++ c.name ++ " argument is not an individual argument"
  cols.inspectOperands id cols.isSwrlIndividualArgument message cols.isSwrlIndividualArgument
    message

def inspectRule (id : Nat) : Inspection := do
  let start ← cols.exactFields id 3
  let _ ← cols.demandSet start 0 (cols.tagIn · swrlAtomTags)
    "encoded subset SWRLRule body contains a non-atom"
  let _ ← cols.demandSet (start + 1) 0 (cols.tagIn · swrlAtomTags)
    "encoded subset SWRLRule head contains a non-atom"
  let _ ← cols.annotationSet (start + 2)
  pure none

end Rules

section Axioms

def inspectDeclaration (id : Nat) : Inspection := do
  let start ← cols.exactFields id 2
  let _ ← cols.entity (← cols.fieldNode start)
  let _ ← cols.annotationSet (start + 1)
  pure none

def inspectSubClassOf (id : Nat) : Inspection := do
  let start ← cols.exactFields id 3
  let sub ← cols.fieldNode start
  let sup ← cols.fieldNode (start + 1)
  let validatedSub ← cols.isValidatedClassExpression sub
  let validatedSuper ← cols.isValidatedClassExpression sup
  let _ ← cols.annotationSet (start + 2)
  pure (fallbackUnless (validatedSub && validatedSuper)
    "encoded subset requires validated class expressions in SubClassOf")

def inspectEquivalentClasses (id : Nat) : Inspection := do
  let start ← cols.exactFields id 2
  let ids ← cols.nodeSet start 2
  let validated ← allPass cols.isValidatedClassExpression ids
  let _ ← cols.annotationSet (start + 1)
  pure (fallbackUnless validated
    "encoded subset requires validated class expressions in EquivalentClasses")

/-- Class expressions of a skipped axiom: each must be one, and be validated too. -/
def inspectDisjoint (name : String) : List Nat → Read Bool
  | [] => pure true
  | id :: rest => do
    let expression ← cols.isClassExpression id
    demand expression ("encoded subset " ++ name ++ " item is not a class expression")
    let validated ← cols.isValidatedClassExpression id
    let others ← inspectDisjoint name rest
    pure (validated && others)

def inspectDisjointClasses (id : Nat) : Inspection := do
  let start ← cols.exactFields id 2
  let ids ← cols.nodeSet start 2
  let validated ← cols.inspectDisjoint "DisjointClasses" ids
  let _ ← cols.annotationSet (start + 1)
  pure (fallbackUnless validated
    "encoded subset requires validated class expressions in DisjointClasses")

def inspectDisjointUnion (id : Nat) : Inspection := do
  let start ← cols.exactFields id 3
  cols.demandField start cols.isNamedClass
    "encoded subset DisjointUnion defined class is not a named class"
  let ids ← cols.nodeSet (start + 1) 2
  let validated ← cols.inspectDisjoint "DisjointUnion" ids
  let _ ← cols.annotationSet (start + 2)
  pure (fallbackUnless validated
    "encoded subset requires validated class expressions in DisjointUnion")

/-- A role axiom; `chains` tells whether its first property may be a chain. -/
def inspectRoleAxiom (id : Nat) (chains : Bool) : Inspection := do
  let start ← cols.exactFields id 3
  let first ← cols.fieldNode start
  let expression ← cols.isSupportedObjectPropertyExpression first
  let chain ← cols.tagIs first .objectPropertyChain
  let second ← cols.isSupportedObjectPropertyExpression (← cols.fieldNode (start + 1))
  let reason := fallbackUnless ((expression || (chains && chain)) && second)
    "encoded subset requires supported object property expressions in role axioms"
  match cols.annotationSetHash (start + 2) with
  | .ok _ => pure reason
  | .error .unicodeEncode =>
    pure (reason <|>
      some "encoded subset role annotation value cannot reproduce scalar hashing")
  | .error e => .error e

def inspectDomainRange (id : Nat) : Inspection := do
  let start ← cols.exactFields id 3
  let supported ← cols.isSupportedObjectPropertyExpression (← cols.fieldNode start)
  let validated ← cols.isValidatedClassExpression (← cols.fieldNode (start + 1))
  let _ ← cols.annotationSet (start + 2)
  pure (fallbackUnless (supported && validated)
    ("encoded subset requires a supported object property expression and " ++
      "validated class expression in domain/range axioms"))

def inspectCharacteristic (id : Nat) (c : Constructor) : Inspection :=
  cols.inspectUnary id cols.isSupportedObjectPropertyExpression
    ("encoded subset " ++ c.name ++ " property is not a supported " ++
      "object property expression")

def inspectDataPropertyDomain (id : Nat) : Inspection := do
  let start ← cols.exactFields id 3
  cols.demandField start cols.isNamedDataProperty
    "encoded subset DataPropertyDomain property is not a data property"
  let validated ← cols.isValidatedClassExpression (← cols.fieldNode (start + 1))
  let _ ← cols.annotationSet (start + 2)
  pure (fallbackUnless validated
    "encoded subset requires a validated class expression in DataPropertyDomain")

def inspectHasKey (id : Nat) : Inspection := do
  let start ← cols.exactFields id 4
  let validated ← cols.isValidatedClassExpression (← cols.fieldNode start)
  let objects ← cols.demandSet (start + 1) 0 cols.isSupportedObjectPropertyExpression
    "encoded subset HasKey item is not a supported object property expression"
  let data ← cols.demandSet (start + 2) 0 cols.isNamedDataProperty
    "encoded subset HasKey item is not a data property"
  demand (!objects.isEmpty || !data.isEmpty)
    "encoded subset HasKey requires at least one property"
  let _ ← cols.annotationSet (start + 3)
  pure (fallbackUnless validated
    "encoded subset requires a validated class expression in HasKey")

def inspectClassAssertion (id : Nat) : Inspection := do
  let start ← cols.exactFields id 3
  let validated ← cols.isValidatedClassExpression (← cols.fieldNode start)
  let supported ← cols.isSupportedIndividual (← cols.fieldNode (start + 1))
  let _ ← cols.annotationSet (start + 2)
  pure (fallbackUnless (validated && supported)
    ("encoded subset requires a validated class expression and supported " ++
      "individual in ClassAssertion"))

def inspectObjectPropertyAssertion (id : Nat) : Inspection := do
  let start ← cols.exactFields id 4
  let named ← cols.isNamedObjectProperty (← cols.fieldNode start)
  let source ← cols.isSupportedIndividual (← cols.fieldNode (start + 1))
  let target ← cols.isSupportedIndividual (← cols.fieldNode (start + 2))
  let _ ← cols.annotationSet (start + 3)
  pure (fallbackUnless (named && source && target)
    ("encoded subset requires a named object property and supported individuals " ++
      "in ObjectPropertyAssertion"))

/-- An assertion of a data property, or the negation of one. -/
def inspectDataAssertion (id : Nat) (c : Constructor) : Inspection :=
  cols.inspectTernary id
    cols.isNamedDataProperty ("encoded subset " ++ c.name ++ " property is not a data property")
    cols.isSupportedIndividual ("encoded subset " ++ c.name ++ " source is not an individual")
    (cols.tagIs · .literal) ("encoded subset " ++ c.name ++ " value is not a literal")

/-- A named annotation property with an IRI. -/
def inspectAnnotationDomain (id : Nat) (c : Constructor) (role : String) : Inspection :=
  cols.inspectBinary id
    cols.isNamedAnnotationProperty
    ("encoded subset " ++ c.name ++ " property is not an annotation property")
    (cols.tagIs · .iri) ("encoded subset " ++ c.name ++ " " ++ role ++ " is not an IRI")

end Axioms

/-- `_inspect_node` on a constructor of the schema. -/
def inspectConstructor (id : Nat) (c : Constructor) : Inspection :=
  match c with
  | .iri => cols.inspectIri id
  | .entity => cols.inspectEntity id
  | .literal => cols.inspectLiteral id
  | .anonymousIndividual => cols.inspectAnonymous id
  | .annotationTerm => cols.inspectAnnotation id
  | .objectInverseOf =>
    cols.inspectOperand id cols.isNamedObjectProperty
      "encoded subset ObjectInverseOf property is not a named object property"
  | .objectPropertyChain => cols.inspectPropertyChain id
  | .facetRestriction =>
    cols.inspectOperands id
      (cols.tagIs · .iri) "encoded subset FacetRestriction facet does not reference an IRI"
      (cols.tagIs · .literal) "encoded subset FacetRestriction value does not reference a Literal"
  | .dataIntersectionOf | .dataUnionOf => cols.inspectDataAggregate id c
  | .dataComplementOf =>
    cols.inspectOperand id cols.isDataRange
      "encoded subset DataComplementOf operand is not a data range"
  | .dataOneOf =>
    cols.inspectMembersTerm id 1 (cols.tagIs · .literal)
      "encoded subset DataOneOf value does not reference a Literal"
  | .datatypeRestriction => cols.inspectDatatypeRestriction id
  | .objectComplementOf => cols.inspectComplement id
  | .objectOneOf =>
    cols.inspectMembersTerm id 1 cols.isSupportedIndividual
      "encoded subset ObjectOneOf item is not an individual"
  | .objectHasValue =>
    cols.inspectOperands id
      cols.isSupportedObjectPropertyExpression
      ("encoded subset ObjectHasValue property is not a supported object property " ++
        "expression")
      cols.isSupportedIndividual "encoded subset ObjectHasValue value is not an individual"
  | .objectHasSelf =>
    cols.inspectOperand id cols.isSupportedObjectPropertyExpression
      ("encoded subset ObjectHasSelf property is not a supported object property " ++
        "expression")
  | .objectIntersectionOf | .objectUnionOf => cols.inspectAggregate id
  | .objectSomeValuesFrom | .objectAllValuesFrom => cols.inspectRestriction id
  | .objectMinCardinality | .objectMaxCardinality => cols.inspectCardinality id
  | .swrlVariable =>
    cols.inspectOperand id (cols.tagIs · .iri)
      "encoded subset Variable does not reference an IRI"
  | .classAtom => cols.inspectClassAtom id
  | .dataRangeAtom =>
    cols.inspectOperands id
      cols.isDataRange "encoded subset DataRangeAtom predicate is not a data range"
      cols.isSwrlDataArgument "encoded subset DataRangeAtom argument is not a data argument"
  | .objectPropertyAtom => cols.inspectObjectPropertyAtom id
  | .dataPropertyAtom => cols.inspectDataPropertyAtom id
  | .builtInAtom => cols.inspectBuiltInAtom id
  | .sameIndividualAtom | .differentIndividualsAtom => cols.inspectIndividualAtom id c
  | .swrlRule => cols.inspectRule id
  | .declaration => cols.inspectDeclaration id
  | .subClassOf => cols.inspectSubClassOf id
  | .equivalentClasses => cols.inspectEquivalentClasses id
  | .disjointClasses => cols.inspectDisjointClasses id
  | .disjointUnion => cols.inspectDisjointUnion id
  | .equivalentObjectProperties | .disjointObjectProperties =>
    cols.inspectMembers id cols.isSupportedObjectPropertyExpression
      ("encoded subset " ++ c.name ++ " item is not a supported " ++
        "object property expression")
  | .subObjectPropertyOf => cols.inspectRoleAxiom id true
  | .inverseObjectProperties => cols.inspectRoleAxiom id false
  | .objectPropertyDomain | .objectPropertyRange => cols.inspectDomainRange id
  | .functionalObjectProperty | .inverseFunctionalObjectProperty | .reflexiveObjectProperty
  | .irreflexiveObjectProperty | .symmetricObjectProperty | .asymmetricObjectProperty
  | .transitiveObjectProperty => cols.inspectCharacteristic id c
  | .subDataPropertyOf =>
    cols.inspectBinary id
      cols.isNamedDataProperty
      "encoded subset SubDataPropertyOf sub-property is not a data property"
      cols.isNamedDataProperty
      "encoded subset SubDataPropertyOf super-property is not a data property"
  | .equivalentDataProperties | .disjointDataProperties =>
    cols.inspectMembers id cols.isNamedDataProperty
      ("encoded subset " ++ c.name ++ " item is not a data property")
  | .dataPropertyDomain => cols.inspectDataPropertyDomain id
  | .dataPropertyRange =>
    cols.inspectBinary id
      cols.isNamedDataProperty "encoded subset DataPropertyRange property is not a data property"
      cols.isDataRange "encoded subset DataPropertyRange range is not a data range"
  | .functionalDataProperty =>
    cols.inspectUnary id cols.isNamedDataProperty
      "encoded subset FunctionalDataProperty property is not a data property"
  | .datatypeDefinition =>
    cols.inspectBinary id
      cols.isNamedDatatype
      "encoded subset DatatypeDefinition datatype is not a named datatype"
      cols.isDataRange "encoded subset DatatypeDefinition definition is not a data range"
  | .hasKey => cols.inspectHasKey id
  | .sameIndividual | .differentIndividuals =>
    cols.inspectMembers id cols.isSupportedIndividual
      ("encoded subset " ++ c.name ++ " item is not an individual")
  | .classAssertion => cols.inspectClassAssertion id
  | .objectPropertyAssertion => cols.inspectObjectPropertyAssertion id
  | .negativeObjectPropertyAssertion =>
    cols.inspectTernary id
      cols.isSupportedObjectPropertyExpression
      ("encoded subset NegativeObjectPropertyAssertion property is not a supported " ++
        "object property expression")
      cols.isSupportedIndividual
      "encoded subset NegativeObjectPropertyAssertion source is not an individual"
      cols.isSupportedIndividual
      "encoded subset NegativeObjectPropertyAssertion target is not an individual"
  | .dataPropertyAssertion | .negativeDataPropertyAssertion => cols.inspectDataAssertion id c
  | .annotationAssertion =>
    cols.inspectTernary id
      cols.isNamedAnnotationProperty
      "encoded subset AnnotationAssertion property is not an annotation property"
      (cols.tagIn · [.iri, .anonymousIndividual])
      "encoded subset AnnotationAssertion subject has the wrong constructor"
      (cols.tagIn · annotationValueTags)
      "encoded subset AnnotationAssertion value has the wrong constructor"
  | .subAnnotationPropertyOf =>
    cols.inspectBinary id
      cols.isNamedAnnotationProperty
      ("encoded subset SubAnnotationPropertyOf sub-property is not an annotation " ++
        "property")
      cols.isNamedAnnotationProperty
      ("encoded subset SubAnnotationPropertyOf super-property is not an annotation " ++
        "property")
  | .annotationPropertyDomain => cols.inspectAnnotationDomain id c "domain"
  | .annotationPropertyRange => cols.inspectAnnotationDomain id c "range"
  | .objectExactCardinality | .dataSomeValuesFrom | .dataAllValuesFrom | .dataHasValue
  | .dataMinCardinality | .dataMaxCardinality | .dataExactCardinality =>
    pure (some "encoded subset contains a constructor outside the executable axiom slice")

/-- `_inspect_node` -/
def inspectNode (id : Nat) : Inspection := do
  let tag ← cols.nodeTag id
  match Constructor.ofTag? tag with
  | some c => cols.inspectConstructor id c
  | none =>
    .error (.snapshotCompatibility "encoded subset constructor tag is outside the frozen schema"
      [("node_id", .number id), ("tag", .number tag)])

/-- Inspect some nodes; the first reason to fall back is the one reported. -/
def inspectNodes : List Nat → Inspection
  | [] => pure none
  | id :: rest => do
    let reason ← cols.inspectNode id
    let others ← inspectNodes rest
    pure (reason <|> others)

end Columns

end Projector.Encoded
