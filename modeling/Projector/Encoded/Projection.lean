import Projector.Encoded.Preflight

namespace Projector.Encoded
open Lib Projector.Core Compiler

structure SubclassProjection where
  source : String
  relation : String
  destination : String
  restriction : Bool
  deriving DecidableEq, Repr

structure EquivalentOperand where
  tag : Nat
  nodeId : Nat
  first : String
  second : Option String
  ignored : Bool
  deriving DecidableEq, Repr

structure EquivalentProjection where
  subject : String
  destination : Option String
  operands : List EquivalentOperand
  deriving DecidableEq, Repr

structure EncodedRoleAxiom where
  tag : Nat
  nodeId : Nat
  first : String
  second : String
  owlapiHash : Int
  canonicalOrder : Nat
  deriving DecidableEq, Repr

namespace Columns
variable (cols : Columns)

section Expressions

/-- The sort key of an operand: its type index, and its IRI or its identifier. -/
abbrev OperandKey := Nat ×ₗ Bytes

def EXPRESSION_ORDER : List (Nat × Nat) :=
  [(Constructor.tag .objectIntersectionOf, 3001), (Constructor.tag .objectUnionOf, 3002),
   (Constructor.tag .objectComplementOf, 3999), (Constructor.tag .objectOneOf, 3999),
   (Constructor.tag .objectSomeValuesFrom, 3005), (Constructor.tag .objectAllValuesFrom, 3006),
   (Constructor.tag .objectHasValue, 3999), (Constructor.tag .objectHasSelf, 3999),
   (Constructor.tag .objectMinCardinality, 3008), (Constructor.tag .objectMaxCardinality, 3010)]

/-- The key of an expression that is not a named class: identifiers have four bytes. -/
def expressionOrderKey (tag id : Nat) : Read OperandKey :=
  match EXPRESSION_ORDER.lookup tag with
  | none => .error (.builtin "KeyError")
  | some order =>
    if id < 4294967296 then .ok (toLex (order, bigEndian 4 id))
    else .error (.builtin "OverflowError")

def expressionKey (id : Nat) : Read OperandKey := do
  match ← cols.namedClassIri id with
  | some iri => pure (toLex (1001, utf8 iri))
  | none => do
    let tag ← cols.nodeTag id
    expressionOrderKey tag id

/-- A list sorted by a key that may fail to be computed. -/
def sortByKey {α : Type} (key : α → Read OperandKey) (xs : List α) : Read (List α) := do
  let keyed ← xs.mapM fun x => do
    let k ← key x
    pure (k, x)
  pure ((sortOn Prod.fst keyed).map Prod.snd)

def shapeChanged {α : Type} (shape : String) : Read α :=
  reject ("encoded subset " ++ shape ++ " shape changed after successful preflight")

/-- The index of the property field of a restriction; the filler follows it. -/
def restrictionIndex (id : Nat) : Read Nat := do
  let quantified ← cols.tagIn id [.objectSomeValuesFrom, .objectAllValuesFrom]
  let counted ← cols.tagIn id [.objectMinCardinality, .objectMaxCardinality]
  if quantified then cols.exactFields id 2
  else if counted then do
    let start ← cols.exactFields id 3
    cols.canonicalIntegerBytes start
    pure (start + 1)
  else reject "encoded subset batch cursor does not reference a supported restriction"

/-- The relation and the filler of a restriction. -/
def restrictionIris (id : Nat) : Read (String × String) := do
  let index ← cols.restrictionIndex id
  let relation ← cols.projectedObjectPropertyIri (← cols.fieldNode index)
  let destination ← cols.namedClassIri (← cols.fieldNode (index + 1))
  match relation, destination with
  | some relation, some destination => pure (relation, destination)
  | _, _ => shapeChanged "restriction"

/-- A restriction on one side of a subclass axiom. -/
def restrictionProjection (subject : String) (id : Nat) : Read (Option SubclassProjection) := do
  let restriction ← cols.tagIn id restrictionTags
  if restriction then do
    let (relation, destination) ← cols.restrictionIris id
    pure (some ⟨subject, relation, destination, true⟩)
  else pure none

def wrongCursor (shape : String) : String :=
  "encoded subset batch cursor does not reference " ++ shape

def subclassProjection (id : Nat) : Read (Option SubclassProjection) := do
  let isSub ← cols.tagIs id .subClassOf
  demand isSub (wrongCursor "SubClassOf")
  let start ← cols.exactFields id 3
  let subId ← cols.fieldNode start
  let superId ← cols.fieldNode (start + 1)
  let sub ← cols.namedClassIri subId
  let sup ← cols.namedClassIri superId
  match sub, sup with
  | some sub, some sup => pure (some ⟨sub, SUBCLASS_OF, sup, false⟩)
  | some sub, none => cols.restrictionProjection sub superId
  | none, some sup => cols.restrictionProjection sup subId
  | none, none => pure none

def aggregateOperand (id : Nat) : Read EquivalentOperand := do
  let tag ← cols.nodeTag id
  let isEntity ← cols.tagIs id .entity
  let nonprojecting ← cols.tagIn id nonprojectingTags
  if isEntity then do
    match ← cols.namedClassIri id with
    | some iri => pure ⟨tag, id, iri, none, false⟩
    | none => reject "encoded subset aggregate operand changed after preflight"
  else if nonprojecting then pure ⟨tag, id, "", none, true⟩
  else do
    let (relation, destination) ← cols.restrictionIris id
    pure ⟨tag, id, relation, some destination, false⟩

def operandKey (operand : EquivalentOperand) : Read OperandKey :=
  if operand.tag = Constructor.tag .entity then pure (toLex (1001, utf8 operand.first))
  else expressionOrderKey operand.tag operand.nodeId

def aggregateOperands (id : Nat) : Read (List EquivalentOperand) := do
  let aggregate ← cols.tagIn id aggregateTags
  demand aggregate (wrongCursor "an aggregate expression")
  let start ← cols.exactFields id 1
  let ids ← cols.nodeSet start 2
  let operands ← ids.mapM cols.aggregateOperand
  sortByKey operandKey operands

def equivalentProjection (id : Nat) : Read (Option EquivalentProjection) := do
  let equivalent ← cols.tagIs id .equivalentClasses
  demand equivalent (wrongCursor "EquivalentClasses")
  let start ← cols.exactFields id 2
  let ids ← cols.nodeSet start 2
  let expressions ← sortByKey cols.expressionKey ids
  match expressions with
  | firstId :: secondId :: _ => do
    let first ← cols.namedClassIri firstId
    let second ← cols.namedClassIri secondId
    match first, second with
    | some first, some second => pure (some ⟨first, some second, []⟩)
    | some first, none => do
      let aggregate ← cols.tagIn secondId aggregateTags
      if aggregate then do
        let operands ← cols.aggregateOperands secondId
        pure (some ⟨first, none, operands⟩)
      else pure none
    | none, _ => pure none
  | _ => .error (.builtin "ValueError")

end Expressions

section Assertions

def classAssertionIris (id : Nat) : Read (Option (String × String)) := do
  let assertion ← cols.tagIs id .classAssertion
  demand assertion (wrongCursor "ClassAssertion")
  let start ← cols.exactFields id 3
  let classIri ← cols.namedClassIri (← cols.fieldNode start)
  let individual ← cols.namedIndividualIri (← cols.fieldNode (start + 1))
  match classIri, individual with
  | some classIri, some individual => pure (some (individual, classIri))
  | _, _ => pure none

/-- Generated identifiers by node. -/
abbrev AnonymousIds := Dict Nat String

def individualId (anonymousIds : AnonymousIds) (id : Nat) : Read (Option String) := do
  match ← cols.namedIndividualIri id with
  | some iri => pure (some iri)
  | none => do
    let anonymous ← cols.tagIs id .anonymousIndividual
    if !anonymous then pure none
    else
      match anonymousIds.lookup id with
      | some blankId => pure (some blankId)
      | none => reject "encoded subset anonymous individual lost its generated identifier"

def objectPropertyAssertionIris (anonymousIds : AnonymousIds) (id : Nat) :
    Read (String × String × String) := do
  let assertion ← cols.tagIs id .objectPropertyAssertion
  demand assertion (wrongCursor "ObjectPropertyAssertion")
  let start ← cols.exactFields id 4
  let propertyIri ← cols.namedObjectPropertyIri (← cols.fieldNode start)
  let source ← cols.individualId anonymousIds (← cols.fieldNode (start + 1))
  let target ← cols.individualId anonymousIds (← cols.fieldNode (start + 2))
  match propertyIri, source, target with
  | some propertyIri, some source, some target => pure (source, propertyIri, target)
  | _, _, _ => reject "encoded subset ObjectPropertyAssertion shape changed after preflight"

/-- The rendering of an annotation value, and whether it is a literal that is not text. -/
def annotationValue (anonymousIds : AnonymousIds) (id : Nat) : Read (String × Bool) := do
  let isIri ← cols.tagIs id .iri
  let anonymous ← cols.tagIs id .anonymousIndividual
  if isIri then do
    let text ← cols.iriText id
    pure (text, false)
  else if anonymous then
    match anonymousIds.lookup id with
    | some blankId => pure (blankId, false)
    | none =>
      reject "encoded subset anonymous annotation value lost its generated identifier"
  else do
    let (lexical, datatype) ← cols.literalParts id
    if datatype = XSD_STRING_IRI ∨ datatype = RDF_PLAIN_LITERAL_IRI then pure (lexical, false)
    else pure (renderTypedLiteral lexical datatype, true)

def annotationAssertionEdge (classIris : List String) (anonymousIds : AnonymousIds) (id : Nat) :
    Read (Option (Edge String) × Bool) := do
  let assertion ← cols.tagIs id .annotationAssertion
  demand assertion (wrongCursor "AnnotationAssertion")
  let start ← cols.exactFields id 4
  let propertyIri ← cols.namedAnnotationPropertyIri (← cols.fieldNode start)
  let subjectId ← cols.fieldNode (start + 1)
  let subjectIsIri ← cols.tagIs subjectId .iri
  let subject ← if subjectIsIri then some <$> cols.iriText subjectId else pure none
  let subjectKnown ← cols.tagIn subjectId [.iri, .anonymousIndividual]
  match propertyIri with
  | none => reject "encoded subset AnnotationAssertion shape changed after preflight"
  | some propertyIri =>
    if !subjectKnown then
      reject "encoded subset AnnotationAssertion shape changed after preflight"
    else
      match subject with
      | none => pure (none, false)
      | some subject =>
        if !classIris.contains subject || !annotationProperties.contains propertyIri then
          pure (none, false)
        else do
          let (destination, nonString) ←
            cols.annotationValue anonymousIds (← cols.fieldNode (start + 2))
          pure (some ⟨subject, annotationRelation propertyIri, destination⟩, nonString)

/-- The property and the class of a domain or range axiom, when both are named. -/
def propertyClassIris (c : Constructor) (id : Nat) : Read (Option (String × String)) := do
  let expected ← cols.tagIs id c
  demand expected (wrongCursor "a domain/range axiom")
  let start ← cols.exactFields id 3
  let propertyId ← cols.fieldNode start
  let propertyIri ← cols.namedObjectPropertyIri propertyId
  let classIri ← cols.namedClassIri (← cols.fieldNode (start + 1))
  let inverse ← cols.tagIs propertyId .objectInverseOf
  match propertyIri, classIri with
  | none, _ => if inverse then pure none else shapeChanged "domain/range"
  | some _, none => pure none
  | some propertyIri, some classIri => pure (some (propertyIri, classIri))

def domainIris := cols.propertyClassIris .objectPropertyDomain
def rangeIris := cols.propertyClassIris .objectPropertyRange

end Assertions

section Indexes

/-- The named domains and ranges by property, and the axioms that have no entry. -/
structure PropertyIndex where
  domains : ClassIndex
  ranges : ClassIndex
  ignoredShapes : Dict String Nat

/-- `_domain_range_index` -/
def domainRangeIndex : List Root → PropertyIndex → Read PropertyIndex
  | [], index => pure index
  | (_, id) :: rest, index => do
    let domain ← cols.tagIs id .objectPropertyDomain
    let range ← cols.tagIs id .objectPropertyRange
    if domain then
      match ← cols.domainIris id with
      | none =>
        domainRangeIndex rest
          { index with ignoredShapes := index.ignoredShapes.increment "ObjectPropertyDomain" }
      | some (propertyIri, classIri) =>
        domainRangeIndex rest { index with domains := index.domains.addTo propertyIri classIri }
    else if range then
      match ← cols.rangeIris id with
      | none =>
        domainRangeIndex rest
          { index with ignoredShapes := index.ignoredShapes.increment "ObjectPropertyRange" }
      | some (propertyIri, classIri) =>
        domainRangeIndex rest { index with ranges := index.ranges.addTo propertyIri classIri }
    else domainRangeIndex rest index

def skippedTags : List Constructor :=
  [.equivalentObjectProperties, .disjointObjectProperties, .functionalObjectProperty,
   .inverseFunctionalObjectProperty, .reflexiveObjectProperty, .irreflexiveObjectProperty,
   .symmetricObjectProperty, .asymmetricObjectProperty, .transitiveObjectProperty,
   .subDataPropertyOf, .equivalentDataProperties, .disjointDataProperties,
   .dataPropertyDomain, .dataPropertyRange, .functionalDataProperty, .datatypeDefinition,
   .hasKey, .disjointClasses, .disjointUnion, .sameIndividual, .differentIndividuals,
   .negativeObjectPropertyAssertion, .dataPropertyAssertion, .negativeDataPropertyAssertion,
   .subAnnotationPropertyOf, .annotationPropertyDomain, .annotationPropertyRange]

/-- `_skipped_axiom_index` -/
def skippedAxiomIndex : List Root → Dict String Nat → Read (Dict String Nat)
  | [], skipped => pure skipped
  | (_, id) :: rest, skipped => do
    let tag ← cols.nodeTag id
    match skippedTags.find? (·.tag == tag) with
    | none => skippedAxiomIndex rest skipped
    | some c => skippedAxiomIndex rest (skipped.increment c.name)

/-- `_role_axiom_parts`, combined into the row of the axiom. -/
def roleAxiomRow (c : Constructor) (id order : Nat) : Read EncodedRoleAxiom := do
  let start ← cols.exactFields id 3
  let first ← cols.projectedObjectPropertyParts (← cols.fieldNode start)
  let second ← cols.projectedObjectPropertyParts (← cols.fieldNode (start + 1))
  match first, second with
  | some (first, firstHash), some (second, secondHash) => do
    let annotationHash ← cols.annotationSetHash (start + 2)
    let hash := if c = .subObjectPropertyOf then combine 1823 [firstHash, secondHash, annotationHash]
      else combine 1229 [int32 (firstHash + secondHash), annotationHash]
    pure ⟨c.tag, id, first, second, hash, order⟩
  | _, _ => shapeChanged "role axiom"

structure RoleRows where
  rows : List EncodedRoleAxiom
  ignoredChains : Nat
  count : Nat

def isChainAxiom (id : Nat) : Read Bool := do
  let start ← cols.exactFields id 3
  cols.tagIs (← cols.fieldNode start) .objectPropertyChain

/-- The role axioms of the roots from `order` on. Chains are counted but have no row. -/
def roleRows : List Root → Nat → Read RoleRows
  | [], _ => pure ⟨[], 0, 0⟩
  | (_, id) :: rest, order => do
    let sub ← cols.tagIs id .subObjectPropertyOf
    let inverse ← cols.tagIs id .inverseObjectProperties
    if !sub && !inverse then roleRows rest (order + 1)
    else do
      let chain ← if sub then cols.isChainAxiom id else pure false
      if chain then do
        let found ← roleRows rest (order + 1)
        pure ⟨found.rows, found.ignoredChains + 1, found.count + 1⟩
      else do
        let c := if sub then .subObjectPropertyOf else .inverseObjectProperties
        let row ← cols.roleAxiomRow c id order
        let found ← roleRows rest (order + 1)
        pure ⟨row :: found.rows, found.ignoredChains, found.count + 1⟩

abbrev RowKey := Nat ×ₗ Nat ×ₗ Nat

def rowKey (capacity : Nat) (row : EncodedRoleAxiom) : RowKey :=
  toLex (spreadOf row.owlapiHash &&& (capacity - 1),
    toLex (spreadOf row.owlapiHash, row.canonicalOrder))

/-- `_role_axioms`: ignored chains still occupy the scalar hash set and can grow its
table, which changes the visitation order of unrelated role axioms. -/
def roleAxioms (roots : List Root) : Read (List EncodedRoleAxiom × Nat) := do
  let found ← cols.roleRows roots 0
  pure (sortOn (rowKey (hashsetCapacity found.count)) found.rows, found.ignoredChains)

end Indexes

section Cursor

/-- The canonical bytes of a scalar field, in a table without a scope map. -/
def scalarPart (index kind : Nat) : Read Bytes := do
  let payload ← cols.scalarPayload index kind
  pure (UInt8.ofNat kind :: sized payload)

/-- The fields of an anonymous individual: both are scalars of bytes. -/
def anonymousBytes (id : Nat) : Read Bytes := do
  let tag ← cols.nodeTag id
  let (start, stop) ← cols.fieldRange id
  let parts ← (List.range' start (stop - start)).mapM fun index =>
    cols.scalarPart index COMPONENT_BYTES
  pure (varint tag ++ parts.flatten)

/-- The check of `_merge_node_groups` on one group. -/
def demandStrictNodes : List Nat → Read Unit
  | first :: second :: rest => do
    let left ← cols.anonymousBytes first
    let right ← cols.anonymousBytes second
    demand (decide (left < right))
      "encoded subset canonical node group is not strictly sorted and unique"
    demandStrictNodes (second :: rest)
  | _ => pure ()

def anonymousNodes (ids : List Nat) : Read (List Nat) := do
  let tagged ← ids.mapM fun id => do
    let anonymous ← cols.tagIs id .anonymousIndividual
    pure (id, anonymous)
  pure ((tagged.filter Prod.snd).map Prod.fst)

/-- `_anonymous_id_maps` for one group: the anonymous nodes that the axiom roots reach. -/
def anonymousIdMap (axiomRoots : List Nat) : Read AnonymousIds := do
  let reachable ← cols.reachableNodeIds axiomRoots
  let ids ← cols.anonymousNodes (sortOn id reachable)
  cols.demandStrictNodes ids
  pure (ids.zipIdx.foldl (fun map (id, k) => map.insert id (genid k)) ∅)

/-- `class_iris` -/
def classIris (reachable : List Nat) : Read (List String) := do
  let iris ← (sortOn id reachable).mapM cols.namedClassIri
  pure (iris.filterMap id)

end Cursor

end Columns

end Projector.Encoded
