import Projector.Lib.Generator
import Projector.Compiler.RoleState

namespace Projector.Compiler
open Lib Projector.Core

inductive CompatibilityState where
  | isolated
  | scalaInstance
  deriving DecidableEq, Repr

structure ProjectionOptions where
  bidirectionalTaxonomy : Bool
  onlyTaxonomy : Bool
  includeLiterals : Bool
  compatibilityState : CompatibilityState
  deriving DecidableEq, Repr

/-- What the compiler reads of a core view: every `iter_axioms` and `signature` call
it makes. -/
structure OntologyView where
  closure : List Node
  closureOf : Constructor → List Node
  rootOf : Constructor → List Node
  classSignature : List Node

inductive Detail where
  | text (value : String)
  | number (value : Nat)
  deriving DecidableEq, Repr

abbrev Details := List (String × Detail)

inductive CompileError where
  | unicodeEncode
  | unsupportedAxiomShape (message : String) (details : Details)
  | snapshotCompatibility (message : String) (details : Details)
  | builtin (exception : String)
  deriving DecidableEq, Repr

inductive Severity where
  | info
  | warning
  deriving DecidableEq, Repr

def Severity.text : Severity → String
  | .info => "info"
  | .warning => "warning"

/-- What diagnostics are grouped by. -/
structure DiagnosticKey where
  code : String
  message : String
  severity : Severity
  constructor : String
  deriving DecidableEq, Repr

structure ProjectionDiagnostic where
  code : String
  message : String
  severity : Severity
  count : Nat
  constructor : String
  deriving DecidableEq, Repr

abbrev DiagnosticBag := Dict DiagnosticKey Nat

namespace DiagnosticBag

abbrev SortKey := Bytes ×ₗ Bytes ×ₗ Bytes ×ₗ Bytes

/-- Tuples of texts compare by code points, that is by their UTF-8 bytes. -/
def sortKey (k : DiagnosticKey) : SortKey :=
  toLex (utf8 k.code, toLex (utf8 k.message, toLex (utf8 k.severity.text, utf8 k.constructor)))

def freeze (bag : DiagnosticBag) : List ProjectionDiagnostic :=
  (sortOn (fun item => sortKey item.1) bag.items).map fun (k, count) =>
    ⟨k.code, k.message, k.severity, count, k.constructor⟩

end DiagnosticBag

def SUBCLASS_OF : String := "http://subclassof"
def SUPERCLASS_OF : String := "http://superclassof"
def RDF_TYPE : String := "http://type"
def RDFS_NAMESPACE : String := "http://www.w3.org/2000/01/rdf-schema#"
def XSD_NAMESPACE : String := "http://www.w3.org/2001/XMLSchema#"
def XSD_STRING_IRI : String := "http://www.w3.org/2001/XMLSchema#string"
def RDF_PLAIN_LITERAL_IRI : String :=
  "http://www.w3.org/1999/02/22-rdf-syntax-ns#PlainLiteral"

def annotationProperties : List String :=
  ["http://www.w3.org/2000/01/rdf-schema#label",
   "http://www.w3.org/2004/02/skos/core#prefLabel",
   "rdfs:label",
   "rdfs:comment",
   "http://purl.obolibrary.org/obo/IAO_0000111",
   "http://purl.obolibrary.org/obo/IAO_0000589",
   "http://www.geneontology.org/formats/oboInOwl#hasRelatedSynonym",
   "http://www.geneontology.org/formats/oboInOwl#hasExactSynonym",
   "http://www.geneontology.org/formats/oboInOWL#hasExactSynonym",
   "http://purl.bioontology.org/ontology/SYN#synonym",
   "http://scai.fraunhofer.de/CSEO#Synonym",
   "http://purl.obolibrary.org/obo/synonym",
   "http://ncicb.nci.nih.gov/xml/owl/EVS/Thesaurus.owl#FULL_SYN",
   "http://www.ebi.ac.uk/efo/alternative_term",
   "http://ncicb.nci.nih.gov/xml/owl/EVS/Thesaurus.owl#Synonym",
   "http://bioontology.org/projects/ontologies/fma/fmaOwlDlComponent_2_0#Synonym",
   "http://www.geneontology.org/formats/oboInOwl#hasDefinition",
   "http://bioontology.org/projects/ontologies/birnlex#preferred_label",
   "http://bioontology.org/projects/ontologies/birnlex#synonyms",
   "http://www.w3.org/2004/02/skos/core#altLabel",
   "https://cfpub.epa.gov/ecotox#latinName",
   "https://cfpub.epa.gov/ecotox#commonName",
   "https://www.ncbi.nlm.nih.gov/taxonomy#scientific_name",
   "https://www.ncbi.nlm.nih.gov/taxonomy#synonym",
   "https://www.ncbi.nlm.nih.gov/taxonomy#equivalent_name",
   "https://www.ncbi.nlm.nih.gov/taxonomy#genbank_synonym",
   "https://www.ncbi.nlm.nih.gov/taxonomy#common_name",
   "http://purl.obolibrary.org/obo/IAO_0000118",
   "http://www.w3.org/2000/01/rdf-schema#comment",
   "http://www.geneontology.org/formats/oboInOwl#hasDbXref",
   "http://purl.org/dc/elements/1.1/description",
   "http://purl.org/dc/terms/description",
   "http://purl.org/dc/elements/1.1/title",
   "http://purl.org/dc/terms/title",
   "http://purl.obolibrary.org/obo/IAO_0000115",
   "http://purl.obolibrary.org/obo/IAO_0000600",
   "http://purl.obolibrary.org/obo/IAO_0000602",
   "http://purl.obolibrary.org/obo/IAO_0000601",
   "http://www.geneontology.org/formats/oboInOwl#hasOBONamespace"]

section Rendering

/-- `text.removeprefix(pre)` when `text.startswith(pre)`. -/
def stripPrefix? (pre text : String) : Option String :=
  if pre.toList.isPrefixOf text.toList then
    some (String.ofList (text.toList.drop pre.toList.length))
  else none

def replaceChar (old : Char) (new : List Char) (text : List Char) : List Char :=
  text.flatMap fun c => if c = old then new else [c]

/-- `_owlapi_escape_literal` -/
def owlapiEscapeLiteral (value : String) : List Char :=
  replaceChar '\t' ['\\', 't']
    (replaceChar '\r' ['\\', 'r']
      (replaceChar '\n' ['\\', 'n']
        (replaceChar '"' ['\\', '"']
          (replaceChar '\\' ['\\', '\\'] value.toList))))

def renderDatatype (datatype : String) : String :=
  match stripPrefix? XSD_NAMESPACE datatype with
  | some rest => "xsd:" ++ rest
  | none => "<" ++ datatype ++ ">"

/-- The malformed rendering of a literal that is not plain text. -/
def renderTypedLiteral (lexicalForm datatype : String) : String :=
  let rendered := ['"'] ++ owlapiEscapeLiteral lexicalForm ++ "\"^^".toList ++
    (renderDatatype datatype).toList
  let stripped := replaceChar '\\' [] rendered
  if stripped.head? = some '"' ∨ stripped.head? = some '<' then
    String.ofList (stripped.drop 1).dropLast
  else String.ofList stripped

def annotationRelation (propertyIri : String) : String :=
  match stripPrefix? RDFS_NAMESPACE propertyIri with
  | some rest => "rdfs:" ++ rest
  | none => propertyIri

def hexDigits : List Char :=
  ['0', '1', '2', '3', '4', '5', '6', '7', '8', '9', 'a', 'b', 'c', 'd', 'e', 'f']

def hexText (payload : Bytes) : String :=
  String.ofList (payload.flatMap fun b =>
    [hexDigits.getD (b.toNat / 16) '0', hexDigits.getD (b.toNat % 16) '0'])

/-- `_core_blank_id`: the name of an anonymous individual that has no number. -/
def coreBlankId (value : Node) : String :=
  let key := (fromUtf8? (value.payload 1)).getD (hexText (value.payload 1))
  if "_:".toList.isPrefixOf key.toList then key else "_:" ++ key

def genid (index : Nat) : String := "_:genid" ++ toString (2147483648 + index)

/-- Blank ids count the distinct anonymous individuals in canonical order. -/
def numberAnonymous (values : List Node) : Dict Node String :=
  (canonicalSort values.eraseDups).zipIdx.foldl (fun ids (n, k) => ids.insert n (genid k)) ∅

end Rendering

/-- Prepared invocation retaining references to the original core nodes. -/
structure Compilation where
  view : OntologyView
  options : ProjectionOptions
  roleState : RoleState
  subclasses : List Node
  equivalents : List Node
  annotations : List Node
  classAssertions : List Node
  objectAssertions : List Node
  domains : List Node
  ranges : List Node
  classIris : List String
  blankIds : Dict Node String
  statistics : CompileStatistics
  diagnosticBag : DiagnosticBag
  «lazy» : Bool
  rolesPrepared : Bool
  closureMetadataScanned : Bool

abbrev ScalarM (α : Type) := Gen CompileError Compilation (Edge String) α

def yieldEdge (source relation destination : String) : ScalarM Unit :=
  Gen.emit ⟨source, relation, destination⟩

def ignoredShape (constructor : String) : DiagnosticKey :=
  ⟨"MOWL_IGNORED_SHAPE", "constructor does not emit an edge in the pinned profile", .info,
    constructor⟩

def skippedAxiom (constructor : String) : DiagnosticKey :=
  ⟨"MOWL_SKIPPED_AXIOM", "axiom category is not visited by the pinned profile", .info,
    constructor⟩

def nonStringLiteral : DiagnosticKey :=
  ⟨"MOWL_NON_STRING_LITERAL_RENDERING",
    "pinned mOWL rendering preserves malformed datatype syntax", .warning, "Literal"⟩

def ignore (value : Node) : ScalarM Unit :=
  Gen.modify fun c =>
    { c with
      statistics := c.statistics.ignore
      diagnosticBag := c.diagnosticBag.increment (ignoredShape (typeName value)) }

/-- The constructors that the profile visits. -/
def isSelected (c : Constructor) : Bool :=
  [.subClassOf, .equivalentClasses, .classAssertion, .objectPropertyAssertion,
    .objectPropertyDomain, .objectPropertyRange, .subObjectPropertyOf,
    .inverseObjectProperties].contains c

def notCoreAxiom (value : Node) : CompileError :=
  .snapshotCompatibility "iter_axioms() yielded a non-core structural axiom"
    [("constructor", .text (typeName value))]

/-- The counters a scan over the closure keeps for axioms it does not select. -/
structure ScanCounts where
  skippedAxioms : Nat
  bag : DiagnosticBag

def scanAxiom (counts : ScanCounts) (value : Node) : Except CompileError ScanCounts :=
  if isSelected value.constructor || value.isOf .declaration || value.isOf .annotationAssertion then
    .ok counts
  else if value.constructor.isAxiom then
    .ok ⟨counts.skippedAxioms + 1, counts.bag.increment (skippedAxiom (typeName value))⟩
  else .error (notCoreAxiom value)

/-- `_iter_axioms(view, root=False, axiom_type=...)`, with the type test of its users. -/
def closureAxioms (view : OntologyView) (c : Constructor) : List Node :=
  (view.closureOf c).filter (·.isOf c)

/-- The role axioms, fetched type by type. -/
def fetchedRbox (view : OntologyView) : List Node :=
  closureAxioms view .subObjectPropertyOf ++ closureAxioms view .inverseObjectProperties

def ensureRoles : ScalarM Unit := do
  let c ← Gen.gets id
  if c.rolesPrepared then pure ()
  else
    match updateRoleState (fetchedRbox c.view) c.roleState c.statistics with
    | none => Gen.raise .unicodeEncode
    | some (roleState, statistics) =>
      Gen.modify fun c => { c with
        roleState := roleState
        statistics := statistics
        rolesPrepared := true }

/-- Eagerly apply the role-map lifecycle for stateful compatibility calls. -/
def prepareRoleState : ScalarM Unit := ensureRoles

/-- One scanned axiom, counted in the compilation itself. -/
def scanClosureAxiom (value : Node) : ScalarM Unit := do
  let c ← Gen.gets id
  match scanAxiom ⟨c.statistics.skippedAxioms, c.diagnosticBag⟩ value with
  | .error e => Gen.raise e
  | .ok counts =>
    Gen.modify fun c => { c with
      statistics := { c.statistics with skippedAxioms := counts.skippedAxioms }
      diagnosticBag := counts.bag }

def scanClosureMetadata : ScalarM Unit := do
  let c ← Gen.gets id
  if c.closureMetadataScanned then pure ()
  else do
    Gen.each c.view.closure scanClosureAxiom
    Gen.modify fun c => { c with
      blankIds := numberAnonymous (c.view.closure.flatMap Node.anonymousValues)
      closureMetadataScanned := true }

def individualId (value : Node) : ScalarM String := do
  if value.isEntity .namedIndividual then pure value.entityIri
  else do
    let c ← Gen.gets id
    Gen.when (c.lazy && !c.closureMetadataScanned) scanClosureMetadata
    Gen.gets fun c => c.blankIds.getOr value (coreBlankId value)

def isRestriction (c : Constructor) : Bool :=
  [.objectSomeValuesFrom, .objectAllValuesFrom, .objectMinCardinality,
    .objectMaxCardinality].contains c

/-- `expression.property` of a restriction; cardinalities come first. -/
def restrictionProperty (expression : Node) : Node :=
  match expression.constructor with
  | .objectMinCardinality | .objectMaxCardinality => expression.child 1
  | _ => expression.child 0

def restrictionFiller (expression : Node) : Node :=
  match expression.constructor with
  | .objectMinCardinality | .objectMaxCardinality => expression.child 2
  | _ => expression.child 1

/-- The relation and the filler class of a restriction that yields edges. -/
def restrictionParts? (expression : Node) : Option (String × String) :=
  if isRestriction expression.constructor && (restrictionFiller expression).isEntity .classEntity then
    (namedProperty? (restrictionProperty expression)).map fun relation =>
      (relation, (restrictionFiller expression).entityIri)
  else none

def restrictionEdges (subject : String) (expression : Node) : ScalarM (List (Edge String)) :=
  match restrictionParts? expression with
  | none => pure []
  | some (relation, filler) => do
    ensureRoles
    Gen.gets fun c => roleEdges c.roleState subject relation filler

/-- Yield the edges of a restriction; one that has none is an ignored shape of `owner`. -/
def restrictionOrIgnore (owner : Node) (subject : String) (expression : Node) : ScalarM Unit := do
  let edges ← restrictionEdges subject expression
  Gen.emitAll edges
  Gen.when edges.isEmpty (ignore owner)

/-- A named subclass edge and, when asked for, its converse. -/
def taxonomyEdges (bidirectional : Bool) (sub sup : String) : List (Edge String) :=
  ⟨sub, SUBCLASS_OF, sup⟩ :: if bidirectional then [⟨sup, SUPERCLASS_OF, sub⟩] else []

def subclassEdges (options : ProjectionOptions) (axiomNode : Node) : ScalarM Unit :=
  let sub := axiomNode.child 0
  let sup := axiomNode.child 1
  if sub.isEntity .classEntity && sup.isEntity .classEntity then
    Gen.emitAll (taxonomyEdges options.bidirectionalTaxonomy sub.entityIri sup.entityIri)
  else if options.onlyTaxonomy then ignore axiomNode
  else if sub.isEntity .classEntity then restrictionOrIgnore axiomNode sub.entityIri sup
  else if sup.isEntity .classEntity then restrictionOrIgnore axiomNode sup.entityIri sub
  else ignore axiomNode

def operandEdges (options : ProjectionOptions) (axiomNode : Node) (first : String)
    (operand : Node) : ScalarM Unit :=
  if operand.isEntity .classEntity then
    Gen.emitAll (taxonomyEdges options.bidirectionalTaxonomy first operand.entityIri)
  else if options.onlyTaxonomy then pure ()
  else restrictionOrIgnore axiomNode first operand

def equivalentEdges (options : ProjectionOptions) (axiomNode : Node) : ScalarM Unit :=
  match expressionOrder (axiomNode.items 0) with
  | first :: second :: _ =>
    if second.isEntity .classEntity then
      if first.isEntity .classEntity then
        Gen.emitAll
          (taxonomyEdges options.bidirectionalTaxonomy first.entityIri second.entityIri)
      else ignore axiomNode
    else if (second.isOf .objectIntersectionOf || second.isOf .objectUnionOf) &&
        first.isEntity .classEntity then
      Gen.each (expressionOrder (second.items 0))
        (operandEdges options axiomNode first.entityIri)
    else ignore axiomNode
  | _ => ignore axiomNode

def annotationValue (value : Node) : ScalarM String :=
  match value.constructor with
  | .iri => pure (value.text 0)
  | .anonymousIndividual => individualId value
  | _ =>
    let datatype := (value.child 1).entityIri
    if datatype = XSD_STRING_IRI ∨ datatype = RDF_PLAIN_LITERAL_IRI then pure (value.text 0)
    else do
      Gen.modify fun c => { c with diagnosticBag := c.diagnosticBag.increment nonStringLiteral }
      pure (renderTypedLiteral (value.text 0) datatype)

def annotationEdge (axiomNode : Node) : ScalarM Unit := do
  let subject := axiomNode.child 1
  let known ← Gen.gets fun c => c.classIris.contains (subject.text 0)
  let propertyIri := (axiomNode.child 0).entityIri
  if !subject.isOf .iri || !known then ignore axiomNode
  else if !annotationProperties.contains propertyIri then ignore axiomNode
  else do
    let destination ← annotationValue (axiomNode.child 2)
    yieldEdge (subject.text 0) (annotationRelation propertyIri) destination

def classAssertionEdge (axiomNode : Node) : ScalarM Unit :=
  let expression := axiomNode.child 0
  let individual := axiomNode.child 1
  if individual.isEntity .namedIndividual && expression.isEntity .classEntity then
    yieldEdge individual.entityIri RDF_TYPE expression.entityIri
  else ignore axiomNode

def inverseAssertion (property : Node) : CompileError :=
  .unsupportedAxiomShape "the pinned mOWL profile fails on inverse object-property assertions"
    [("constructor", .text (typeName property)),
     ("reference_error", .text "java.lang.ClassCastException")]

def objectAssertionEdge (axiomNode : Node) : ScalarM Unit :=
  let property := axiomNode.child 0
  if property.isOf .objectInverseOf then Gen.raise (inverseAssertion property)
  else if !property.isEntity .objectProperty then ignore axiomNode
  else do
    let source ← individualId (axiomNode.child 1)
    let target ← individualId (axiomNode.child 2)
    yieldEdge source property.entityIri target

/-- The property and class of a domain or range axiom, when both are named. -/
def namedParts? (axiomNode : Node) : Option (String × String) :=
  if (axiomNode.child 0).isEntity .objectProperty && (axiomNode.child 1).isEntity .classEntity then
    some ((axiomNode.child 0).entityIri, (axiomNode.child 1).entityIri)
  else none

abbrev ClassIndex := Dict String (List String)

def indexAxiom (index : ClassIndex) (axiomNode : Node) : ScalarM ClassIndex :=
  match namedParts? axiomNode with
  | some (property, classIri) => pure (index.addTo property classIri)
  | none => do
    ignore axiomNode
    pure index

def indexAxioms : List Node → ClassIndex → ScalarM ClassIndex
  | [], index => pure index
  | axiomNode :: rest, index => do
    let index ← indexAxiom index axiomNode
    indexAxioms rest index

/-- The edges of every property with a domain and a range, in UTF-8 order. -/
def productEdges (roles : RoleState) (domains ranges : ClassIndex) : List (Edge String) :=
  (sortOn utf8 (domains.keys.filter (· ∈ ranges))).flatMap fun property =>
    (domains.getOr property []).flatMap fun domain =>
      (ranges.getOr property []).flatMap fun range => roleEdges roles domain property range

def domainRangeEdges : ScalarM Unit := do
  ensureRoles
  let domainAxioms ← Gen.gets Compilation.domains
  let domains ← indexAxioms domainAxioms ∅
  let rangeAxioms ← Gen.gets Compilation.ranges
  let ranges ← indexAxioms rangeAxioms ∅
  let roleState ← Gen.gets Compilation.roleState
  Gen.emitAll (productEdges roleState domains ranges)

def rootAnnotations (view : OntologyView) : List Node :=
  (view.rootOf .annotationAssertion).filter (·.isOf .annotationAssertion)

/-- `_class_signature` -/
def classSignatureIris (view : OntologyView) : List String :=
  (view.classSignature.filter (·.isEntity .classEntity)).map Node.entityIri

/-- Traverse canonical core categories only as consumers reach them. -/
def iterLazyRawEdges (c : Compilation) : ScalarM Unit := do
  Gen.each (closureAxioms c.view .subClassOf) (subclassEdges c.options)
  Gen.each (closureAxioms c.view .equivalentClasses) (equivalentEdges c.options)
  Gen.when c.options.includeLiterals do
    Gen.modify fun c => { c with classIris := classSignatureIris c.view }
    Gen.each (rootAnnotations c.view) annotationEdge
  Gen.each (closureAxioms c.view .classAssertion) classAssertionEdge
  Gen.each (closureAxioms c.view .objectPropertyAssertion) objectAssertionEdge
  Gen.modify fun c => { c with
    domains := closureAxioms c.view .objectPropertyDomain
    ranges := closureAxioms c.view .objectPropertyRange }
  domainRangeEdges
  -- These scans are semantically observable through state and diagnostics.
  ensureRoles
  scanClosureMetadata

/-- The categories of an eager compilation were fetched when it was prepared. -/
def iterEagerRawEdges (c : Compilation) : ScalarM Unit := do
  Gen.each c.subclasses (subclassEdges c.options)
  Gen.each c.equivalents (equivalentEdges c.options)
  Gen.when c.options.includeLiterals (Gen.each c.annotations annotationEdge)
  Gen.each c.classAssertions classAssertionEdge
  Gen.each c.objectAssertions objectAssertionEdge
  domainRangeEdges

/-- Yield deterministic encounter-order edges category by category. -/
def iterRawEdges : ScalarM Unit := do
  let c ← Gen.gets id
  if c.lazy then iterLazyRawEdges c else iterEagerRawEdges c

/-- The axioms of one constructor, in canonical order. -/
def sortedCategory (axioms : List Node) (c : Constructor) : List Node :=
  canonicalSort (axioms.filter (·.isOf c))

def scannedRbox (closure : List Node) : List Node :=
  closure.filter fun a => a.isOf .subObjectPropertyOf || a.isOf .inverseObjectProperties

/-- Scan a view once into lightweight identity-preserving category indexes. -/
def prepareCompilation (view : OntologyView) (options : ProjectionOptions)
    (roleState : RoleState) : Except CompileError Compilation := do
  let counts ← view.closure.foldlM scanAxiom ⟨0, ∅⟩
  match updateRoleState (scannedRbox view.closure) roleState ⟨counts.skippedAxioms, 0⟩ with
  | none => .error .unicodeEncode
  | some (roleState, statistics) =>
    .ok {
      view, options, roleState
      subclasses := sortedCategory view.closure .subClassOf
      equivalents := sortedCategory view.closure .equivalentClasses
      annotations := canonicalSort (rootAnnotations view)
      classAssertions := sortedCategory view.closure .classAssertion
      objectAssertions := sortedCategory view.closure .objectPropertyAssertion
      domains := sortedCategory view.closure .objectPropertyDomain
      ranges := sortedCategory view.closure .objectPropertyRange
      classIris := classSignatureIris view
      blankIds := numberAnonymous (view.closure.flatMap Node.anonymousValues)
      statistics
      diagnosticBag := counts.bag
      «lazy» := false
      rolesPrepared := true
      closureMetadataScanned := true }

/-- Create a traversal-lazy isolated compilation over the exact core view. -/
def prepareStreamingCompilation (view : OntologyView) (options : ProjectionOptions)
    (roleState : RoleState) : Compilation where
  view := view
  options := options
  roleState := roleState
  subclasses := []
  equivalents := []
  annotations := []
  classAssertions := []
  objectAssertions := []
  domains := []
  ranges := []
  classIris := []
  blankIds := ∅
  statistics := ⟨0, 0⟩
  diagnosticBag := ∅
  «lazy» := true
  rolesPrepared := false
  closureMetadataScanned := false

end Projector.Compiler
