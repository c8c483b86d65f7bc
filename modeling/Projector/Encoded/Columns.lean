import Projector.Compiler.Compilation

namespace Projector.Encoded
open Lib Projector.Core Compiler

/-- The buffers of one encoded structural table, read as the numbers of their schema
widths, with the public byte limits of its owner. `lowered` is the text operation of
the host language that the language check compares with. -/
structure Columns where
  rootKinds : List Nat
  rootIds : List Nat
  nodeTags : List Nat
  nodeFieldOffsets : List Nat
  fieldKinds : List Nat
  fieldValues : List Nat
  fieldLengths : List Nat
  itemKinds : List Nat
  itemValues : List Nat
  itemLengths : List Nat
  scalarBytes : Bytes
  maxIriBytes : Nat
  maxLiteralBytes : Nat
  lowered : String → String

inductive Buffer where
  | rootKinds | rootIds | nodeTags | nodeFieldOffsets
  | fieldKinds | fieldValues | fieldLengths
  | itemKinds | itemValues | itemLengths
  deriving DecidableEq, Repr

def Buffer.name : Buffer → String
  | .rootKinds => "root_kinds"
  | .rootIds => "root_ids"
  | .nodeTags => "node_tags"
  | .nodeFieldOffsets => "node_field_offsets"
  | .fieldKinds => "field_kinds"
  | .fieldValues => "field_values"
  | .fieldLengths => "field_lengths"
  | .itemKinds => "item_kinds"
  | .itemValues => "item_values"
  | .itemLengths => "item_lengths"

section ComponentKinds

def COMPONENT_NONE : Nat := 0
def COMPONENT_NODE : Nat := 1
def COMPONENT_TEXT : Nat := 2
def COMPONENT_BYTES : Nat := 3
def COMPONENT_INTEGER : Nat := 4
def COMPONENT_ENUM : Nat := 5
def COMPONENT_SET : Nat := 6
def COMPONENT_SEQUENCE : Nat := 7

def ROOT_ONTOLOGY_ANNOTATION : Nat := 1
def ROOT_AXIOM : Nat := 2
def ROOT_EXTENSION : Nat := 3

end ComponentKinds

/-- A read of borrowed columns: a value, or the error it is refused with. -/
abbrev Read (α : Type) := Except CompileError α

def reject {α : Type} (message : String) : Read α := .error (.snapshotCompatibility message [])

def demand (c : Bool) (message : String) : Read Unit := if c then .ok () else reject message

namespace Columns

def buffer (cols : Columns) : Buffer → List Nat
  | .rootKinds => cols.rootKinds
  | .rootIds => cols.rootIds
  | .nodeTags => cols.nodeTags
  | .nodeFieldOffsets => cols.nodeFieldOffsets
  | .fieldKinds => cols.fieldKinds
  | .fieldValues => cols.fieldValues
  | .fieldLengths => cols.fieldLengths
  | .itemKinds => cols.itemKinds
  | .itemValues => cols.itemValues
  | .itemLengths => cols.itemLengths

def rootCount (cols : Columns) : Nat := cols.rootKinds.length
def nodeCount (cols : Columns) : Nat := cols.nodeTags.length
def fieldCount (cols : Columns) : Nat := cols.fieldKinds.length
def itemCount (cols : Columns) : Nat := cols.itemKinds.length

variable (cols : Columns)

def read (b : Buffer) (index : Nat) : Read Nat :=
  match (cols.buffer b)[index]? with
  | some value => .ok value
  | none =>
    .error (.snapshotCompatibility "encoded subset column read is out of bounds"
      [("buffer", .text b.name)])

def nodeId (value : Nat) : Read Nat :=
  if 1 ≤ value ∧ value ≤ cols.nodeCount then .ok value
  else reject "encoded subset node reference is out of range"

def rootId (index : Nat) : Read Nat := do cols.nodeId (← cols.read .rootIds index)

def rootKind (index : Nat) : Read Nat := cols.read .rootKinds index

def nodeTag (id : Nat) : Read Nat := do
  let id ← cols.nodeId id
  cols.read .nodeTags (id - 1)

/-- Whether the tag of a node is that of a constructor. -/
def tagIs (id : Nat) (c : Constructor) : Read Bool := do
  let tag ← cols.nodeTag id
  pure (tag == c.tag)

def tagIn (id : Nat) (cs : List Constructor) : Read Bool := do
  let tag ← cols.nodeTag id
  pure ((cs.map Constructor.tag).contains tag)

def fieldRange (id : Nat) : Read (Nat × Nat) := do
  let id ← cols.nodeId id
  let start ← cols.read .nodeFieldOffsets (id - 1)
  let stop ← cols.read .nodeFieldOffsets id
  if start > stop ∨ stop > cols.fieldCount then reject "encoded subset field range is invalid"
  else pure (start, stop)

def exactFields (id arity : Nat) : Read Nat := do
  let (start, stop) ← cols.fieldRange id
  if stop - start ≠ arity then
    .error (.snapshotCompatibility "encoded subset constructor arity is invalid"
      [("node_id", .number id), ("expected_arity", .number arity)])
  else pure start

def fieldNode (index : Nat) : Read Nat := do
  let kind ← cols.read .fieldKinds index
  let length ← cols.read .fieldLengths index
  if kind ≠ COMPONENT_NODE ∨ length ≠ 0 then
    reject "encoded subset constructor field is not a node reference"
  else do cols.nodeId (← cols.read .fieldValues index)

def itemNode (index : Nat) : Read Nat := do
  let kind ← cols.read .itemKinds index
  let length ← cols.read .itemLengths index
  if kind ≠ COMPONENT_NODE ∨ length ≠ 0 then
    reject "encoded subset canonical-set item is not a node reference"
  else do cols.nodeId (← cols.read .itemValues index)

/-- The node references of a range of items. -/
def itemNodes (start length : Nat) : Read (List Nat) :=
  (List.range' start length).mapM cols.itemNode

def tooFew {α : Type} (message : String) (minimum actual : Nat) : Read α :=
  .error (.snapshotCompatibility message
    [("minimum", .number minimum), ("actual", .number actual)])

/-- The members of a set, which must ascend from `previous`. -/
def setItems (previous index : Nat) : Nat → Read (List Nat)
  | 0 => pure []
  | length + 1 => do
    let id ← cols.itemNode index
    if id ≤ previous then reject "encoded subset canonical-set items are not sorted and unique"
    else do
      let rest ← setItems id (index + 1) length
      pure (id :: rest)

/-- A set field of node references. -/
def nodeSet (index minimum : Nat) : Read (List Nat) := do
  let kind ← cols.read .fieldKinds index
  demand (kind == COMPONENT_SET) "encoded subset collection field is not a canonical set"
  let start ← cols.read .fieldValues index
  let length ← cols.read .fieldLengths index
  demand (start ≤ cols.itemCount && length ≤ cols.itemCount - start)
    "encoded subset canonical-set range is out of bounds"
  if length < minimum then
    tooFew "encoded subset canonical set has too few items" minimum length
  else cols.setItems 0 start length

/-- A sequence field of node references. -/
def nodeSequence (index minimum : Nat) : Read (List Nat) := do
  let kind ← cols.read .fieldKinds index
  demand (kind == COMPONENT_SEQUENCE)
    "encoded subset collection field is not an ordered sequence"
  let start ← cols.read .fieldValues index
  let length ← cols.read .fieldLengths index
  demand (start ≤ cols.itemCount && length ≤ cols.itemCount - start)
    "encoded subset sequence range is out of bounds"
  if length < minimum then tooFew "encoded subset sequence has too few items" minimum length
  else cols.itemNodes start length

def scalarPayload (index expectedKind : Nat) : Read Bytes := do
  let kind ← cols.read .fieldKinds index
  demand (kind == expectedKind) "encoded subset scalar field kind is invalid"
  let offset ← cols.read .fieldValues index
  let length ← cols.read .fieldLengths index
  demand (offset + length ≤ cols.scalarBytes.length)
    "encoded subset scalar range is out of bounds"
  pure ((cols.scalarBytes.drop offset).take length)

/-- The least-significant byte comes first, so a longer payload must not end in zero. -/
def minimalInteger (payload : Bytes) : Bool :=
  !payload.isEmpty && !(payload.length > 1 && payload.getLast? == some 0)

def canonicalIntegerBytes (index : Nat) : Read Unit := do
  let payload ← cols.scalarPayload index COMPONENT_INTEGER
  demand (minimalInteger payload) "encoded subset integer field is not minimally encoded"

def tooLong {α : Type} (message : String) (allowed actual : Nat) : Read α :=
  .error (.snapshotCompatibility message
    [("allowed", .number allowed), ("actual", .number actual)])

/-- A text field within a byte limit. -/
def boundedText (index maximum : Nat) (exceeds notUtf8 : String) : Read String := do
  let payload ← cols.scalarPayload index COMPONENT_TEXT
  if payload.length > maximum then tooLong exceeds maximum payload.length
  else
    match fromUtf8? payload with
    | some text => pure text
    | none => reject notUtf8

def textScalar (index maximum : Nat) (label : String) : Read String :=
  cols.boundedText index maximum ("encoded subset " ++ label ++ " exceeds its public byte limit")
    ("encoded subset " ++ label ++ " is not UTF-8")

def iriText (id : Nat) : Read String := do
  let isIri ← cols.tagIs id .iri
  demand isIri "encoded subset entity does not reference an IRI node"
  let start ← cols.exactFields id 1
  cols.boundedText start cols.maxIriBytes "encoded subset IRI exceeds public max_iri_bytes"
    "encoded subset IRI text is not UTF-8"

def entityKinds : List EntityKind :=
  [.classEntity, .datatype, .objectProperty, .dataProperty, .annotationProperty, .namedIndividual]

def entityKindOf? (payload : Bytes) : Option EntityKind :=
  entityKinds.find? (fun kind => utf8 kind.text == payload)

/-- `_entity`: the kind and the IRI node of an entity. -/
def entity (id : Nat) : Read (EntityKind × Nat) := do
  let isEntity ← cols.tagIs id .entity
  demand isEntity "encoded subset axiom does not reference an entity node"
  let start ← cols.exactFields id 2
  let payload ← cols.scalarPayload start COMPONENT_ENUM
  match entityKindOf? payload with
  | none => reject "encoded subset entity kind is invalid"
  | some kind => do
    let iri ← cols.fieldNode (start + 1)
    let isIri ← cols.tagIs iri .iri
    demand isIri "encoded subset entity IRI reference has the wrong tag"
    pure (kind, iri)

/-- The IRI of an entity of one kind; nothing for any other node. -/
def namedIri (kind : EntityKind) (id : Nat) : Read (Option String) := do
  let isEntity ← cols.tagIs id .entity
  if !isEntity then pure none
  else do
    let (actual, iri) ← cols.entity id
    if actual = kind then some <$> cols.iriText iri else pure none

def namedClassIri := cols.namedIri .classEntity
def namedIndividualIri := cols.namedIri .namedIndividual
def namedDatatypeIri := cols.namedIri .datatype
def namedAnnotationPropertyIri := cols.namedIri .annotationProperty
def namedObjectPropertyIri := cols.namedIri .objectProperty

/-- Whether a node is an entity of one kind. -/
def isNamed (kind : EntityKind) (id : Nat) : Read Bool := do
  let isEntity ← cols.tagIs id .entity
  if !isEntity then pure false
  else do
    let (actual, _) ← cols.entity id
    pure (actual == kind)

def isNamedClass := cols.isNamed .classEntity
def isNamedIndividual := cols.isNamed .namedIndividual
def isNamedAnnotationProperty := cols.isNamed .annotationProperty
def isNamedObjectProperty := cols.isNamed .objectProperty
def isNamedDataProperty := cols.isNamed .dataProperty
def isNamedDatatype := cols.isNamed .datatype

/-- The named property under a property expression, with the OWLAPI hash of the
expression. -/
def projectedObjectPropertyParts (id : Nat) : Read (Option (String × Int)) := do
  match ← cols.namedObjectPropertyIri id with
  | some iri => pure (some (iri, combine 4153 [owlapiIriHash iri]))
  | none => do
    let isInverse ← cols.tagIs id .objectInverseOf
    if !isInverse then pure none
    else do
      let start ← cols.exactFields id 1
      let underlying ← cols.namedObjectPropertyIri (← cols.fieldNode start)
      pure (underlying.map fun iri =>
        (iri, combine 4241 [combine 4153 [owlapiIriHash iri]]))

def projectedObjectPropertyIri (id : Nat) : Read (Option String) := do
  let parts ← cols.projectedObjectPropertyParts id
  pure (parts.map Prod.fst)

/-- `_literal_parts`: the lexical form and the datatype of a literal. -/
def literalParts (id : Nat) : Read (String × String) := do
  let isLiteral ← cols.tagIs id .literal
  demand isLiteral "encoded subset annotation value does not reference a Literal"
  let start ← cols.exactFields id 3
  let lexical ← cols.textScalar start cols.maxLiteralBytes "literal lexical form"
  match ← cols.namedDatatypeIri (← cols.fieldNode (start + 1)) with
  | none => reject "encoded subset Literal datatype is not a named datatype"
  | some datatype => do
    let languageKind ← cols.read .fieldKinds (start + 2)
    if languageKind = COMPONENT_NONE then do
      let value ← cols.read .fieldValues (start + 2)
      let length ← cols.read .fieldLengths (start + 2)
      demand (value == 0 && length == 0)
        "encoded subset Literal language none field is not canonical"
      pure (lexical, datatype)
    else if languageKind = COMPONENT_TEXT then do
      let language ← cols.textScalar (start + 2) cols.maxLiteralBytes "literal language"
      demand (language ≠ "" && language == cols.lowered language && datatype == RDF_PLAIN_LITERAL_IRI)
        "encoded subset Literal language is not canonical"
      pure (lexical, datatype)
    else reject "encoded subset Literal language field kind is invalid"

/-- A test that every member of a list passes. -/
def demandAll (test : Nat → Read Bool) (message : String) : List Nat → Read Unit
  | [] => pure ()
  | id :: rest => do
    let ok ← test id
    demand ok message
    demandAll test message rest

/-- An annotation set field: every member is an annotation. -/
def annotationSet (index : Nat) : Read (List Nat) := do
  let ids ← cols.nodeSet index 0
  demandAll (cols.tagIs · .annotationTerm)
    "encoded subset annotation set contains a non-Annotation node" ids
  pure ids

def annotationValueHash (id : Nat) : Read Int := do
  let tag ← cols.nodeTag id
  if tag = Constructor.tag .iri then do
    let text ← cols.iriText id
    pure (owlapiIriHash text)
  else if tag = Constructor.tag .literal then do
    let (lexical, _) ← cols.literalParts id
    pure (javaStringHash lexical)
  else if tag = Constructor.tag .anonymousIndividual then do
    let start ← cols.exactFields id 2
    let key ← cols.scalarPayload (start + 1) COMPONENT_BYTES
    match fromUtf8? key with
    | some text => pure (javaStringHash text)
    | none => .error .unicodeEncode
  else reject "encoded subset Annotation value has the wrong constructor for hashing"

def annotationHash (id : Nat) : Read Int := do
  let isAnnotation ← cols.tagIs id .annotationTerm
  demand isAnnotation "encoded subset annotation hash does not reference an Annotation"
  let start ← cols.exactFields id 3
  match ← cols.namedAnnotationPropertyIri (← cols.fieldNode start) with
  | none => reject "encoded subset Annotation property changed after successful preflight"
  | some propertyIri => do
    let valueHash ← cols.annotationValueHash (← cols.fieldNode (start + 1))
    -- Nested annotations are validated but are not part of the hash.
    let _ ← cols.annotationSet (start + 2)
    pure (combine 6311 [owlapiIriHash propertyIri, valueHash])

/-- The order-independent hash of an annotation set, from a partial sum. -/
def annotationHashFrom (result : Int) : List Nat → Read Int
  | [] => pure result
  | id :: rest => do
    let hash ← cols.annotationHash id
    annotationHashFrom (int32 (result + hash)) rest

def annotationSetHash (index : Nat) : Read Int := do
  let ids ← cols.annotationSet index
  cols.annotationHashFrom 0 ids

end Columns

end Projector.Encoded
