import Projector.Native.CanonicalBytes

namespace Projector.Native
open Lib Projector.Core Projector.Encoded Compiler

namespace DirectColumns
variable (d : DirectColumns)

section Fields

def exactFields (id arity : Nat) : Except KernelError Nat := do
  let (start, stop) ← d.fieldRange id
  if stop - start = arity then .ok start
  else
    .error (.malformed ("encoded constructor " ++ toString id ++ " has arity " ++
      toString (stop - start) ++ "; expected " ++ toString arity))

def fieldValue (index : Nat) : Except KernelError Nat :=
  readUsize d.columns.fieldValues index "field_values"

def fieldLength (index : Nat) : Except KernelError Nat :=
  readUsize d.columns.fieldLengths index "field_lengths"

def fieldNode (index : Nat) : Except KernelError Nat := do
  let kind ← d.fieldKind index
  if kind ≠ COMPONENT_NODE then
    .error (.malformed "encoded constructor field is not a node reference")
  else do
    let length ← d.fieldLength index
    if length ≠ 0 then .error (.malformed "encoded constructor field is not a node reference")
    else do d.checkedNodeId (← d.fieldValue index)

def itemKind (index : Nat) : Except KernelError Nat :=
  match d.columns.itemKinds[index]? with
  | some kind => .ok kind
  | none => .error (.malformed "item kind index is out of range")

def itemNode (index : Nat) : Except KernelError Nat := do
  let kind ← d.itemKind index
  if kind ≠ COMPONENT_NODE then
    .error (.malformed "encoded canonical-set item is not a node reference")
  else do
    let length ← readUsize d.columns.itemLengths index "item_lengths"
    if length ≠ 0 then
      .error (.malformed "encoded canonical-set item is not a node reference")
    else do d.checkedNodeId (← readUsize d.columns.itemValues index "item_values")

/-- The loop of `node_set_range`: identifiers ascend from `previous`. -/
def ascendingItems (previous index : Nat) : Nat → Except KernelError Unit
  | 0 => .ok ()
  | length + 1 => do
    let id ← d.itemNode index
    if id ≤ previous then
      .error (.malformed "encoded canonical-set items are not sorted and unique")
    else ascendingItems id (index + 1) length

def collectionOf (noun : String) (length minimum : Nat) : KernelError :=
  .malformed ("encoded " ++ noun ++ " has " ++ toString length ++ " items; expected at least " ++
    toString minimum)

def nodeSetRange (index minimum : Nat) : Except KernelError (Nat × Nat) := do
  let kind ← d.fieldKind index
  if kind ≠ COMPONENT_SET then
    .error (.malformed "encoded collection field is not a canonical set")
  else do
    let start ← d.fieldValue index
    let length ← d.fieldLength index
    if start > d.columns.itemCount ∨ length > d.columns.itemCount - start then
      .error (.malformed "encoded canonical-set range is out of bounds")
    else if length < minimum then .error (collectionOf "canonical set" length minimum)
    else do
      d.ascendingItems 0 start length
      .ok (start, length)

def nodeSequenceRange (index minimum : Nat) : Except KernelError (Nat × Nat) := do
  let kind ← d.fieldKind index
  if kind ≠ COMPONENT_SEQUENCE then
    .error (.malformed "encoded collection field is not an ordered sequence")
  else do
    let start ← d.fieldValue index
    let length ← d.fieldLength index
    if start > d.columns.itemCount ∨ length > d.columns.itemCount - start then
      .error (.malformed "encoded ordered-sequence range is out of bounds")
    else if length < minimum then .error (collectionOf "ordered sequence" length minimum)
    else do
      let _ ← (List.range' start length).mapM d.itemNode
      .ok (start, length)

def scalarPayload (index kind : Nat) : Except KernelError Bytes := do
  let actual ← d.fieldKind index
  if actual ≠ kind then
    .error (.malformed "encoded scalar field has the wrong component kind")
  else do
    let start ← d.fieldValue index
    let length ← d.fieldLength index
    d.scalarRange start length

def canonicalInteger (index : Nat) : Except KernelError Bytes := do
  let payload ← d.scalarPayload index COMPONENT_INTEGER
  if Columns.minimalInteger payload then .ok payload
  else .error (.malformed "encoded integer field is not minimally encoded")

end Fields

section Entities

def iri (id maximum : Nat) : Except KernelError String := do
  let tag ← d.nodeTag id
  if tag ≠ Constructor.iri.tag then
    .error (.malformed "encoded entity does not reference an IRI node")
  else do
    let start ← d.exactFields id 1
    let payload ← d.scalarPayload start COMPONENT_TEXT
    if payload.length > maximum then
      .error (.resource ("encoded IRI contains " ++ toString payload.length ++
        " bytes; limit is " ++ toString maximum))
    else
      match fromUtf8? payload with
      | some text => .ok text
      | none => .error (.malformed "encoded IRI text is not UTF-8")

def entityKindNames : List Bytes :=
  [utf8 "class", utf8 "datatype", utf8 "object_property", utf8 "data_property",
   utf8 "annotation_property", utf8 "named_individual"]

/-- The name of the kind and the IRI node of an entity. -/
def entity (id : Nat) : Except KernelError (Bytes × Nat) := do
  let tag ← d.nodeTag id
  if tag ≠ Constructor.entity.tag then
    .error (.malformed "encoded axiom does not reference an entity node")
  else do
    let start ← d.exactFields id 2
    let kind ← d.scalarPayload start COMPONENT_ENUM
    if kind ∉ entityKindNames then .error (.malformed "encoded entity kind is invalid")
    else do
      let iriId ← d.fieldNode (start + 1)
      let iriTag ← d.nodeTag iriId
      if iriTag ≠ Constructor.iri.tag then
        .error (.malformed "encoded entity IRI reference has the wrong tag")
      else .ok (kind, iriId)

/-- Whether a tag is one of the frozen schema. -/
def isSchemaTag (tag : Nat) : Bool := (Constructor.ofTag? tag).isSome

/-- The readers of named entities: the kind they ask for, and what they call any other
node of the schema, a tag outside it and an entity of another kind. -/
structure NamedReader where
  kind : EntityKind
  unsupported : String
  unknown : String
  wrongKind : String

def named (reader : NamedReader) (id maximum : Nat) : Except KernelError String := do
  let tag ← d.nodeTag id
  if tag ≠ Constructor.entity.tag then
    if isSchemaTag tag then .error (.unsupported reader.unsupported)
    else .error (.malformed reader.unknown)
  else do
    let (kind, iriId) ← d.entity id
    if kind ≠ utf8 reader.kind.text then .error (.malformed reader.wrongKind)
    else d.iri iriId maximum

def classReader : NamedReader where
  kind := .classEntity
  unsupported := "direct native slice supports only named class expressions"
  unknown := "encoded class expression has an unknown node tag"
  wrongKind := "encoded class expression entity is not a class"

def individualReader : NamedReader where
  kind := .namedIndividual
  unsupported := "direct native slice supports only named individuals in ABox assertions"
  unknown := "encoded individual has an unknown node tag"
  wrongKind := "encoded individual entity is not a named individual"

def objectPropertyReader : NamedReader where
  kind := .objectProperty
  unsupported := "direct native slice supports only named object properties"
  unknown := "encoded object property has an unknown node tag"
  wrongKind := "encoded object-property expression entity has the wrong kind"

def dataPropertyReader : NamedReader where
  kind := .dataProperty
  unsupported := "direct native slice supports only named data properties"
  unknown := "encoded data property has an unknown node tag"
  wrongKind := "encoded data-property entity has the wrong kind"

def annotationPropertyReader : NamedReader where
  kind := .annotationProperty
  unsupported := "direct native slice supports only named annotation properties"
  unknown := "encoded annotation property has an unknown node tag"
  wrongKind := "encoded annotation-property entity has the wrong kind"

def datatypeReader : NamedReader where
  kind := .datatype
  unsupported := "direct native slice supports only named datatypes"
  unknown := "encoded datatype has an unknown node tag"
  wrongKind := "encoded datatype entity has the wrong kind"

def namedClassIri := d.named classReader
def namedIndividualIri := d.named individualReader
def namedObjectPropertyIri := d.named objectPropertyReader
def namedDataPropertyIri := d.named dataPropertyReader
def namedAnnotationPropertyIri := d.named annotationPropertyReader
def namedDatatypeIri := d.named datatypeReader

end Entities

section Values

def validateAnonymousIndividual (id : Nat) : Except KernelError Unit := do
  let tag ← d.nodeTag id
  if tag ≠ Constructor.anonymousIndividual.tag then
    .error (.malformed "encoded anonymous-individual cursor has the wrong constructor tag")
  else do
    let start ← d.exactFields id 2
    let documentScope ← d.scalarPayload start COMPONENT_BYTES
    let localKey ← d.scalarPayload (start + 1) COMPONENT_BYTES
    if documentScope.length ≠ 32 then
      .error (.malformed "encoded anonymous individual document scope is not bytes32")
    else if localKey.isEmpty then
      .error (.malformed "encoded anonymous individual local key is empty")
    else .ok ()

/-- The lexical form and the datatype of a literal. `toLowercase` is the lowercase
mapping of one character. -/
def literalParts (toLowercase : Char → List Char) (id maximum : Nat) :
    Except KernelError (String × String) := do
  let tag ← d.nodeTag id
  if tag ≠ Constructor.literal.tag then
    .error (.malformed "encoded value does not reference a Literal")
  else do
    let start ← d.exactFields id 3
    let payload ← d.scalarPayload start COMPONENT_TEXT
    match fromUtf8? payload with
    | none => .error (.malformed "encoded literal lexical form is not UTF-8")
    | some lexical => do
      let datatype ← d.namedDatatypeIri (← d.fieldNode (start + 1)) maximum
      let languageKind ← d.fieldKind (start + 2)
      if languageKind = COMPONENT_NONE then do
        let value ← d.fieldValue (start + 2)
        let length ← d.fieldLength (start + 2)
        if value ≠ 0 ∨ length ≠ 0 then
          .error (.malformed "encoded Literal language none field is not canonical")
        else .ok (lexical, datatype)
      else if languageKind = COMPONENT_TEXT then do
        let payload ← d.scalarPayload (start + 2) COMPONENT_TEXT
        match fromUtf8? payload with
        | none => .error (.malformed "encoded Literal language is not UTF-8")
        | some language =>
          if language = "" ∨ language.toList.flatMap toLowercase ≠ language.toList ∨
              datatype ≠ RDF_PLAIN_LITERAL_IRI then
            .error (.malformed "encoded Literal language is not canonical")
          else .ok (lexical, datatype)
      else .error (.malformed "encoded Literal language field kind is invalid")

/-- Every item of a range is an annotation. -/
def annotationItems (index : Nat) : Nat → Except KernelError Unit
  | 0 => .ok ()
  | length + 1 => do
    let tag ← d.nodeTag (← d.itemNode index)
    if tag ≠ Constructor.annotationTerm.tag then
      .error (.malformed "encoded annotation set item does not reference an Annotation")
    else annotationItems (index + 1) length

def validateAnnotationSet (index : Nat) : Except KernelError Unit := do
  let (start, length) ← d.nodeSetRange index 0
  d.annotationItems start length

end Values

end DirectColumns

end Projector.Native
