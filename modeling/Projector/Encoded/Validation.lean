import Projector.Encoded.Columns

namespace Projector.Encoded
open Lib

inductive Column where
  | fieldKinds | fieldLengths | fieldValues
  | itemKinds | itemLengths | itemValues
  | nodeFieldOffsets | nodeTags
  | rootIds | rootKinds
  | scalarBytes
  deriving DecidableEq, Repr

def Column.name : Column → String
  | .fieldKinds => "field_kinds"
  | .fieldLengths => "field_lengths"
  | .fieldValues => "field_values"
  | .itemKinds => "item_kinds"
  | .itemLengths => "item_lengths"
  | .itemValues => "item_values"
  | .nodeFieldOffsets => "node_field_offsets"
  | .nodeTags => "node_tags"
  | .rootIds => "root_ids"
  | .rootKinds => "root_kinds"
  | .scalarBytes => "scalar_bytes"

/-- `ENCODED_BUFFER_WIDTHS` -/
def Column.width : Column → Nat
  | .fieldKinds => 1
  | .fieldLengths => 8
  | .fieldValues => 8
  | .itemKinds => 1
  | .itemLengths => 8
  | .itemValues => 8
  | .nodeFieldOffsets => 8
  | .nodeTags => 2
  | .rootIds => 4
  | .rootKinds => 1
  | .scalarBytes => 1

/-- All columns, in the order of their names. -/
def Column.all : List Column :=
  [.fieldKinds, .fieldLengths, .fieldValues, .itemKinds, .itemLengths, .itemValues,
    .nodeFieldOffsets, .nodeTags, .rootIds, .rootKinds, .scalarBytes]

inductive MetadataDetail where
  | text (value : String)
  | number (value : Int)
  /-- the `repr` of a sorted list of names -/
  | names (values : List String)
  deriving DecidableEq, Repr

/-- `SnapshotCompatibilityError` -/
structure Incompatible where
  message : String
  details : List (String × MetadataDetail)
  deriving DecidableEq, Repr

abbrev Check (α : Type) := Except Incompatible α

def refuse {α : Type} (message : String) : Check α := .error ⟨message, []⟩

def require (c : Bool) (message : String) : Check Unit := if c then .ok () else refuse message

/-- A value of an attribute: of exactly the type the reader asks for, or another one with
its `str`. -/
inductive Attribute (α : Type) where
  | exact (value : α)
  | other (text : String)
  deriving DecidableEq, Repr

def Attribute.is {α : Type} [DecidableEq α] (a : Attribute α) (value : α) : Bool :=
  match a with
  | .exact v => v == value
  | .other _ => false

def Attribute.value? {α : Type} : Attribute α → Option α
  | .exact v => some v
  | .other _ => none

/-- A `memoryview`, or another value where one is expected. `unsignedBytes` stands for
the one-dimensional contiguous form with format `B`. -/
structure MemoryView where
  isMemoryView : Bool
  readonly : Bool
  unsignedBytes : Bool
  bytes : Bytes

/-- The reads of `segment.source` that its validation makes. -/
structure SegmentSource where
  identity : Nat
  publicType : Bool
  owner : Nat
  schemaName : Attribute String
  schemaVersion : Attribute Int
  modelSchema : Attribute Int
  descriptor : Attribute Bytes
  descriptorDigest : Option (Attribute Bytes)
  /-- `root_kinds` and `root_ids` of its buffers, when these are a mapping -/
  buffers : Option (MemoryView × MemoryView)

structure Segment where
  role : Attribute Int
  owner : Nat
  source : Option SegmentSource
  postingMode : Attribute Int
  rootIds : MemoryView
  anonymousScopeMap : MemoryView
  memberToken : Option (Attribute Bytes)

/-- The reads of an encoded view that its validation makes; objects are told apart by
their identity. -/
structure EncodedView where
  identity : Nat
  publicType : Bool
  schemaName : Attribute String
  schemaVersion : Attribute Int
  modelSchema : Attribute Int
  owner : Nat
  descriptor : Attribute Bytes
  descriptorDigest : Option (Attribute Bytes)
  buffers : Option (List (Attribute String × MemoryView))
  fingerprintType : Nat
  scope : Nat
  hasDocumentKey : Bool
  /-- a segment whose attributes cannot be read is `none` -/
  segments : Option (List (Option Segment))

/-- The source view, with its public limits. -/
structure SourceView where
  identity : Nat
  modelSchema : Attribute Int
  limits : String → Option Nat
  fingerprintType : Option Nat

abbrev Buffers := Column → Bytes

/-- What the validation hands on. -/
structure Lease where
  owner : Nat
  scope : Nat
  buffers : Buffers
  segments : List Segment

def ENCODED_SCHEMA_NAME : String := "pyowl-core/structural-columns"
def ENCODED_SCHEMA_VERSION : Int := 2
def CORE_MODEL_SCHEMA_VERSION : Int := 2

/-- `c51d0eb7ecf6f29ad3495fe7c40a2ea6741cf03a7cf194d51417bb810df90f51` -/
def ENCODED_DESCRIPTOR_SHA256 : Bytes :=
  [0xc5, 0x1d, 0x0e, 0xb7, 0xec, 0xf6, 0xf2, 0x9a, 0xd3, 0x49, 0x5f, 0xe7, 0xc4, 0x0a, 0x2e, 0xa6,
    0x74, 0x1c, 0xf0, 0x3a, 0x7c, 0xf1, 0x94, 0xd5, 0x14, 0x17, 0xbb, 0x81, 0x0d, 0xf9, 0x0f, 0x51]

def SEGMENT_DIRECT : Int := 1
def SEGMENT_OVERLAY_BASE : Int := 2
def SEGMENT_OVERLAY_DELTA : Int := 3
def SEGMENT_COMPOSITE_MEMBER : Int := 4
def SEGMENT_COMPOSITE_BRIDGE : Int := 5
def POSTINGS_ALL : Int := 0
def POSTINGS_INCLUDE : Int := 1
def POSTINGS_EXCLUDE : Int := 2
def DEFAULT_MAX_SEGMENTS : Nat := 1025

def rowCount (buffers : Buffers) (c : Column) : Nat := (buffers c).length / c.width

def fromLittleEndian (bytes : Bytes) : Nat := bytes.foldr (fun b n => b.toNat + 256 * n) 0

/-- `_read_uint` -/
def readUint (value : Bytes) (index width : Nat) : Nat :=
  fromLittleEndian ((value.drop (index * width)).take width)

/-- A row of a column. -/
def row (buffers : Buffers) (c : Column) (index : Nat) : Nat := readUint (buffers c) index c.width

def enforcePublicLimit (owner : SourceView) (name : String) (actual : Nat) : Check Unit :=
  match owner.limits name with
  | some maximum =>
    if actual > maximum then
      .error ⟨"core encoded validation exceeds public " ++ name,
        [("allowed", .number maximum), ("actual", .number actual)]⟩
    else .ok ()
  | none => .ok ()

def bufferError {α : Type} (message name : String) : Check α :=
  .error ⟨message, [("buffer", .text name)]⟩

def borrowedBytes (name : String) (value : MemoryView) : Check Bytes :=
  if !value.isMemoryView then
    bufferError "core encoded view values must be memoryview instances" name
  else if !value.readonly then bufferError "core encoded view exposed a writable buffer" name
  else if !value.unsignedBytes then
    bufferError
      "core encoded view must expose one-dimensional unsigned-byte C-contiguous buffers" name
  else .ok value.bytes

/-- One entry of the loop over the mapping of buffers. -/
def collectBuffer (validated : List (String × Bytes)) (entry : Attribute String × MemoryView) :
    Check (List (String × Bytes)) :=
  match entry.1 with
  | .exact name =>
    if validated.length ≥ Column.all.length ∨ name = "" ∨ name ∈ validated.map Prod.fst then
      refuse "core encoded view buffer names must be bounded unique nonempty strings"
    else do
      let bytes ← borrowedBytes name entry.2
      .ok (validated ++ [(name, bytes)])
  | .other _ => refuse "core encoded view buffer names must be bounded unique nonempty strings"

def sortedNames (names : List String) : List String :=
  sortOn (fun name => name.toList.map Char.toNat) names

/-- The set of names must be that of the schema. -/
def checkNames (validated : List (String × Bytes)) : Check Unit :=
  let names := validated.map Prod.fst
  let expected := Column.all.map Column.name
  let missing := expected.filter (· ∉ names)
  let extra := names.filter (· ∉ expected)
  if missing = [] ∧ extra = [] then .ok ()
  else .error ⟨"core encoded schema 2 buffer set differs",
    [("missing", .names (sortedNames missing)), ("extra", .names (sortedNames extra))]⟩

def namedBuffers (validated : List (String × Bytes)) : Buffers :=
  fun c => ((validated.find? (fun entry => entry.1 = c.name)).map Prod.snd).getD []

/-- Every buffer has whole rows. -/
def checkWidths (buffers : Buffers) : List Column → Check Unit
  | [] => .ok ()
  | c :: rest =>
    if (buffers c).length % c.width ≠ 0 then
      .error ⟨"core encoded buffer length is not divisible by its schema scalar width",
        [("buffer", .text c.name), ("width", .number c.width)]⟩
    else checkWidths buffers rest

section References
variable (buffers : Buffers)

/-- One turn of the loop over the node-field offsets. -/
def checkOffset (fieldCount previous index : Nat) : Check Nat :=
  let offset := row buffers .nodeFieldOffsets index
  if (index = 0 ∧ offset ≠ 0) ∨ offset < previous ∨ offset > fieldCount then
    refuse "core encoded node-field offsets are not monotone in-range boundaries"
  else .ok offset

def checkRoot (nodeCount : Nat) (_ : Unit) (index : Nat) : Check Unit := do
  let rootKind := row buffers .rootKinds index
  let rootId := row buffers .rootIds index
  require (rootKind = 1 || rootKind = 2 || rootKind = 3) "core encoded root kind is invalid"
  require (1 ≤ rootId && rootId ≤ nodeCount) "core encoded root reference is out of range"

def isScalarKind (kind : Nat) : Bool :=
  kind == COMPONENT_TEXT || kind == COMPONENT_BYTES || kind == COMPONENT_INTEGER ||
    kind == COMPONENT_ENUM

def isCollectionKind (kind : Nat) : Bool := kind == COMPONENT_SET || kind == COMPONENT_SEQUENCE

/-- `_validate_leaf_reference`: the scalar cursor past the component. -/
def validateLeafReference (kind value length nodeCount scalarCount scalarCursor : Nat) :
    Check Nat :=
  if kind = COMPONENT_NONE then
    if value ≠ 0 ∨ length ≠ 0 then
      refuse "core encoded none component has a nonzero value or length"
    else .ok scalarCursor
  else if kind = COMPONENT_NODE then
    if length ≠ 0 ∨ ¬(1 ≤ value ∧ value ≤ nodeCount) then
      refuse "core encoded node component reference is out of range"
    else .ok scalarCursor
  else if isScalarKind kind = false then refuse "core encoded component kind is invalid"
  else if value ≠ scalarCursor ∨ length > scalarCount - scalarCursor then
    refuse "core encoded scalar offset or bounds are invalid"
  else .ok (scalarCursor + length)

/-- One turn of the loop over the items of a collection. -/
def checkItem (kind nodeCount scalarCount : Nat) (scalarCursor index : Nat) : Check Nat := do
  let itemKind := row buffers .itemKinds index
  require (!(kind == COMPONENT_SET && itemKind != COMPONENT_NODE))
    "core encoded canonical-set item is not a node reference"
  validateLeafReference itemKind (row buffers .itemValues index) (row buffers .itemLengths index)
    nodeCount scalarCount scalarCursor

/-- One turn of the loop over the fields: the item and the scalar cursor past it. -/
def checkField (nodeCount itemCount scalarCount : Nat) (cursors : Nat × Nat) (index : Nat) :
    Check (Nat × Nat) := do
  let kind := row buffers .fieldKinds index
  let value := row buffers .fieldValues index
  let length := row buffers .fieldLengths index
  if isCollectionKind kind then
    if value ≠ cursors.1 ∨ length > itemCount - cursors.1 then
      refuse "core encoded collection offset or bounds are invalid"
    else do
      let scalarCursor ← (List.range' cursors.1 length).foldlM
        (checkItem buffers kind nodeCount scalarCount) cursors.2
      .ok (cursors.1 + length, scalarCursor)
  else do
    let scalarCursor ← validateLeafReference kind value length nodeCount scalarCount cursors.2
    .ok (cursors.1, scalarCursor)

/-- `_validate_column_references`: the number of roots. -/
def validateColumnReferences (owner : SourceView) (localBufferBytes : Nat) : Check Nat := do
  let rootCount := rowCount buffers .rootKinds
  let nodeCount := rowCount buffers .nodeTags
  let offsetCount := rowCount buffers .nodeFieldOffsets
  let fieldCount := rowCount buffers .fieldKinds
  let itemCount := rowCount buffers .itemKinds
  enforcePublicLimit owner "max_index_bytes" localBufferBytes
  enforcePublicLimit owner "max_canonical_work" localBufferBytes
  enforcePublicLimit owner "max_index_rows"
    (max (max rootCount nodeCount) (max fieldCount itemCount))
  enforcePublicLimit owner "max_terms" nodeCount
  enforcePublicLimit owner "max_canonical_work" (nodeCount + fieldCount + itemCount)
  require (nodeCount < 2 ^ 32) "core encoded node IDs exhaust their u32 range"
  require (rowCount buffers .rootIds == rootCount) "core encoded root columns differ in length"
  require (offsetCount == nodeCount + 1)
    "core encoded node-field offsets do not match the node count"
  require (rowCount buffers .fieldValues == fieldCount && rowCount buffers .fieldLengths == fieldCount)
    "core encoded field columns differ in length"
  require (rowCount buffers .itemValues == itemCount && rowCount buffers .itemLengths == itemCount)
    "core encoded item columns differ in length"
  let lastOffset ← (List.range offsetCount).foldlM (checkOffset buffers fieldCount) 0
  require (lastOffset == fieldCount)
    "core encoded node-field offsets do not cover every field row"
  (List.range rootCount).foldlM (checkRoot buffers nodeCount) ()
  let scalarCount := (buffers .scalarBytes).length
  let cursors ← (List.range fieldCount).foldlM
    (checkField buffers nodeCount itemCount scalarCount) (0, 0)
  require (cursors.1 == itemCount) "core encoded collection offsets do not cover every item row"
  require (cursors.2 == scalarCount)
    "core encoded scalar offsets do not cover the borrowed byte arena"
  .ok rootCount

end References

section Segments
variable (sha256 : Bytes → Bytes)

def borrowedSegmentBytes (name : String) (value : MemoryView) (width : Nat) : Check Bytes := do
  let bytes ← borrowedBytes ("segment." ++ name) value
  if bytes.length % width ≠ 0 then
    .error ⟨"core encoded segment buffer contains a partial fixed-width row",
      [("buffer", .text name), ("width", .number width)]⟩
  else .ok bytes

/-- `_segment_root_count`: the rows a segment's postings may name. -/
def segmentRootCount (owner : Nat) (source : Option SegmentSource) (topOwner : SourceView)
    (encodedView : Nat) (localRootCount : Nat) : Check Nat :=
  match source with
  | none => do
    require (owner = topOwner.identity)
      "core encoded local segment does not retain the top owner"
    .ok localRootCount
  | some source => do
    require (source.identity ≠ encodedView) "core encoded segment graph contains a direct cycle"
    require (source.publicType && source.owner = owner)
      "core encoded segment source does not retain its referenced owner"
    require (source.schemaName.is ENCODED_SCHEMA_NAME &&
        source.schemaVersion.is ENCODED_SCHEMA_VERSION &&
        source.modelSchema.is CORE_MODEL_SCHEMA_VERSION)
      "core encoded segment source schema is incompatible"
    let sourceDigest := source.descriptor.value?.map sha256
    require (sourceDigest = some ENCODED_DESCRIPTOR_SHA256 &&
        (match source.descriptorDigest with
          | none => true
          | some advertised => advertised.value? == sourceDigest))
      "core encoded segment source descriptor is incompatible"
    match source.buffers with
    | none => refuse "core encoded segment source buffers are invalid"
    | some (rootKinds, rootIds) => do
      let rootKinds ← borrowedSegmentBytes "source.root_kinds" rootKinds 1
      let rootIds ← borrowedSegmentBytes "source.root_ids" rootIds 4
      require (rootKinds.length = rootIds.length / 4)
        "core encoded segment source root columns differ in length"
      .ok rootKinds.length

/-- One turn of the loop over the postings of a segment. -/
def checkPosting (rootIds : Bytes) (rootCount previous index : Nat) : Check Nat :=
  let rootId := readUint rootIds index 4
  if rootId ≤ previous ∨ rootId > rootCount then
    refuse "core encoded segment postings are not sorted unique in-range references"
  else .ok rootId

/-- The row of a scope map at an offset, `width` bytes long. -/
def rowAt (value : Bytes) (offset width : Nat) : Bytes := (value.drop offset).take width

/-- One turn of the loop over the rows of a scope map; the state is the source scope of
the row before. -/
def checkScopeRow (value : Bytes) (previous : Option Bytes) (index : Nat) :
    Check (Option Bytes) :=
  let source := rowAt value (index * 64) 32
  if source = rowAt value (index * 64 + 32) 32 then
    refuse "core encoded anonymous scope map contains an identity row"
  else if (match previous with
      | some previous => decide (¬previous < source)
      | none => false) then
    refuse "core encoded anonymous scope-map sources are not sorted unique"
  else .ok (some source)

def validateScopeMap (value : Bytes) : Check Unit := do
  let _ ← (List.range (value.length / 64)).foldlM (checkScopeRow value) none
  .ok ()

/-- The locals of the loop over the segments. -/
structure SegmentState where
  records : List Segment
  previousToken : Option Bytes
  postingBytes : Nat
  postingRows : Nat

def checkToken (role : Int) (previous : Option Bytes) (token : Option (Attribute Bytes)) :
    Check (Option Bytes) :=
  if role = SEGMENT_COMPOSITE_MEMBER then
    match token with
    | some (.exact token) =>
      if token.length ≠ 32 then
        refuse "core encoded composite member requires an exact bytes32 token"
      else if (match previous with
          | some previous => decide (¬previous < token)
          | none => false) then
        refuse "core encoded composite member tokens are not sorted unique"
      else .ok (some token)
    | _ => refuse "core encoded composite member requires an exact bytes32 token"
  else if token.isSome then
    refuse "core encoded non-member segment unexpectedly has a member token"
  else .ok previous

def knownInt (a : Attribute Int) (values : List Int) (message : String) : Check Int :=
  match a with
  | .exact value => if value ∈ values then .ok value else refuse message
  | .other _ => refuse message

/-- One turn of the loop over the segments. -/
def checkSegment (topOwner : SourceView) (encodedView localRootCount localBufferBytes : Nat)
    (s : SegmentState) (entry : Nat × Option Segment) : Check SegmentState := do
  match entry.2 with
  | none =>
    .error ⟨"core encoded segment metadata is not readable", [("segment", .number entry.1)]⟩
  | some segment => do
    let role ← knownInt segment.role
      [SEGMENT_DIRECT, SEGMENT_OVERLAY_BASE, SEGMENT_OVERLAY_DELTA, SEGMENT_COMPOSITE_MEMBER,
        SEGMENT_COMPOSITE_BRIDGE]
      "core encoded segment role is invalid"
    let postingMode ← knownInt segment.postingMode
      [POSTINGS_ALL, POSTINGS_INCLUDE, POSTINGS_EXCLUDE]
      "core encoded segment posting mode is invalid"
    let rootIds ← borrowedSegmentBytes "root_ids" segment.rootIds 4
    let anonymousScopeMap ← borrowedSegmentBytes "anonymous_scope_map" segment.anonymousScopeMap 64
    let postingBytes := s.postingBytes + (rootIds.length + anonymousScopeMap.length)
    let postingRows := s.postingRows + (rootIds.length / 4 + anonymousScopeMap.length / 64)
    enforcePublicLimit topOwner "max_index_rows" postingRows
    enforcePublicLimit topOwner "max_index_bytes" (localBufferBytes + postingBytes)
    enforcePublicLimit topOwner "max_canonical_work" (localBufferBytes + postingBytes)
    let rootCount ← segmentRootCount sha256 segment.owner segment.source topOwner encodedView
      localRootCount
    let _ ← (List.range (rootIds.length / 4)).foldlM (checkPosting rootIds rootCount) 0
    require (!(postingMode == POSTINGS_ALL && rootIds.length != 0))
      "core encoded ALL segment mode requires empty postings"
    require (!((postingMode == POSTINGS_INCLUDE || postingMode == POSTINGS_EXCLUDE) &&
        rootIds.length == 0))
      "core encoded INCLUDE/EXCLUDE segment mode requires postings"
    validateScopeMap anonymousScopeMap
    let previousToken ← checkToken role s.previousToken segment.memberToken
    .ok ⟨s.records ++ [segment], previousToken, postingBytes, postingRows⟩

def Segment.sourceOwned (segment : Segment) : Bool :=
  match segment.source with
  | some source => segment.owner = source.owner
  | none => false

/-- A segment over the local table of the top owner, all of it and unmapped. -/
def Segment.isLocal (segment : Segment) (topOwner : SourceView) : Bool :=
  segment.owner = topOwner.identity && segment.source.isNone &&
    segment.postingMode.is POSTINGS_ALL && segment.anonymousScopeMap.bytes.length = 0 &&
    segment.memberToken.isNone

/-- `_validate_segment_family` -/
def validateSegmentFamily (segments : List Segment) (topOwner : SourceView)
    (localRootCount : Nat) : Check Unit :=
  let roles := segments.map (fun segment => segment.role)
  if roles = [.exact SEGMENT_DIRECT] then
    require (segments.all fun segment => segment.isLocal topOwner &&
        segment.rootIds.bytes.length = 0)
      "core encoded direct segment metadata is not canonical"
  else if roles = [.exact SEGMENT_OVERLAY_BASE] ∨
      roles = [.exact SEGMENT_OVERLAY_BASE, .exact SEGMENT_OVERLAY_DELTA] then do
    let base := segments.head?
    require (base.any fun base => base.sourceOwned &&
        (base.postingMode.is POSTINGS_ALL || base.postingMode.is POSTINGS_EXCLUDE) &&
        base.memberToken.isNone)
      "core encoded overlay base segment is invalid"
    match segments[1]? with
    | none => require (localRootCount == 0) "core encoded overlay without delta has local roots"
    | some delta =>
      require (delta.isLocal topOwner && localRootCount != 0)
        "core encoded overlay delta segment is invalid"
  else do
    let memberCount := roles.count (.exact SEGMENT_COMPOSITE_MEMBER)
    let bridgeCount := roles.count (.exact SEGMENT_COMPOSITE_BRIDGE)
    let expected := List.replicate memberCount (Attribute.exact SEGMENT_COMPOSITE_MEMBER) ++
      if bridgeCount = 0 then [] else [.exact SEGMENT_COMPOSITE_BRIDGE]
    require (!(decide (memberCount < 2) || decide (bridgeCount > 1) || roles != expected))
      "core encoded composite segment family is invalid"
    require ((segments.take memberCount).all fun member => member.sourceOwned &&
        (member.postingMode.is POSTINGS_ALL || member.postingMode.is POSTINGS_INCLUDE ||
          member.postingMode.is POSTINGS_EXCLUDE))
      "core encoded composite member is invalid"
    if bridgeCount ≠ 0 then
      require (segments.getLast?.any fun bridge => bridge.isLocal topOwner && localRootCount != 0)
        "core encoded composite bridge is invalid"
    else require (localRootCount == 0) "core encoded composite without bridge has local roots"

/-- `_validate_segments` -/
def validateSegments (rawSegments : Option (List (Option Segment))) (topOwner : SourceView)
    (encodedView localRootCount localBufferBytes : Nat) : Check (List Segment) :=
  match rawSegments with
  | none => refuse "core encoded segment manifest must be a nonempty exact tuple"
  | some segments => do
    require (!segments.isEmpty) "core encoded segment manifest must be a nonempty exact tuple"
    let maximumSegments := match topOwner.limits "max_composite_members" with
      | none => DEFAULT_MAX_SEGMENTS
      | some limit => limit + 1
    require (segments.length ≤ maximumSegments)
      "core encoded segment manifest exceeds its bound"
    enforcePublicLimit topOwner "max_index_rows" segments.length
    let s ← ((List.range segments.length).zip segments).foldlM
      (checkSegment sha256 topOwner encodedView localRootCount localBufferBytes) ⟨[], none, 0, 0⟩
    let metadataBytes := s.records.length * 128
    enforcePublicLimit topOwner "max_index_bytes"
      (localBufferBytes + s.postingBytes + metadataBytes)
    enforcePublicLimit topOwner "max_canonical_work" (s.postingBytes + metadataBytes)
    validateSegmentFamily s.records topOwner localRootCount
    .ok s.records

end Segments

def versionDetail (a : Attribute Int) : MetadataDetail := .number (a.value?.getD (-1))

def nameDetail : Attribute String → MetadataDetail
  | .exact name => .text name
  | .other text => .text text

def checkSchema (encoded : EncodedView) : Check Unit :=
  if encoded.schemaName.is ENCODED_SCHEMA_NAME && encoded.schemaVersion.is ENCODED_SCHEMA_VERSION
  then .ok ()
  else .error ⟨"core encoded view metadata does not match its advertised schema",
    [("expected_schema_name", .text ENCODED_SCHEMA_NAME),
      ("expected_schema_version", .number ENCODED_SCHEMA_VERSION),
      ("actual_schema_name", nameDetail encoded.schemaName),
      ("actual_schema_version", versionDetail encoded.schemaVersion)]⟩

def checkModelSchema (sourceView : SourceView) (encoded : EncodedView) : Check Unit :=
  if encoded.modelSchema.is CORE_MODEL_SCHEMA_VERSION &&
      sourceView.modelSchema.is CORE_MODEL_SCHEMA_VERSION
  then .ok ()
  else .error ⟨"core encoded view model schema does not match its owner or projector contract",
    [("expected_model_schema", .number CORE_MODEL_SCHEMA_VERSION),
      ("actual_model_schema", versionDetail encoded.modelSchema),
      ("owner_model_schema", versionDetail sourceView.modelSchema)]⟩

/-- `_validate_encoded_view` -/
def validateEncodedView (sha256 : Bytes → Bytes) (sourceView : SourceView) (encoded : EncodedView)
    (requestedScope : Nat) : Check Lease := do
  require encoded.publicType "core encoded view factory returned the wrong public type"
  checkSchema encoded
  checkModelSchema sourceView encoded
  require (encoded.owner = sourceView.identity)
    "core encoded view did not retain the exact source view identity"
  require (encoded.scope = requestedScope && !encoded.hasDocumentKey)
    "core encoded view scope does not match the requested closure selection"
  match encoded.descriptor with
  | .other _ => refuse "core encoded view descriptor must be nonempty immutable bytes"
  | .exact descriptor => do
    require (!descriptor.isEmpty) "core encoded view descriptor must be nonempty immutable bytes"
    require (match encoded.descriptorDigest with
        | none => true
        | some digest => digest.is (sha256 descriptor))
      "core encoded view descriptor digest does not match its immutable descriptor"
    require (sha256 descriptor == ENCODED_DESCRIPTOR_SHA256)
      ("core encoded view descriptor does not match the frozen " ++
        "pyowl-core structural-columns v1 ledger")
    match encoded.buffers with
    | none => refuse "core encoded view buffers are not a mapping"
    | some entries => do
      let validated ← entries.foldlM collectBuffer []
      checkNames validated
      let buffers := namedBuffers validated
      checkWidths buffers Column.all
      let localBufferBytes := (Column.all.map (fun c => (buffers c).length)).sum
      let localRootCount ← validateColumnReferences buffers sourceView localBufferBytes
      let segments ← validateSegments sha256 encoded.segments sourceView encoded.identity
        localRootCount localBufferBytes
      require (sourceView.fingerprintType = some encoded.fingerprintType)
        "core encoded view fingerprint has the wrong public type"
      .ok ⟨encoded.owner, encoded.scope, buffers, segments⟩

end Projector.Encoded
