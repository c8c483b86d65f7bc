import Projector.Lib.ByteStream
import Projector.Encoded.Validation

namespace Projector.Encoded
open Lib Projector.Core Compiler

/-- A cursor over one table. Two references to one cursor share its identity. -/
structure Cursor where
  identity : Nat
  columns : Columns
  scopeMap : Bytes → Option Bytes

/-- The scopes of a row of a scope map. -/
def scopeSource (value : Bytes) (index : Nat) : Bytes := rowAt value (index * 64) 32
def scopeTarget (value : Bytes) (index : Nat) : Bytes := rowAt value (index * 64 + 32) 32

/-- The mapping that the rows of a scope map spell out. -/
def scopeMapOf (value : Bytes) (scope : Bytes) : Option Bytes :=
  ((List.range (value.length / 64)).find? fun i => scopeSource value i == scope).map
    (scopeTarget value)

abbrev Lengths := Nat → Option Nat

/-- What a comparison changes: the lengths that every cursor remembers and the counter
of the comparator. -/
structure Session where
  lengths : Nat → Lengths
  bytesCompared : Nat

namespace Session

def start : Session := ⟨fun _ _ => none, 0⟩

def remember (s : Session) (cursor : Nat) (lengths : Lengths) : Session :=
  { s with lengths := fun c => if c = cursor then lengths else s.lengths c }

end Session

def kindsOf (item : Bool) : Buffer := if item then .itemKinds else .fieldKinds
def valuesOf (item : Bool) : Buffer := if item then .itemValues else .fieldValues
def lengthsOf (item : Bool) : Buffer := if item then .itemLengths else .fieldLengths

def isPlainScalar (kind : Nat) : Bool :=
  kind == COMPONENT_TEXT || kind == COMPONENT_BYTES || kind == COMPONENT_ENUM

namespace Cursor
variable (c : Cursor)

section Components

/-- The kind, the value and the length of a component. -/
def head (index : Nat) (item : Bool) : Read (Nat × Nat × Nat) := do
  let kind ← c.columns.read (kindsOf item) index
  let value ← c.columns.read (valuesOf item) index
  let length ← c.columns.read (lengthsOf item) index
  pure (kind, value, length)

/-- The payload after remapping: only the document scope of an anonymous individual, its
first field, is mapped. -/
def scalarPart (owner : Option Nat) (index expectedKind : Nat) (item : Bool) : Read Bytes := do
  let kind ← c.columns.read (kindsOf item) index
  demand (kind == expectedKind) "encoded subset canonical cursor scalar kind changed"
  let offset ← c.columns.read (valuesOf item) index
  let length ← c.columns.read (lengthsOf item) index
  demand (offset ≤ c.columns.scalarBytes.length && length ≤ c.columns.scalarBytes.length - offset)
    "encoded subset canonical cursor scalar is out of bounds"
  let payload := (c.columns.scalarBytes.drop offset).take length
  match owner with
  | none => pure payload
  | some id =>
    if item || expectedKind != COMPONENT_BYTES then pure payload
    else do
      let anonymous ← c.columns.tagIs id .anonymousIndividual
      if !anonymous then pure payload
      else do
        let (start, _) ← c.columns.fieldRange id
        if index = start then pure ((c.scopeMap payload).getD payload) else pure payload

def noncanonicalNone : String :=
  "encoded subset canonical cursor found a noncanonical none component"
def sizedNode : String := "encoded subset canonical cursor found a sized node component"
def nonminimalInteger : String := "encoded subset canonical cursor found a nonminimal integer"
def invalidKind : String := "encoded subset canonical cursor found an invalid component kind"
def outOfBounds : String := "encoded subset canonical cursor collection is out of bounds"

/-- The children that a component yields until something in it is refused. `nested` are
those of an item of a sequence. -/
def childIdsWith (nested : Nat → List (Read Nat)) (owner : Option Nat) (index : Nat)
    (item : Bool) : List (Read Nat) :=
  match c.head index item with
  | .error e => [.error e]
  | .ok (kind, value, length) =>
    if kind = COMPONENT_NONE then
      if value ≠ 0 ∨ length ≠ 0 then [reject noncanonicalNone] else []
    else if kind = COMPONENT_NODE then
      if length ≠ 0 then [reject sizedNode] else [c.columns.nodeId value]
    else if isPlainScalar kind then
      match c.scalarPart owner index kind item with
      | .error e => [.error e]
      | .ok _ => []
    else if kind = COMPONENT_INTEGER then
      match c.scalarPart owner index kind item with
      | .error e => [.error e]
      | .ok payload =>
        if Columns.minimalInteger payload then [] else [reject nonminimalInteger]
    else if (kind ≠ COMPONENT_SET ∧ kind ≠ COMPONENT_SEQUENCE) ∨ item = true then
      [reject invalidKind]
    else if value > c.columns.itemCount ∨ length > c.columns.itemCount - value then
      [reject outOfBounds]
    else
      (List.range' value length).flatMap fun j =>
        if kind = COMPONENT_SET then [c.columns.itemNode j] else nested j

def itemChildIds (index : Nat) : List (Read Nat) := c.childIdsWith (fun _ => []) none index true

/-- `_iter_component_child_ids` of a field. -/
def componentChildIds (owner index : Nat) : List (Read Nat) :=
  c.childIdsWith c.itemChildIds (some owner) index false

/-- `_iter_node_child_ids`. -/
def nodeChildIds (id : Nat) : List (Read Nat) :=
  match c.columns.fieldRange id with
  | .error e => [.error e]
  | .ok (start, stop) => (List.range' start (stop - start)).flatMap (c.componentChildIds id)

end Components

section NodeLengths

def cachedNodeLength (lengths : Lengths) (id : Nat) : Read Nat :=
  match lengths id with
  | some n => .ok n
  | none =>
    reject "encoded subset canonical cursor child length is unavailable after preflight"

def varintLength (n : Nat) : Nat := (varint n).length

/-- The length of a component whose children have been measured. -/
def componentLengthWith (lengths : Lengths) (nested : Nat → Read Nat) (owner : Option Nat)
    (index : Nat) (item : Bool) : Read Nat := do
  let (kind, value, length) ← c.head index item
  if kind = COMPONENT_NONE then
    if value ≠ 0 ∨ length ≠ 0 then reject noncanonicalNone else pure 1
  else if kind = COMPONENT_NODE then
    if length ≠ 0 then reject sizedNode
    else do
      let child ← c.columns.nodeId value
      let childLength ← cachedNodeLength lengths child
      pure (1 + varintLength childLength + childLength)
  else if isPlainScalar kind then do
    let payload ← c.scalarPart owner index kind item
    pure (1 + varintLength payload.length + payload.length)
  else if kind = COMPONENT_INTEGER then do
    let payload ← c.scalarPart owner index kind item
    if Columns.minimalInteger payload then pure (1 + varintLength (fromLittleEndian payload))
    else reject nonminimalInteger
  else if (kind ≠ COMPONENT_SET ∧ kind ≠ COMPONENT_SEQUENCE) ∨ item = true then
    reject invalidKind
  else if value > c.columns.itemCount ∨ length > c.columns.itemCount - value then
    reject outOfBounds
  else
    (List.range' value length).foldlM
      (fun result j =>
        if kind = COMPONENT_SET then do
          let child ← c.columns.itemNode j
          let childLength ← cachedNodeLength lengths child
          pure (result + (varintLength childLength + childLength))
        else do
          let itemLength ← nested j
          pure (result + itemLength))
      (1 + varintLength length)

def itemLength (lengths : Lengths) (index : Nat) : Read Nat :=
  c.componentLengthWith lengths (fun _ => pure 0) none index true

/-- `_component_length` of a field. -/
def componentLength (lengths : Lengths) (owner index : Nat) : Read Nat :=
  c.componentLengthWith lengths (c.itemLength lengths) (some owner) index false

/-- The length of a node whose children have been measured. -/
def measured (lengths : Lengths) (id : Nat) : Read Nat := do
  let tag ← c.columns.nodeTag id
  let (start, stop) ← c.columns.fieldRange id
  (List.range' start (stop - start)).foldlM
    (fun result index => do
      let length ← c.componentLength lengths id index
      pure (result + length))
    (varintLength tag)

/-- The loop of `node_length`: what has been measured, the path and the children that
every node on it still has to yield. -/
structure Walk where
  lengths : Lengths
  active : List Nat
  frames : List (Nat × List (Read Nat))

def Lengths.insert (lengths : Lengths) (id n : Nat) : Lengths :=
  fun k => if k = id then some n else lengths k

/-- One turn of the loop, for the node on top. -/
def walkTurn (lengths : Lengths) (active : List Nat) (id : Nat) (children : List (Read Nat))
    (frames : List (Nat × List (Read Nat))) : Read Walk :=
  match children with
  | [] => do
    let result ← c.measured lengths id
    pure ⟨Lengths.insert lengths id result, active.erase id, frames⟩
  | .error e :: _ => .error e
  | .ok child :: rest =>
    if (lengths child).isSome then pure ⟨lengths, active, (id, rest) :: frames⟩
    else do
      let _ ← c.columns.nodeTag child
      if active.contains child then
        reject "encoded subset canonical cursor found a cyclic node graph"
      else pure ⟨lengths, child :: active, (child, c.nodeChildIds child) :: (id, rest) :: frames⟩

def walkLoop : Nat → Walk → Read Lengths
  | 0, w => pure w.lengths
  | fuel + 1, w =>
    match w.frames with
    | [] => pure w.lengths
    | (id, children) :: frames => do
      let next ← c.walkTurn w.lengths w.active id children frames
      walkLoop fuel next

/-- Every node is left once, after a turn for every child it yields. -/
def turnsOf (id : Nat) : Nat := (c.nodeChildIds id).length + 1

def walkFuel : Nat := ((List.range' 1 c.columns.nodeCount).map c.turnsOf).sum + 1

/-- `node_length`, and the lengths that the cursor remembers after it. -/
def nodeLength (lengths : Lengths) (id : Nat) : Read (Nat × Lengths) :=
  match lengths id with
  | some n => .ok (n, lengths)
  | none => do
    let _ ← c.columns.nodeTag id
    let lengths ← c.walkLoop c.walkFuel ⟨lengths, [id], [(id, c.nodeChildIds id)]⟩
    match lengths id with
    | some n => pure (n, lengths)
    | none =>
      reject "encoded subset canonical cursor did not calculate the requested node length"

end NodeLengths

section Bytes

/-- What the generators of parts yield. `lengthOf` stands for the bytes of a length that
is asked for when they are wanted. -/
inductive Part where
  | byte (value : Nat)
  | bytes (payload : Bytes)
  | lengthOf (id : Nat)
  | node (id : Nat)
  | component (owner : Option Nat) (index : Nat) (item : Bool)

/-- The length and the bytes of a child. -/
def childParts (child : Read Nat) : List (Read Part) :=
  match child with
  | .error e => [.error e]
  | .ok id => [.ok (.lengthOf id), .ok (.node id)]

/-- `_iter_node_parts`. -/
def nodeParts (id : Nat) : List (Read Part) :=
  match c.columns.nodeTag id with
  | .error e => [.error e]
  | .ok tag =>
    .ok (.bytes (varint tag)) ::
      match c.columns.fieldRange id with
      | .error e => [.error e]
      | .ok (start, stop) =>
        (List.range' start (stop - start)).map fun index => .ok (.component (some id) index false)

/-- `_iter_component_parts`. -/
def componentParts (owner : Option Nat) (index : Nat) (item : Bool) : List (Read Part) :=
  match c.head index item with
  | .error e => [.error e]
  | .ok (kind, value, length) =>
    .ok (.byte kind) ::
      if kind = COMPONENT_NONE then []
      else if kind = COMPONENT_NODE then childParts (c.columns.nodeId value)
      else if isPlainScalar kind then
        match c.scalarPart owner index kind item with
        | .error e => [.error e]
        | .ok payload => [.ok (.bytes (varint payload.length)), .ok (.bytes payload)]
      else if kind = COMPONENT_INTEGER then
        match c.scalarPart owner index kind item with
        | .error e => [.error e]
        | .ok payload => [.ok (.bytes (varint (fromLittleEndian payload)))]
      else if (kind ≠ COMPONENT_SET ∧ kind ≠ COMPONENT_SEQUENCE) ∨ item = true then
        [reject invalidKind]
      else
        .ok (.bytes (varint length)) ::
          (List.range' value length).flatMap fun j =>
            if kind = COMPONENT_SET then childParts (c.columns.itemNode j)
            else [.ok (.component none j true)]

abbrev Frames := List (List (Read Part))

/-- One turn of the loop of `_iter_node_bytes`. -/
def byteTurn (session : Session) : Frames → Read (Session × Turn Frames)
  | [] => .ok (session, .stop)
  | [] :: frames => .ok (session, .silent frames)
  | (.error e :: _) :: _ => .error e
  | (.ok part :: parts) :: frames =>
    match part with
    | .byte value => .ok (session, .emit (UInt8.ofNat value) (parts :: frames))
    | .bytes [] => .ok (session, .silent (parts :: frames))
    | .bytes (b :: rest) => .ok (session, .emit b ((.ok (.bytes rest) :: parts) :: frames))
    | .lengthOf id => do
      let (n, lengths) ← c.nodeLength (session.lengths c.identity) id
      .ok (session.remember c.identity lengths,
        .silent ((.ok (.bytes (varint n)) :: parts) :: frames))
    | .node id => .ok (session, .silent (c.nodeParts id :: parts :: frames))
    | .component owner index item =>
      .ok (session, .silent (c.componentParts owner index item :: parts :: frames))

/-- `iter_node_bytes`: the length is measured before the first byte is given out. -/
def iterNodeBytes (session : Session) (id : Nat) : Read (Session × Frames) := do
  let (_, lengths) ← c.nodeLength (session.lengths c.identity) id
  pure (session.remember c.identity lengths, [c.nodeParts id])

/-- The bytes that `iter_node_bytes` yields. -/
def nodeBytes (fuel : Nat) (session : Session) (id : Nat) : Option (Read (Session × Bytes)) :=
  match c.iterNodeBytes session id with
  | .error e => some (.error e)
  | .ok (session, frames) => drain c.byteTurn fuel session frames

end Bytes

end Cursor

section Comparison

def countByte (session : Session) : Read Session :=
  .ok { session with bytesCompared := session.bytesCompared + 1 }

/-- `compare_nodes`. A node is the same as itself without looking at its bytes. -/
def compareNodes (fuel : Nat) (session : Session) (left : Cursor) (leftId : Nat)
    (right : Cursor) (rightId : Nat) : Option (Read (Session × Ordering)) :=
  if left.identity = right.identity ∧ leftId = rightId then some (.ok (session, .eq))
  else
    match left.iterNodeBytes session leftId with
    | .error e => some (.error e)
    | .ok (session, leftFrames) =>
      match right.iterNodeBytes session rightId with
      | .error e => some (.error e)
      | .ok (session, rightFrames) =>
        compareStreams left.byteTurn right.byteTurn countByte fuel session leftFrames rightFrames

end Comparison

end Projector.Encoded
