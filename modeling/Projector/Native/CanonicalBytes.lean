import Projector.Lib.ByteStream
import Projector.Encoded.CanonicalCursor
import Projector.Native.BatchSession

namespace Projector.Native
open Lib Projector.Core Projector.Encoded

section Metering

/-- What stands between a computation and its resources: the budget of canonical work
with the cancellation flag it looks at, and the accounted growth of a stack that has the
given height. Either may refuse. -/
structure Meter (β : Type) where
  consume : Nat → β → Except KernelError β
  grow : Nat → β → Except KernelError β

abbrev Metered (β : Type) := StateT β (Except KernelError)

variable {β : Type} (m : Meter β)

def Meter.consumed (amount : Nat) : Metered β Unit := fun b =>
  match m.consume amount b with
  | .ok b => .ok ((), b)
  | .error e => .error e

def Meter.grown (height : Nat) : Metered β Unit := fun b =>
  match m.grow height b with
  | .ok b => .ok ((), b)
  | .error e => .error e

def fail {α : Type} (e : KernelError) : Metered β α := fun _ => .error e

def malformed {α : Type} (message : String) : Metered β α := fail (.malformed message)

/-- A read of a column. -/
def lift {α : Type} (x : Except KernelError α) : Metered β α := fun b =>
  match x with
  | .ok a => .ok (a, b)
  | .error e => .error e

end Metering

/-- The borrowed buffers of one table, and the scope maps that are applied one after
another. -/
structure DirectColumns where
  columns : Columns
  scopeMaps : List Bytes

/-- `with_anonymous_scope_map`: an empty map is none. -/
def DirectColumns.ofTable (columns : Columns) (scopeMap : Bytes) : DirectColumns :=
  ⟨columns, if scopeMap.isEmpty then [] else [scopeMap]⟩

def usizeLimit : Nat := 2 ^ 64

def checkedAdd (a b : Nat) (message : String) : Except KernelError Nat :=
  if a + b < usizeLimit then .ok (a + b) else .error (.resource message)

def readUsize (values : List Nat) (index : Nat) (name : String) : Except KernelError Nat :=
  match values[index]? with
  | some value => .ok value
  | none => .error (.malformed ("encoded " ++ name ++ " index is out of range"))

namespace DirectColumns
variable (d : DirectColumns)

def fieldKind (index : Nat) : Except KernelError Nat :=
  match d.columns.fieldKinds[index]? with
  | some kind => .ok kind
  | none => .error (.malformed "field kind index is out of range")

def checkedNodeId (id : Nat) : Except KernelError Nat :=
  if 1 ≤ id ∧ id ≤ d.columns.nodeCount then .ok id
  else .error (.malformed "encoded node reference is out of range")

def nodeTag (id : Nat) : Except KernelError Nat := do
  let _ ← d.checkedNodeId id
  readUsize d.columns.nodeTags (id - 1) "node_tags"

def fieldRange (id : Nat) : Except KernelError (Nat × Nat) := do
  let _ ← d.checkedNodeId id
  let start ← readUsize d.columns.nodeFieldOffsets (id - 1) "node_field_offsets"
  let stop ← readUsize d.columns.nodeFieldOffsets id "node_field_offsets"
  if start ≤ stop ∧ stop ≤ d.columns.fieldCount then .ok (start, stop)
  else .error (.malformed "encoded node field range is invalid")

def scalarRange (start length : Nat) : Except KernelError Bytes :=
  if start + length ≥ usizeLimit then .error (.malformed "encoded scalar range overflow")
  else if start + length ≤ d.columns.scalarBytes.length then
    .ok ((d.columns.scalarBytes.drop start).take length)
  else .error (.malformed "encoded scalar range is out of bounds")

/-- The binary search for a source scope, from `start` to `stop`. -/
def searchScope (scopeMap current : Bytes) : Nat → Nat → Nat → Bytes
  | 0, _, _ => current
  | fuel + 1, start, stop =>
    if start < stop then
      let middle := start + (stop - start) / 2
      let source := scopeSource scopeMap middle
      if source < current then searchScope scopeMap current fuel (middle + 1) stop
      else if current < source then searchScope scopeMap current fuel start middle
      else scopeTarget scopeMap middle
    else current

def remapAnonymousScope (scope : Bytes) : Bytes :=
  d.scopeMaps.foldl
    (fun current scopeMap =>
      let rows := scopeMap.length / 64
      searchScope scopeMap current rows 0 rows)
    scope

end DirectColumns

inductive CanonicalComponent where
  | none
  | node (id : Nat)
  | scalar (kind : Nat) (value : Bytes)
  | integer (value : Bytes)
  | collection (kind start length : Nat)
  deriving DecidableEq

section Components
variable {β : Type} (m : Meter β) (d : DirectColumns)

def itemKind (index : Nat) : Except KernelError Nat :=
  match d.columns.itemKinds[index]? with
  | some kind => .ok kind
  | none => .error (.malformed "encoded canonical item index is out of range")

/-- The kind, the value and the length of a component. -/
def componentRow (index : Nat) (item : Bool) : Except KernelError (Nat × Nat × Nat) :=
  if item then do
    let kind ← itemKind d index
    let value ← readUsize d.columns.itemValues index "item_values"
    let length ← readUsize d.columns.itemLengths index "item_lengths"
    .ok (kind, value, length)
  else do
    let kind ← d.fieldKind index
    let value ← readUsize d.columns.fieldValues index "field_values"
    let length ← readUsize d.columns.fieldLengths index "field_lengths"
    .ok (kind, value, length)

/-- The checks of text and of the name of an enumeration. -/
def checkScalar (kind : Nat) (payload : Bytes) : Metered β Unit := do
  if kind = COMPONENT_TEXT then do
    m.consumed payload.length
    if (fromUtf8? payload).isNone then
      malformed "encoded canonical text component is not UTF-8"
    else pure ()
  else if kind = COMPONENT_ENUM then do
    m.consumed payload.length
    if payload.isEmpty ∨ payload.any (fun b => b.toNat ≥ 128) then
      malformed "encoded canonical enum component is not nonempty ASCII"
    else pure ()
  else pure ()

def canonicalComponent (index : Nat) (item : Bool) : Metered β CanonicalComponent := do
  let (kind, value, length) ← lift (componentRow d index item)
  if kind = COMPONENT_NONE then
    if value ≠ 0 ∨ length ≠ 0 then malformed "encoded canonical none component is not canonical"
    else pure .none
  else if kind = COMPONENT_NODE then
    if length ≠ 0 then malformed "encoded canonical node component has a nonzero length"
    else do
      let id ← lift (d.checkedNodeId value)
      pure (.node id)
  else if kind = COMPONENT_TEXT ∨ kind = COMPONENT_BYTES ∨ kind = COMPONENT_ENUM then do
    let payload ← lift (d.scalarRange value length)
    checkScalar m kind payload
    pure (.scalar kind payload)
  else if kind = COMPONENT_INTEGER then do
    let payload ← lift (d.scalarRange value length)
    if Columns.minimalInteger payload then pure (.integer payload)
    else malformed "encoded canonical integer is not minimally encoded"
  else if kind = COMPONENT_SET ∨ kind = COMPONENT_SEQUENCE then
    if item then malformed "encoded canonical sequence contains a nested collection"
    else if value > d.columns.itemCount ∨ length > d.columns.itemCount - value then
      malformed "encoded canonical collection is out of bounds"
    else pure (.collection kind value length)
  else malformed "encoded canonical component kind is invalid"

end Components

section Lengths

/-- The groups of seven bits that a number needs. -/
def varintWidthFrom : Nat → Nat → Nat
  | 0, _ => 1
  | fuel + 1, value => if value ≥ 0x80 then 1 + varintWidthFrom fuel (value / 128) else 1

def varintWidth (value : Nat) : Nat := varintWidthFrom value value

/-- The bits of a byte without its leading zeros. -/
def significantBits (b : UInt8) : Nat := if b = 0 then 0 else Nat.log2 b.toNat + 1

def integerWidthOverflow : String := "encoded canonical integer width overflow"

def integerVarintChunks (value : Bytes) : Except KernelError Nat :=
  match value.getLast? with
  | none => .error (.malformed "encoded canonical integer payload is empty")
  | some finalByte =>
    if value.length > 1 ∧ finalByte = 0 then
      .error (.malformed "encoded canonical integer is not minimally encoded")
    else if finalByte = 0 then .ok 1
    else do
      let prefixBits ←
        if (value.length - 1) * 8 < usizeLimit then .ok ((value.length - 1) * 8)
        else .error (.resource integerWidthOverflow)
      let bits ← checkedAdd prefixBits (significantBits finalByte) integerWidthOverflow
      let bits ← checkedAdd bits 6 integerWidthOverflow
      .ok (bits / 7)

variable {β : Type} (m : Meter β) (d : DirectColumns)

/-- The length of a child; zero stands for a length that is not known. -/
def childLength (lengths : Nat → Nat) (id : Nat) (message : String) : Except KernelError Nat :=
  if lengths id = 0 then .error (.malformed message) else .ok (lengths id)

/-- A marker or a running total, and a payload with its length. -/
def sizedLength (total length : Nat) (message : String) : Except KernelError Nat := do
  let total ← checkedAdd total (varintWidth length) message
  checkedAdd total length message

/-- The length of a component that is no collection. -/
def leafLength (lengths : Nat → Nat) (component : CanonicalComponent) :
    Except KernelError Nat :=
  match component with
  | .none => .ok 1
  | .node id => do
    let child ← childLength lengths id "encoded canonical child length is unavailable"
    sizedLength 1 child "encoded canonical child length overflow"
  | .scalar _ value => sizedLength 1 value.length "encoded canonical scalar length overflow"
  | .integer value => do
    let chunks ← integerVarintChunks value
    checkedAdd 1 chunks "encoded canonical integer length overflow"
  | .collection .. => .error (.malformed "encoded canonical sequence contains a nested collection")

/-- One turn of the loop over the items of a collection. -/
def itemTurn (lengths : Nat → Nat) (kind total index : Nat) : Metered β Nat := do
  m.consumed 1
  let item ← canonicalComponent m d index true
  if kind = COMPONENT_SET then
    match item with
    | .node id => do
      let child ← lift (childLength lengths id "encoded canonical set child length is unavailable")
      lift (sizedLength total child "encoded canonical set length overflow")
    | _ => malformed "encoded canonical set contains a scalar"
  else do
    m.consumed 1
    let length ← lift (leafLength lengths item)
    lift (checkedAdd total length "encoded canonical sequence length overflow")

def componentLength (lengths : Nat → Nat) (component : CanonicalComponent) : Metered β Nat := do
  m.consumed 1
  match component with
  | .collection kind start length => do
    let total ← lift (checkedAdd 1 (varintWidth length)
      "encoded canonical collection length overflow")
    (List.range' start length).foldlM (itemTurn m d lengths kind) total
  | other => lift (leafLength lengths other)

end Lengths

section Build
variable {β : Type} (m : Meter β) (d : DirectColumns)

inductive LengthEvent where
  | enter (id : Nat)
  | exit (id : Nat)
  deriving DecidableEq

/-- The locals of `CanonicalTable::build`. Colours are 0 before a node is entered, 1 on
the path and 2 when it has been left. -/
structure Building where
  lengths : Nat → Nat
  colors : Nat → Nat
  events : List LengthEvent

def eventCapacity : Nat :=
  d.columns.nodeCount * 2 + d.columns.fieldCount + d.columns.itemCount + 1

def pushEvent (event : LengthEvent) (s : Building) : Except KernelError Building :=
  if s.events.length = eventCapacity d then
    .error (.resource "encoded canonical traversal exceeded its accounted stack")
  else .ok { s with events := event :: s.events }

def cyclicGraph : String := "encoded canonical comparator found a cyclic node graph"

/-- A child that has not been entered is entered later; one on the path closes a cycle. -/
def pushChild (child : Nat) (s : Building) : Except KernelError Building :=
  if s.colors child = 1 then .error (.malformed cyclicGraph)
  else if s.colors child = 0 then pushEvent d (.enter child) s
  else .ok s

def enterItem (kind : Nat) (s : Building) (index : Nat) : Metered β Building := do
  m.consumed 1
  let item ← canonicalComponent m d index true
  match item with
  | .node child => lift (pushChild d child s)
  | _ =>
    if kind = COMPONENT_SET then malformed "encoded canonical set contains a scalar"
    else pure s

def enterField (s : Building) (index : Nat) : Metered β Building := do
  m.consumed 1
  let component ← canonicalComponent m d index false
  match component with
  | .node child => lift (pushChild d child s)
  | .collection kind start length =>
    (List.range' start length).reverse.foldlM (enterItem m d kind) s
  | _ => pure s

def exitField (lengths : Nat → Nat) (length index : Nat) : Metered β Nat := do
  let component ← canonicalComponent m d index false
  let more ← componentLength m d lengths component
  lift (checkedAdd length more "encoded canonical node length overflow")

def update (f : Nat → Nat) (key value : Nat) : Nat → Nat := fun k => if k = key then value else f k

def eventTurn (event : LengthEvent) (s : Building) : Metered β Building :=
  match event with
  | .enter id =>
    if s.colors id = 2 then pure s
    else if s.colors id = 1 then malformed cyclicGraph
    else do
      let s ← lift (pushEvent d (.exit id) { s with colors := update s.colors id 1 })
      let (start, stop) ← lift (d.fieldRange id)
      (List.range' start (stop - start)).reverse.foldlM (enterField m d) s
  | .exit id => do
    let tag ← lift (d.nodeTag id)
    let (start, stop) ← lift (d.fieldRange id)
    let length ← (List.range' start (stop - start)).foldlM (exitField m d s.lengths)
      (varintWidth tag)
    pure { s with lengths := update s.lengths id length, colors := update s.colors id 2 }

/-- `while let Some(event) = events.pop()`. -/
def eventLoop : Nat → Building → Metered β (Option Building)
  | 0, _ => pure none
  | fuel + 1, s =>
    match s.events with
    | [] => pure (some s)
    | event :: rest => do
      m.consumed 1
      let s ← eventTurn m d event { s with events := rest }
      eventLoop fuel s

/-- The loop over the nodes to start from. -/
def buildFrom (fuel : Nat) : List Nat → Building → Metered β (Option Building)
  | [], s => pure (some s)
  | initial :: rest, s => do
    m.consumed 1
    if s.colors initial = 2 then buildFrom fuel rest s
    else do
      let s ← lift (pushEvent d (.enter initial) s)
      match ← eventLoop m d fuel s with
      | none => pure none
      | some s => buildFrom fuel rest s

/-- `CanonicalTable::build` after the validation of the buffers: the lengths of the nodes. -/
def buildLengths (fuel : Nat) : Metered β (Option (Nat → Nat)) := do
  let built ← buildFrom m d fuel (List.range' 1 d.columns.nodeCount) ⟨fun _ => 0, fun _ => 0, []⟩
  pure (built.map Building.lengths)

end Build

section Emitting
variable {β : Type} (m : Meter β) (d : DirectColumns) (lengths : Nat → Nat)

inductive EmitTask where
  | byte (value : Nat)
  | varint (value : Nat)
  | slice (value : Bytes) (index : Nat)
  | integer (value : Bytes) (chunk chunks : Nat)
  | node (id : Nat)
  | component (index : Nat) (item remapScope : Bool)
  | collection (start index length : Nat) (canonicalSet : Bool)

/-- The stack of a `CanonicalByteCursor`. -/
abbrev Tasks := List EmitTask

def push (task : EmitTask) (stack : Tasks) : Metered β Tasks := do
  m.grown stack.length
  pure (task :: stack)

def scheduleNode (id : Nat) (includeMarker : Bool) (stack : Tasks) : Metered β Tasks := do
  let length ← lift (childLength lengths id "encoded canonical cursor node length is unavailable")
  let stack ← push m (.node id) stack
  let stack ← push m (.varint length) stack
  if includeMarker then push m (.byte COMPONENT_NODE) stack else pure stack

def scheduleComponent (component : CanonicalComponent) (stack : Tasks) : Metered β Tasks :=
  match component with
  | .none => push m (.byte COMPONENT_NONE) stack
  | .node id => scheduleNode m lengths id true stack
  | .scalar kind value => do
    let stack ← if value.isEmpty then pure stack else push m (.slice value 0) stack
    let stack ← push m (.varint value.length) stack
    push m (.byte kind) stack
  | .integer value => do
    let chunks ← lift (integerVarintChunks value)
    let stack ← push m (.integer value 0 chunks) stack
    push m (.byte COMPONENT_INTEGER) stack
  | .collection kind start length => do
    let stack ← push m (.collection start 0 length (kind == COMPONENT_SET)) stack
    let stack ← push m (.varint length) stack
    push m (.byte kind) stack

/-- The seven bits of a number from bit `7 * chunk` on. -/
def integerGroup (value : Bytes) (chunk : Nat) : Nat :=
  let byteIndex := chunk * 7 / 8
  let shift := chunk * 7 % 8
  let low := (value[byteIndex]?.getD 0).toNat
  let high := (value[byteIndex + 1]?.getD 0).toNat
  (low + 256 * high) / 2 ^ shift % 128

/-- The field tasks of a node, pushed from the last field to the first. -/
def pushFields (start : Nat) (remapsScope : Bool) (stack : Tasks) (index : Nat) :
    Metered β Tasks :=
  push m (.component index false (remapsScope && index == start)) stack

/-- The scope of an anonymous individual is mapped before it is scheduled. -/
def remapped (remapScope : Bool) (component : CanonicalComponent) :
    Except KernelError CanonicalComponent :=
  if remapScope then
    match component with
    | .scalar kind value =>
      if kind = COMPONENT_BYTES then .ok (.scalar kind (d.remapAnonymousScope value))
      else .error (.malformed "encoded anonymous scope is not a bytes component")
    | _ => .error (.malformed "encoded anonymous scope is not a bytes component")
  else .ok component

/-- One turn of the loop of `next_byte`, for the task on top. -/
def taskTurn (task : EmitTask) (stack : Tasks) : Metered β (Turn Tasks) :=
  match task with
  | .byte value => pure (.emit (UInt8.ofNat value) stack)
  | .varint value => do
    let following := value / 128
    let stack ← if following ≠ 0 then push m (.varint following) stack else pure stack
    pure (.emit (UInt8.ofNat (value % 128 + if following = 0 then 0 else 128)) stack)
  | .slice value index =>
    match value[index]? with
    | none => malformed "encoded canonical cursor scalar is out of bounds"
    | some byte => do
      let stack ←
        if index + 1 < value.length then push m (.slice value (index + 1)) stack else pure stack
      pure (.emit byte stack)
  | .integer value chunk chunks =>
    if chunk ≥ chunks then malformed "encoded canonical integer cursor is out of bounds"
    else if chunk * 7 ≥ usizeLimit then
      fail (.resource "encoded canonical integer cursor overflow")
    else do
      let stack ←
        if chunk + 1 < chunks then push m (.integer value (chunk + 1) chunks) stack
        else pure stack
      pure (.emit
        (UInt8.ofNat (integerGroup value chunk + if chunk + 1 = chunks then 0 else 128)) stack)
  | .node id => do
    let (start, stop) ← lift (d.fieldRange id)
    let tag ← lift (d.nodeTag id)
    let remapsScope := tag == Constructor.anonymousIndividual.tag
    let stack ← (List.range' start (stop - start)).reverse.foldlM
      (pushFields m start remapsScope) stack
    let stack ← push m (.varint tag) stack
    pure (.silent stack)
  | .component index item remapScope => do
    let component ← canonicalComponent m d index item
    let component ← lift (remapped d remapScope component)
    let stack ← scheduleComponent m lengths component stack
    pure (.silent stack)
  | .collection start index length canonicalSet =>
    if index ≥ length then pure (.silent stack)
    else do
      let stack ← push m (.collection start (index + 1) length canonicalSet) stack
      let item ← canonicalComponent m d (start + index) true
      if canonicalSet then
        match item with
        | .node id => do
          let stack ← scheduleNode m lengths id false stack
          pure (.silent stack)
        | _ => malformed "encoded canonical set contains a scalar"
      else do
        let stack ← scheduleComponent m lengths item stack
        pure (.silent stack)

def emitTurn (budget : β) (stack : Tasks) : Except KernelError (β × Turn Tasks) :=
  match stack with
  | [] => .ok (budget, .stop)
  | task :: rest =>
    match (do m.consumed 1; taskTurn m d lengths task rest : Metered β (Turn Tasks)) budget with
    | .ok (turn, budget) => .ok (budget, turn)
    | .error e => .error e

/-- The bytes of a node: `reset` and `next_byte` until nothing is left. -/
def canonicalBytes (fuel : Nat) (budget : β) (id : Nat) :
    Option (Except KernelError (β × Bytes)) :=
  match push m (.node id) [] budget with
  | .error e => some (.error e)
  | .ok (stack, budget) => drain (emitTurn m d lengths) fuel budget stack

end Emitting

end Projector.Native
