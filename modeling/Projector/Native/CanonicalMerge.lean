import Projector.Lib.LeastHead
import Projector.Lib.Shared
import Projector.Native.GenericChecks
import Projector.Native.RootCursor

namespace Projector.Native
open Lib Projector.Encoded

/-- What stands between a merge and its budget: the work, the growth of the stacks of its two byte
cursors, and the counters of compared bytes and of merged roots. Each may refuse. -/
structure MergeMeter (β : Type) where
  consume : Nat → β → Except KernelError β
  growLeft : Nat → β → Except KernelError β
  growRight : Nat → β → Except KernelError β
  recordByte : β → Except KernelError β
  recordRoots : Nat → β → Except KernelError β

namespace MergeMeter
variable {β : Type} (mm : MergeMeter β)

def left : Meter β := ⟨mm.consume, mm.growLeft⟩
def right : Meter β := ⟨mm.consume, mm.growRight⟩

end MergeMeter

/-- A comparison of byte streams may need more fuel than there is. -/
abbrev MergeRun (β : Type) := Lib.Shared β KernelError

section Steps
variable {β α : Type}

def metered (x : Metered β α) : MergeRun β α := ⟨fun b =>
  some (match x b with
    | .ok (a, b) => .ok (b, a)
    | .error e => .error e)⟩

def raise (e : KernelError) : MergeRun β α := Lib.Shared.lift (.error e)

def recorded (record : β → Except KernelError β) : MergeRun β Unit := ⟨fun b =>
  some (match record b with
    | .ok b => .ok (b, ())
    | .error e => .error e)⟩

end Steps

/-- `CanonicalTable` -/
structure CanonicalTable where
  columns : SelectedColumns
  lengths : Nat → Nat

section Build
variable {β : Type} (mm : MergeMeter β) (fuel : Nat)

def validationWork (d : SelectedColumns) : Nat :=
  d.rootCount + d.includedRootIds.length + d.excludedRootIds.length + d.direct.columns.nodeCount +
    d.direct.columns.fieldCount + d.direct.columns.itemCount +
    d.direct.columns.scalarBytes.length + 1

/-- `CanonicalTable::build` -/
def CanonicalTable.build (d : SelectedColumns) : MergeRun β CanonicalTable := do
  metered (mm.left.consumed (validationWork d))
  Lib.Shared.lift (validateGeneric d)
  let lengths ← metered (buildLengths mm.left d.direct fuel)
  match lengths with
  | none => Lib.Shared.exhausted
  | some lengths => pure ⟨d, lengths⟩

/-- `compare_sides` and `compare_nodes`: within one table a node is the same as itself without
looking at its bytes. -/
def compareTableNodes (same : Bool) (left : CanonicalTable) (leftNode : Nat)
    (right : CanonicalTable) (rightNode : Nat) : MergeRun β Ordering := do
  let _ ← Lib.Shared.lift (left.columns.direct.checkedNodeId leftNode)
  let _ ← Lib.Shared.lift (right.columns.direct.checkedNodeId rightNode)
  if same && leftNode == rightNode then pure .eq
  else do
    let leftStack ← metered (push mm.left (.node leftNode) [])
    let rightStack ← metered (push mm.right (.node rightNode) [])
    ⟨fun b => compareStreams (emitTurn mm.left left.columns.direct left.lengths)
      (emitTurn mm.right right.columns.direct right.lengths) mm.recordByte fuel b leftStack
      rightStack⟩

def kindOrder (left right : CanonicalRootRef) : Ordering := compare left.kind right.kind

/-- The order of roots by their kinds and then by their nodes. -/
def orderRoots (same : Bool) (left : CanonicalTable) (leftRoot : CanonicalRootRef)
    (right : CanonicalTable) (rightRoot : CanonicalRootRef) : MergeRun β Ordering :=
  if kindOrder leftRoot rightRoot ≠ .eq then pure (kindOrder leftRoot rightRoot)
  else compareTableNodes mm fuel same left leftRoot.nodeId right rightRoot.nodeId

/-- `compare_roots` -/
def compareTableRoots (same : Bool) (left : CanonicalTable) (leftRoot : CanonicalRootRef)
    (right : CanonicalTable) (rightRoot : CanonicalRootRef) : MergeRun β Ordering := do
  metered (mm.left.consumed 1)
  orderRoots mm fuel same left leftRoot right rightRoot

end Build

section Validation
variable {β : Type} (mm : MergeMeter β) (fuel : Nat) (table : CanonicalTable) (error : KernelError)

/-- The member of a set, which is a node. -/
def setMember (index : Nat) : MergeRun β Nat := do
  let item ← metered (canonicalComponent mm.left table.columns.direct index true)
  match item with
  | .node id => pure id
  | _ => raise (.malformed "encoded canonical set contains a scalar")

/-- `for offset in 1..length`, over the offsets that are left. -/
def validateMembers (start : Nat) : List Nat → MergeRun β Unit
  | [] => pure ()
  | offset :: rest => do
    metered (mm.left.consumed 1)
    let previous ← setMember mm table (start + offset - 1)
    let current ← setMember mm table (start + offset)
    let order ← compareTableNodes mm fuel true table previous table current
    if order ≠ .lt then raise error else validateMembers start rest

def setChanged : KernelError := .malformed "encoded canonical set field changed after length preflight"

/-- The loop over fields: the members of every set ascend. -/
def validateSets : List Nat → MergeRun β Unit
  | [] => pure ()
  | index :: rest => do
    metered (mm.left.consumed 1)
    let kind ← Lib.Shared.lift (table.columns.direct.fieldKind index)
    if kind ≠ COMPONENT_SET then validateSets rest
    else do
      let component ← metered (canonicalComponent mm.left table.columns.direct index false)
      match component with
      | .collection kind start length =>
        if kind ≠ COMPONENT_SET then raise setChanged
        else do
          validateMembers mm fuel table error start (List.range' 1 (length - 1))
          validateSets rest
      | _ => raise setChanged

/-- The loop over roots: each comes after the one before it. -/
def validateRootOrder (compare : CanonicalRootRef → CanonicalRootRef → MergeRun β Ordering) :
    List Nat → Option CanonicalRootRef → MergeRun β Unit
  | [], _ => pure ()
  | index :: rest, previous => do
    metered (mm.left.consumed 1)
    let current ← Lib.Shared.lift (table.columns.rootRef index)
    match previous with
    | none => validateRootOrder compare rest (some current)
    | some previous => do
      let order ← compare previous current
      if order ≠ .lt then raise error else validateRootOrder compare rest (some current)

end Validation

def setsUnsorted : KernelError :=
  .malformed "encoded canonical set items are not strictly sorted and unique"

def rootsUnsorted : KernelError :=
  .malformed "encoded canonical root group is not strictly sorted and unique"

def setsRemapped : KernelError :=
  .unsupported "encoded anonymous scope remapping changes canonical set order"

def rootsRemapped : KernelError :=
  .unsupported "encoded anonymous scope remapping changes canonical root order"

/-- A root of one table, of the other, or of both. -/
inductive MergedCanonicalRoot where
  | left (root : CanonicalRootRef)
  | right (root : CanonicalRootRef)
  | both (left right : CanonicalRootRef)
  deriving DecidableEq, Repr

section TwoWay
variable {β : Type} (mm : MergeMeter β) (fuel : Nat)

/-- `CanonicalRootMerger::validate_group` -/
def validateGroup (table : CanonicalTable) : MergeRun β Unit :=
  validateRootOrder mm table rootsUnsorted
    (fun previous current => compareTableRoots mm fuel true table previous table current)
    (List.range table.columns.rootCount) none

/-- `CanonicalRootMerger::new`, with its comparator -/
def newRootMerger (left right : SelectedColumns) : MergeRun β (CanonicalTable × CanonicalTable) := do
  let left ← CanonicalTable.build mm fuel left
  let right ← CanonicalTable.build mm fuel right
  validateSets mm fuel left setsUnsorted (List.range left.columns.direct.columns.fieldCount)
  validateSets mm fuel right setsUnsorted (List.range right.columns.direct.columns.fieldCount)
  validateGroup mm fuel left
  validateGroup mm fuel right
  pure (left, right)

/-- `CanonicalRootMerger::next` -/
def nextMerged (left right : CanonicalTable) (cursors : RootCursor × RootCursor) :
    MergeRun β (Option MergedCanonicalRoot × RootCursor × RootCursor) := do
  let (leftRoot, l) ← metered (left.columns.selectedRoot mm.left cursors.1)
  let (rightRoot, r) ← metered (right.columns.selectedRoot mm.left cursors.2)
  match leftRoot, rightRoot with
  | none, none => pure (none, l, r)
  | some root, none => do
    recorded (mm.recordRoots 0)
    pure (some (.left root), l.next, r)
  | none, some root => do
    recorded (mm.recordRoots 0)
    pure (some (.right root), l, r.next)
  | some leftRoot, some rightRoot => do
    let order ← compareTableRoots mm fuel false left leftRoot right rightRoot
    match order with
    | .lt => do
      recorded (mm.recordRoots 0)
      pure (some (.left leftRoot), l.next, r)
    | .gt => do
      recorded (mm.recordRoots 0)
      pure (some (.right rightRoot), l, r.next)
    | .eq => do
      recorded (mm.recordRoots 1)
      pure (some (.both leftRoot rightRoot), l.next, r.next)

/-- `next` until the end. -/
def drainMerger (left right : CanonicalTable) :
    Nat → RootCursor × RootCursor → MergeRun β (List MergedCanonicalRoot)
  | 0, _ => Lib.Shared.exhausted
  | rounds + 1, cursors => do
    let (root, cursors) ← nextMerged mm fuel left right cursors
    match root with
    | none => pure []
    | some root => do
      let others ← drainMerger left right rounds cursors
      pure (root :: others)

end TwoWay

section KWay
variable {β : Type} (mm : MergeMeter β) (fuel : Nat)

/-- `validate_original_table_order`, of the table without its scope maps -/
def validateOriginalOrder (table : CanonicalTable) : MergeRun β Unit := do
  validateSets mm fuel table setsUnsorted (List.range table.columns.direct.columns.fieldCount)
  validateRootOrder mm table rootsUnsorted (orderRoots mm fuel true table · table ·)
    (List.range table.columns.rootCount) none

def SelectedColumns.hasScopeMap (d : SelectedColumns) : Bool := !d.direct.scopeMaps.isEmpty

def SelectedColumns.withoutScopeMaps (d : SelectedColumns) : SelectedColumns :=
  { d with direct := ⟨d.direct.columns, []⟩ }

/-- The order of a table before its scopes are mapped. -/
def validateOriginal (table : CanonicalTable) : MergeRun β Unit :=
  if table.columns.hasScopeMap then do
    let original ← CanonicalTable.build mm fuel table.columns.withoutScopeMaps
    validateOriginalOrder mm fuel original
  else pure ()

/-- `validate_table` -/
def validateTable (table : CanonicalTable) : MergeRun β Unit := do
  validateOriginal mm fuel table
  validateSets mm fuel table (if table.columns.hasScopeMap then setsRemapped else setsUnsorted)
    (List.range table.columns.direct.columns.fieldCount)
  validateRootOrder mm table (if table.columns.hasScopeMap then rootsRemapped else rootsUnsorted)
    (fun previous current => compareTableRoots mm fuel true table previous table current)
    (List.range table.columns.rootCount) none

def buildTables : List SelectedColumns → MergeRun β (List CanonicalTable)
  | [] => pure []
  | columns :: rest => do
    let table ← CanonicalTable.build mm fuel columns
    let tables ← buildTables rest
    pure (table :: tables)

def validateTables : List CanonicalTable → MergeRun β Unit
  | [] => pure ()
  | table :: rest => do
    validateTable mm fuel table
    validateTables rest

/-- `CanonicalKWayRootMerger::new` -/
def newKWayMerger (columns : List SelectedColumns) : MergeRun β (List CanonicalTable) := do
  if columns.length < 2 then
    raise (.unsupported "encoded bounded canonical merge requires at least two tables")
  else do
    let tables ← buildTables mm fuel columns
    validateTables mm fuel tables
    pure tables

/-- A table in a round, with the root that it offers. -/
structure Offer where
  table : CanonicalTable
  root : Option CanonicalRootRef
  cursor : RootCursor

/-- The first loop of `next`: the candidates. -/
def candidates : List (CanonicalTable × RootCursor) → MergeRun β (List Offer)
  | [] => pure []
  | (table, cursor) :: rest => do
    let (root, cursor) ← metered (table.columns.selectedRoot mm.left cursor)
    let others ← candidates rest
    pure (⟨table, root, cursor⟩ :: others)

/-- The candidates that are roots, by the index of their table. -/
def offered (start : Nat) : List Offer → List (Nat × CanonicalTable × CanonicalRootRef)
  | [] => []
  | offer :: rest =>
    match offer.root with
    | none => offered (start + 1) rest
    | some root => (start, offer.table, root) :: offered (start + 1) rest

def compareCandidates (left right : Nat × CanonicalTable × CanonicalRootRef) : MergeRun β Ordering :=
  compareTableRoots mm fuel (left.1 == right.1) left.2.1 left.2.2 right.2.1 right.2.2

/-- Whether a candidate is used together with the least one. -/
def equalsLeast (minimum candidate : Nat × CanonicalTable × CanonicalRootRef) : MergeRun β Bool :=
  if candidate.1 = minimum.1 then pure true
  else do
    let order ← compareCandidates mm fuel candidate minimum
    pure (order == .eq)

/-- The last loop of `next`: the candidates that equal the least one are used. -/
def takeEqual (minimum : Nat × CanonicalTable × CanonicalRootRef) :
    Nat → List Offer → MergeRun β (List (Option CanonicalRootRef × CanonicalTable × RootCursor))
  | _, [] => pure []
  | index, offer :: rest =>
    match offer.root with
    | none => do
      let others ← takeEqual minimum (index + 1) rest
      pure ((none, offer.table, offer.cursor) :: others)
    | some root => do
      let equal ← equalsLeast mm fuel minimum (index, offer.table, root)
      let others ← takeEqual minimum (index + 1) rest
      pure ((if equal then (some root, offer.table, offer.cursor.next)
        else (none, offer.table, offer.cursor)) :: others)

/-- `CanonicalKWayRootMerger::next` -/
def nextGroup (state : List (CanonicalTable × RootCursor)) :
    MergeRun β (Option (List (Option CanonicalRootRef)) × List (CanonicalTable × RootCursor)) := do
  let offers ← candidates mm state
  match offered 0 offers with
  | [] => pure (none, offers.map fun offer => (offer.table, offer.cursor))
  | first :: others => do
    let minimum ← leastOf (compareCandidates mm fuel) first others
    let taken ← takeEqual mm fuel minimum 0 offers
    recorded (mm.recordRoots ((taken.map Prod.fst).reduceOption.length - 1))
    pure (some (taken.map Prod.fst), taken.map Prod.snd)

/-- `next` until the end. -/
def drainGroups : Nat → List (CanonicalTable × RootCursor) →
    MergeRun β (List (List (Option CanonicalRootRef)))
  | 0, _ => Lib.Shared.exhausted
  | rounds + 1, state => do
    let (group, state) ← nextGroup mm fuel state
    match group with
    | none => pure []
    | some group => do
      let groups ← drainGroups rounds state
      pure (group :: groups)

end KWay

end Projector.Native
