import Projector.Encoded.ResolvedGroups

namespace Projector.Encoded
open Lib Projector.Core Compiler

/-- `_RecursiveCompositeRow`: a local table with its selector, the scope maps that apply to it
in their order, and the segment indexes that lead to it. -/
structure RecursiveCompositeRow where
  lease : EncodedStructuralLease
  included : Option Bytes
  excluded : Option Bytes
  scopeMaps : List Bytes
  path : List Nat

inductive LeafPlanError where
  | incompatible (message : String)
  | unsupported (message : String)
  deriving DecidableEq, Repr

section Scopes
variable (cols : Columns)

/-- A row of a column. Those that are read are inside a validated table. -/
def readAt (values : List Nat) (index : Nat) : Nat := (values[index]?).getD 0

/-- The scope that `_recursive_scope_map_applies` reads of a node, if it has one. -/
def leafScope (nodeIndex : Nat) : Option Bytes :=
  if readAt cols.nodeTags nodeIndex ≠ scopeTag then none
  else
    let start := readAt cols.nodeFieldOffsets nodeIndex
    let stop := readAt cols.nodeFieldOffsets (nodeIndex + 1)
    if stop < start + 1 ∨ readAt cols.fieldKinds start ≠ COMPONENT_BYTES ∨
        readAt cols.fieldLengths start ≠ 32 then none
    else some ((cols.scalarBytes.drop (readAt cols.fieldValues start)).take 32)

/-- Maps applied one after another, each of them once. -/
def substituted (maps : List Bytes) (scope : Bytes) : Bytes :=
  maps.foldl (fun current map => remapped (scopeMapOf map) current) scope

/-- `_recursive_scope_map_applies` -/
def recursiveScopeMapApplies (scopeMap : Bytes) (priorMaps : List Bytes) : Bool :=
  (List.range cols.nodeTags.length).any fun nodeIndex =>
    match leafScope cols nodeIndex with
    | none => false
    | some scope => (scopeMapOf scopeMap (substituted priorMaps scope)).isSome

end Scopes

section Rows

/-- `_apply_recursive_leaf_scope_map` -/
def applyRecursiveLeafScopeMap (rows : List RecursiveCompositeRow) (scopeMap : Bytes) :
    List RecursiveCompositeRow :=
  if scopeMap.length = 0 then rows
  else rows.map fun row =>
    if !recursiveScopeMapApplies row.lease.columns scopeMap row.scopeMaps then row
    else { row with scopeMaps := row.scopeMaps ++ [scopeMap] }

/-- The loop of `_apply_recursive_leaf_postings` over rows. -/
def selectRows (source : EncodedStructuralLease) (postingMode : Int) (postings : Bytes) :
    List RecursiveCompositeRow → Except LeafPlanError (List RecursiveCompositeRow)
  | [] => .ok []
  | row :: rest =>
    let sourceLocal := row.lease.encodedView = source.encodedView
    if postingMode = POSTINGS_INCLUDE ∧ ¬sourceLocal then selectRows source postingMode postings rest
    else if ¬sourceLocal then do
      let selected ← selectRows source postingMode postings rest
      .ok (row :: selected)
    else if row.included ≠ none ∨ row.excluded ≠ none then
      .error (.unsupported "one recursive leaf received multiple source-local selectors")
    else do
      let selected ← selectRows source postingMode postings rest
      .ok ({ row with
        included := if postingMode = POSTINGS_INCLUDE then some postings else none
        excluded := if postingMode = POSTINGS_EXCLUDE then some postings else none } :: selected)

/-- `_apply_recursive_leaf_postings` -/
def applyRecursiveLeafPostings (rows : List RecursiveCompositeRow) (source : EncodedStructuralLease)
    (postingMode : Int) (postings : Bytes) : Except LeafPlanError (List RecursiveCompositeRow) :=
  if postingMode = POSTINGS_ALL then .ok rows
  else if ¬(postingMode = POSTINGS_INCLUDE ∨ postingMode = POSTINGS_EXCLUDE) then
    .error (.incompatible "core encoded recursive leaf posting mode is invalid")
  else selectRows source postingMode postings rows

/-- `_prepend_recursive_leaf_segment` -/
def prependRecursiveLeafSegment (rows : List RecursiveCompositeRow) (segmentIndex : Nat) :
    List RecursiveCompositeRow :=
  rows.map fun row => { row with path := segmentIndex :: row.path }

end Rows

end Projector.Encoded
