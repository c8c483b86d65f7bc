import Projector.Encoded.CanonicalCode
import Projector.Encoded.Preflight
import Projector.Lib.LeastHead

namespace Projector.Encoded
open Lib Projector.Core Compiler

/-- A root of the columns that a cursor reads. -/
structure RootRef where
  cursor : Cursor
  rootIndex : Nat

namespace RootRef
variable (root : RootRef)

def nodeId : Read Nat := root.cursor.columns.rootId root.rootIndex

def rootKind : Read Nat := root.cursor.columns.rootKind root.rootIndex

end RootRef

/-- `_root_group`: the roots of a selection. -/
def rootGroup (cursor : Cursor) (selection : List Nat) : List RootRef := selection.map (⟨cursor, ·⟩)

abbrev Comparing := Shared Session CompileError

/-- `compare_roots` -/
def compareRoots (fuel : Nat) (left right : RootRef) : Comparing Ordering := do
  let leftKind ← Shared.lift left.rootKind
  let rightKind ← Shared.lift right.rootKind
  if leftKind ≠ rightKind then pure (if leftKind < rightKind then .lt else .gt)
  else do
    let leftId ← Shared.lift left.nodeId
    let rightId ← Shared.lift right.nodeId
    ⟨fun session => compareNodes fuel session left.cursor leftId right.cursor rightId⟩

section Merge
variable (fuel : Nat)

def notStrict : String :=
  "encoded subset canonical root group is not strictly sorted and unique"

def checkGroup : List RootRef → Comparing Unit
  | left :: right :: rest => do
    let order ← compareRoots fuel left right
    if order ≠ .lt then Shared.lift (reject notStrict) else checkGroup (right :: rest)
  | _ => pure ()

def checkGroups : List (List RootRef) → Comparing Unit
  | [] => pure ()
  | group :: groups => do
    checkGroup fuel group
    checkGroups groups

/-- The positions after a root is taken from the group with index `selected`: what is left of
every group from `index` on, and how many roots are duplicates. -/
def advance (selected : Nat × RootRef) : Nat → List (List RootRef) →
    Comparing (List (List RootRef) × Nat)
  | _, [] => pure ([], 0)
  | index, [] :: groups => do
    let (rests, duplicates) ← advance selected (index + 1) groups
    pure ([] :: rests, duplicates)
  | index, (root :: rest) :: groups =>
    if index = selected.1 then do
      let (rests, duplicates) ← advance selected (index + 1) groups
      pure (rest :: rests, duplicates)
    else do
      let order ← compareRoots fuel root selected.2
      let (rests, duplicates) ← advance selected (index + 1) groups
      if order = .eq then pure (rest :: rests, duplicates + 1)
      else pure ((root :: rest) :: rests, duplicates)

/-- The merge loop: every round takes a root. -/
def mergeRounds : Nat → List (List RootRef) → Comparing (List RootRef × Nat)
  | 0, _ => Shared.exhausted
  | rounds + 1, groups =>
    match heads 0 groups with
    | [] => pure ([], 0)
    | first :: others => do
      let selected ← leastOf (fun candidate least => compareRoots fuel candidate.2 least.2) first
        others
      let (rests, duplicates) ← advance fuel selected 0 groups
      let (merged, deduplicated) ← mergeRounds rounds rests
      pure (selected.2 :: merged, duplicates + deduplicated)

/-- `_merge_root_groups`: the merged roots and the number of deduplicated ones. -/
def mergeRootGroups (groups : List (List RootRef)) : Comparing (List RootRef × Nat) := do
  checkGroups fuel groups
  mergeRounds fuel (groups.flatten.length + 1) groups

end Merge

section Intersect
variable (fuel : Nat)

def RootRef.isAnnotationAssertion (root : RootRef) : Read Bool := do
  let kind ← root.rootKind
  if kind = ROOT_AXIOM then do
    let id ← root.nodeId
    root.cursor.columns.tagIs id .annotationAssertion
  else pure false

/-- `_annotation_assertion_roots` -/
def RootRef.annotationAssertionRoots : List RootRef → Read (List RootRef)
  | [] => pure []
  | root :: rest => do
    let assertion ← root.isAnnotationAssertion
    let others ← annotationAssertionRoots rest
    pure (if assertion then root :: others else others)

def absentAssertion : String :=
  "encoded root annotation assertion is absent from the closure selection"

/-- The loops of the intersection, over what is left of the closure and of the root annotations. -/
def intersectFrom : List RootRef → List RootRef → Comparing (List RootRef)
  | _, [] => pure []
  | [], _ :: _ => Shared.lift (reject absentAssertion)
  | closure :: closures, root :: roots => do
    let order ← compareRoots fuel closure root
    match order with
    | .lt => intersectFrom closures (root :: roots)
    | .eq => do
      let selected ← intersectFrom closures roots
      pure (closure :: selected)
    | .gt => Shared.lift (reject absentAssertion)

/-- `_intersect_root_annotation_assertions` -/
def intersectRootAnnotationAssertions (closureRoots rootRoots : List RootRef) :
    Comparing (List RootRef) := do
  let closures ← Shared.lift (RootRef.annotationAssertionRoots closureRoots)
  let roots ← Shared.lift (RootRef.annotationAssertionRoots rootRoots)
  intersectFrom fuel closures roots

end Intersect

end Projector.Encoded
