import Projector.Lib.ColourWalk
import Projector.Encoded.Inspect
import Projector.Native.Reads

namespace Projector.Native
open Lib Projector.Core Projector.Encoded

/-! The validators of the node graph. A cancellation and a failed allocation end them early and
are left out. -/

def isOneOf (cs : List Constructor) (tag : Nat) : Bool := (cs.map Constructor.tag).contains tag

def isAggregateTag := isOneOf Columns.aggregateTags
def isRestrictionTag := isOneOf Columns.restrictionTags
def isDataRangeTag := isOneOf Columns.compositeDataRangeTags

def isRecursiveDataRangeTag := isOneOf [.dataIntersectionOf, .dataUnionOf, .dataComplementOf]

def isRecursiveClassExpressionTag (tag : Nat) : Bool :=
  isAggregateTag tag || isRestrictionTag tag ||
    isOneOf [.objectComplementOf, .objectExactCardinality] tag

namespace DirectColumns
variable (d : DirectColumns)

def nodeIds : List Nat := List.range' 1 d.columns.nodeCount

/-- Every entry of a walk pays for the entering, the leaving and the children. -/
def walkFuel : Nat := (d.columns.nodeCount + 1) * (d.columns.itemCount + 3)

/-- The items of a set, in the order they are pushed. -/
def setChildren (index minimum : Nat) : Except KernelError (List Nat) := do
  let (start, length) ← d.nodeSetRange index minimum
  (List.range' start length).reverse.mapM d.itemNode

section Annotations

def isAnnotation (id : Nat) : Except KernelError Bool := do
  let tag ← d.nodeTag id
  .ok (tag == Constructor.annotationTerm.tag)

def annotationChildren (id : Nat) : Except KernelError (List Nat) := do
  let start ← d.exactFields id 3
  d.setChildren (start + 2) 0

def followAnnotation (child : Nat) : Except KernelError Bool := do
  let annotated ← d.isAnnotation child
  if annotated then .ok true
  else .error (.malformed "encoded annotation set item does not reference an Annotation")

/-- Whether some annotation up to the first that has them has nested annotations. -/
def anyNested : List Nat → Except KernelError Bool
  | [] => .ok false
  | id :: rest => do
    let annotated ← d.isAnnotation id
    if !annotated then anyNested rest
    else do
      let start ← d.exactFields id 3
      let (_, length) ← d.nodeSetRange (start + 2) 0
      if length ≠ 0 then .ok true else anyNested rest

def validateAnnotationGraph : Except KernelError Unit := do
  let nested ← d.anyNested d.nodeIds
  if nested then
    colourWalks d.followAnnotation (.malformed "encoded annotation metadata graph is cyclic")
      d.annotationChildren d.isAnnotation d.walkFuel d.nodeIds ⟨[], []⟩
  else .ok ()

end Annotations

section DataRanges

def isRecursiveDataRange (id : Nat) : Except KernelError Bool := do
  let tag ← d.nodeTag id
  .ok (isRecursiveDataRangeTag tag)

def validateDataRangeReference (id maximum : Nat) : Except KernelError Unit := do
  let tag ← d.nodeTag id
  if tag = Constructor.entity.tag then do
    let _ ← d.namedDatatypeIri id maximum
    .ok ()
  else if isDataRangeTag tag then .ok ()
  else if isSchemaTag tag then
    .error (.malformed "encoded data-range reference has the wrong constructor tag")
  else
    .error (.malformed ("encoded data-range tag " ++ toString tag ++
      " is outside structural-columns v1"))

def dataRangeChildren (id : Nat) : Except KernelError (List Nat) := do
  let tag ← d.nodeTag id
  if isOneOf [.dataIntersectionOf, .dataUnionOf] tag then do
    let start ← d.exactFields id 1
    d.setChildren start 2
  else if tag = Constructor.dataComplementOf.tag then do
    let start ← d.exactFields id 1
    let child ← d.fieldNode start
    .ok [child]
  else .error (.malformed "encoded recursive data-range cursor changed after preflight")

def followDataRange (maximum child : Nat) : Except KernelError Bool := do
  let recursive ← d.isRecursiveDataRange child
  if recursive then .ok true
  else do
    d.validateDataRangeReference child maximum
    .ok false

/-- Whether one of some nodes passes a test; the first that does ends the search. -/
def anyPasses (test : Nat → Except KernelError Bool) : List Nat → Except KernelError Bool
  | [] => .ok false
  | id :: rest => do
    let passes ← test id
    if passes then .ok true else anyPasses test rest

def validateDataRangeGraph (maximum : Nat) : Except KernelError Unit := do
  let recursive ← anyPasses d.isRecursiveDataRange d.nodeIds
  if recursive then
    colourWalks (d.followDataRange maximum) (.malformed "encoded data-range graph is cyclic")
      d.dataRangeChildren d.isRecursiveDataRange d.walkFuel d.nodeIds ⟨[], []⟩
  else .ok ()

end DataRanges

section ClassExpressions

def isRecursiveClassExpression (id : Nat) : Except KernelError Bool := do
  let tag ← d.nodeTag id
  .ok (isRecursiveClassExpressionTag tag)

def recursiveClassSingleChild (id : Nat) : Except KernelError (Option Nat) := do
  let tag ← d.nodeTag id
  if tag = Constructor.objectComplementOf.tag then do
    let start ← d.exactFields id 1
    some <$> d.fieldNode start
  else if isOneOf [.objectSomeValuesFrom, .objectAllValuesFrom] tag then do
    let start ← d.exactFields id 2
    some <$> d.fieldNode (start + 1)
  else if isOneOf [.objectMinCardinality, .objectMaxCardinality, .objectExactCardinality] tag then do
    let start ← d.exactFields id 3
    some <$> d.fieldNode (start + 2)
  else .ok none

/-- Whether a node has a child that is recursive too; its items are looked at in order. -/
def hasRecursiveChild (id : Nat) : Except KernelError Bool := do
  let tag ← d.nodeTag id
  if !isRecursiveClassExpressionTag tag then .ok false
  else if isAggregateTag tag then do
    let start ← d.exactFields id 1
    let (itemStart, length) ← d.nodeSetRange start 2
    anyPasses (fun index => do d.isRecursiveClassExpression (← d.itemNode index))
      (List.range' itemStart length)
  else do
    match ← d.recursiveClassSingleChild id with
    | some child => d.isRecursiveClassExpression child
    | none => .ok false

def classChildren (id : Nat) : Except KernelError (List Nat) := do
  let tag ← d.nodeTag id
  if isAggregateTag tag then do
    let start ← d.exactFields id 1
    d.setChildren start 2
  else do
    match ← d.recursiveClassSingleChild id with
    | some child => .ok [child]
    | none =>
      .error (.malformed "encoded recursive class-expression cursor changed after preflight")

def validateRecursiveClassExpressionGraph : Except KernelError Unit := do
  let recursive ← anyPasses d.hasRecursiveChild d.nodeIds
  if recursive then
    colourWalks d.isRecursiveClassExpression
      (.malformed "encoded recursive class-expression graph is cyclic")
      d.classChildren d.isRecursiveClassExpression d.walkFuel d.nodeIds ⟨[], []⟩
  else .ok ()

end ClassExpressions

end DirectColumns

end Projector.Native
