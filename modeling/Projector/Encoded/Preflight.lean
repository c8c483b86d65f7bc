import Projector.Lib.Worklist
import Projector.Encoded.Inspect

namespace Projector.Encoded
open Lib Projector.Core Compiler

namespace Columns
variable (cols : Columns)

def nodeIds : List Nat := List.range' 1 cols.nodeCount

section Cycles

/-- The colours of a depth-first walk: what has been entered and what has been left. -/
structure Colors where
  entered : List Nat
  left : List Nat

/-- Push the children that are still white; one that is on the path closes a cycle. -/
def pushChildren (follow : Nat → Read Bool) (cyclic : String) (colors : Colors) :
    List Nat → List (Nat × Bool) → Read (List (Nat × Bool))
  | [], stack => pure stack
  | child :: rest, stack => do
    let followed ← follow child
    if !followed || colors.left.contains child then
      pushChildren follow cyclic colors rest stack
    else if colors.entered.contains child then reject cyclic
    else pushChildren follow cyclic colors rest ((child, false) :: stack)

/-- The loop of a walk over a stack of nodes to enter and nodes to leave. -/
def walk (children : Nat → Read (List Nat)) (follow : Nat → Read Bool) (cyclic : String) :
    Nat → List (Nat × Bool) → Colors → Read Colors
  | 0, _, colors => pure colors
  | _ + 1, [], colors => pure colors
  | fuel + 1, (id, exiting) :: stack, colors =>
    if exiting then
      walk children follow cyclic fuel stack { colors with left := id :: colors.left }
    else if colors.left.contains id then walk children follow cyclic fuel stack colors
    else if colors.entered.contains id then reject cyclic
    else do
      let colors := { colors with entered := id :: colors.entered }
      let ids ← children id
      let stack ← pushChildren follow cyclic colors ids ((id, true) :: stack)
      walk children follow cyclic fuel stack colors

/-- Every entry of a walk pays for the entering, the leaving and the children. -/
def walkFuel : Nat := (cols.nodeCount + 1) * (cols.itemCount + 3)

/-- A walk from every node of some constructors that has not been left yet. -/
def walkFrom (starts : List Constructor) (children : Nat → Read (List Nat))
    (follow : Nat → Read Bool) (cyclic : String) : List Nat → Colors → Read Unit
  | [], _ => pure ()
  | id :: rest, colors => do
    let start ← cols.tagIn id starts
    if !start || colors.left.contains id then walkFrom starts children follow cyclic rest colors
    else do
      let colors ← walk children follow cyclic cols.walkFuel [(id, false)] colors
      walkFrom starts children follow cyclic rest colors

/-- The nested annotations of an annotation, in the order they are pushed. -/
def nestedAnnotations (id : Nat) : Read (List Nat) := do
  let start ← cols.exactFields id 3
  let ids ← cols.annotationSet (start + 2)
  pure ids.reverse

/-- Whether some annotation up to the first that has them has nested annotations. -/
def anyNested : List Nat → Read Bool
  | [] => pure false
  | id :: rest => do
    let annotated ← cols.tagIs id .annotationTerm
    if !annotated then anyNested rest
    else do
      let ids ← cols.nestedAnnotations id
      if ids.isEmpty then anyNested rest else pure true

def validateAnnotationGraph : Read Unit := do
  let nested ← cols.anyNested cols.nodeIds
  if nested then
    cols.walkFrom [.annotationTerm] cols.nestedAnnotations (fun _ => pure true)
      "encoded subset annotation metadata graph is cyclic" cols.nodeIds ⟨[], []⟩
  else pure ()

/-- The operands of a recursive expression, in the order they are pushed. -/
def recursiveOperands (aggregates complements : List Constructor) (changed : String)
    (id : Nat) : Read (List Nat) := do
  let aggregate ← cols.tagIn id aggregates
  if aggregate then do
    let start ← cols.exactFields id 1
    let ids ← cols.nodeSet start 2
    pure ids.reverse
  else do
    let complement ← cols.tagIn id complements
    demand complement changed
    let start ← cols.exactFields id 1
    let operand ← cols.fieldNode start
    pure [operand]

def dataRecursiveTags : List Constructor := [.dataIntersectionOf, .dataUnionOf, .dataComplementOf]

/-- Whether a walk goes on into an operand of a data range. -/
def followDataRange (id : Nat) : Read Bool := do
  let named ← cols.isNamedDatatype id
  if named then pure false
  else do
    let composite ← cols.tagIn id compositeDataRangeTags
    demand composite "encoded subset recursive data-range reference has the wrong constructor"
    cols.tagIn id dataRecursiveTags

/-- Whether there is a node of some constructors. -/
def anyTagged (cs : List Constructor) : List Nat → Read Bool
  | [] => pure false
  | id :: rest => do
    let tagged ← cols.tagIn id cs
    if tagged then pure true else anyTagged cs rest

def dataRangeOperands (id : Nat) : Read (List Nat) :=
  cols.recursiveOperands [.dataIntersectionOf, .dataUnionOf] [.dataComplementOf]
    "encoded subset recursive data-range cursor changed after preflight" id

def validateDataRangeGraph : Read Unit := do
  let recursive ← cols.anyTagged dataRecursiveTags cols.nodeIds
  if recursive then
    cols.walkFrom dataRecursiveTags cols.dataRangeOperands cols.followDataRange
      "encoded subset data-range graph is cyclic" cols.nodeIds ⟨[], []⟩
  else pure ()

def classRecursiveTags : List Constructor := aggregateTags ++ [.objectComplementOf]

def classOperands (id : Nat) : Read (List Nat) :=
  cols.recursiveOperands aggregateTags [.objectComplementOf]
    "encoded subset recursive class-expression cursor changed after preflight" id

def validateClassExpressionGraph : Read Unit := do
  let recursive ← cols.anyTagged classRecursiveTags cols.nodeIds
  if recursive then
    cols.walkFrom classRecursiveTags cols.classOperands (cols.tagIn · classRecursiveTags)
      "encoded subset class-expression graph is cyclic" cols.nodeIds ⟨[], []⟩
  else pure ()

end Cycles

section Roots

abbrev Root := Nat × Nat

/-- Whether a root comes after the previous one: by kind, then by node. -/
def follows (previous : Option Root) (root : Root) : Bool :=
  match previous with
  | none => true
  | some p => decide (p.1 < root.1 ∨ (p.1 = root.1 ∧ p.2 < root.2))

/-- The kind and the node of every root, which must ascend from `previous`. -/
def rootsFrom (previous : Option Root) (index : Nat) : Nat → Read (List Root)
  | 0 => pure []
  | count + 1 => do
    let kind ← cols.rootKind index
    let id ← cols.rootId index
    if !follows previous (kind, id) then reject "encoded subset roots are not canonical and unique"
    else do
      let rest ← rootsFrom (some (kind, id)) (index + 1) count
      pure ((kind, id) :: rest)

/-- `inspect` without root classification, and the roots that it goes through. -/
def inspect : Read (Option String × List Root) := do
  let reason ← cols.inspectNodes cols.nodeIds
  cols.validateAnnotationGraph
  cols.validateDataRangeGraph
  cols.validateClassExpressionGraph
  let roots ← cols.rootsFrom none 0 cols.rootCount
  pure (reason, roots)

/-- The axiom constructors that a root can have. -/
def rootAxiomTags : List Constructor :=
  [.declaration, .subClassOf, .equivalentClasses, .disjointClasses, .disjointUnion,
   .subObjectPropertyOf, .equivalentObjectProperties, .disjointObjectProperties,
   .inverseObjectProperties, .objectPropertyDomain, .objectPropertyRange,
   .functionalObjectProperty, .inverseFunctionalObjectProperty, .reflexiveObjectProperty,
   .irreflexiveObjectProperty, .symmetricObjectProperty, .asymmetricObjectProperty,
   .transitiveObjectProperty, .subDataPropertyOf, .equivalentDataProperties,
   .disjointDataProperties, .dataPropertyDomain, .dataPropertyRange, .functionalDataProperty,
   .datatypeDefinition, .hasKey, .sameIndividual, .differentIndividuals, .classAssertion,
   .objectPropertyAssertion, .negativeObjectPropertyAssertion, .dataPropertyAssertion,
   .negativeDataPropertyAssertion, .annotationAssertion, .subAnnotationPropertyOf,
   .annotationPropertyDomain, .annotationPropertyRange]

/-- `_equivalent_aggregate_id`, for its checks. -/
def checkEquivalent (id : Nat) : Read Unit := do
  let start ← cols.exactFields id 2
  let _ ← cols.nodeSet start 2
  pure ()

/-- The reads that classifying a root makes, besides counting it. -/
def checkRootFields (id : Nat) : Read Unit := do
  let subclass ← cols.tagIs id .subClassOf
  let equivalent ← cols.tagIs id .equivalentClasses
  if subclass then do
    let start ← cols.exactFields id 3
    let _ ← cols.fieldNode start
    let _ ← cols.fieldNode (start + 1)
    pure ()
  else if equivalent then cols.checkEquivalent id
  else pure ()

def inspectRoot (root : Root) : Inspection := do
  let (kind, id) := root
  if kind = ROOT_ONTOLOGY_ANNOTATION then do
    let annotated ← cols.tagIs id .annotationTerm
    demand annotated "encoded subset ontology-annotation root is not an Annotation"
    pure none
  else if kind = ROOT_EXTENSION then do
    let rule ← cols.tagIs id .swrlRule
    demand rule "encoded subset extension root is not an SWRLRule"
    pure none
  else if kind ≠ ROOT_AXIOM then
    pure (some "encoded subset supports axiom and SWRLRule extension roots only")
  else do
    let rule ← cols.tagIs id .swrlRule
    demand (!rule) "encoded subset SWRLRule does not use the extension root kind"
    let annotated ← cols.tagIs id .annotationTerm
    demand (!annotated) "encoded subset Annotation does not use the ontology-annotation root kind"
    cols.checkRootFields id
    let known ← cols.tagIn id rootAxiomTags
    pure (fallbackUnless known "encoded subset root is outside the executable axiom slice")

def inspectRoots : List Root → Inspection
  | [] => pure none
  | root :: rest => do
    let reason ← cols.inspectRoot root
    let others ← inspectRoots rest
    pure (reason <|> others)

end Roots

section Reachability

/-- The node references of one field: sequences are not followed. -/
def fieldChildren (index : Nat) : Read (List Nat) := do
  let kind ← cols.read .fieldKinds index
  if kind = COMPONENT_NODE then do
    let id ← cols.fieldNode index
    pure [id]
  else if kind = COMPONENT_SET then cols.nodeSet index 0
  else pure []

def nodeChildren (id : Nat) : Read (List Nat) := do
  let (start, stop) ← cols.fieldRange id
  let children ← (List.range' start (stop - start)).mapM cols.fieldChildren
  pure children.flatten

/-- Every node is expanded at most once, into at most `itemCount + 1` nodes a field. -/
def exploreFuel : Nat :=
  cols.rootCount + cols.nodeCount * (cols.fieldCount * (cols.itemCount + 1))

/-- `reachable_node_ids` -/
def reachableNodeIds (roots : List Nat) : Read (List Nat) :=
  explore cols.nodeChildren cols.exploreFuel roots.reverse []

end Reachability

end Columns

end Projector.Encoded
