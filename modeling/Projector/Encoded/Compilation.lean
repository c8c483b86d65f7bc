import Projector.Encoded.Projection

namespace Projector.Encoded
open Lib Projector.Core Compiler

/-- Prepared encoded-view slice that emits only existing projector edges. -/
structure EncodedCompilation where
  columns : Columns
  options : ProjectionOptions
  batchEdges : Nat
  assertedTaxonomyOnly : Bool
  roleState : RoleState
  roots : List Columns.Root
  domains : ClassIndex
  ranges : ClassIndex
  roleAxioms : List EncodedRoleAxiom
  anonymousIds : Columns.AnonymousIds
  classIris : List String
  annotationRoots : List Columns.Root
  ignoredShapes : Dict String Nat
  skippedAxioms : Dict String Nat
  nonStringLiteralRenderings : Nat
  rolesPrepared : Bool
  statistics : CompileStatistics

abbrev EncodedM (α : Type) := Gen CompileError EncodedCompilation (Edge String) α

/-- A read of the columns; a refusal is raised. -/
def Read.run {α : Type} (r : Read α) : EncodedM α :=
  match r with
  | .ok a => pure a
  | .error e => Gen.raise e

section Diagnostics

/-- The positive counters of one kind of diagnostic, by constructor. -/
def countedRows (key : String → DiagnosticKey) (counters : Dict String Nat) :
    List ProjectionDiagnostic :=
  ((sortOn (fun item => utf8 item.1) counters.items).filter (fun item => item.2 != 0)).map
    fun (constructor, count) =>
      ⟨(key constructor).code, (key constructor).message, (key constructor).severity, count,
        (key constructor).constructor⟩

def EncodedCompilation.diagnostics (e : EncodedCompilation) : List ProjectionDiagnostic :=
  countedRows ignoredShape e.ignoredShapes ++
    (if e.nonStringLiteralRenderings = 0 then []
     else [⟨nonStringLiteral.code, nonStringLiteral.message, nonStringLiteral.severity,
       e.nonStringLiteralRenderings, nonStringLiteral.constructor⟩]) ++
    countedRows skippedAxiom e.skippedAxioms

end Diagnostics

section Emission

/-- `_ignore_shape` -/
def ignoreShape (c : Constructor) : EncodedM Unit :=
  Gen.modify fun e =>
    { e with
      statistics := e.statistics.ignore
      ignoredShapes := e.ignoredShapes.increment c.name }

def applyRoleAxiom (roles : RoleState) (row : EncodedRoleAxiom) : RoleState :=
  if row.tag = Constructor.tag .subObjectPropertyOf then
    { roles with
      subroles := roles.subroles.insert row.second (row.first :: roles.subroles.getOr row.first []) }
  else
    { roles with
      inverseRoles := (roles.inverseRoles.insert row.first row.second).insert row.second row.first }

/-- `_ensure_roles` -/
def ensureEncodedRoles : EncodedM Unit :=
  Gen.modify fun e =>
    if e.rolesPrepared then e
    else { e with
      roleState := e.roleAxioms.foldl applyRoleAxiom e.roleState
      rolesPrepared := true }

def prepareEncodedRoleState : EncodedM Unit := ensureEncodedRoles

/-- `_iter_role_edges` -/
def iterRoleEdges (source relation destination : String) : EncodedM Unit := do
  ensureEncodedRoles
  let roleState ← Gen.gets EncodedCompilation.roleState
  Gen.emitAll (roleEdges roleState source relation destination)

def encodedSubclass (e : EncodedCompilation) (id : Nat) : EncodedM Unit := do
  match ← (e.columns.subclassProjection id).run with
  | none => Gen.when (!e.assertedTaxonomyOnly) (ignoreShape .subClassOf)
  | some p =>
    if p.restriction then
      if e.assertedTaxonomyOnly then pure ()
      else if e.options.onlyTaxonomy then ignoreShape .subClassOf
      else iterRoleEdges p.source p.relation p.destination
    else do
      Gen.emit ⟨p.source, p.relation, p.destination⟩
      Gen.when e.options.bidirectionalTaxonomy
        (Gen.emit ⟨p.destination, SUPERCLASS_OF, p.source⟩)

def encodedOperand (e : EncodedCompilation) (subject : String) (operand : EquivalentOperand) :
    EncodedM Unit :=
  if operand.ignored then
    Gen.when (!e.options.onlyTaxonomy) (ignoreShape .equivalentClasses)
  else
    match operand.second with
    | none =>
      Gen.emitAll (taxonomyEdges e.options.bidirectionalTaxonomy subject operand.first)
    | some destination =>
      Gen.when (!e.options.onlyTaxonomy) (iterRoleEdges subject operand.first destination)

def encodedEquivalent (e : EncodedCompilation) (id : Nat) : EncodedM Unit := do
  match ← (e.columns.equivalentProjection id).run with
  | none => ignoreShape .equivalentClasses
  | some p =>
    match p.destination with
    | some destination =>
      Gen.emitAll (taxonomyEdges e.options.bidirectionalTaxonomy p.subject destination)
    | none => Gen.each p.operands (encodedOperand e p.subject)

/-- The first pass over the roots. -/
def encodedTerminology (e : EncodedCompilation) (root : Columns.Root) : EncodedM Unit := do
  let subclass ← (e.columns.tagIs root.2 .subClassOf).run
  let equivalent ← (e.columns.tagIs root.2 .equivalentClasses).run
  if subclass then encodedSubclass e root.2
  else if e.assertedTaxonomyOnly then pure ()
  else if equivalent then encodedEquivalent e root.2
  else pure ()

def encodedAnnotationEdges (e : EncodedCompilation) (root : Columns.Root) : EncodedM Unit := do
  let (edge, nonString) ←
    (e.columns.annotationAssertionEdge e.classIris e.anonymousIds root.2).run
  match edge with
  | none => ignoreShape .annotationAssertion
  | some edge => do
    Gen.when nonString (Gen.modify fun e =>
      { e with nonStringLiteralRenderings := e.nonStringLiteralRenderings + 1 })
    Gen.emit edge

/-- The second pass over the roots. -/
def encodedAssertion (e : EncodedCompilation) (root : Columns.Root) : EncodedM Unit := do
  let classAssertion ← (e.columns.tagIs root.2 .classAssertion).run
  let objectAssertion ← (e.columns.tagIs root.2 .objectPropertyAssertion).run
  if classAssertion then do
    match ← (e.columns.classAssertionIris root.2).run with
    | none => ignoreShape .classAssertion
    | some (individual, classIri) => Gen.emit ⟨individual, RDF_TYPE, classIri⟩
  else if objectAssertion then do
    let (source, relation, destination) ←
      (e.columns.objectPropertyAssertionIris e.anonymousIds root.2).run
    Gen.emit ⟨source, relation, destination⟩
  else pure ()

/-- The role edges of every domain with every range of a property. -/
def iterDomainRangeEdges (e : EncodedCompilation) : EncodedM Unit :=
  Gen.each (sortOn utf8 (e.domains.keys.filter (· ∈ e.ranges))) fun property =>
    Gen.each (e.domains.getOr property []) fun domain =>
      Gen.each (e.ranges.getOr property []) fun range => iterRoleEdges domain property range

/-- `_iter_unbatched_edges`: terminology, selected annotations, assertions, then
domains with ranges, in explicit passes. -/
def iterUnbatchedEdges : EncodedM Unit := do
  let e ← Gen.gets id
  Gen.each e.roots (encodedTerminology e)
  if e.assertedTaxonomyOnly then pure ()
  else do
    Gen.when e.options.includeLiterals (Gen.each e.annotationRoots (encodedAnnotationEdges e))
    Gen.each e.roots (encodedAssertion e)
    iterDomainRangeEdges e

end Emission

/-- Yield encounter-order edges through a caller-bounded local batch. -/
def iterEncodedEdges : EncodedM Unit := do
  let batchEdges ← Gen.gets EncodedCompilation.batchEdges
  Gen.batched batchEdges iterUnbatchedEdges

/-- A prepared compilation, or the reason to select the scalar compiler. -/
inductive Prepared where
  | compilation (e : EncodedCompilation)
  | scalarFallback (reason : String)

def axiomRootIds (roots : List Columns.Root) : List Nat :=
  (roots.filter (fun root => root.1 == ROOT_AXIOM)).map Prod.snd

def annotationAssertionRoots (cols : Columns) : List Columns.Root → Read (List Columns.Root)
  | [] => pure []
  | root :: rest => do
    let assertion ← cols.tagIs root.2 .annotationAssertion
    let others ← annotationAssertionRoots cols rest
    pure (if assertion && root.1 == ROOT_AXIOM then root :: others else others)

/-- What the compilation keeps beyond the taxonomy. -/
structure PreparedIndexes where
  index : Columns.PropertyIndex
  skippedAxioms : Dict String Nat
  roleAxioms : List EncodedRoleAxiom
  ignoredChains : Nat
  anonymousIds : Columns.AnonymousIds

def prepareIndexes (cols : Columns) (assertedTaxonomyOnly : Bool) (roots : List Columns.Root) :
    Read PreparedIndexes :=
  if assertedTaxonomyOnly then pure ⟨⟨∅, ∅, ∅⟩, ∅, [], 0, ∅⟩
  else do
    let index ← cols.domainRangeIndex roots ⟨∅, ∅, ∅⟩
    let skippedAxioms ← cols.skippedAxiomIndex roots ∅
    let (roleAxioms, ignoredChains) ← cols.roleAxioms roots
    let anonymousIds ← cols.anonymousIdMap (axiomRootIds roots)
    pure ⟨index, skippedAxioms, roleAxioms, ignoredChains, anonymousIds⟩

/-- `prepare_encoded_subset_compilation` on one direct table of a closure with one
document: prepare the exact slice, or select the scalar compiler before any edge. -/
def prepareEncodedSubsetCompilation (cols : Columns) (options : ProjectionOptions)
    (batchEdges : Nat) (assertedTaxonomyOnly : Bool) (roleState : RoleState) :
    Read Prepared := do
  if batchEdges < 1 then .error (.builtin "ValueError")
  else do
    let rootIds ← (List.range cols.rootCount).mapM cols.rootId
    let reachable ← cols.reachableNodeIds rootIds
    let (nodeReason, roots) ← cols.inspect
    let rootReason ← cols.inspectRoots roots
    match nodeReason <|> rootReason with
    | some reason =>
      pure (.scalarFallback (reason ++ "; selected whole-operation scalar compiler"))
    | none => do
      let assertions ← annotationAssertionRoots cols roots
      let annotated := !assertions.isEmpty && options.includeLiterals && !assertedTaxonomyOnly
      let indexes ← prepareIndexes cols assertedTaxonomyOnly roots
      let classIris ← if annotated then cols.classIris reachable else pure []
      pure (.compilation {
        columns := cols
        options := options
        batchEdges := batchEdges
        assertedTaxonomyOnly := assertedTaxonomyOnly
        roleState := roleState
        roots := roots
        domains := indexes.index.domains
        ranges := indexes.index.ranges
        roleAxioms := indexes.roleAxioms
        anonymousIds := indexes.anonymousIds
        classIris := classIris
        annotationRoots := if annotated then assertions else []
        ignoredShapes := indexes.index.ignoredShapes
        skippedAxioms := indexes.skippedAxioms
        nonStringLiteralRenderings := 0
        rolesPrepared := false
        statistics :=
          ⟨indexes.skippedAxioms.total,
            indexes.index.ignoredShapes.total + indexes.ignoredChains⟩ })

end Projector.Encoded
