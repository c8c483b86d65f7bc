import Projector.Encoded.ScalarAgreement
import Projector.Streaming.EncounterIndex

namespace Projector.Compiler
open Lib Projector.Core Streaming

/-- The edges of a subclass axiom between named classes. -/
def assertedEdges (bidirectional : Bool) (axiomNode : Node) : List (Edge String) :=
  let sub := axiomNode.child 0
  let sup := axiomNode.child 1
  if axiomNode.isOf .subClassOf && sub.isEntity .classEntity && sup.isEntity .classEntity then
    taxonomyEdges bidirectional sub.entityIri sup.entityIri
  else []

/-- `iter_asserted_taxonomy`: compile only named asserted subclass axioms. -/
def iterAssertedTaxonomy (view : OntologyView) (bidirectional : Bool) (duplicates : DuplicatePolicy)
    (order : EdgeOrder) : List (Edge String) :=
  let axioms := view.closureOf .subClassOf
  if duplicates = .preserve ∧ order = .encounter then axioms.flatMap (assertedEdges bidirectional)
  else
    let edges := axioms.flatMap (assertedEdges bidirectional)
    let edges := match duplicates with
      | .unique => edges.eraseDups
      | .preserve => edges
    match order with
    | .canonical => sortOn Edge.canonicalKey edges
    | .encounter => edges

/-- Only subclass axioms have asserted edges. -/
theorem flatMap_assertedEdges (bidirectional : Bool) (axioms : List Node) :
    (axioms.filter (·.isOf .subClassOf)).flatMap (assertedEdges bidirectional) =
      axioms.flatMap (assertedEdges bidirectional) := by
  induction axioms with
  | nil => rfl
  | cons v rest ih =>
    rw [List.filter_cons, List.flatMap_cons, ← ih]
    cases hof : v.isOf .subClassOf with
    | true => rw [if_pos rfl, List.flatMap_cons]
    | false =>
      have hnone : assertedEdges bidirectional v = [] := by
        unfold assertedEdges
        rw [hof]
        rfl
      rw [if_neg Bool.false_ne_true, hnone, List.nil_append]

/-- Asked for a policy, it yields what the policy makes of all its edges. -/
theorem iterAssertedTaxonomy_policy (view : OntologyView) (bidirectional : Bool)
    (duplicates : DuplicatePolicy) (order : EdgeOrder) :
    ∃ counts, iterProjectedEdges duplicates order
        (iterAssertedTaxonomy view bidirectional .preserve .encounter) =
      .ok (iterAssertedTaxonomy view bidirectional duplicates order, counts) := by
  have hraw : iterAssertedTaxonomy view bidirectional .preserve .encounter =
      (view.closureOf .subClassOf).flatMap (assertedEdges bidirectional) := rfl
  have hencodable : ∀ edges : List (Edge String), edges.all Edge.encodable = true :=
    fun edges => List.all_eq_true.mpr fun _ _ => rfl
  rw [hraw]
  cases order with
  | encounter =>
    rw [iterProjectedEdges_encounter]
    cases duplicates <;> exact ⟨_, rfl⟩
  | canonical => cases duplicates <;> exact ⟨_, if_pos (hencodable _)⟩

end Projector.Compiler

namespace Projector.Encoded
open Lib Projector.Core Compiler Streaming

section Roots
variable {nodes : List Node} {e : EncodedCompilation} (pre : Preflighted e.columns nodes)
  (honly : e.assertedTaxonomyOnly = true)
include pre honly

/-- A root of a taxonomy-only compilation: only named subclass axioms do anything. -/
theorem taxonomyRoot_eq {root : Columns.Root} {v : Node} (h : Holds nodes root.2 v) :
    encodedTerminology e root = Gen.emitAll (assertedEdges e.options.bidirectionalTaxonomy v) := by
  unfold encodedTerminology assertedEdges
  rw [run_bind (tagIs_eq pre.toEncodesNodes h _), run_bind (tagIs_eq pre.toEncodesNodes h _), honly]
  cases hof : v.isOf .subClassOf with
  | false => rfl
  | true =>
    unfold encodedSubclass
    simp only [Bool.true_and, if_true]
    rw [run_bind (subclassProjection_eq pre h (isOf_iff.mp hof)), honly]
    unfold subclassParts
    cases hsub : (v.child 0).isEntity .classEntity with
    | true =>
      cases hsup : (v.child 1).isEntity .classEntity with
      | true =>
        simp only [hsub, hsup, Bool.and_self, if_true]
        exact (taxonomyEdges_eq _ _ _).symm
      | false =>
        simp only [hsub, hsup, Bool.and_false, Bool.false_eq_true, if_false, if_true]
        cases restrictionParts? (v.child 1) <;> rfl
    | false =>
      cases hsup : (v.child 1).isEntity .classEntity with
      | true =>
        simp only [hsub, hsup, Bool.false_and, Bool.false_eq_true, if_false, if_true]
        cases restrictionParts? (v.child 0) <;> rfl
      | false =>
        simp only [hsub, hsup, Bool.false_and, Bool.false_eq_true, if_false]
        rfl

/-- The whole run, in its one state. -/
theorem taxonomyRun_eq {values : List Node} (hrooted : List.Forall₂ (RootHolds nodes) e.roots values) :
    iterUnbatchedEdges e =
      Gen.emitAll (values.flatMap (assertedEdges e.options.bidirectionalTaxonomy)) e := by
  have hroots : Gen.each e.roots (encodedTerminology e) =
      Gen.emitAll (values.flatMap (assertedEdges e.options.bidirectionalTaxonomy)) := by
    rw [Gen.emitAll_flatMap]
    apply Gen.each_paired hrooted
    intro root v hroot
    exact taxonomyRoot_eq pre honly hroot
  unfold iterUnbatchedEdges
  simp only [Bind.bind, Gen.andThen, Gen.gets, id_eq, honly, hroots, Gen.emitAll_run, if_true, pure,
    Gen.ret, List.nil_append, List.append_nil]

end Roots

theorem countedRows_empty (key : String → DiagnosticKey) : countedRows key ∅ = [] := by
  have hitems : (∅ : Dict String Nat).items = [] := rfl
  unfold countedRows
  rw [hitems, sortOn_nil]
  rfl

/-- The taxonomy is the same by both paths, whatever else the ontology holds; nothing is counted,
reported or added to the roles. -/
theorem taxonomy_path_independent {cols : Columns} {nodes : List Node}
    {rootValues : List (Nat × Node)} {view : OntologyView} {options : ProjectionOptions}
    {batchEdges : Nat} {roles : RoleState} {e : EncodedCompilation}
    (table : Encodes cols nodes rootValues) (hclosure : view.closure.Perm (axiomsOf rootValues))
    (hcanonical : CanonicalByType view)
    (hprepare : prepareEncodedSubsetCompilation cols options batchEdges true roles =
      .ok (.compilation e)) :
    (iterEncodedEdges e).values =
      iterAssertedTaxonomy view options.bidirectionalTaxonomy .preserve .encounter ∧
    (iterEncodedEdges e).outcome = .ok () ∧ (iterEncodedEdges e).state = e ∧
    e.statistics = ⟨0, 0⟩ ∧ e.diagnostics = [] ∧ e.roleState = roles ∧
    ∀ duplicates order, ∃ counts, iterProjectedEdges duplicates order (iterEncodedEdges e).values =
      .ok (iterAssertedTaxonomy view options.bidirectionalTaxonomy duplicates order, counts) := by
  obtain ⟨roots, indexes, classIris, annotationRoots, acc, hindexes, -, -, rfl⟩ :=
    assembled_of_prepare table hprepare
  cases hindexes
  generalize he : assembled cols options batchEdges true roles roots
    ⟨⟨∅, ∅, ∅⟩, ∅, [], 0, ∅⟩ classIris annotationRoots = e
  have hrun : iterUnbatchedEdges e = Gen.emitAll ((rootValues.map Prod.snd).flatMap
      (assertedEdges e.options.bidirectionalTaxonomy)) e := by
    subst he
    exact taxonomyRun_eq acc.toPreflighted rfl (rootHolds_of_accepted acc)
  have hview : view.closureOf .subClassOf =
      (rootValues.map Prod.snd).filter (·.isOf .subClassOf) := by
    have hfilter : (view.closureOf .subClassOf).filter (·.isOf .subClassOf) =
        view.closureOf .subClassOf := by
      rw [List.filter_eq_self]
      intro v hv
      exact (List.mem_filter.mp ((hcanonical.closurePerm _).mem_iff.mp hv)).2
    rw [← hfilter]
    exact (hcanonical.closureAxioms_eq _).trans (sortedCategory_eq acc hclosure _ rfl)
  have hedges : iterAssertedTaxonomy view options.bidirectionalTaxonomy .preserve .encounter =
      (rootValues.map Prod.snd).flatMap (assertedEdges options.bidirectionalTaxonomy) := by
    rw [← flatMap_assertedEdges, ← hview]
    rfl
  have hoptions : e.options = options := by
    subst he
    rfl
  rw [Gen.emitAll_run, hoptions] at hrun
  have hends : (iterUnbatchedEdges e).outcome = .ok () := congrArg Trace.outcome hrun
  have hvalues : (iterEncodedEdges e).values =
      iterAssertedTaxonomy view options.bidirectionalTaxonomy .preserve .encounter := by
    rw [iterEncodedEdges_eq, batched_values hends, hrun, hedges]
    simp only [Trace.values, List.map_map, Function.comp_def, List.map_id']
  refine ⟨hvalues, ?_, ?_, ?_, ?_, ?_, ?_⟩
  · rw [iterEncodedEdges_eq, batched_outcome, hrun]
  · rw [iterEncodedEdges_eq, batched_state, hrun]
  · subst he
    rfl
  · subst he
    unfold EncodedCompilation.diagnostics
    rw [show (assembled cols options batchEdges true roles roots ⟨⟨∅, ∅, ∅⟩, ∅, [], 0, ∅⟩ classIris
      annotationRoots).ignoredShapes = ∅ from rfl, countedRows_empty]
    exact countedRows_empty skippedAxiom
  · subst he
    rfl
  · intro duplicates order
    rw [hvalues]
    exact iterAssertedTaxonomy_policy view _ duplicates order

section Sample

theorem linked_canonical : CanonicalByType linkedView := by
  obtain ⟨roots, acc⟩ := linked_accepted
  have hsorted : ∀ c, SortedOn Node.canonicalBytes ((axiomsOf linkedRoots).filter (·.isOf c)) :=
    fun c => List.Pairwise.filter _ (axiomsOf_strict acc).sorted
  exact ⟨fun c => List.Perm.refl _, hsorted, hsorted .annotationAssertion⟩

theorem taxonomy_path_independent_linked : ∃ e,
    prepareEncodedSubsetCompilation linkedColumns ⟨true, true, false, .isolated⟩ 2 true
      RoleState.empty = .ok (.compilation e) ∧
    (iterEncodedEdges e).values = iterAssertedTaxonomy linkedView true .preserve .encounter := by
  have hbatch : 1 ≤ 2 := by decide
  obtain ⟨e, he⟩ := prepared_of_inspection linked_encodes hbatch linked_inspected
  have hagree := taxonomy_path_independent linked_encodes linked_viewed.closure linked_canonical he
  exact ⟨e, he, hagree.1⟩

end Sample

end Projector.Encoded
