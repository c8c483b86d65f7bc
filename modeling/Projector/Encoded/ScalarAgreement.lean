import Projector.Compiler.OrderIndependence
import Projector.Encoded.PassAgreement
import Projector.Encoded.Preparation

namespace Projector.Encoded
open Lib Projector.Core Compiler

/-- The view of a closure with one document: what it iterates are the axioms among the roots, and
its class signature has the classes that occur in a root. -/
structure ViewOf (rootValues : List (Nat × Node)) (view : OntologyView) : Prop where
  closure : view.closure.Perm (axiomsOf rootValues)
  annotations :
    (rootAnnotations view).Perm ((axiomsOf rootValues).filter (·.isOf .annotationAssertion))
  classes : ∀ iri, iri ∈ classSignatureIris view ↔
    ∃ root ∈ rootValues, ∃ w, root.2.Occurs w ∧ w.isEntity .classEntity = true ∧ w.entityIri = iri

section Alignment
variable {cols : Columns} {nodes : List Node} {rootValues : List (Nat × Node)}
  {options : ProjectionOptions} {roles : RoleState} {e : EncodedCompilation}

theorem annotations_sorted {view : OntologyView} (hview : ViewOf rootValues view)
    {roots : List Columns.Root} (acc : Accepted cols nodes rootValues roots) :
    canonicalSort (rootAnnotations view) =
      (axiomsOf rootValues).filter (·.isOf .annotationAssertion) := by
  have hstrict : StrictOn Node.canonicalBytes
      ((axiomsOf rootValues).filter (·.isOf .annotationAssertion)) :=
    List.Pairwise.filter _ (axiomsOf_strict acc)
  rw [canonicalSort_of_perm hview.annotations, canonicalSort, sortOn_of_sorted hstrict.sorted]

theorem sameNames (table : Encodes cols nodes rootValues)
    (prepared : PreparedFor cols nodes rootValues options roles e) {view : OntologyView}
    (hview : ViewOf rootValues view) :
    SameNames nodes e.anonymousIds (numberAnonymous (view.closure.flatMap Node.anonymousValues))
      (axiomsOf rootValues) := by
  have acc := prepared.accepted
  have hperm := hview.closure.flatMap_right Node.anonymousValues
  intro j w hw hlisted
  rw [numberAnonymous_of_perm hperm]
  exact anonymousIdMap_eq acc.toPreflighted (axiomRootIds_hold acc.rooted)
    (axiomRootIds_few table acc) prepared.anonymousIds hw hlisted

theorem sameClasses (table : Encodes cols nodes rootValues)
    (prepared : PreparedFor cols nodes rootValues options roles e) {view : OntologyView}
    (hview : ViewOf rootValues view) (hne : e.annotationRoots ≠ []) (iri : String) :
    (classSignatureIris view).contains iri = e.classIris.contains iri := by
  obtain ⟨ids, reachable, hids, hreachable, hclasses⟩ := prepared.classIris hne
  have hroots := rootIds_hold table hids
  have hmem : iri ∈ classSignatureIris view ↔ iri ∈ e.classIris := by
    rw [hview.classes, classIris_mem prepared.accepted.toPreflighted hroots
      (rootIds_few table hroots) hreachable hclasses]
    simp only [List.mem_map, exists_exists_and_eq_and]
  rw [Bool.eq_iff_iff, List.contains_iff_mem, List.contains_iff_mem, hmem]

/-- The prepared compilation and the scalar one are of the same axioms. -/
theorem aligned (table : Encodes cols nodes rootValues)
    (prepared : PreparedFor cols nodes rootValues options roles e) {view : OntologyView}
    (hview : ViewOf rootValues view) (u : RoleUpdate) :
    Aligned nodes (rootValues.map Prod.snd) (eagerCompilation view options u) e where
  eager := rfl
  prepared := rfl
  full := prepared.full
  options := prepared.sameOptions
  table := by
    rw [prepared.columns]
    exact prepared.accepted.toPreflighted
  rooted := rootHolds_of_accepted prepared.accepted
  terminologyOrder := roots_ordered prepared.accepted rfl rfl (by decide) (by decide)
  assertionOrder := roots_ordered prepared.accepted rfl rfl (by decide) (by decide)
  subclasses := sortedCategory_eq prepared.accepted hview.closure _ rfl
  equivalents := sortedCategory_eq prepared.accepted hview.closure _ rfl
  classAssertions := sortedCategory_eq prepared.accepted hview.closure _ rfl
  objectAssertions := sortedCategory_eq prepared.accepted hview.closure _ rfl
  domains := by
    have hdomains := sortedCategory_eq prepared.accepted hview.closure .objectPropertyDomain rfl
    rw [prepared.domains, ← hdomains]
    rfl
  ranges := by
    have hranges := sortedCategory_eq prepared.accepted hview.closure .objectPropertyRange rfl
    rw [prepared.ranges, ← hranges]
    rfl
  named := by
    have acc := prepared.accepted
    refine ⟨axiomsOf rootValues, sameNames table prepared hview, ?_, ?_⟩
    · intro v hv hc
      have hcategory : v ∈ (rootValues.map Prod.snd).filter (·.isOf .objectPropertyAssertion) :=
        List.mem_filter.mpr ⟨hv, isOf_iff.mpr hc⟩
      rw [← filter_axiomsOf acc (ofAxioms_isOf rfl)] at hcategory
      exact (List.mem_filter.mp hcategory).1
    · intro hliterals
      have hroots := annotationAssertionRoots_hold acc.toEncodesNodes acc.rooted
        (prepared.annotations hliterals)
      have hsorted : (eagerCompilation view options u).annotations = _ := annotations_sorted hview acc
      rw [hsorted]
      rw [List.forall₂_iff_zip] at hroots ⊢
      refine ⟨hroots.1, fun {root v} hm => ?_⟩
      obtain ⟨hmem, hof⟩ := List.mem_filter.mp (List.of_mem_zip hm).2
      exact ⟨hroots.2 hm, hmem, isOf_iff.mp hof⟩
  classes := sameClasses table prepared hview

end Alignment

section Agreement
variable {cols : Columns} {nodes : List Node} {rootValues : List (Nat × Node)} {view : OntologyView}
  {options : ProjectionOptions} {batchEdges : Nat} {roles : RoleState} {e : EncodedCompilation}

/-- What the scalar compilation has counted at its start, the encoded one has counted too; the axioms
without a pair are counted by the encoded one only. -/
theorem together_start (prepared : PreparedFor cols nodes rootValues options roles e)
    (hview : ViewOf rootValues view) :
    ∃ u, roleUpdate? (scannedRbox view.closure) roles = some u ∧
      let c := eagerCompilation view options u
      Together c e ((rootValues.map Prod.snd).filterMap skippedName?)
        (unindexed c.domains ++ unindexed c.ranges) c e := by
  have acc := prepared.accepted
  obtain ⟨ignored, hstatistics, hupdate⟩ := prepared.update
  have hrbox : (scannedRbox view.closure).Perm ((rootValues.map Prod.snd).filter isRoleAxiom) := by
    rw [← filter_axiomsOf acc roleAxiom_ofAxioms]
    exact hview.closure.filter _
  refine ⟨⟨e.roleAxioms.foldl applyRoleAxiom roles, ignored⟩, ?_, ?_⟩
  · rw [roleUpdate_of_perm hrbox]
    exact hupdate roles
  have hskipped : (skippedKeys view.closure).Perm
      (((rootValues.map Prod.snd).filterMap skippedName?).map skippedAxiom) := by
    rw [← skippedKeys_eq acc.classified]
    exact hview.closure.filterMap _
  have hdomains := sortedCategory_eq acc hview.closure .objectPropertyDomain rfl
  have hranges := sortedCategory_eq acc hview.closure .objectPropertyRange rfl
  have hpending : (unindexed ((rootValues.map Prod.snd).filter isPropertyAxiom)).Perm
      (unindexed (sortedCategory view.closure .objectPropertyDomain) ++
        unindexed (sortedCategory view.closure .objectPropertyRange)) := by
    rw [hdomains, hranges]
    exact unindexed_perm _
  exact {
    scalar := rfl
    encoded := rfl
    roles := by
      unfold EncodedCompilation.effectiveRoles
      rw [prepared.unprepared, if_neg Bool.false_ne_true, prepared.roles]
      rfl
    ready := id
    skippedAxioms := by
      rw [hstatistics, prepared.skippedAxioms, Dict.total_tally]
      exact hskipped.length_eq.trans (List.length_map _)
    ignored := by
      rw [hstatistics, prepared.ignoredShapes, Dict.total_tally, hpending.length_eq, Nat.add_comm]
      rfl
    counted := by
      refine ⟨[], ?_, ?_⟩
      · rw [prepared.renderings]
        exact Dict.tally_of_perm hskipped
      · rw [prepared.ignoredShapes, List.append_nil]
        exact Dict.tally_of_perm hpending
    skippedCounts := by
      rw [prepared.skippedAxioms]
      exact Dict.Same.refl _ }

theorem prepareCompilation_ok (hview : ViewOf rootValues view) {roots : List Columns.Root}
    (acc : Accepted cols nodes rootValues roots) {u : RoleUpdate}
    (hu : roleUpdate? (scannedRbox view.closure) roles = some u) :
    prepareCompilation view options roles = .ok (eagerCompilation view options u) := by
  have hcore : AllCore view.closure := by
    intro v hv
    exact axiomsOf_core acc v (hview.closure.mem_iff.mp hv)
  have hprepared := prepareCompilation_toOption view options roles
  rw [if_pos hcore, hu] at hprepared
  cases hr : prepareCompilation view options roles with
  | error e =>
    rw [hr] at hprepared
    cases hprepared
  | ok c =>
    rw [hr] at hprepared
    cases hprepared
    rfl

/-- Two runs to the end that their consumers cannot tell apart. -/
structure SameRun (scalar : Trace CompileError Compilation (Edge String) Unit)
    (encoded : Trace CompileError EncodedCompilation (Edge String) Unit) : Prop where
  values : encoded.values = scalar.values
  scalarEnds : scalar.outcome = .ok ()
  encodedEnds : encoded.outcome = .ok ()
  statistics : encoded.state.statistics = scalar.state.statistics
  diagnostics : encoded.state.diagnostics = scalar.state.diagnosticBag.freeze
  roles : (prepareEncodedRoleState encoded.state).state.roleState = scalar.state.roleState

theorem iterEncodedEdges_eq (e : EncodedCompilation) :
    iterEncodedEdges e = Gen.batched e.batchEdges iterUnbatchedEdges e := by
  unfold iterEncodedEdges
  simp only [Bind.bind, Gen.andThen, Gen.gets, List.nil_append]

/-- A run of aligned compilations. -/
theorem sameRun {nodes values : List Node} {c : Compilation} {skipped : List String}
    (haligned : Aligned nodes values c e)
    (htogether : Together c e skipped (unindexed c.domains ++ unindexed c.ranges) c e) :
    SameRun (iterRawEdges c) (iterEncodedEdges e) ∧
      (e.rolesPrepared = true → (iterEncodedEdges e).state.roleState = (iterRawEdges c).state.roleState) := by
  obtain ⟨hvalues, a, hscalar, hencoded, hend⟩ :=
    (edges_agree haligned).completes ⟨⟨rfl, rfl⟩, htogether⟩ (encoded_completes haligned)
  have hstate : (iterEncodedEdges e).state = (iterUnbatchedEdges e).state := by
    rw [iterEncodedEdges_eq, batched_state]
  have hroles : (iterUnbatchedEdges e).state.effectiveRoles = (iterRawEdges c).state.roleState :=
    hend.roles.trans hend.roleState_eq.symm
  refine ⟨?_, ?_⟩
  · exact {
      values := by
        rw [iterEncodedEdges_eq, batched_values hencoded]
        exact hvalues.symm
      scalarEnds := hscalar
      encodedEnds := by
        rw [iterEncodedEdges_eq, batched_outcome]
        exact hencoded
      statistics := by
        rw [hstate]
        exact hend.statistics
      diagnostics := by
        rw [hstate]
        exact hend.diagnostics.symm
      roles := by
        rw [hstate, prepareEncodedRoleState, ensureEncodedRoles_run]
        exact hroles }
  · intro hready
    rw [hstate, ← hroles]
    unfold EncodedCompilation.effectiveRoles
    rw [hend.ready hready, if_pos rfl]

/-- The encoded compiler agrees with the scalar compiler. -/
theorem encoded_agrees_with_scalar (table : Encodes cols nodes rootValues)
    (hview : ViewOf rootValues view)
    (hprepare : prepareEncodedSubsetCompilation cols options batchEdges false roles =
      .ok (.compilation e)) (ahead : Bool) :
    ∃ c, prepareCompilation view options roles = .ok c ∧
      SameRun ((do Gen.when ahead prepareRoleState; iterRawEdges) c)
        ((do Gen.when ahead prepareEncodedRoleState; iterEncodedEdges) e) ∧
      (ahead = true → ((do Gen.when ahead prepareEncodedRoleState; iterEncodedEdges) e).state.roleState =
        ((do Gen.when ahead prepareRoleState; iterRawEdges) c).state.roleState) := by
  have prepared := preparedFor table hprepare
  obtain ⟨u, hu, htogether⟩ := together_start prepared hview
  have haligned := aligned table prepared hview u
  refine ⟨eagerCompilation view options u, prepareCompilation_ok hview prepared.accepted hu, ?_⟩
  cases ahead with
  | false =>
    have hrun := sameRun haligned htogether
    have hscalar : (do Gen.when false prepareRoleState; iterRawEdges : ScalarM Unit) = iterRawEdges :=
      Gen.pure_bind () fun _ => iterRawEdges
    have hencoded : (do Gen.when false prepareEncodedRoleState; iterEncodedEdges : EncodedM Unit) =
        iterEncodedEdges := Gen.pure_bind () fun _ => iterEncodedEdges
    rw [hscalar, hencoded]
    exact ⟨hrun.1, fun h => absurd h Bool.false_ne_true⟩
  | true =>
    have hrun := sameRun haligned.withRoles htogether.withRoles.rebase
    have hready : (eagerCompilation view options u).rolesPrepared = true := rfl
    have hscalar : (do Gen.when true prepareRoleState; iterRawEdges : ScalarM Unit)
        (eagerCompilation view options u) = iterRawEdges (eagerCompilation view options u) := by
      simp only [Gen.when, if_true, Bind.bind, Gen.andThen, prepareRoleState, ensureRoles_idle hready,
        List.nil_append]
    have hencoded : (do Gen.when true prepareEncodedRoleState; iterEncodedEdges : EncodedM Unit) e =
        iterEncodedEdges e.withRoles := by
      simp only [Gen.when, if_true, Bind.bind, Gen.andThen, prepareEncodedRoleState,
        ensureEncodedRoles_run, List.nil_append]
    rw [hscalar, hencoded]
    exact ⟨hrun.1, fun _ => hrun.2 rfl⟩

end Agreement

section Sample

def linkedView : OntologyView where
  closure := axiomsOf linkedRoots
  closureOf c := (axiomsOf linkedRoots).filter (·.isOf c)
  rootOf c := (axiomsOf linkedRoots).filter (·.isOf c)
  classSignature := [owlClass "a", owlClass "b"]

theorem linked_accepted : ∃ roots, Accepted linkedColumns linkedNodes linkedRoots roots := by
  obtain ⟨⟨nodeReason, roots⟩, hinspect, hr⟩ := bind_ok linked_inspected
  obtain ⟨rootReason, hroots, hr⟩ := bind_ok hr
  exact ⟨roots, accepted_of_inspect linked_encodes hinspect hroots (Prod.mk.inj (Except.ok.inj hr)).1⟩

theorem linked_viewed : ViewOf linkedRoots linkedView where
  closure := List.Perm.refl _
  annotations := by
    rw [rootAnnotations, linkedView, List.filter_filter]
    simp only [Bool.and_self]
    exact List.Perm.refl _
  classes iri := by
    have hiris : classSignatureIris linkedView = ["a", "b"] := by decide +kernel
    have hnodes : ∀ w ∈ linkedNodes, w.isEntity .classEntity = true → w.entityIri ∈ ["a", "b"] := by
      decide +kernel
    rw [hiris]
    constructor
    · intro h
      rw [List.mem_cons, List.mem_singleton] at h
      rcases h with rfl | rfl
      · exact ⟨_, List.mem_cons_self, owlClass "a",
          .single ⟨.node (owlClass "a"), List.mem_cons_self, .node⟩, rfl, rfl⟩
      · exact ⟨_, List.mem_cons_self, owlClass "b",
          .single ⟨.node (owlClass "b"), List.mem_cons_of_mem _ List.mem_cons_self, .node⟩, rfl, rfl⟩
    · rintro ⟨root, hroot, w, hw, hc, rfl⟩
      obtain ⟨roots, acc⟩ := linked_accepted
      obtain ⟨j, -, hj⟩ := partner_of_right linked_encodes.rootIds hroot
      obtain ⟨k, hk⟩ := follows_path_holds linked_encodes.toEncodesNodes hj
        (occurs_follows acc.toPreflighted hj hw (.inr hc))
      exact hnodes w hk.mem hc

theorem encoded_agrees_with_scalar_linked : ∃ e c,
    prepareEncodedSubsetCompilation linkedColumns ⟨true, false, true, .isolated⟩ 2 false
      RoleState.empty = .ok (.compilation e) ∧
    prepareCompilation linkedView ⟨true, false, true, .isolated⟩ RoleState.empty = .ok c ∧
    SameRun ((do Gen.when true prepareRoleState; iterRawEdges) c)
      ((do Gen.when true prepareEncodedRoleState; iterEncodedEdges) e) := by
  have hbatch : 1 ≤ 2 := by decide
  obtain ⟨e, he⟩ := prepared_of_inspection linked_encodes hbatch linked_inspected
  obtain ⟨c, hc, hrun, -⟩ := encoded_agrees_with_scalar linked_encodes linked_viewed he true
  exact ⟨e, c, he, hc, hrun⟩

end Sample

end Projector.Encoded
