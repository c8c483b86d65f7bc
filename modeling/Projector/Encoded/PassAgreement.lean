import Projector.Encoded.ProjectionProofs
import Projector.Encoded.Together

namespace Projector.Encoded
open Lib Projector.Core Compiler

/-- Steps that keep a scalar and an encoded compilation together. -/
abbrev InStep (c₀ : Compilation) (e₀ : EncodedCompilation) (skipped pending : List String)
    (g : ScalarM Unit) (h : EncodedM Unit) : Prop :=
  Agree (Together c₀ e₀ skipped pending) g h fun _ => Together c₀ e₀ skipped pending

/-- What the passes rely on: an eager compilation and an accepted table with the same options. -/
structure Paired (nodes : List Node) (c₀ : Compilation) (e₀ : EncodedCompilation) : Prop where
  eager : c₀.lazy = false
  prepared : c₀.rolesPrepared = true
  full : e₀.assertedTaxonomyOnly = false
  options : e₀.options = c₀.options
  table : Preflighted e₀.columns nodes

/-- What follows a read that succeeds. -/
theorem run_bind {α γ : Type} {r : Read α} {a : α} (h : r = .ok a) (f : α → EncodedM γ) :
    (r.run >>= f) = f a := by
  rw [h]
  exact Gen.pure_bind a f

section Steps
variable {nodes : List Node} {c₀ : Compilation} {e₀ : EncodedCompilation}
  {skipped pending : List String} (paired : Paired nodes c₀ e₀)

theorem ignore_inStep {v : Node} {k : Constructor} (hname : typeName v = k.name) :
    InStep c₀ e₀ skipped pending (ignore v) (ignoreShape k) := by
  apply Agree.modify
  intro c e h
  rw [hname]
  exact h.ignore k.name

theorem ignore_root {v : Node} {k : Constructor} (hc : v.constructor = k)
    (htag : Columns.rootAxiomTags.contains k = true) :
    InStep c₀ e₀ skipped pending (ignore v) (ignoreShape k) := by
  apply ignore_inStep
  rw [typeName_skippedTag (by rw [hc]; exact htag), hc]

theorem ensureEncodedRoles_together {c : Compilation} {e : EncodedCompilation}
    (h : Together c₀ e₀ skipped pending c e) :
    ∃ e', ensureEncodedRoles e = ⟨[], .ok (), e'⟩ ∧
      (Together c₀ e₀ skipped pending c e' ∧ e'.roleState = c₀.roleState) :=
  ⟨e.withRoles, ensureEncodedRoles_run e, h.withRoles, h.roles⟩

theorem roleEdges_inStep (source relation destination : String) :
    InStep c₀ e₀ skipped pending
      (Gen.emitAll (roleEdges c₀.roleState source relation destination))
      (iterRoleEdges source relation destination) := by
  unfold iterRoleEdges
  apply Agree.to_silent fun _ _ h => ensureEncodedRoles_together h
  have hroles : ∀ c e, Together c₀ e₀ skipped pending c e ∧ e.roleState = c₀.roleState →
      ∃ e', (Gen.gets EncodedCompilation.roleState : EncodedM RoleState) e =
          ⟨[], .ok c₀.roleState, e'⟩ ∧
        Together c₀ e₀ skipped pending c e' := by
    intro c e h
    exact ⟨e, by simp only [Gen.gets, h.2], h.1⟩
  apply Agree.to_silent hroles
  exact Agree.emitAll fun _ _ h => h

include paired in
theorem restriction_inStep {subject relation filler : String} {expression owner : Node}
    (hparts : restrictionParts? expression = some (relation, filler)) :
    InStep c₀ e₀ skipped pending (restrictionOrIgnore owner subject expression)
      (iterRoleEdges subject relation filler) := by
  unfold restrictionOrIgnore restrictionEdges
  rw [hparts]
  have hedges : ∀ c e, Together c₀ e₀ skipped pending c e →
      ∃ c', (do ensureRoles; Gen.gets fun c => roleEdges c.roleState subject relation filler :
          ScalarM (List (Edge String))) c =
        ⟨[], .ok (roleEdges c₀.roleState subject relation filler), c'⟩ ∧
        Together c₀ e₀ skipped pending c' e := by
    intro c e h
    have hready : c.rolesPrepared = true := h.prepared_eq.trans paired.prepared
    refine ⟨c, ?_, h⟩
    rw [← h.roleState_eq]
    simp only [Bind.bind, Gen.andThen, ensureRoles_idle hready]
    rfl
  apply Agree.from_silent hedges
  have hnone : (Gen.when (roleEdges c₀.roleState subject relation filler).isEmpty (ignore owner) :
      ScalarM Unit) = pure () := rfl
  rw [hnone, Gen.bind_unit]
  exact roleEdges_inStep subject relation filler

theorem restriction_none {subject : String} {expression owner : Node}
    (hparts : restrictionParts? expression = none) :
    restrictionOrIgnore owner subject expression = ignore owner := by
  unfold restrictionOrIgnore restrictionEdges
  rw [hparts]
  simp only [Gen.pure_bind]
  exact Gen.pure_bind () fun _ => ignore owner

end Steps

section Terminology
variable {nodes : List Node} {c₀ : Compilation} {e₀ : EncodedCompilation}
  {skipped pending : List String} (paired : Paired nodes c₀ e₀) {id : Nat} {v : Node}

theorem taxonomyEdges_eq (bidirectional : Bool) (sub sup : String) :
    (Gen.emitAll (taxonomyEdges bidirectional sub sup) : EncodedM Unit) = (do
      Gen.emit ⟨sub, SUBCLASS_OF, sup⟩
      Gen.when bidirectional (Gen.emit ⟨sup, SUPERCLASS_OF, sub⟩)) := by
  cases bidirectional with
  | false => rfl
  | true =>
    unfold taxonomyEdges Gen.emitAll
    rw [if_pos rfl]
    unfold Gen.emitAll Gen.emitAll
    rw [Gen.bind_unit]
    rfl

/-- What a subclass axiom does once its projection is read. -/
def projectedSubclass (options : ProjectionOptions) : Option SubclassProjection → EncodedM Unit
  | none => ignoreShape .subClassOf
  | some p =>
    if p.restriction then
      if options.onlyTaxonomy then ignoreShape .subClassOf
      else iterRoleEdges p.source p.relation p.destination
    else do
      Gen.emit ⟨p.source, p.relation, p.destination⟩
      Gen.when options.bidirectionalTaxonomy (Gen.emit ⟨p.destination, SUPERCLASS_OF, p.source⟩)

include paired

theorem encodedSubclass_eq (h : Holds nodes id v) (hc : v.constructor = .subClassOf) :
    encodedSubclass e₀ id = projectedSubclass c₀.options (subclassParts v) := by
  unfold encodedSubclass
  rw [run_bind (subclassProjection_eq paired.table h hc), paired.full, paired.options]
  cases subclassParts v <;> rfl

/-- A subclass axiom with one named side. -/
theorem projectedRestriction_inStep {subject : String} {expression : Node}
    (hc : v.constructor = .subClassOf) :
    InStep c₀ e₀ skipped pending
      (if c₀.options.onlyTaxonomy then ignore v else restrictionOrIgnore v subject expression)
      (projectedSubclass c₀.options
        ((restrictionParts? expression).map fun p => ⟨subject, p.1, p.2, true⟩)) := by
  have hignore : InStep c₀ e₀ skipped pending (ignore v) (ignoreShape .subClassOf) :=
    ignore_root hc rfl
  cases hparts : restrictionParts? expression with
  | none =>
    rw [restriction_none hparts, ite_self]
    exact hignore
  | some parts =>
    apply Agree.ite
    · intro _
      exact hignore
    · intro _
      exact restriction_inStep paired hparts

theorem subclass_inStep (h : Holds nodes id v) (hc : v.constructor = .subClassOf) :
    InStep c₀ e₀ skipped pending (subclassEdges c₀.options v) (encodedSubclass e₀ id) := by
  rw [encodedSubclass_eq paired h hc]
  unfold subclassEdges subclassParts
  cases hsub : (v.child 0).isEntity .classEntity with
  | true =>
    cases hsup : (v.child 1).isEntity .classEntity with
    | true =>
      simp only [hsub, hsup, Bool.and_true, if_true]
      have hedges := taxonomyEdges_eq c₀.options.bidirectionalTaxonomy (v.child 0).entityIri
        (v.child 1).entityIri
      change InStep c₀ e₀ skipped pending _ (do Gen.emit _; Gen.when _ _)
      rw [← hedges]
      exact Agree.emitAll fun _ _ h => h
    | false =>
      simp only [hsub, hsup, Bool.and_false, Bool.false_eq_true, if_false, if_true]
      exact projectedRestriction_inStep paired hc
  | false =>
    cases hsup : (v.child 1).isEntity .classEntity with
    | true =>
      simp only [hsub, hsup, Bool.false_and, Bool.false_eq_true, if_false, if_true]
      exact projectedRestriction_inStep paired hc
    | false =>
      simp only [hsub, hsup, Bool.false_and, Bool.false_eq_true, if_false, ite_self]
      exact ignore_root hc rfl

theorem operand_inStep {subject : String} {operand : EquivalentOperand} {w : Node}
    (hc : v.constructor = .equivalentClasses) (hw : Matches nodes operand w) :
    InStep c₀ e₀ skipped pending (operandEdges c₀.options v subject w)
      (encodedOperand e₀ subject operand) := by
  obtain ⟨i, -, rfl⟩ := hw.read
  unfold operandEdges encodedOperand operandOf
  rw [paired.options]
  cases hclass : w.isEntity .classEntity with
  | true =>
    simp only [if_true, Bool.false_eq_true, if_false]
    exact Agree.emitAll fun _ _ h => h
  | false =>
    cases hparts : restrictionParts? w with
    | none =>
      rw [restriction_none hparts]
      cases c₀.options.onlyTaxonomy with
      | true => exact Agree.ret fun _ _ h => h
      | false => exact ignore_root hc rfl
    | some parts =>
      cases c₀.options.onlyTaxonomy with
      | true => exact Agree.ret fun _ _ h => h
      | false => exact restriction_inStep paired hparts

theorem equivalent_inStep (h : Holds nodes id v) (hc : v.constructor = .equivalentClasses) :
    InStep c₀ e₀ skipped pending (equivalentEdges c₀.options v) (encodedEquivalent e₀ id) := by
  obtain ⟨first, second, rest, p, hordered, hread, hresult⟩ :=
    equivalentProjection_eq paired.table h hc
  have hignore : InStep c₀ e₀ skipped pending (ignore v) (ignoreShape .equivalentClasses) :=
    ignore_root hc rfl
  have haggregate : (second.isOf .objectIntersectionOf || second.isOf .objectUnionOf) =
      Columns.aggregateTags.contains second.constructor := by
    unfold Node.isOf Columns.aggregateTags
    cases second.constructor <;> rfl
  unfold equivalentEdges encodedEquivalent
  rw [hordered, run_bind hread]
  simp only [haggregate, paired.options]
  cases hresult with
  | named hfirst hsecond =>
    simp only [hfirst, hsecond, if_true]
    exact Agree.emitAll fun _ _ h => h
  | aggregate hfirst hsecond htag hoperands =>
    simp only [hfirst, hsecond, htag, Bool.and_true, Bool.false_eq_true, if_false, if_true]
    apply Agree.each hoperands.flip
    intro w operand hw
    exact operand_inStep paired hc hw
  | unnamed hfirst =>
    simp only [hfirst, Bool.and_false, Bool.false_eq_true, if_false, ite_self]
    exact hignore
  | other hsecond htag =>
    simp only [hsecond, htag, Bool.false_and, Bool.false_eq_true, if_false]
    exact hignore

/-- The first pass meets a root: what the two compilers do there. -/
theorem terminology_inStep {root : Columns.Root} (h : Holds nodes root.2 v) :
    InStep c₀ e₀ skipped pending (do
      Gen.when (v.isOf .subClassOf) (subclassEdges c₀.options v)
      Gen.when (v.isOf .equivalentClasses) (equivalentEdges c₀.options v))
      (encodedTerminology e₀ root) := by
  unfold encodedTerminology
  rw [run_bind (tagIs_eq paired.table.toEncodesNodes h _),
    run_bind (tagIs_eq paired.table.toEncodesNodes h _), paired.full]
  cases hsub : v.isOf .subClassOf with
  | true =>
    have hc := isOf_iff.mp hsub
    have hother : v.isOf .equivalentClasses = false := by
      unfold Node.isOf
      rw [hc]
      rfl
    rw [hother]
    change InStep c₀ e₀ skipped pending (do subclassEdges c₀.options v; pure ()) _
    rw [Gen.bind_unit]
    exact subclass_inStep paired h hc
  | false =>
    change InStep c₀ e₀ skipped pending ((pure () : ScalarM Unit) >>= _) _
    rw [Gen.pure_bind]
    cases hequivalent : v.isOf .equivalentClasses with
    | true => exact equivalent_inStep paired h (isOf_iff.mp hequivalent)
    | false => exact Agree.ret fun _ _ h => h

end Terminology

section Assertions
variable {nodes : List Node} {c₀ : Compilation} {e₀ : EncodedCompilation}
  {skipped pending : List String} (paired : Paired nodes c₀ e₀) {values : List Node}
  (names : SameNames nodes e₀.anonymousIds c₀.blankIds values) {id : Nat} {v : Node}

/-- The scan of an eager compilation is over: a name is a lookup. -/
theorem individualId_run {c : Compilation} (h : c.lazy = false) (w : Node) :
    individualId w c = ⟨[], .ok (individualName c.blankIds w), c⟩ := by
  unfold individualId individualName
  split
  · rfl
  · simp only [Bind.bind, Gen.andThen, Gen.gets, id_eq, h, Bool.false_and]
    rfl

theorem annotationValue_run {c : Compilation} (h : c.lazy = false) (w : Node) :
    annotationValue w c = ⟨[], .ok (renderedValue c.blankIds w).1,
      if (renderedValue c.blankIds w).2 then
        { c with diagnosticBag := c.diagnosticBag.increment nonStringLiteral }
      else c⟩ := by
  unfold annotationValue renderedValue
  cases w.constructor <;> first
    | rfl
    | exact individualId_run h w
    | skip
  all_goals
    simp only
    split <;> rfl

/-- An annotation value is rendered, and its edge follows. -/
theorem rendered_inStep (heager : c₀.lazy = false) {w : Node} {source relation : String} :
    InStep c₀ e₀ skipped pending
      (do
        let destination ← annotationValue w
        yieldEdge source relation destination)
      (do
        Gen.when (renderedValue c₀.blankIds w).2 (Gen.modify fun e : EncodedCompilation =>
          { e with nonStringLiteralRenderings := e.nonStringLiteralRenderings + 1 })
        Gen.emit ⟨source, relation, (renderedValue c₀.blankIds w).1⟩) := by
  have hyield : InStep c₀ e₀ skipped pending
      (yieldEdge source relation (renderedValue c₀.blankIds w).1)
      (Gen.emit ⟨source, relation, (renderedValue c₀.blankIds w).1⟩) := Agree.emit fun _ _ h => h
  cases hrendered : (renderedValue c₀.blankIds w).2 with
  | false =>
    have hrun : ∀ c e, Together c₀ e₀ skipped pending c e →
        ∃ c', annotationValue w c = ⟨[], .ok (renderedValue c₀.blankIds w).1, c'⟩ ∧
          Together c₀ e₀ skipped pending c' e := by
      intro c e h
      refine ⟨c, ?_, h⟩
      rw [annotationValue_run (h.lazy_eq.trans heager), h.blankIds_eq, hrendered]
      rfl
    apply Agree.from_silent hrun
    change InStep c₀ e₀ skipped pending _ ((pure () : EncodedM Unit) >>= _)
    rw [Gen.pure_bind]
    exact hyield
  | true =>
    have hrest : Agree
        (fun c e => Together c₀ e₀ skipped pending c
          { e with nonStringLiteralRenderings := e.nonStringLiteralRenderings + 1 })
        (yieldEdge source relation (renderedValue c₀.blankIds w).1)
        (do
          Gen.modify fun e : EncodedCompilation =>
            { e with nonStringLiteralRenderings := e.nonStringLiteralRenderings + 1 }
          Gen.emit ⟨source, relation, (renderedValue c₀.blankIds w).1⟩)
        fun _ => Together c₀ e₀ skipped pending := by
      apply Agree.modify_right hyield
      exact fun _ _ h => h
    apply Agree.from_silent _ hrest
    intro c e h
    refine ⟨_, ?_, h.rendering⟩
    rw [annotationValue_run (h.lazy_eq.trans heager), h.blankIds_eq, hrendered]
    rfl

include paired names

theorem annotation_inStep (hclasses : ∀ iri, c₀.classIris.contains iri = e₀.classIris.contains iri)
    {root : Columns.Root} (h : Holds nodes root.2 v) (hv : v ∈ values)
    (hc : v.constructor = .annotationAssertion) :
    InStep c₀ e₀ skipped pending (annotationEdge v) (encodedAnnotationEdges e₀ root) := by
  have hignore : InStep c₀ e₀ skipped pending (ignore v) (ignoreShape .annotationAssertion) :=
    ignore_root hc rfl
  unfold annotationEdge encodedAnnotationEdges
  rw [run_bind (annotationAssertionEdge_eq paired.table names e₀.classIris h hv hc)]
  have hknown : ∀ c e, Together c₀ e₀ skipped pending c e →
      ∃ c', (Gen.gets fun c => c.classIris.contains ((v.child 1).text 0) : ScalarM Bool) c =
        ⟨[], .ok (e₀.classIris.contains ((v.child 1).text 0)), c'⟩ ∧
        Together c₀ e₀ skipped pending c' e := by
    intro c e h
    exact ⟨c, by simp only [Gen.gets, h.classIris_eq, hclasses], h⟩
  apply Agree.from_silent hknown
  unfold annotationParts
  cases hiri : (v.child 1).isOf .iri with
  | false =>
    simp only [Bool.false_and, Bool.not_false, Bool.true_or, Bool.false_eq_true, if_true, if_false]
    exact hignore
  | true =>
    cases e₀.classIris.contains ((v.child 1).text 0) with
    | false =>
      simp only [Bool.and_false, Bool.false_and, Bool.not_false, Bool.or_true, Bool.false_eq_true,
        if_true, if_false]
      exact hignore
    | true =>
      cases hprofile : annotationProperties.contains (v.child 0).entityIri with
      | false =>
        simp only [hprofile, Bool.and_false, Bool.not_false, Bool.not_true, Bool.or_self,
          Bool.false_eq_true, if_true, if_false]
        exact hignore
      | true =>
        simp only [hprofile, Bool.and_self, Bool.not_true, Bool.or_self, Bool.false_eq_true,
          if_true, if_false]
        exact rendered_inStep paired.eager

omit names in
theorem classAssertion_inStep (h : Holds nodes id v) (hc : v.constructor = .classAssertion) :
    InStep c₀ e₀ skipped pending (classAssertionEdge v) (do
      match ← (e₀.columns.classAssertionIris id).run with
      | none => ignoreShape .classAssertion
      | some (individual, classIri) => Gen.emit ⟨individual, RDF_TYPE, classIri⟩) := by
  rw [run_bind (classAssertionIris_eq paired.table h hc)]
  unfold classAssertionEdge classAssertionParts?
  cases hboth : (v.child 1).isEntity .namedIndividual && (v.child 0).isEntity .classEntity with
  | true =>
    simp only [hboth, if_true]
    exact Agree.emit fun _ _ h => h
  | false =>
    simp only [hboth, Bool.false_eq_true, if_false]
    exact ignore_root hc rfl

theorem objectAssertion_inStep (h : Holds nodes id v) (hv : v ∈ values)
    (hc : v.constructor = .objectPropertyAssertion) :
    InStep c₀ e₀ skipped pending (objectAssertionEdge v) (do
      let (source, relation, destination) ←
        (e₀.columns.objectPropertyAssertionIris e₀.anonymousIds id).run
      Gen.emit ⟨source, relation, destination⟩) := by
  obtain ⟨hnamed, hread⟩ := objectPropertyAssertionIris_eq paired.table names h hv hc
  have hinverse : (v.child 0).isOf .objectInverseOf = false := by
    unfold Node.isOf
    rw [isEntity_constructor hnamed]
    rfl
  have hname : ∀ w, ∀ c e, Together c₀ e₀ skipped pending c e →
      ∃ c', individualId w c = ⟨[], .ok (individualName c₀.blankIds w), c'⟩ ∧
        Together c₀ e₀ skipped pending c' e := by
    intro w c e h
    refine ⟨c, ?_, h⟩
    rw [individualId_run (h.lazy_eq.trans paired.eager), h.blankIds_eq]
  rw [run_bind hread]
  unfold objectAssertionEdge
  simp only [hinverse, hnamed, Bool.not_true, Bool.false_eq_true, if_false]
  apply Agree.from_silent (hname _)
  apply Agree.from_silent (hname _)
  exact Agree.emit fun _ _ h => h

/-- The second pass meets a root. -/
theorem assertion_inStep {root : Columns.Root} (h : Holds nodes root.2 v)
    (hv : v.constructor = .objectPropertyAssertion → v ∈ values) :
    InStep c₀ e₀ skipped pending (do
      Gen.when (v.isOf .classAssertion) (classAssertionEdge v)
      Gen.when (v.isOf .objectPropertyAssertion) (objectAssertionEdge v))
      (encodedAssertion e₀ root) := by
  unfold encodedAssertion
  rw [run_bind (tagIs_eq paired.table.toEncodesNodes h _),
    run_bind (tagIs_eq paired.table.toEncodesNodes h _)]
  cases hclass : v.isOf .classAssertion with
  | true =>
    have hc := isOf_iff.mp hclass
    have hother : v.isOf .objectPropertyAssertion = false := by
      unfold Node.isOf
      rw [hc]
      rfl
    rw [hother]
    change InStep c₀ e₀ skipped pending (do classAssertionEdge v; pure ()) _
    rw [Gen.bind_unit]
    exact classAssertion_inStep paired h hc
  | false =>
    change InStep c₀ e₀ skipped pending ((pure () : ScalarM Unit) >>= _) _
    rw [Gen.pure_bind]
    cases hobject : v.isOf .objectPropertyAssertion with
    | true =>
      have hc := isOf_iff.mp hobject
      exact objectAssertion_inStep paired names h (hv hc) hc
    | false => exact Agree.ret fun _ _ h => h

end Assertions

section Properties
variable {nodes : List Node} {c₀ : Compilation} {e₀ : EncodedCompilation}
  {skipped pending : List String} (paired : Paired nodes c₀ e₀)

theorem indexAxioms_named {v : Node} {property classIri : String}
    (h : namedParts? v = some (property, classIri)) (rest : List Node) (index : ClassIndex) :
    indexAxioms (v :: rest) index = indexAxioms rest (index.addTo property classIri) := by
  change (indexAxiom index v >>= fun index => indexAxioms rest index) = _
  unfold indexAxiom
  rw [h]
  exact Gen.pure_bind _ _

theorem indexAxioms_unnamed {v : Node} (h : namedParts? v = none) (rest : List Node)
    (index : ClassIndex) :
    indexAxioms (v :: rest) index = (do ignore v; indexAxioms rest index) := by
  change (indexAxiom index v >>= fun index => indexAxioms rest index) = _
  unfold indexAxiom
  rw [h]
  exact (Gen.bind_assoc _ _ _).trans (congrArg _ (funext fun _ => Gen.pure_bind _ _))

/-- The scalar compiler counts the axioms that have no pair while it indexes the others. -/
theorem indexAxioms_settles {axioms : List Node} {c : Compilation} {e : EncodedCompilation}
    (h : Together c₀ e₀ skipped (unindexed axioms ++ pending) c e) (index : ClassIndex) :
    ∃ c', indexAxioms axioms index c = ⟨[], .ok (indexedBy axioms index), c'⟩ ∧
      Together c₀ e₀ skipped pending c' e := by
  induction axioms generalizing c index with
  | nil => exact ⟨c, rfl, h⟩
  | cons v rest ih =>
    cases hparts : namedParts? v with
    | some parts =>
      obtain ⟨property, classIri⟩ := parts
      rw [unindexed_named hparts] at h
      obtain ⟨c', hrun, h'⟩ := ih h (index.addTo property classIri)
      refine ⟨c', ?_, h'⟩
      rw [indexedBy_named hparts, ← hrun, indexAxioms_named hparts]
    | none =>
      rw [unindexed_unnamed hparts, List.cons_append] at h
      obtain ⟨c', hrun, h'⟩ := ih h.settle index
      refine ⟨c', ?_, h'⟩
      rw [indexedBy_unnamed hparts, indexAxioms_unnamed hparts]
      simp only [Bind.bind, Gen.andThen, ignore, Gen.modify, hrun, List.append_nil]

include paired

/-- Domains with ranges: after them nothing is pending. -/
theorem domainRange_inStep (hdomains : e₀.domains = indexedBy c₀.domains ∅)
    (hranges : e₀.ranges = indexedBy c₀.ranges ∅) :
    Agree (Together c₀ e₀ skipped (unindexed c₀.domains ++ unindexed c₀.ranges))
      domainRangeEdges (iterDomainRangeEdges e₀) fun _ => Together c₀ e₀ skipped [] := by
  have hready : ∀ c e, Together c₀ e₀ skipped (unindexed c₀.domains ++ unindexed c₀.ranges) c e →
      ∃ c', ensureRoles c = ⟨[], .ok (), c'⟩ ∧
        Together c₀ e₀ skipped (unindexed c₀.domains ++ unindexed c₀.ranges) c' e := by
    intro c e h
    exact ⟨c, ensureRoles_idle (h.prepared_eq.trans paired.prepared), h⟩
  have hgets : ∀ {α : Type} (f : Compilation → α) (pending : List String),
      (∀ c e, Together c₀ e₀ skipped pending c e → f c = f c₀) →
      ∀ c e, Together c₀ e₀ skipped pending c e →
        ∃ c', (Gen.gets f : ScalarM α) c = ⟨[], .ok (f c₀), c'⟩ ∧
          Together c₀ e₀ skipped pending c' e := by
    intro α f pending hf c e h
    exact ⟨c, by simp only [Gen.gets, hf c e h], h⟩
  have hindex : ∀ (axioms : List Node) (pending : List String),
      ∀ c e, Together c₀ e₀ skipped (unindexed axioms ++ pending) c e →
        ∃ c', indexAxioms axioms ∅ c = ⟨[], .ok (indexedBy axioms ∅), c'⟩ ∧
          Together c₀ e₀ skipped pending c' e :=
    fun axioms pending c e h => indexAxioms_settles h ∅
  unfold domainRangeEdges iterDomainRangeEdges
  apply Agree.from_silent hready
  apply Agree.from_silent (hgets Compilation.domains _ fun _ _ h => h.domains_eq)
  apply Agree.from_silent (hindex _ _)
  apply Agree.from_silent (hgets Compilation.ranges _ fun _ _ h => h.ranges_eq)
  rw [← List.append_nil (unindexed c₀.ranges)]
  apply Agree.from_silent (hindex _ _)
  apply Agree.from_silent (hgets Compilation.roleState _ fun _ _ h => h.roleState_eq)
  rw [hdomains, hranges, productEdges, Gen.emitAll_flatMap]
  apply Agree.each_same
  intro property _
  rw [Gen.emitAll_flatMap]
  apply Agree.each_same
  intro domain _
  rw [Gen.emitAll_flatMap]
  apply Agree.each_same
  intro range _
  exact roleEdges_inStep domain property range

end Properties

section Runs

/-- The axioms of an eager compilation are the values of the roots of the encoded one. -/
structure Aligned (nodes values : List Node) (c₀ : Compilation) (e₀ : EncodedCompilation) : Prop
    extends Paired nodes c₀ e₀ where
  rooted : List.Forall₂ (RootHolds nodes) e₀.roots values
  terminologyOrder :
    values.Pairwise fun a b => a.isOf .equivalentClasses = true → b.isOf .subClassOf = false
  assertionOrder :
    values.Pairwise fun a b => a.isOf .objectPropertyAssertion = true → b.isOf .classAssertion = false
  subclasses : c₀.subclasses = values.filter (·.isOf .subClassOf)
  equivalents : c₀.equivalents = values.filter (·.isOf .equivalentClasses)
  classAssertions : c₀.classAssertions = values.filter (·.isOf .classAssertion)
  objectAssertions : c₀.objectAssertions = values.filter (·.isOf .objectPropertyAssertion)
  domains : e₀.domains = indexedBy c₀.domains ∅
  ranges : e₀.ranges = indexedBy c₀.ranges ∅
  named : ∃ listed, SameNames nodes e₀.anonymousIds c₀.blankIds listed ∧
    (∀ v ∈ values, v.constructor = .objectPropertyAssertion → v ∈ listed) ∧
    (c₀.options.includeLiterals = true → List.Forall₂ (fun root v => RootHolds nodes root v ∧
      v ∈ listed ∧ v.constructor = .annotationAssertion) e₀.annotationRoots c₀.annotations)
  classes : e₀.annotationRoots ≠ [] →
    ∀ iri, c₀.classIris.contains iri = e₀.classIris.contains iri

variable {nodes values : List Node} {c₀ : Compilation} {e₀ : EncodedCompilation}
  {skipped pending : List String}

theorem Aligned.memberRooted (aligned : Aligned nodes values c₀ e₀) :
    List.Forall₂ (fun root v => RootHolds nodes root v ∧ v ∈ values) e₀.roots values := by
  have hrooted := aligned.rooted
  rw [List.forall₂_iff_zip] at hrooted ⊢
  exact ⟨hrooted.1, fun {root v} hm => ⟨hrooted.2 hm, (List.of_mem_zip hm).2⟩⟩

/-- The passes read nothing of the roles. -/
theorem Aligned.withRoles (aligned : Aligned nodes values c₀ e₀) :
    Aligned nodes values c₀ e₀.withRoles where
  eager := aligned.eager
  prepared := aligned.prepared
  full := aligned.full
  options := aligned.options
  table := aligned.table
  rooted := aligned.rooted
  terminologyOrder := aligned.terminologyOrder
  assertionOrder := aligned.assertionOrder
  subclasses := aligned.subclasses
  equivalents := aligned.equivalents
  classAssertions := aligned.classAssertions
  objectAssertions := aligned.objectAssertions
  domains := aligned.domains
  ranges := aligned.ranges
  named := aligned.named
  classes := aligned.classes

theorem isOf_disjoint {c d : Constructor} (hne : c ≠ d) (v : Node) (h : v.isOf c = true) :
    v.isOf d = false := by
  by_contra hother
  have hd := isOf_iff.mp (Bool.not_eq_false _ ▸ hother)
  exact hne ((isOf_iff.mp h).symm.trans hd)

/-- Two passes over the axioms of one constructor each are one pass over all. -/
theorem two_passes {c d : Constructor} (hne : c ≠ d) {first second : Node → ScalarM Unit}
    (horder : values.Pairwise fun a b => a.isOf d = true → b.isOf c = false) :
    Gen.each values (fun v => do Gen.when (v.isOf c) (first v); Gen.when (v.isOf d) (second v)) =
      (do
        Gen.each (values.filter (·.isOf c)) first
        Gen.each (values.filter (·.isOf d)) second) := by
  apply Gen.each_phases
  · intro v _ hc
    rw [hc, isOf_disjoint hne v hc]
    exact Gen.bind_unit (first v)
  · intro v _ hc hd
    rw [hc, hd]
    exact Gen.pure_bind () fun _ => second v
  · intro v _ hc hd
    rw [hc, hd]
    exact Gen.pure_bind () fun _ => pure ()
  · intro v _ hc
    exact isOf_disjoint hne v hc
  · exact horder

theorem terminology_pass (aligned : Aligned nodes values c₀ e₀) :
    InStep c₀ e₀ skipped pending
      (do
        Gen.each c₀.subclasses (subclassEdges c₀.options)
        Gen.each c₀.equivalents (equivalentEdges c₀.options))
      (Gen.each e₀.roots (encodedTerminology e₀)) := by
  rw [aligned.subclasses, aligned.equivalents,
    ← two_passes (by decide) aligned.terminologyOrder]
  apply Agree.each aligned.rooted.flip
  intro v root hroot
  exact terminology_inStep aligned.toPaired hroot

theorem assertion_pass (aligned : Aligned nodes values c₀ e₀) :
    InStep c₀ e₀ skipped pending
      (do
        Gen.each c₀.classAssertions classAssertionEdge
        Gen.each c₀.objectAssertions objectAssertionEdge)
      (Gen.each e₀.roots (encodedAssertion e₀)) := by
  obtain ⟨listed, names, hlisted, -⟩ := aligned.named
  rw [aligned.classAssertions, aligned.objectAssertions,
    ← two_passes (by decide) aligned.assertionOrder]
  apply Agree.each aligned.memberRooted.flip
  intro v root ⟨hroot, hv⟩
  exact assertion_inStep aligned.toPaired names hroot (hlisted v hv)

theorem annotation_pass (aligned : Aligned nodes values c₀ e₀) :
    InStep c₀ e₀ skipped pending
      (Gen.when c₀.options.includeLiterals (Gen.each c₀.annotations annotationEdge))
      (Gen.when e₀.options.includeLiterals
        (Gen.each e₀.annotationRoots (encodedAnnotationEdges e₀))) := by
  obtain ⟨listed, names, -, hannotations⟩ := aligned.named
  rw [aligned.options]
  cases hliterals : c₀.options.includeLiterals with
  | false => exact Agree.ret fun _ _ h => h
  | true =>
    have hrooted := hannotations hliterals
    by_cases hempty : e₀.annotationRoots = []
    · rw [hempty] at hrooted ⊢
      rw [List.forall₂_nil_left_iff.mp hrooted]
      exact Agree.ret fun _ _ h => h
    · apply Agree.each hrooted.flip
      intro v root ⟨hroot, hv, hc⟩
      exact annotation_inStep aligned.toPaired names (aligned.classes hempty) hroot hv hc

/-- The categories of the scalar compiler, grouped by the passes of the encoded one. -/
theorem eager_passes (c : Compilation) :
    iterEagerRawEdges c = (do
      (do
        Gen.each c.subclasses (subclassEdges c.options)
        Gen.each c.equivalents (equivalentEdges c.options))
      Gen.when c.options.includeLiterals (Gen.each c.annotations annotationEdge)
      (do
        Gen.each c.classAssertions classAssertionEdge
        Gen.each c.objectAssertions objectAssertionEdge)
      domainRangeEdges) := by
  unfold iterEagerRawEdges
  simp only [Gen.bind_assoc]

/-- The two compilers yield the same edges from the compilations of one ontology. -/
theorem edges_agree (aligned : Aligned nodes values c₀ e₀) :
    Agree (fun c e => (c = c₀ ∧ e = e₀) ∧
        Together c₀ e₀ skipped (unindexed c₀.domains ++ unindexed c₀.ranges) c e)
      iterRawEdges iterUnbatchedEdges fun _ => Together c₀ e₀ skipped [] := by
  have hscalar : ∀ c e, ((c = c₀ ∧ e = e₀) ∧
      Together c₀ e₀ skipped (unindexed c₀.domains ++ unindexed c₀.ranges) c e) →
      ∃ c', (Gen.gets id : ScalarM Compilation) c = ⟨[], .ok c₀, c'⟩ ∧ e = e₀ ∧
        Together c₀ e₀ skipped (unindexed c₀.domains ++ unindexed c₀.ranges) c' e := by
    rintro c e ⟨⟨rfl, rfl⟩, h⟩
    exact ⟨c, rfl, rfl, h⟩
  have hencoded : ∀ c e, (e = e₀ ∧
      Together c₀ e₀ skipped (unindexed c₀.domains ++ unindexed c₀.ranges) c e) →
      ∃ e', (Gen.gets id : EncodedM EncodedCompilation) e = ⟨[], .ok e₀, e'⟩ ∧
        Together c₀ e₀ skipped (unindexed c₀.domains ++ unindexed c₀.ranges) c e' := by
    rintro c e ⟨rfl, h⟩
    exact ⟨e, rfl, h⟩
  unfold iterRawEdges iterUnbatchedEdges
  apply Agree.from_silent hscalar
  apply Agree.to_silent hencoded
  rw [aligned.eager, aligned.full, eager_passes]
  apply Agree.bind (terminology_pass aligned)
  intro _
  apply Agree.bind (annotation_pass aligned)
  intro _
  apply Agree.bind (assertion_pass aligned)
  intro _
  exact domainRange_inStep aligned.toPaired aligned.domains aligned.ranges

end Runs

section Completion
variable {nodes values : List Node} {c₀ : Compilation} {e₀ : EncodedCompilation}

theorem iterRoleEdges_completes (source relation destination : String) :
    Completes (iterRoleEdges source relation destination) := by
  apply Completes.bind (Completes.modify _)
  intro _
  apply Completes.bind (Completes.gets _)
  intro roles
  exact Completes.emitAll _

theorem projectedSubclass_completes (options : ProjectionOptions) (p : Option SubclassProjection) :
    Completes (projectedSubclass options p) := by
  cases p with
  | none => exact Completes.modify _
  | some p =>
    apply Completes.ite
    · exact Completes.ite (Completes.modify _) (iterRoleEdges_completes _ _ _)
    · exact Completes.bind (Completes.emit _) fun _ => Completes.when (Completes.emit _)

theorem encodedOperand_completes (e : EncodedCompilation) (subject : String)
    (operand : EquivalentOperand) : Completes (encodedOperand e subject operand) := by
  unfold encodedOperand
  apply Completes.ite
  · exact Completes.when (Completes.modify _)
  · cases operand.second with
    | none => exact Completes.emitAll _
    | some destination => exact Completes.when (iterRoleEdges_completes _ _ _)

theorem encodedEquivalent_completes (paired : Paired nodes c₀ e₀) {id : Nat} {v : Node}
    (h : Holds nodes id v) (hc : v.constructor = .equivalentClasses) :
    Completes (encodedEquivalent e₀ id) := by
  obtain ⟨first, second, rest, p, -, hread, -⟩ := equivalentProjection_eq paired.table h hc
  unfold encodedEquivalent
  rw [run_bind hread]
  cases p with
  | none => exact Completes.modify _
  | some p =>
    simp only
    cases p.destination with
    | none => exact Completes.each fun operand _ => encodedOperand_completes e₀ p.subject operand
    | some destination => exact Completes.emitAll _

theorem encodedTerminology_completes (paired : Paired nodes c₀ e₀) {root : Columns.Root} {v : Node}
    (h : Holds nodes root.2 v) : Completes (encodedTerminology e₀ root) := by
  have table := paired.table.toEncodesNodes
  unfold encodedTerminology
  rw [run_bind (tagIs_eq table h _), run_bind (tagIs_eq table h _), paired.full]
  cases hsub : v.isOf .subClassOf with
  | true =>
    simp only [if_true]
    rw [encodedSubclass_eq paired h (isOf_iff.mp hsub)]
    exact projectedSubclass_completes _ _
  | false =>
    cases hequivalent : v.isOf .equivalentClasses with
    | true => exact encodedEquivalent_completes paired h (isOf_iff.mp hequivalent)
    | false => exact Completes.ret ()

variable {listed : List Node} (paired : Paired nodes c₀ e₀)
  (names : SameNames nodes e₀.anonymousIds c₀.blankIds listed)
include paired names

theorem encodedAnnotation_completes {root : Columns.Root} {v : Node} (h : Holds nodes root.2 v)
    (hv : v ∈ listed) (hc : v.constructor = .annotationAssertion) :
    Completes (encodedAnnotationEdges e₀ root) := by
  unfold encodedAnnotationEdges
  rw [run_bind (annotationAssertionEdge_eq paired.table names e₀.classIris h hv hc)]
  obtain ⟨edge, nonString⟩ := annotationParts e₀.classIris c₀.blankIds v
  cases edge with
  | none => exact Completes.modify _
  | some edge =>
    exact Completes.bind (Completes.when (Completes.modify _)) fun _ => Completes.emit _

theorem encodedAssertion_completes {root : Columns.Root} {v : Node} (h : Holds nodes root.2 v)
    (hv : v.constructor = .objectPropertyAssertion → v ∈ listed) :
    Completes (encodedAssertion e₀ root) := by
  have table := paired.table.toEncodesNodes
  unfold encodedAssertion
  rw [run_bind (tagIs_eq table h _), run_bind (tagIs_eq table h _)]
  cases hclass : v.isOf .classAssertion with
  | true =>
    simp only [if_true]
    rw [run_bind (classAssertionIris_eq paired.table h (isOf_iff.mp hclass))]
    cases classAssertionParts? v with
    | none => exact Completes.modify _
    | some parts => exact Completes.emit _
  | false =>
    cases hobject : v.isOf .objectPropertyAssertion with
    | true =>
      have hc := isOf_iff.mp hobject
      have hread := (objectPropertyAssertionIris_eq paired.table names h (hv hc) hc).2
      simp only [Bool.false_eq_true, if_false, if_true]
      rw [run_bind hread]
      exact Completes.emit _
    | false => exact Completes.ret ()

omit paired names

theorem passes_complete (aligned : Aligned nodes values c₀ e₀) :
    Completes (do
      Gen.each e₀.roots (encodedTerminology e₀)
      if e₀.assertedTaxonomyOnly then pure ()
      else do
        Gen.when e₀.options.includeLiterals
          (Gen.each e₀.annotationRoots (encodedAnnotationEdges e₀))
        Gen.each e₀.roots (encodedAssertion e₀)
        iterDomainRangeEdges e₀) := by
  obtain ⟨listed, names, hlisted, hannotations⟩ := aligned.named
  have hannotated : Completes (Gen.when e₀.options.includeLiterals
      (Gen.each e₀.annotationRoots (encodedAnnotationEdges e₀))) := by
    rw [aligned.options]
    cases hliterals : c₀.options.includeLiterals with
    | false => exact Completes.ret ()
    | true =>
      apply Completes.each_paired (hannotations hliterals)
      intro root v ⟨hroot, hv, hc⟩
      exact encodedAnnotation_completes aligned.toPaired names hroot hv hc
  have hasserted : Completes (Gen.each e₀.roots (encodedAssertion e₀)) := by
    apply Completes.each_paired aligned.memberRooted
    intro root v ⟨hroot, hv⟩
    exact encodedAssertion_completes aligned.toPaired names hroot (hlisted v hv)
  have hproduct : Completes (iterDomainRangeEdges e₀) := by
    apply Completes.each
    intro property _
    apply Completes.each
    intro domain _
    apply Completes.each
    intro range _
    exact iterRoleEdges_completes _ _ _
  rw [aligned.full]
  apply Completes.bind
  · apply Completes.each_paired aligned.rooted
    intro root v hroot
    exact encodedTerminology_completes aligned.toPaired hroot
  · intro _
    exact hannotated.bind fun _ => hasserted.bind fun _ => hproduct

/-- An accepted table is compiled to the end. -/
theorem encoded_completes (aligned : Aligned nodes values c₀ e₀) :
    ∃ a, (iterUnbatchedEdges e₀).outcome = .ok a := by
  obtain ⟨a, ha⟩ := passes_complete aligned e₀
  exact ⟨a, ha⟩

end Completion

end Projector.Encoded
