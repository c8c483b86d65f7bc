import Projector.Compiler.Stable
import Projector.Compiler.LazyEager

namespace Projector.Compiler
open Lib Projector.Core

/-- What a caller sees of a compilation that has been fully consumed. -/
structure Outcome where
  edges : List (Edge String)
  statistics : CompileStatistics
  diagnostics : List ProjectionDiagnostic
  roleState : RoleState

/-- Run a traversal to its end; `none` when it raises. -/
def fullyConsume (g : ScalarM Unit) (c : Compilation) : Option Outcome :=
  match (g c).outcome with
  | .ok _ =>
    some ⟨(g c).values, (g c).state.statistics, (g c).state.diagnosticBag.freeze,
      (g c).state.roleState⟩
  | .error _ => none

/-- The traversal, with or without an earlier `prepare_role_state`. -/
def consumption (rolesFirst : Bool) : ScalarM Unit := do
  Gen.when rolesFirst prepareRoleState
  iterRawEdges

section Diagnostics

theorem Severity.text_inj {a b : Severity} (h : a.text = b.text) : a = b := by
  cases a <;> cases b <;> first | rfl | exact absurd h (by decide)

theorem DiagnosticBag.sortKey_inj {a b : DiagnosticKey}
    (h : DiagnosticBag.sortKey a = DiagnosticBag.sortKey b) : a = b := by
  simp only [DiagnosticBag.sortKey, toLex_inj, Prod.mk.injEq] at h
  obtain ⟨hcode, hmessage, hseverity, hconstructor⟩ := h
  cases a
  cases b
  simp only [DiagnosticKey.mk.injEq]
  exact ⟨utf8_inj hcode, utf8_inj hmessage, Severity.text_inj (utf8_inj hseverity),
    utf8_inj hconstructor⟩

/-- Frozen diagnostics depend on the counts only. -/
theorem DiagnosticBag.freeze_same {a b : DiagnosticBag} (h : Dict.Same a b) :
    a.freeze = b.freeze := by
  unfold DiagnosticBag.freeze
  congr 1
  apply sortOn_eq_of_perm _ h.items_perm
  intro x hx y hy hxy
  exact List.inj_on_of_nodup_map (Dict.items_keys_nodup a) hx hy (DiagnosticBag.sortKey_inj hxy)

end Diagnostics

section Settling

/-- Nothing is pending any more. -/
structure Settled (c : Compilation) : Prop where
  roles : c.rolesPrepared = true
  scanned : c.closureMetadataScanned = true

/-- The last two steps of a lazy traversal. -/
def settle : ScalarM Unit := do
  ensureRoles
  scanClosureMetadata

theorem settle_ends : Ends Settled settle := by
  intro c _ h
  have hroles : ((ensureRoles c).outcome = .ok () ∧ (ensureRoles c).state.rolesPrepared = true) ∨
      ∃ e, (ensureRoles c).outcome = .error e := by
    have hstep := ensureRoles_step c
    generalize ensureRoles c = t at hstep ⊢
    cases hstep with
    | idle hp => exact Or.inl ⟨rfl, hp⟩
    | run u _ _ => exact Or.inl ⟨rfl, rfl⟩
    | raises _ _ => exact Or.inr ⟨_, rfl⟩
  simp only [settle, Bind.bind, Gen.andThen] at h ⊢
  rcases hroles with ⟨hok, hp⟩ | ⟨e, he⟩
  · simp only [hok] at h ⊢
    generalize (ensureRoles c).state = d at h hp ⊢
    have hstep := scanClosureMetadata_step d
    generalize scanClosureMetadata d = t at h hstep ⊢
    cases hstep with
    | idle hs => exact ⟨hp, hs⟩
    | run _ _ => exact ⟨hp, rfl⟩
    | raises e _ _ _ => simp at h
  · simp [he] at h

theorem iterLazyRawEdges_ends (c : Compilation) : Ends Settled (iterLazyRawEdges c) := by
  unfold iterLazyRawEdges
  iterate 7 apply Ends.bind; intro _
  exact settle_ends

/-- The flags of a lazy compilation are raised only by work that succeeded. -/
structure Honest (view : OntologyView) (c : Compilation) : Prop where
  deferred : c.lazy = true
  viewEq : c.view = view
  roles : c.rolesPrepared = true → Hashable (fetchedRbox view)
  scanned : c.closureMetadataScanned = true → AllCore view.closure

theorem hashable_of_update {rbox : List Node} {roles : RoleState} {u : RoleUpdate}
    (h : roleUpdate? rbox roles = some u) : Hashable rbox := by
  by_contra hn
  simp [roleUpdate?, hashsetOrder_eq, hn] at h

theorem update_of_hashable {rbox : List Node} (h : Hashable rbox) (roles : RoleState) :
    ∃ u, roleUpdate? rbox roles = some u := by
  simp [roleUpdate?, hashsetOrder_eq, h]

theorem honest_stable (view : OntologyView) : Stable (Honest view) where
  count _ _ _ h := ⟨h.deferred, h.viewEq, h.roles, h.scanned⟩
  classes _ _ h := ⟨h.deferred, h.viewEq, h.roles, h.scanned⟩
  properties _ _ _ h := ⟨h.deferred, h.viewEq, h.roles, h.scanned⟩
  roles := by
    intro c h
    have hstep := ensureRoles_step c
    generalize ensureRoles c = t at hstep ⊢
    cases hstep with
    | idle _ => exact ⟨by simp, h⟩
    | run u _ hu =>
      rw [h.viewEq] at hu
      exact ⟨by simp, h.deferred, h.viewEq, fun _ => hashable_of_update hu, h.scanned⟩
    | raises _ _ => exact ⟨by simp, h⟩
  scan := by
    intro c h
    have hstep := scanClosureMetadata_step c
    generalize scanClosureMetadata c = t at hstep ⊢
    cases hstep with
    | idle _ => exact ⟨by simp, h⟩
    | run _ hc =>
      rw [h.viewEq] at hc
      exact ⟨by simp, h.deferred, h.viewEq, h.roles, fun _ => hc⟩
    | raises _ _ _ _ => exact ⟨by simp, h.deferred, h.viewEq, h.roles, h.scanned⟩

end Settling

/-- The eager categories are what the lazy traversal fetches. -/
structure SameCategories (e l : Compilation) : Prop where
  options : e.options = l.options
  subclasses : e.subclasses = closureAxioms l.view .subClassOf
  equivalents : e.equivalents = closureAxioms l.view .equivalentClasses
  annotations : e.annotations = rootAnnotations l.view
  classAssertions : e.classAssertions = closureAxioms l.view .classAssertion
  objectAssertions : e.objectAssertions = closureAxioms l.view .objectPropertyAssertion

section Traversal
variable {update : RoleUpdate} {fetched : Fetched}

theorem annotations_agree (axioms : List Node) :
    Agree (Mirrors update fetched) (Gen.each axioms annotationEdge)
      (do
        Gen.modify fun c => { c with classIris := classSignatureIris c.view }
        Gen.each axioms annotationEdge)
      (fun _ => Mirrors update fetched) := by
  have hloop : Agree (Mirrors update { fetched with classes := true })
      (Gen.each axioms annotationEdge) (Gen.each axioms annotationEdge)
      (fun _ => Mirrors update fetched) :=
    (Agree.each_same (fun a _ => annotationEdge_agrees rfl a)).mono (fun _ _ h => h)
      (fun _ _ _ h => h.forgetClasses)
  exact Agree.modify_right hloop (fun _ _ h => h.fetchClasses)

/-- The deferred work brings the lazy compilation level with the eager one. -/
theorem settle_agrees {g h : ScalarM Unit}
    (hg : Agree (Mirrors update fetched) g h (fun _ => Mirrors update fetched)) :
    Agree (Mirrors update fetched) g (do h; settle)
      (fun _ e l => Mirrors update fetched e l ∧ Settled l) := by
  apply Agree.then_silent hg
  intro _ e l hm
  have hroles : ∃ d, ensureRoles l = ⟨[], .ok (), d⟩ ∧ Mirrors update fetched e d ∧
      d.rolesPrepared = true := by
    cases hp : l.rolesPrepared with
    | true => exact ⟨l, ensureRoles_idle hp, hm, hp⟩
    | false =>
      exact ⟨l.withRoles update, ensureRoles_run hp (hm.rolesPending hp),
        (hm.withRoles hp).forgetRoles, rfl⟩
  obtain ⟨d, hd, hmd, hp⟩ := hroles
  cases hs : d.closureMetadataScanned with
  | true =>
    refine ⟨d, ?_, hmd, hp, hs⟩
    simp [settle, Bind.bind, Gen.andThen, hd, scanClosureMetadata_idle hs]
  | false =>
    refine ⟨d.scanned, ?_, hmd.scanned hs, hp, rfl⟩
    simp [settle, Bind.bind, Gen.andThen, hd, scanClosureMetadata_run hs hmd.core]

theorem traversal_agrees {e₀ l₀ : Compilation} (hcat : SameCategories e₀ l₀) :
    Agree (Mirrors update fetched) (iterEagerRawEdges e₀) (iterLazyRawEdges l₀)
      (fun _ e l => Mirrors update { fetched with properties := true } e l ∧ Settled l) := by
  unfold iterEagerRawEdges iterLazyRawEdges
  rw [hcat.options, hcat.subclasses, hcat.equivalents, hcat.annotations, hcat.classAssertions,
    hcat.objectAssertions]
  apply Agree.bind (Agree.each_same (fun a _ => subclassEdges_agrees _ a))
  intro _
  apply Agree.bind (Agree.each_same (fun a _ => equivalentEdges_agrees _ a))
  intro _
  apply Agree.bind (Agree.when (annotations_agree _))
  intro _
  apply Agree.bind (Agree.each_same (fun a _ => classAssertionEdge_agrees a))
  intro _
  apply Agree.bind (Agree.each_same (fun a _ => objectAssertionEdge_agrees a))
  intro _
  apply Agree.modify_right _ (fun _ _ h => h.fetchProperties)
  exact settle_agrees (domainRangeEdges_agrees rfl)

end Traversal

section Preparation

/-- The compilation that the eager scan prepares when nothing raises. -/
def eagerCompilation (view : OntologyView) (options : ProjectionOptions) (u : RoleUpdate) :
    Compilation where
  view := view
  options := options
  roleState := u.roleState
  subclasses := sortedCategory view.closure .subClassOf
  equivalents := sortedCategory view.closure .equivalentClasses
  annotations := canonicalSort (rootAnnotations view)
  classAssertions := sortedCategory view.closure .classAssertion
  objectAssertions := sortedCategory view.closure .objectPropertyAssertion
  domains := sortedCategory view.closure .objectPropertyDomain
  ranges := sortedCategory view.closure .objectPropertyRange
  classIris := classSignatureIris view
  blankIds := numberAnonymous (view.closure.flatMap Node.anonymousValues)
  statistics := ⟨(skippedKeys view.closure).length, u.ignored⟩
  diagnosticBag := addAll ∅ (skippedKeys view.closure)
  «lazy» := false
  rolesPrepared := true
  closureMetadataScanned := true

/-- What `prepare_compilation` returns, and when. -/
theorem prepareCompilation_toOption (view : OntologyView) (options : ProjectionOptions)
    (start : RoleState) :
    (prepareCompilation view options start).toOption =
      if AllCore view.closure then
        (roleUpdate? (scannedRbox view.closure) start).map (eagerCompilation view options)
      else none := by
  unfold prepareCompilation
  by_cases hcore : AllCore view.closure
  · simp only [foldlM_scanAxiom hcore, Bind.bind, Except.bind, hcore, if_true, updateRoleState_eq,
      Nat.zero_add]
    cases roleUpdate? (scannedRbox view.closure) start with
    | none => rfl
    | some u => rfl
  · obtain ⟨e, he⟩ := foldlM_scanAxiom_foreign hcore ⟨0, ∅⟩
    simp only [he, Bind.bind, Except.bind, hcore, if_false]
    rfl

theorem sortedCategory_of_perm {xs ys : List Node} (h : xs.Perm ys) (c : Constructor) :
    sortedCategory xs c = sortedCategory ys c :=
  canonicalSort_of_perm (h.filter _)

theorem skippedKeys_of_perm {xs ys : List Node} (h : xs.Perm ys) :
    (skippedKeys xs).Perm (skippedKeys ys) := h.filterMap _

/-- Blank ids depend on the set of anonymous individuals only. -/
theorem numberAnonymous_of_perm {xs ys : List Node} (h : xs.Perm ys) :
    numberAnonymous xs = numberAnonymous ys := by
  have hdistinct : xs.eraseDups.Perm ys.eraseDups := by
    rw [List.perm_ext_iff_of_nodup (nodup_eraseDups xs) (nodup_eraseDups ys)]
    intro n
    simp [h.mem_iff]
  unfold numberAnonymous
  rw [canonicalSort_of_perm hdistinct]

/-- Two views of the same ontology: equal up to the order of what they iterate. -/
structure SameOntology (v w : OntologyView) : Prop where
  closure : v.closure.Perm w.closure
  rootAnnotations : (v.rootOf .annotationAssertion).Perm (w.rootOf .annotationAssertion)
  classSignature : v.classSignature.Perm w.classSignature

variable {view lview : OntologyView} {options : ProjectionOptions} {start : RoleState}

theorem allCore_of_perm {xs ys : List Node} (h : xs.Perm ys) : AllCore xs ↔ AllCore ys := by
  simp only [AllCore, h.mem_iff]

theorem scannedRbox_perm {xs ys : List Node} (h : xs.Perm ys) :
    (scannedRbox xs).Perm (scannedRbox ys) := h.filter _

/-- A lazy compilation starts as the mirror of the eager one. -/
theorem mirrors_start (options : ProjectionOptions) (hcanon : CanonicalByType lview)
    (hsame : SameOntology lview view) (hcore : AllCore view.closure) {u : RoleUpdate}
    (hu : roleUpdate? (scannedRbox view.closure) start = some u) :
    Mirrors u .nothing (eagerCompilation view options u)
      (prepareStreamingCompilation lview options start) where
  eager := rfl
  prepared := rfl
  deferred := rfl
  core := (allCore_of_perm hsame.closure).mpr hcore
  roles := rfl
  rolesDone h := by simp [prepareStreamingCompilation] at h
  rolesPending _ := by
    have hperm := hcanon.fetchedRbox_perm.trans (scannedRbox_perm hsame.closure)
    exact (roleUpdate_of_perm hperm start).trans hu
  ignored := by simp [eagerCompilation, prepareStreamingCompilation, pendingIgnored]
  skipped := by
    have hlen := (skippedKeys_of_perm hsame.closure).length_eq
    simp [eagerCompilation, prepareStreamingCompilation, pendingKeys, hlen]
  bag := by
    have hbag := addAll_of_perm (skippedKeys_of_perm hsame.closure) ∅
    simpa [eagerCompilation, prepareStreamingCompilation, pendingKeys] using hbag.symm
  blankIds := (numberAnonymous_of_perm (hsame.closure.flatMap_right _)).symm
  blankDone h := by simp [prepareStreamingCompilation] at h
  signature s := by
    have hperm : (classSignatureIris lview).Perm (classSignatureIris view) :=
      (hsame.classSignature.filter _).map _
    rw [Bool.eq_iff_iff, List.contains_iff_mem, List.contains_iff_mem]
    exact hperm.mem_iff
  domainAxioms := (hcanon.closureAxioms_eq _).trans (sortedCategory_of_perm hsame.closure _)
  rangeAxioms := (hcanon.closureAxioms_eq _).trans (sortedCategory_of_perm hsame.closure _)
  fetchedRoles h := by simp [Fetched.nothing] at h
  classes h := by simp [Fetched.nothing] at h
  domains h := by simp [Fetched.nothing] at h
  ranges h := by simp [Fetched.nothing] at h

theorem sameCategories_start (options : ProjectionOptions) (start : RoleState)
    (hcanon : CanonicalByType lview) (hsame : SameOntology lview view) (u : RoleUpdate) :
    SameCategories (eagerCompilation view options u)
      (prepareStreamingCompilation lview options start) where
  options := rfl
  subclasses := (sortedCategory_of_perm hsame.closure.symm _).trans (hcanon.closureAxioms_eq _).symm
  equivalents := (sortedCategory_of_perm hsame.closure.symm _).trans (hcanon.closureAxioms_eq _).symm
  annotations :=
    (canonicalSort_of_perm (hsame.rootAnnotations.symm.filter _)).trans
      hcanon.rootAnnotations_sorted
  classAssertions :=
    (sortedCategory_of_perm hsame.closure.symm _).trans (hcanon.closureAxioms_eq _).symm
  objectAssertions :=
    (sortedCategory_of_perm hsame.closure.symm _).trans (hcanon.closureAxioms_eq _).symm

end Preparation

section Agreement

theorem fullyConsume_after {g h : ScalarM Unit} {c d : Compilation} (hg : g c = ⟨[], .ok (), d⟩) :
    fullyConsume (do g; h) c = fullyConsume h d := by
  simp [fullyConsume, Bind.bind, Gen.andThen, hg, Trace.values]

theorem iterRawEdges_lazy {c : Compilation} (h : c.lazy = true) :
    iterRawEdges c = iterLazyRawEdges c c := by
  simp [iterRawEdges, Bind.bind, Gen.andThen, Gen.gets, h]

theorem iterRawEdges_eager {c : Compilation} (h : c.lazy = false) :
    iterRawEdges c = iterEagerRawEdges c c := by
  simp [iterRawEdges, Bind.bind, Gen.andThen, Gen.gets, h]

theorem values_mirrors {u : RoleUpdate} {e l : Compilation} {fetched : Fetched}
    (hm : Mirrors u fetched e l) (hcat : SameCategories e l) :
    (iterRawEdges l).values = (iterRawEdges e).values := by
  rw [iterRawEdges_lazy hm.deferred, iterRawEdges_eager hm.eager]
  exact (traversal_agrees hcat e l hm).1.symm

/-- Mirrored compilations have the same outcome. -/
theorem fullyConsume_mirrors {u : RoleUpdate} {e l : Compilation} {fetched : Fetched}
    (hm : Mirrors u fetched e l) (hcat : SameCategories e l) :
    fullyConsume iterRawEdges l = fullyConsume iterRawEdges e := by
  obtain ⟨hvalues, hend⟩ := traversal_agrees hcat e l hm
  unfold fullyConsume
  rw [iterRawEdges_lazy hm.deferred, iterRawEdges_eager hm.eager]
  rcases hend with ⟨_, he, hl, hm', hs⟩ | ⟨_, he, hl⟩
  · have hignored := hm'.ignored
    have hskipped := hm'.skipped
    have hbag := hm'.bag
    simp only [pendingIgnored, pendingKeys, hs.roles, hs.scanned, if_true, Nat.add_zero,
      List.length_nil, addAll, List.foldl_nil] at hignored hskipped hbag
    simp only [he, hl, hvalues, Option.some.injEq, Outcome.mk.injEq, true_and]
    refine ⟨?_, (DiagnosticBag.freeze_same hbag).symm, ?_⟩
    · cases hst : (iterLazyRawEdges l l).state.statistics
      cases hst' : (iterEagerRawEdges e e).state.statistics
      simp only [hst, hst'] at hignored hskipped
      rw [hignored, hskipped]
    · exact (hm'.rolesDone hs.roles).trans hm'.roles.symm
  · simp only [he, hl]

/-- A lazy compilation that can be consumed at all had nothing to reject. -/
theorem lazy_consumption_sound {view : OntologyView} {options : ProjectionOptions}
    {start : RoleState} {rolesFirst : Bool} {o : Outcome}
    (h : fullyConsume (consumption rolesFirst)
      (prepareStreamingCompilation view options start) = some o) :
    Hashable (fetchedRbox view) ∧ AllCore view.closure := by
  have hstart : Honest view (prepareStreamingCompilation view options start) :=
    ⟨rfl, rfl, fun h => by simp [prepareStreamingCompilation] at h,
      fun h => by simp [prepareStreamingCompilation] at h⟩
  generalize prepareStreamingCompilation view options start = c at h hstart
  have hfirst : Preserves (Honest view) (Gen.when rolesFirst prepareRoleState) :=
    Preserves.when (honest_stable view).roles
  obtain ⟨-, hd⟩ := hfirst c hstart
  unfold fullyConsume consumption at h
  simp only [Bind.bind, Gen.andThen] at h
  cases ho : (Gen.when rolesFirst prepareRoleState c).outcome with
  | error e => simp [ho] at h
  | ok a =>
    simp only [ho] at h
    generalize (Gen.when rolesFirst prepareRoleState c).state = d at h hd
    rw [iterRawEdges_lazy hd.deferred] at h
    obtain ⟨-, hend⟩ := (honest_stable view).iterLazyRawEdges d d hd
    cases hl : (iterLazyRawEdges d d).outcome with
    | error e => simp [hl] at h
    | ok b =>
      have hs := iterLazyRawEdges_ends d d b hl
      exact ⟨hend.roles hs.roles, hend.scanned hs.scanned⟩

/-- A lazy compilation over one enumeration of an ontology has the outcome of an
eager one over any other. -/
theorem lazy_outcome {view lview : OntologyView} (hcanon : CanonicalByType lview)
    (hsame : SameOntology lview view) (options : ProjectionOptions) (start : RoleState)
    (rolesFirst : Bool) :
    fullyConsume (consumption rolesFirst) (prepareStreamingCompilation lview options start) =
      (prepareCompilation view options start).toOption.bind
        (fullyConsume (consumption rolesFirst)) := by
  have hrbox := hcanon.fetchedRbox_perm.trans (scannedRbox_perm hsame.closure)
  rw [prepareCompilation_toOption]
  by_cases hcore : AllCore view.closure
  · cases hu : roleUpdate? (scannedRbox view.closure) start with
    | some u =>
      simp only [hcore, if_true, Option.map_some, Option.bind_some]
      have hm := mirrors_start options hcanon hsame hcore hu
      have hcat := sameCategories_start options start hcanon hsame u
      cases rolesFirst with
      | false =>
        have hskip : ∀ c : Compilation, Gen.when false prepareRoleState c = ⟨[], .ok (), c⟩ :=
          fun c => rfl
        rw [consumption, fullyConsume_after (hskip _), fullyConsume_after (hskip _)]
        exact fullyConsume_mirrors hm hcat
      | true =>
        have hl := ensureRoles_run (c := prepareStreamingCompilation lview options start) rfl
          (hm.rolesPending rfl)
        have he := ensureRoles_idle (c := eagerCompilation view options u) rfl
        have hcat' : SameCategories (eagerCompilation view options u)
            ((prepareStreamingCompilation lview options start).withRoles u) :=
          { hcat with }
        rw [consumption]
        rw [fullyConsume_after (g := Gen.when true prepareRoleState) hl,
          fullyConsume_after (g := Gen.when true prepareRoleState) he]
        exact fullyConsume_mirrors (hm.withRoles rfl) hcat'
    | none =>
      simp only [Option.map_none, ite_self, Option.bind_none]
      by_contra hne
      obtain ⟨o, ho⟩ := Option.ne_none_iff_exists'.mp hne
      obtain ⟨v, hv⟩ := update_of_hashable (lazy_consumption_sound ho).1 start
      rw [roleUpdate_of_perm hrbox] at hv
      simp [hu] at hv
  · simp only [hcore, if_false, Option.bind_none]
    by_contra hne
    obtain ⟨o, ho⟩ := Option.ne_none_iff_exists'.mp hne
    exact hcore ((allCore_of_perm hsame.closure).mp (lazy_consumption_sound ho).2)

/-- The enumeration of a view in canonical order throughout. -/
def canonicalView (view : OntologyView) : OntologyView where
  closure := canonicalSort view.closure
  closureOf c := sortedCategory view.closure c
  rootOf c := canonicalSort (view.rootOf c)
  classSignature := view.classSignature

theorem canonicalView_canonical (view : OntologyView) : CanonicalByType (canonicalView view) where
  closurePerm c := by
    have hsort := sortOn_perm Node.canonicalBytes (view.closure.filter (·.isOf c))
    have hall := sortOn_perm Node.canonicalBytes view.closure
    exact hsort.trans (hall.filter _).symm
  closureSorted c := sortOn_sorted _ _
  rootSorted := sortOn_sorted _ _

theorem canonicalView_same (view : OntologyView) : SameOntology (canonicalView view) view where
  closure := sortOn_perm _ _
  rootAnnotations := sortOn_perm _ _
  classSignature := List.Perm.refl _

theorem SameOntology.trans {u v w : OntologyView} (h : SameOntology u v) (h' : SameOntology v w) :
    SameOntology u w :=
  ⟨h.closure.trans h'.closure, h.rootAnnotations.trans h'.rootAnnotations,
    h.classSignature.trans h'.classSignature⟩

/-- What `prepare_compilation` leads to: its blank ids and role maps, the edges of its
traversal, and the outcome when the traversal does not raise. -/
structure EagerResult where
  blankIds : Dict Node String
  roleState : RoleState
  edges : List (Edge String)
  outcome : Option Outcome

def eagerResult (view : OntologyView) (options : ProjectionOptions) (start : RoleState) :
    Option EagerResult :=
  (prepareCompilation view options start).toOption.map fun c =>
    ⟨c.blankIds, c.roleState, (iterRawEdges c).values, fullyConsume iterRawEdges c⟩

theorem eagerResult_of_same {view view' : OntologyView} (hsame : SameOntology view view')
    (options : ProjectionOptions) (start : RoleState) :
    eagerResult view options start = eagerResult view' options start := by
  have hids := numberAnonymous_of_perm (hsame.closure.flatMap_right Node.anonymousValues)
  have hupdate := roleUpdate_of_perm (scannedRbox_perm hsame.closure) start
  unfold eagerResult
  rw [prepareCompilation_toOption, prepareCompilation_toOption, hupdate]
  by_cases hcore : AllCore view'.closure
  · have hcore' := (allCore_of_perm hsame.closure).mpr hcore
    simp only [hcore, hcore', if_true]
    cases hu : roleUpdate? (scannedRbox view'.closure) start with
    | none => rfl
    | some u =>
      -- Both are mirrors of the lazy compilation over one canonical enumeration.
      have hcanon := canonicalView_canonical view
      have hview := canonicalView_same view
      have hm := mirrors_start options hcanon hview hcore' (hupdate.trans hu)
      have hm' := mirrors_start options hcanon (hview.trans hsame) hcore hu
      have hcat := sameCategories_start options start hcanon hview u
      have hcat' :=
        sameCategories_start options start hcanon (hview.trans hsame) u
      simp only [Option.map_some, Option.some.injEq, EagerResult.mk.injEq]
      exact ⟨hids, rfl, (values_mirrors hm hcat).symm.trans (values_mirrors hm' hcat'),
        (fullyConsume_mirrors hm hcat).symm.trans (fullyConsume_mirrors hm' hcat')⟩
  · have hcore' : ¬AllCore view.closure := fun h => hcore ((allCore_of_perm hsame.closure).mp h)
    simp [hcore, hcore']

end Agreement

/-- Lazy and eager compilation agree on a view that iterates each type in canonical
order, and eager compilation does not see the order of the axioms at all. -/
theorem scalar_compilations_agree (options : ProjectionOptions) (start : RoleState) :
    (∀ view, CanonicalByType view → ∀ rolesFirst,
      fullyConsume (consumption rolesFirst) (prepareStreamingCompilation view options start) =
        (prepareCompilation view options start).toOption.bind
          (fullyConsume (consumption rolesFirst))) ∧
    ∀ view view', SameOntology view view' →
      eagerResult view options start = eagerResult view' options start := by
  constructor
  · intro view hcanon rolesFirst
    have hself : SameOntology view view :=
      ⟨List.Perm.refl _, List.Perm.refl _, List.Perm.refl _⟩
    exact lazy_outcome hcanon hself options start rolesFirst
  · intro view view' hsame
    exact eagerResult_of_same hsame options start

section Sample

/-- `A ⊑ ∃r.B`, `s ⊑ r`, and an individual without a name of type `A`. -/
def sampleAxioms : List Node :=
  [.mk .subObjectPropertyOf
    [.node (objectProperty "x:s"), .node (objectProperty "x:r"), .set []],
   .mk .classAssertion
    [.node (owlClass "x:A"), .node (anonymousIndividual [1] [98]), .set []],
   .mk .subClassOf
    [.node (owlClass "x:A"),
     .node (.mk .objectSomeValuesFrom
      [.node (objectProperty "x:r"), .node (owlClass "x:B")]),
     .set []]]

def sampleView (axioms : List Node) : OntologyView where
  closure := axioms
  closureOf c := axioms.filter (·.isOf c)
  rootOf c := axioms.filter (·.isOf c)
  classSignature := [owlClass "x:A", owlClass "x:B"]

def sampleOptions : ProjectionOptions := ⟨false, false, true, .isolated⟩

theorem scalar_compilations_agree_sample :
    fullyConsume (consumption true) (prepareStreamingCompilation
        (canonicalView (sampleView sampleAxioms)) sampleOptions .empty) =
      (prepareCompilation (canonicalView (sampleView sampleAxioms)) sampleOptions
        .empty).toOption.bind (fullyConsume (consumption true)) ∧
    eagerResult (sampleView sampleAxioms) sampleOptions .empty =
      eagerResult (sampleView sampleAxioms.reverse) sampleOptions .empty ∧
    (eagerResult (sampleView sampleAxioms) sampleOptions .empty).map EagerResult.edges =
      some [⟨"x:A", "x:r", "x:B"⟩, ⟨"x:A", "x:s", "x:B"⟩] := by
  have hagree := scalar_compilations_agree sampleOptions .empty
  refine ⟨hagree.1 _ (canonicalView_canonical _) true, hagree.2 _ _ ?_, by decide +kernel⟩
  have hperm : sampleAxioms.Perm sampleAxioms.reverse := (List.reverse_perm _).symm
  have hroot := hperm.filter (fun a => a.isOf .annotationAssertion)
  exact ⟨hperm, hroot, List.Perm.refl _⟩

end Sample

end Projector.Compiler
