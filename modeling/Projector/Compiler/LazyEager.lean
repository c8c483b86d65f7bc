import Projector.Compiler.ScanProofs

namespace Projector.Compiler
open Lib Projector.Core

/-- What a lazy compilation has not counted yet. -/
def pendingIgnored (update : RoleUpdate) (c : Compilation) : Nat :=
  if c.rolesPrepared then 0 else update.ignored

def pendingKeys (c : Compilation) : List DiagnosticKey :=
  if c.closureMetadataScanned then [] else skippedKeys c.view.closure

/-- What a lazy compilation has certainly fetched at a point of its traversal. -/
structure Fetched where
  roles : Bool
  classes : Bool
  properties : Bool

def Fetched.nothing : Fetched := ⟨false, false, false⟩

/-- The eager compilation is the lazy one with its deferred work done. -/
structure Mirrors (update : RoleUpdate) (fetched : Fetched) (e l : Compilation) : Prop where
  eager : e.lazy = false
  prepared : e.rolesPrepared = true
  deferred : l.lazy = true
  core : AllCore l.view.closure
  roles : e.roleState = update.roleState
  rolesDone : l.rolesPrepared = true → l.roleState = update.roleState
  rolesPending : l.rolesPrepared = false → roleUpdate? (fetchedRbox l.view) l.roleState = some update
  ignored : e.statistics.ignoredShapes = l.statistics.ignoredShapes + pendingIgnored update l
  skipped : e.statistics.skippedAxioms = l.statistics.skippedAxioms + (pendingKeys l).length
  bag : Dict.Same e.diagnosticBag (addAll l.diagnosticBag (pendingKeys l))
  blankIds : e.blankIds = numberAnonymous (l.view.closure.flatMap Node.anonymousValues)
  blankDone : l.closureMetadataScanned = true → l.blankIds = e.blankIds
  signature : ∀ s, (classSignatureIris l.view).contains s = e.classIris.contains s
  domainAxioms : closureAxioms l.view .objectPropertyDomain = e.domains
  rangeAxioms : closureAxioms l.view .objectPropertyRange = e.ranges
  fetchedRoles : fetched.roles = true → l.rolesPrepared = true
  classes : fetched.classes = true → ∀ s, l.classIris.contains s = e.classIris.contains s
  domains : fetched.properties = true → l.domains = e.domains
  ranges : fetched.properties = true → l.ranges = e.ranges

namespace Mirrors
variable {update : RoleUpdate} {fetched : Fetched} {e l : Compilation}

theorem withRoles (h : Mirrors update fetched e l) (hp : l.rolesPrepared = false) :
    Mirrors update { fetched with roles := true } e (l.withRoles update) where
  eager := h.eager
  prepared := h.prepared
  deferred := h.deferred
  core := h.core
  roles := h.roles
  rolesDone _ := rfl
  rolesPending hd := by simp [Compilation.withRoles] at hd
  ignored := by
    have hi := h.ignored
    simp only [pendingIgnored, hp] at hi
    simpa [Compilation.withRoles, pendingIgnored] using hi
  skipped := h.skipped
  bag := h.bag
  blankIds := h.blankIds
  blankDone := h.blankDone
  signature := h.signature
  domainAxioms := h.domainAxioms
  rangeAxioms := h.rangeAxioms
  fetchedRoles _ := rfl
  classes := h.classes
  domains := h.domains
  ranges := h.ranges

theorem scanned (h : Mirrors update fetched e l) (hs : l.closureMetadataScanned = false) :
    Mirrors update fetched e l.scanned where
  eager := h.eager
  prepared := h.prepared
  deferred := h.deferred
  core := h.core
  roles := h.roles
  rolesDone := h.rolesDone
  rolesPending := h.rolesPending
  ignored := h.ignored
  skipped := by
    have hk := h.skipped
    simp only [pendingKeys, hs] at hk
    simpa [Compilation.scanned, Compilation.counted, pendingKeys] using hk
  bag := by
    have hb := h.bag
    simp only [pendingKeys, hs] at hb
    simpa [Compilation.scanned, Compilation.counted, pendingKeys, addAll] using hb
  blankIds := h.blankIds
  blankDone _ := h.blankIds.symm
  signature := h.signature
  domainAxioms := h.domainAxioms
  rangeAxioms := h.rangeAxioms
  fetchedRoles := h.fetchedRoles
  classes := h.classes
  domains := h.domains
  ranges := h.ranges

theorem knowRoles (h : Mirrors update fetched e l) (hp : l.rolesPrepared = true) :
    Mirrors update { fetched with roles := true } e l :=
  { h with fetchedRoles := fun _ => hp }

theorem forgetRoles (h : Mirrors update { fetched with roles := true } e l) :
    Mirrors update fetched e l :=
  { h with fetchedRoles := fun _ => h.fetchedRoles rfl }

/-- Fetching the class signature, as the annotation stage does first. -/
theorem fetchClasses (h : Mirrors update fetched e l) :
    Mirrors update { fetched with classes := true } e
      { l with classIris := classSignatureIris l.view } where
  eager := h.eager
  prepared := h.prepared
  deferred := h.deferred
  core := h.core
  roles := h.roles
  rolesDone := h.rolesDone
  rolesPending := h.rolesPending
  ignored := h.ignored
  skipped := h.skipped
  bag := h.bag
  blankIds := h.blankIds
  blankDone := h.blankDone
  signature := h.signature
  domainAxioms := h.domainAxioms
  rangeAxioms := h.rangeAxioms
  fetchedRoles := h.fetchedRoles
  classes _ := h.signature
  domains := h.domains
  ranges := h.ranges

theorem forgetClasses (h : Mirrors update { fetched with classes := true } e l) :
    Mirrors update fetched e l :=
  { h with classes := fun _ => h.classes rfl }

theorem fetchProperties (h : Mirrors update fetched e l) :
    Mirrors update { fetched with properties := true } e
      { l with
        domains := closureAxioms l.view .objectPropertyDomain
        ranges := closureAxioms l.view .objectPropertyRange } where
  eager := h.eager
  prepared := h.prepared
  deferred := h.deferred
  core := h.core
  roles := h.roles
  rolesDone := h.rolesDone
  rolesPending := h.rolesPending
  ignored := h.ignored
  skipped := h.skipped
  bag := h.bag
  blankIds := h.blankIds
  blankDone := h.blankDone
  signature := h.signature
  domainAxioms := h.domainAxioms
  rangeAxioms := h.rangeAxioms
  fetchedRoles := h.fetchedRoles
  classes := h.classes
  domains _ := h.domainAxioms
  ranges _ := h.rangeAxioms

theorem sameRoles (h : Mirrors update fetched e l) (hr : fetched.roles = true) :
    e.roleState = l.roleState :=
  h.roles.trans (h.rolesDone (h.fetchedRoles hr)).symm

/-- Counting the same diagnostic on both sides. -/
theorem diagnose (h : Mirrors update fetched e l) (key : DiagnosticKey) :
    Mirrors update fetched { e with diagnosticBag := e.diagnosticBag.increment key }
      { l with diagnosticBag := l.diagnosticBag.increment key } where
  eager := h.eager
  prepared := h.prepared
  deferred := h.deferred
  core := h.core
  roles := h.roles
  rolesDone := h.rolesDone
  rolesPending := h.rolesPending
  ignored := h.ignored
  skipped := h.skipped
  bag := (h.bag.increment key).trans (addAll_increment l.diagnosticBag key (pendingKeys l)).symm
  blankIds := h.blankIds
  blankDone := h.blankDone
  signature := h.signature
  domainAxioms := h.domainAxioms
  rangeAxioms := h.rangeAxioms
  fetchedRoles := h.fetchedRoles
  classes := h.classes
  domains := h.domains
  ranges := h.ranges

theorem countIgnored (h : Mirrors update fetched e l) :
    Mirrors update fetched { e with statistics := e.statistics.ignore }
      { l with statistics := l.statistics.ignore } where
  eager := h.eager
  prepared := h.prepared
  deferred := h.deferred
  core := h.core
  roles := h.roles
  rolesDone := h.rolesDone
  rolesPending := h.rolesPending
  ignored := by
    have hi := h.ignored
    simp only [CompileStatistics.ignore, pendingIgnored] at hi ⊢
    omega
  skipped := h.skipped
  bag := h.bag
  blankIds := h.blankIds
  blankDone := h.blankDone
  signature := h.signature
  domainAxioms := h.domainAxioms
  rangeAxioms := h.rangeAxioms
  fetchedRoles := h.fetchedRoles
  classes := h.classes
  domains := h.domains
  ranges := h.ranges

end Mirrors

section Steps
variable {update : RoleUpdate} {fetched : Fetched}

theorem ignore_agrees (value : Node) :
    Agree (Mirrors update fetched) (ignore value) (ignore value)
      (fun _ => Mirrors update fetched) := by
  apply Agree.modify
  intro e l h
  exact h.countIgnored.diagnose (ignoredShape (typeName value))

/-- After `_ensure_roles` both sides read the same role maps. -/
theorem ensureRoles_agrees :
    Agree (Mirrors update fetched) ensureRoles ensureRoles
      (fun _ => Mirrors update { fetched with roles := true }) := by
  apply Agree.silent
  intro e l h
  cases hp : l.rolesPrepared with
  | true =>
    exact ⟨(), e, l, ensureRoles_idle h.prepared, ensureRoles_idle hp, h.knowRoles hp⟩
  | false =>
    exact ⟨(), e, l.withRoles update, ensureRoles_idle h.prepared,
      ensureRoles_run hp (h.rolesPending hp), h.withRoles hp⟩

theorem individualId_agrees (value : Node) :
    Agree (Mirrors update fetched) (individualId value) (individualId value)
      (fun _ => Mirrors update fetched) := by
  unfold individualId
  apply Agree.ite
  · intro _
    exact Agree.ret (fun _ _ h => h)
  · intro _
    apply Agree.silent
    intro e l h
    have heager : (do
        let c ← Gen.gets id
        Gen.when (c.lazy && !c.closureMetadataScanned) scanClosureMetadata
        Gen.gets fun c => c.blankIds.getOr value (coreBlankId value) : ScalarM String) e =
        ⟨[], .ok (e.blankIds.getOr value (coreBlankId value)), e⟩ := by
      simp [Bind.bind, Gen.andThen, Gen.gets, Gen.when, h.eager, pure, Gen.ret]
    cases hs : l.closureMetadataScanned with
    | true =>
      refine ⟨_, e, l, heager, ?_, h⟩
      simp [Bind.bind, Gen.andThen, Gen.gets, Gen.when, hs, pure, Gen.ret, h.blankDone hs]
    | false =>
      refine ⟨_, e, l.scanned, heager, ?_, h.scanned hs⟩
      have hids := (h.scanned hs).blankDone rfl
      simp [Bind.bind, Gen.andThen, Gen.gets, Gen.when, hs, h.deferred,
        scanClosureMetadata_run hs h.core, hids]

theorem restrictionEdges_agrees (subject : String) (expression : Node) :
    Agree (Mirrors update fetched) (restrictionEdges subject expression)
      (restrictionEdges subject expression) (fun _ => Mirrors update fetched) := by
  unfold restrictionEdges
  split
  · exact Agree.ret (fun _ _ h => h)
  · apply Agree.bind ensureRoles_agrees
    intro _
    apply Agree.gets
    · intro e l h
      rw [h.sameRoles rfl]
    · intro e l h
      exact h.forgetRoles

theorem restrictionOrIgnore_agrees (owner : Node) (subject : String) (expression : Node) :
    Agree (Mirrors update fetched) (restrictionOrIgnore owner subject expression)
      (restrictionOrIgnore owner subject expression) (fun _ => Mirrors update fetched) := by
  apply Agree.bind (restrictionEdges_agrees subject expression)
  intro edges
  apply Agree.bind (M := fun _ => Mirrors update fetched) (Agree.emitAll (fun _ _ h => h))
  intro _
  exact Agree.when (ignore_agrees owner)

theorem subclassEdges_agrees (options : ProjectionOptions) (axiomNode : Node) :
    Agree (Mirrors update fetched) (subclassEdges options axiomNode)
      (subclassEdges options axiomNode) (fun _ => Mirrors update fetched) := by
  unfold subclassEdges
  apply Agree.ite
  · intro _
    exact Agree.emitAll (fun _ _ h => h)
  intro _
  apply Agree.ite
  · intro _
    exact ignore_agrees axiomNode
  intro _
  apply Agree.ite
  · intro _
    exact restrictionOrIgnore_agrees axiomNode _ _
  intro _
  apply Agree.ite
  · intro _
    exact restrictionOrIgnore_agrees axiomNode _ _
  · intro _
    exact ignore_agrees axiomNode

theorem operandEdges_agrees (options : ProjectionOptions) (axiomNode : Node) (first : String)
    (operand : Node) :
    Agree (Mirrors update fetched) (operandEdges options axiomNode first operand)
      (operandEdges options axiomNode first operand) (fun _ => Mirrors update fetched) := by
  unfold operandEdges
  apply Agree.ite
  · intro _
    exact Agree.emitAll (fun _ _ h => h)
  intro _
  apply Agree.ite
  · intro _
    exact Agree.ret (fun _ _ h => h)
  · intro _
    exact restrictionOrIgnore_agrees axiomNode _ _

theorem equivalentEdges_agrees (options : ProjectionOptions) (axiomNode : Node) :
    Agree (Mirrors update fetched) (equivalentEdges options axiomNode)
      (equivalentEdges options axiomNode) (fun _ => Mirrors update fetched) := by
  unfold equivalentEdges
  split
  · apply Agree.ite
    · intro _
      apply Agree.ite
      · intro _
        exact Agree.emitAll (fun _ _ h => h)
      · intro _
        exact ignore_agrees axiomNode
    intro _
    apply Agree.ite
    · intro _
      exact Agree.each_same (fun operand _ => operandEdges_agrees options axiomNode _ operand)
    · intro _
      exact ignore_agrees axiomNode
  · exact ignore_agrees axiomNode

theorem annotationValue_agrees (value : Node) :
    Agree (Mirrors update fetched) (annotationValue value) (annotationValue value)
      (fun _ => Mirrors update fetched) := by
  unfold annotationValue
  split
  · exact Agree.ret (fun _ _ h => h)
  · exact individualId_agrees value
  · apply Agree.ite
    · intro _
      exact Agree.ret (fun _ _ h => h)
    · intro _
      apply Agree.bind (M := fun _ => Mirrors update fetched)
      · apply Agree.modify
        intro e l h
        exact h.diagnose nonStringLiteral
      · intro _
        exact Agree.ret (fun _ _ h => h)

/-- Annotations look at the class signature, so it has to be known here. -/
theorem annotationEdge_agrees (hc : fetched.classes = true) (axiomNode : Node) :
    Agree (Mirrors update fetched) (annotationEdge axiomNode) (annotationEdge axiomNode)
      (fun _ => Mirrors update fetched) := by
  unfold annotationEdge
  apply Agree.bind (M := fun _ => Mirrors update fetched)
  · apply Agree.gets
    · intro e l h
      exact (h.classes hc _).symm
    · intro e l h
      exact h
  intro isKnown
  apply Agree.ite
  · intro _
    exact ignore_agrees axiomNode
  intro _
  apply Agree.ite
  · intro _
    exact ignore_agrees axiomNode
  intro _
  apply Agree.bind (annotationValue_agrees _)
  intro destination
  exact Agree.emit (fun _ _ h => h)

theorem classAssertionEdge_agrees (axiomNode : Node) :
    Agree (Mirrors update fetched) (classAssertionEdge axiomNode) (classAssertionEdge axiomNode)
      (fun _ => Mirrors update fetched) := by
  unfold classAssertionEdge
  apply Agree.ite
  · intro _
    exact Agree.emit (fun _ _ h => h)
  · intro _
    exact ignore_agrees axiomNode

theorem objectAssertionEdge_agrees (axiomNode : Node) :
    Agree (Mirrors update fetched) (objectAssertionEdge axiomNode) (objectAssertionEdge axiomNode)
      (fun _ => Mirrors update fetched) := by
  unfold objectAssertionEdge
  apply Agree.ite
  · intro _
    exact Agree.raise
  intro _
  apply Agree.ite
  · intro _
    exact ignore_agrees axiomNode
  intro _
  apply Agree.bind (individualId_agrees _)
  intro source
  apply Agree.bind (individualId_agrees _)
  intro target
  exact Agree.emit (fun _ _ h => h)

theorem indexAxioms_agrees (axioms : List Node) (index : ClassIndex) :
    Agree (Mirrors update fetched) (indexAxioms axioms index) (indexAxioms axioms index)
      (fun _ => Mirrors update fetched) := by
  induction axioms generalizing index with
  | nil => exact Agree.ret (fun _ _ h => h)
  | cons a rest ih =>
    apply Agree.bind (M := fun _ => Mirrors update fetched)
    · unfold indexAxiom
      split
      · exact Agree.ret (fun _ _ h => h)
      · apply Agree.bind (ignore_agrees a)
        intro _
        exact Agree.ret (fun _ _ h => h)
    · intro index
      exact ih index

theorem domainRangeEdges_agrees (hp : fetched.properties = true) :
    Agree (Mirrors update fetched) domainRangeEdges domainRangeEdges
      (fun _ => Mirrors update fetched) := by
  unfold domainRangeEdges
  apply Agree.bind ensureRoles_agrees
  intro _
  apply Agree.bind (M := fun _ => Mirrors update { fetched with roles := true })
    (Agree.gets (fun e l h => (h.domains hp).symm) (fun _ _ h => h))
  intro domainAxioms
  apply Agree.bind (indexAxioms_agrees domainAxioms ∅)
  intro domains
  apply Agree.bind (M := fun _ => Mirrors update { fetched with roles := true })
    (Agree.gets (fun e l h => (h.ranges hp).symm) (fun _ _ h => h))
  intro rangeAxioms
  apply Agree.bind (indexAxioms_agrees rangeAxioms ∅)
  intro ranges
  apply Agree.bind (M := fun _ => Mirrors update { fetched with roles := true })
    (Agree.gets (fun e l h => h.sameRoles rfl) (fun _ _ h => h))
  intro roleState
  exact Agree.emitAll (fun _ _ h => h.forgetRoles)

end Steps

/-- A view whose per-type iteration yields each axiom category in canonical order. -/
structure CanonicalByType (view : OntologyView) : Prop where
  closurePerm : ∀ c, (view.closureOf c).Perm (view.closure.filter (·.isOf c))
  closureSorted : ∀ c, SortedOn Node.canonicalBytes (view.closureOf c)
  rootSorted : SortedOn Node.canonicalBytes (view.rootOf .annotationAssertion)

namespace CanonicalByType
variable {view : OntologyView}

theorem closureAxioms_eq (h : CanonicalByType view) (c : Constructor) :
    closureAxioms view c = sortedCategory view.closure c := by
  have hfilter : (view.closureOf c).filter (·.isOf c) = view.closureOf c := by
    rw [List.filter_eq_self]
    intro a ha
    exact (List.mem_filter.mp ((h.closurePerm c).mem_iff.mp ha)).2
  rw [closureAxioms, hfilter, sortedCategory, ← canonicalSort_of_perm (h.closurePerm c)]
  exact (sortOn_of_sorted (h.closureSorted c)).symm

theorem rootAnnotations_sorted (h : CanonicalByType view) :
    canonicalSort (rootAnnotations view) = rootAnnotations view :=
  sortOn_of_sorted (List.Pairwise.filter _ h.rootSorted)

theorem filter_or_perm {α : Type} (p q : α → Bool) (xs : List α)
    (hdisj : ∀ x ∈ xs, p x = true → q x = false) :
    (xs.filter (fun x => p x || q x)).Perm (xs.filter p ++ xs.filter q) := by
  induction xs with
  | nil => exact List.Perm.refl _
  | cons x rest ih =>
    have hrest := ih (fun y hy => hdisj y (by simp [hy]))
    cases hp : p x with
    | true =>
      have hq := hdisj x (by simp) hp
      simp only [List.filter_cons, hp, hq, Bool.true_or, if_true, List.cons_append]
      exact List.Perm.cons x hrest
    | false =>
      cases hq : q x with
      | true =>
        simp only [List.filter_cons, hp, hq, Bool.false_or, if_true]
        exact (List.Perm.cons x hrest).trans List.perm_middle.symm
      | false => simpa [List.filter_cons, hp, hq] using hrest

/-- The fetched and the scanned role axioms are the same axioms. -/
theorem fetchedRbox_perm (h : CanonicalByType view) :
    (fetchedRbox view).Perm (scannedRbox view.closure) := by
  have hdisj : ∀ a ∈ view.closure, a.isOf .subObjectPropertyOf = true →
      a.isOf .inverseObjectProperties = false := by
    intro a _ ha
    simp only [Node.isOf, beq_iff_eq] at ha
    simp [Node.isOf, ha]
  have hsplit := filter_or_perm _ _ view.closure hdisj
  have hsub := sortOn_perm Node.canonicalBytes (view.closure.filter (·.isOf .subObjectPropertyOf))
  have hinv :=
    sortOn_perm Node.canonicalBytes (view.closure.filter (·.isOf .inverseObjectProperties))
  rw [fetchedRbox, h.closureAxioms_eq, h.closureAxioms_eq]
  exact (hsub.append hinv).trans hsplit.symm

end CanonicalByType

end Projector.Compiler
