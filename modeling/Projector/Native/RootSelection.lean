import Projector.Lib.LowerBound
import Projector.Lib.Effects
import Projector.Lib.Sorting
import Projector.Native.Reads

namespace Projector.Native
open Lib Projector.Core Projector.Encoded

inductive RootRuleHandler where
  | declaration | subclass | equivalentClasses | disjointClasses | disjointUnion | hasKey
  | subObjectProperty | objectPropertySet | inverseObjectProperties | objectPropertyClass
  | classAssertion | objectPropertyAssertion | negativeObjectPropertyAssertion
  | objectPropertyCharacteristic | binaryDataProperty | dataPropertySet | dataPropertyDomain
  | dataPropertyRange | functionalDataProperty | datatypeDefinition | dataPropertyAssertion
  | individualSet | annotationAssertion | subAnnotationProperty | annotationPropertyIri
  | ontologyAnnotation | swrlRule
  deriving DecidableEq, Repr

inductive RootDomainRangeEffect where
  | none
  | domain
  | range
  deriving DecidableEq, Repr

structure RootRule where
  rootKind : Nat
  constructor : Constructor
  handler : RootRuleHandler
  domainRangeEffect : RootDomainRangeEffect
  deriving DecidableEq, Repr

def RootRule.tag (rule : RootRule) : Nat := rule.constructor.tag

def ROOT_RULES : List RootRule :=
  [⟨ROOT_AXIOM, .declaration, .declaration, .none⟩,
   ⟨ROOT_AXIOM, .subClassOf, .subclass, .none⟩,
   ⟨ROOT_AXIOM, .equivalentClasses, .equivalentClasses, .none⟩,
   ⟨ROOT_AXIOM, .disjointClasses, .disjointClasses, .none⟩,
   ⟨ROOT_AXIOM, .disjointUnion, .disjointUnion, .none⟩,
   ⟨ROOT_AXIOM, .hasKey, .hasKey, .none⟩,
   ⟨ROOT_AXIOM, .subObjectPropertyOf, .subObjectProperty, .none⟩,
   ⟨ROOT_AXIOM, .equivalentObjectProperties, .objectPropertySet, .none⟩,
   ⟨ROOT_AXIOM, .disjointObjectProperties, .objectPropertySet, .none⟩,
   ⟨ROOT_AXIOM, .inverseObjectProperties, .inverseObjectProperties, .none⟩,
   ⟨ROOT_AXIOM, .objectPropertyDomain, .objectPropertyClass, .domain⟩,
   ⟨ROOT_AXIOM, .objectPropertyRange, .objectPropertyClass, .range⟩,
   ⟨ROOT_AXIOM, .classAssertion, .classAssertion, .none⟩,
   ⟨ROOT_AXIOM, .objectPropertyAssertion, .objectPropertyAssertion, .none⟩,
   ⟨ROOT_AXIOM, .negativeObjectPropertyAssertion, .negativeObjectPropertyAssertion, .none⟩,
   ⟨ROOT_AXIOM, .functionalObjectProperty, .objectPropertyCharacteristic, .none⟩,
   ⟨ROOT_AXIOM, .inverseFunctionalObjectProperty, .objectPropertyCharacteristic, .none⟩,
   ⟨ROOT_AXIOM, .reflexiveObjectProperty, .objectPropertyCharacteristic, .none⟩,
   ⟨ROOT_AXIOM, .irreflexiveObjectProperty, .objectPropertyCharacteristic, .none⟩,
   ⟨ROOT_AXIOM, .symmetricObjectProperty, .objectPropertyCharacteristic, .none⟩,
   ⟨ROOT_AXIOM, .asymmetricObjectProperty, .objectPropertyCharacteristic, .none⟩,
   ⟨ROOT_AXIOM, .transitiveObjectProperty, .objectPropertyCharacteristic, .none⟩,
   ⟨ROOT_AXIOM, .subDataPropertyOf, .binaryDataProperty, .none⟩,
   ⟨ROOT_AXIOM, .equivalentDataProperties, .dataPropertySet, .none⟩,
   ⟨ROOT_AXIOM, .disjointDataProperties, .dataPropertySet, .none⟩,
   ⟨ROOT_AXIOM, .dataPropertyDomain, .dataPropertyDomain, .none⟩,
   ⟨ROOT_AXIOM, .dataPropertyRange, .dataPropertyRange, .none⟩,
   ⟨ROOT_AXIOM, .functionalDataProperty, .functionalDataProperty, .none⟩,
   ⟨ROOT_AXIOM, .datatypeDefinition, .datatypeDefinition, .none⟩,
   ⟨ROOT_AXIOM, .sameIndividual, .individualSet, .none⟩,
   ⟨ROOT_AXIOM, .differentIndividuals, .individualSet, .none⟩,
   ⟨ROOT_AXIOM, .dataPropertyAssertion, .dataPropertyAssertion, .none⟩,
   ⟨ROOT_AXIOM, .negativeDataPropertyAssertion, .dataPropertyAssertion, .none⟩,
   ⟨ROOT_AXIOM, .annotationAssertion, .annotationAssertion, .none⟩,
   ⟨ROOT_AXIOM, .subAnnotationPropertyOf, .subAnnotationProperty, .none⟩,
   ⟨ROOT_AXIOM, .annotationPropertyDomain, .annotationPropertyIri, .none⟩,
   ⟨ROOT_AXIOM, .annotationPropertyRange, .annotationPropertyIri, .none⟩,
   ⟨ROOT_ONTOLOGY_ANNOTATION, .annotationTerm, RootRuleHandler.ontologyAnnotation, .none⟩,
   ⟨ROOT_EXTENSION, .swrlRule, .swrlRule, .none⟩]

/-- `RootRule::resolve_index`: positions in the table are counted from one. -/
def resolveIndex (rootKind tag : Nat) : Except KernelError Nat :=
  match ROOT_RULES.findIdx? fun rule => rule.rootKind == rootKind && rule.tag == tag with
  | some tableIndex => .ok (tableIndex + 1)
  | none =>
    if rootKind = ROOT_AXIOM ∧ tag ≠ Constructor.annotationTerm.tag ∧
        tag ≠ Constructor.swrlRule.tag ∧ DirectColumns.isSchemaTag tag then
      .error (.unsupported ("direct native slice does not support axiom tag " ++ toString tag))
    else .error (.malformed "encoded root kind does not match its constructor tag")

def resolvedRootRuleAt (ruleIndexes : List Nat) (rootIndex : Nat) : Except KernelError RootRule :=
  match ruleIndexes[rootIndex]? with
  | none | some 0 =>
    .error (.malformed "encoded selected root lost its resolved structural rule")
  | some (tableIndex + 1) =>
    match ROOT_RULES[tableIndex]? with
    | some rule => .ok rule
    | none => .error (.malformed "encoded selected root has an invalid structural rule index")

/-- The borrowed buffers of a table with the postings that select its roots: they name
positions from one on. Postings of either kind are absent when they are empty. -/
structure SelectedColumns where
  direct : DirectColumns
  includedRootIds : List Nat
  excludedRootIds : List Nat

namespace SelectedColumns
variable (d : SelectedColumns)

def rootCount : Nat := d.direct.columns.rootCount

def rootKind (index : Nat) : Except KernelError Nat :=
  match d.direct.columns.rootKinds[index]? with
  | some kind => .ok kind
  | none => .error (.malformed "root kind index is out of range")

def rootId (index : Nat) : Except KernelError Nat := do
  d.direct.checkedNodeId (← readUsize d.direct.columns.rootIds index "root_ids")

/-- The loops of `validate_generic` over postings. -/
def checkPostings (message : String) : Nat → List Nat → Except KernelError Unit
  | _, [] => .ok ()
  | previous, position :: rest =>
    if position ≤ previous ∨ position > d.rootCount then .error (.malformed message)
    else checkPostings message position rest

/-- The part of `validate_generic` that is about postings. -/
def validatePostings : Except KernelError Unit :=
  if d.includedRootIds ≠ [] ∧ d.excludedRootIds ≠ [] then
    .error (.malformed "encoded root selection cannot combine INCLUDE and EXCLUDE postings")
  else do
    d.checkPostings
      "encoded included-root postings are not sorted unique in-range positions" 0 d.includedRootIds
    d.checkPostings
      "encoded excluded-root postings are not sorted unique in-range positions" 0 d.excludedRootIds

def included : Bool := !d.includedRootIds.isEmpty

def postings : List Nat := if d.included then d.includedRootIds else d.excludedRootIds

/-- `included_root_position` and `excluded_root_position` -/
def rootPosition (index : Nat) : Except KernelError Nat :=
  readUsize d.postings index (if d.included then "included_root_ids" else "excluded_root_ids")

def selectedRootCount : Except KernelError Nat :=
  if d.included then .ok d.includedRootIds.length
  else if d.excludedRootIds.length ≤ d.rootCount then
    .ok (d.rootCount - d.excludedRootIds.length)
  else .error (.malformed "encoded excluded-root postings exceed the root count")

def rootIsSelected (index : Nat) : Except KernelError Bool := do
  let target ← checkedAdd index 1 "encoded root position overflow"
  let stop := d.postings.length
  let start ← lowerBound (fun middle => do
    let candidate ← d.rootPosition middle
    .ok (decide (candidate < target))) stop 0 stop
  if start = stop then .ok !d.included
  else do
    let found ← d.rootPosition start
    .ok (if d.included then found == target else found != target)

/-- The rule of every selected root, as `populate_selected_root_rule_plan` resolves them; zero
for the others. -/
def resolveRuleIndexes : Except KernelError (List Nat) :=
  (List.range d.rootCount).mapM fun rootIndex => do
    if ← d.rootIsSelected rootIndex then do
      let node ← d.rootId rootIndex
      let kind ← d.rootKind rootIndex
      let tag ← d.direct.nodeTag node
      resolveIndex kind tag
    else .ok 0

end SelectedColumns

section Rules
variable {kind tag index : Nat}

/-- A resolved rule is one for the kind and the tag that it was resolved for. -/
theorem resolveIndex_ok (h : resolveIndex kind tag = .ok index) :
    ∃ tableIndex rule, index = tableIndex + 1 ∧ ROOT_RULES[tableIndex]? = some rule ∧
      rule.rootKind = kind ∧ rule.tag = tag := by
  unfold resolveIndex at h
  split at h
  · rename_i tableIndex hfind
    cases h
    obtain ⟨hlt, hmatch, -⟩ := List.findIdx?_eq_some_iff_getElem.mp hfind
    rw [Bool.and_eq_true, beq_iff_eq, beq_iff_eq] at hmatch
    exact ⟨tableIndex, ROOT_RULES[tableIndex], rfl, List.getElem?_eq_getElem hlt, hmatch⟩
  · split at h
    · cases h
    · cases h

theorem resolvedRootRuleAt_ok {indexes : List Nat} {rootIndex : Nat}
    (h : indexes[rootIndex]? = some index) (hresolve : resolveIndex kind tag = .ok index) :
    ∃ rule ∈ ROOT_RULES, resolvedRootRuleAt indexes rootIndex = .ok rule ∧
      rule.rootKind = kind ∧ rule.tag = tag := by
  obtain ⟨tableIndex, rule, rfl, hrule, hkind, htag⟩ := resolveIndex_ok hresolve
  refine ⟨rule, List.mem_of_getElem? hrule, ?_, hkind, htag⟩
  unfold resolvedRootRuleAt
  simp only [h, hrule]

/-- One rule handles annotation assertions. -/
theorem annotationAssertion_handler : ∀ rule ∈ ROOT_RULES,
    rule.handler = .annotationAssertion ↔
      rule.rootKind = ROOT_AXIOM ∧ rule.tag = Constructor.annotationAssertion.tag := by
  decide

end Rules

section Selection
variable {d : SelectedColumns}

theorem checkPostings_ok {message : String} {previous : Nat} {positions : List Nat}
    (h : d.checkPostings message previous positions = .ok ()) :
    (∀ p ∈ positions, previous < p) ∧ positions.Pairwise (· < ·) := by
  induction positions generalizing previous with
  | nil => exact ⟨fun _ hp => absurd hp List.not_mem_nil, .nil⟩
  | cons position rest ih =>
    unfold SelectedColumns.checkPostings at h
    split at h
    · cases h
    · rename_i hvalid
      obtain ⟨hafter, hsorted⟩ := ih h
      refine ⟨fun p hp => ?_, .cons hafter hsorted⟩
      rcases List.mem_cons.mp hp with rfl | hp
      · omega
      · have := hafter p hp
        omega

theorem validatePostings_ok (h : d.validatePostings = .ok ()) :
    d.postings.Pairwise (· < ·) := by
  unfold SelectedColumns.validatePostings at h
  split at h
  · cases h
  · obtain ⟨_, hincluded, hexcluded⟩ := bind_ok h
    unfold SelectedColumns.postings
    split
    · exact (checkPostings_ok hincluded).2
    · exact (checkPostings_ok hexcluded).2

/-- Whether the postings select a root. -/
def SelectedColumns.selects (d : SelectedColumns) (index : Nat) : Bool :=
  if d.included then decide (index + 1 ∈ d.postings) else decide (index + 1 ∉ d.postings)

theorem rootPosition_ok {i : Nat} (hi : i < d.postings.length) :
    d.rootPosition i = .ok d.postings[i] := by
  unfold SelectedColumns.rootPosition readUsize
  rw [List.getElem?_eq_getElem hi]

/-- In sorted postings a position is found where the first one that is not less stands. -/
theorem mem_of_divides {positions : List Nat} (hsorted : positions.Pairwise (· < ·))
    {target start : Nat}
    (h : Divides (fun i => decide ((positions[i]?).getD 0 < target)) 0 positions.length start) :
    target ∈ positions ↔ positions[start]? = some target := by
  constructor
  · intro hmem
    obtain ⟨i, hi, hget⟩ := List.getElem_of_mem hmem
    have hat : positions[i]? = some target := by rw [List.getElem?_eq_getElem hi, hget]
    rcases Nat.lt_trichotomy i start with hlt | heq | hgt
    · have hbelow := h.before i (Nat.zero_le _) hlt
      rw [hat, Option.getD_some, decide_eq_true_eq] at hbelow
      exact absurd hbelow (lt_irrefl _)
    · exact heq ▸ hat
    · have hstart : start < positions.length := by omega
      have hbelow := h.after start (Nat.le_refl _) hstart
      rw [List.getElem?_eq_getElem hstart, Option.getD_some, decide_eq_false_iff_not] at hbelow
      have hlt := List.pairwise_iff_getElem.mp hsorted start i hstart hi hgt
      rw [hget] at hlt
      exact absurd hlt hbelow
  · exact List.mem_of_getElem?

/-- The binary search decides whether a root is selected. -/
theorem rootIsSelected_eq (hvalid : d.validatePostings = .ok ()) {index : Nat}
    (hindex : index + 1 < usizeLimit) : d.rootIsSelected index = .ok (d.selects index) := by
  have hsorted := validatePostings_ok hvalid
  have hfalls : Falls (fun i => decide ((d.postings[i]?).getD 0 < index + 1))
      d.postings.length := by
    intro i j hij hj hbelow
    have hi : i < d.postings.length := by omega
    simp only [List.getElem?_eq_getElem hj, List.getElem?_eq_getElem hi, Option.getD_some,
      decide_eq_true_eq] at hbelow ⊢
    rcases Nat.lt_or_eq_of_le hij with hlt | heq
    · have := List.pairwise_iff_getElem.mp hsorted i j hi hj hlt
      omega
    · subst heq
      exact hbelow
  have hread : ∀ i < d.postings.length,
      (do
        let candidate ← d.rootPosition i
        .ok (decide (candidate < index + 1)) : Except KernelError Bool) =
      .ok (decide ((d.postings[i]?).getD 0 < index + 1)) := by
    intro i hi
    rw [ok_bind _ (rootPosition_ok hi), List.getElem?_eq_getElem hi, Option.getD_some]
  obtain ⟨start, hsearch, hdivides⟩ := lowerBound_eq _ _ hfalls hread
    (Nat.zero_le d.postings.length) (Nat.sub_le _ _)
  have hmem := mem_of_divides hsorted hdivides
  have htarget : checkedAdd index 1 "encoded root position overflow" = .ok (index + 1) :=
    if_pos hindex
  unfold SelectedColumns.rootIsSelected SelectedColumns.selects
  rw [ok_bind _ htarget]
  dsimp only
  rw [ok_bind _ hsearch]
  by_cases hend : start = d.postings.length
  · have habsent : index + 1 ∉ d.postings := by
      rw [hmem, hend, List.getElem?_eq_none (Nat.le_refl _)]
      exact Option.some_ne_none _ ∘ Eq.symm
    rw [if_pos hend]
    cases d.included <;> simp [habsent]
  · have hinside := hdivides.inside
    have hstart : start < d.postings.length := by omega
    rw [if_neg hend, ok_bind _ (rootPosition_ok hstart)]
    rw [List.getElem?_eq_getElem hstart, Option.some.injEq] at hmem
    cases d.included <;> simp [hmem, bne, beq_eq_decide]

end Selection

end Projector.Native
