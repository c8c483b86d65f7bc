import Projector.Compiler.LazyEager
import Projector.Encoded.AssertionProofs
import Projector.Encoded.RootCategories
import Projector.Lib.Tally

namespace Projector.Encoded
open Lib Projector.Core Compiler

section Names
variable {v : Node}

theorem typeName_of_constructor (h : v.constructor ≠ .entity) : typeName v = v.constructor.name := by
  have hnone : v.entityKind? = none := by
    unfold Node.entityKind?
    split
    · rename_i hc _
      exact absurd hc h
    · rfl
  unfold typeName
  rw [hnone]

theorem typeName_skippedTag (h : Columns.rootAxiomTags.contains v.constructor = true) :
    typeName v = v.constructor.name := by
  apply typeName_of_constructor
  intro hc
  rw [hc] at h
  cases h

end Names

section Properties

/-- The named pairs of some axioms, added to an index. -/
def indexedBy (axioms : List Node) (index : ClassIndex) : ClassIndex :=
  axioms.foldl (fun index v =>
    match namedParts? v with
    | some (property, classIri) => index.addTo property classIri
    | none => index) index

/-- The names of the axioms that have no pair. -/
def unindexed (axioms : List Node) : List String :=
  (axioms.filter fun v => (namedParts? v).isNone).map typeName

theorem indexedBy_named {v : Node} {property classIri : String}
    (h : namedParts? v = some (property, classIri)) (rest : List Node) (index : ClassIndex) :
    indexedBy (v :: rest) index = indexedBy rest (index.addTo property classIri) := by
  unfold indexedBy
  rw [List.foldl_cons, h]

theorem indexedBy_unnamed {v : Node} (h : namedParts? v = none) (rest : List Node)
    (index : ClassIndex) : indexedBy (v :: rest) index = indexedBy rest index := by
  unfold indexedBy
  rw [List.foldl_cons, h]

theorem unindexed_named {v : Node} {parts : String × String} (h : namedParts? v = some parts)
    (rest : List Node) : unindexed (v :: rest) = unindexed rest := by
  unfold unindexed
  rw [List.filter_cons_of_neg (by simp [h])]

theorem unindexed_unnamed {v : Node} (h : namedParts? v = none) (rest : List Node) :
    unindexed (v :: rest) = typeName v :: unindexed rest := by
  unfold unindexed
  rw [List.filter_cons_of_pos (by simp [h]), List.map_cons]

def isPropertyAxiom (v : Node) : Bool := v.isOf .objectPropertyDomain || v.isOf .objectPropertyRange

theorem domain_not_range {v : Node} (h : v.isOf .objectPropertyDomain = true) :
    v.isOf .objectPropertyRange = false := by
  rw [Node.isOf, isOf_iff.mp h]
  rfl

variable {cols : Columns} {nodes : List Node} (pre : Preflighted cols nodes)

/-- The roots and the values they stand for, whatever their kinds. -/
abbrev RootHolds (nodes : List Node) (root : Columns.Root) (v : Node) : Prop :=
  Holds nodes root.2 v

include pre in
/-- The index of the encoded compiler is filled as the scalar compiler fills its two. -/
theorem domainRangeIndex_eq {roots : List Columns.Root} {values : List Node}
    (h : List.Forall₂ (RootHolds nodes) roots values) (index : Columns.PropertyIndex) :
    cols.domainRangeIndex roots index = .ok
      ⟨indexedBy (values.filter (·.isOf .objectPropertyDomain)) index.domains,
        indexedBy (values.filter (·.isOf .objectPropertyRange)) index.ranges,
        (unindexed (values.filter isPropertyAxiom)).foldl Dict.increment index.ignoredShapes⟩ := by
  have table := pre.toEncodesNodes
  induction h generalizing index with
  | nil => rfl
  | @cons root v roots values hroot _ ih =>
    obtain ⟨kind, id⟩ := root
    have hholds : Holds nodes id v := hroot
    change (cols.tagIs id .objectPropertyDomain >>= fun _ => _) = _
    rw [ok_bind _ (tagIs_eq table hholds _), ok_bind _ (tagIs_eq table hholds _)]
    have hproperty : isPropertyAxiom v =
        (v.isOf .objectPropertyDomain || v.isOf .objectPropertyRange) := rfl
    cases hdomain : v.isOf .objectPropertyDomain with
    | true =>
      have hc := isOf_iff.mp hdomain
      have hname : typeName v = "ObjectPropertyDomain" := by
        rw [typeName_skippedTag (by rw [hc]; rfl), hc]
        rfl
      simp only [List.filter_cons, hproperty, hdomain, domain_not_range hdomain, Bool.or_false,
        Bool.false_eq_true, if_true, if_false]
      rw [Columns.domainIris, ok_bind _ (propertyClassIris_eq pre hholds hc (.inl rfl))]
      cases hparts : namedParts? v with
      | none =>
        rw [indexedBy_unnamed hparts, unindexed_unnamed hparts, hname]
        exact ih _
      | some parts =>
        rw [indexedBy_named hparts, unindexed_named hparts]
        exact ih _
    | false =>
      cases hrange : v.isOf .objectPropertyRange with
      | true =>
        have hc := isOf_iff.mp hrange
        have hname : typeName v = "ObjectPropertyRange" := by
          rw [typeName_skippedTag (by rw [hc]; rfl), hc]
          rfl
        simp only [List.filter_cons, hproperty, hdomain, hrange, Bool.or_true,
          Bool.false_eq_true, if_true, if_false]
        rw [Columns.rangeIris, ok_bind _ (propertyClassIris_eq pre hholds hc (.inr rfl))]
        cases hparts : namedParts? v with
        | none =>
          rw [indexedBy_unnamed hparts, unindexed_unnamed hparts, hname]
          exact ih _
        | some parts =>
          rw [indexedBy_named hparts, unindexed_named hparts]
          exact ih _
      | false =>
        simp only [List.filter_cons, hproperty, hdomain, hrange, Bool.or_self,
          Bool.false_eq_true, if_false]
        exact ih _

/-- One pass meets the domains and the ranges that two passes meet. -/
theorem unindexed_perm (values : List Node) :
    (unindexed (values.filter isPropertyAxiom)).Perm
      (unindexed (values.filter (·.isOf .objectPropertyDomain)) ++
        unindexed (values.filter (·.isOf .objectPropertyRange))) := by
  have hsplit := CanonicalByType.filter_or_perm (fun v : Node => v.isOf .objectPropertyDomain)
    (fun v => v.isOf .objectPropertyRange) values fun v _ => domain_not_range
  unfold unindexed
  rw [← List.map_append, ← List.filter_append]
  exact (hsplit.filter _).map _

end Properties

section Skipped
variable {cols : Columns} {nodes : List Node}

/-- The name under which an axiom is counted as skipped. -/
def skippedName? (v : Node) : Option String :=
  (Columns.skippedTags.find? (·.tag == v.constructor.tag)).map Constructor.name

/-- `_skipped_axiom_index` counts the skipped axioms by name. -/
theorem skippedAxiomIndex_eq (table : EncodesNodes cols nodes) {roots : List Columns.Root}
    {values : List Node} (h : List.Forall₂ (RootHolds nodes) roots values)
    (skipped : Dict String Nat) :
    cols.skippedAxiomIndex roots skipped =
      .ok ((values.filterMap skippedName?).foldl Dict.increment skipped) := by
  induction h generalizing skipped with
  | nil => rfl
  | @cons root v roots values hroot _ ih =>
    obtain ⟨kind, id⟩ := root
    have hholds : Holds nodes id v := hroot
    change (cols.nodeTag id >>= fun _ => _) = _
    rw [ok_bind _ (nodeTag_eq table hholds), List.filterMap_cons]
    unfold skippedName?
    cases Columns.skippedTags.find? (·.tag == v.constructor.tag) with
    | none => exact ih skipped
    | some c => exact ih (skipped.increment c.name)

theorem skippedKey_skippedTag {v : Node} (h : Columns.rootAxiomTags.contains v.constructor = true) :
    skippedKey? v = (skippedName? v).map skippedAxiom := by
  have hall : ∀ c ∈ Columns.rootAxiomTags,
      (if isSelected c || c == .declaration || c == .annotationAssertion then none
        else some c.name) =
        (Columns.skippedTags.find? (·.tag == c.tag)).map Constructor.name := by decide
  have hc := hall _ (List.contains_iff_mem.mp h)
  unfold skippedKey? skippedName? Node.isOf
  rw [← hc, typeName_skippedTag h]
  split <;> rfl

variable {rootValues : List (Nat × Node)}

/-- What the scalar compiler counts as skipped. -/
theorem skippedKeys_eq (h : ∀ value ∈ rootValues, Classified value) :
    skippedKeys (axiomsOf rootValues) =
      ((rootValues.map Prod.snd).filterMap skippedName?).map skippedAxiom := by
  induction rootValues with
  | nil => rfl
  | cons value rest ih =>
    have hrest := ih fun other hother => h other (List.mem_cons_of_mem value hother)
    have hclass := h value List.mem_cons_self
    unfold axiomsOf at hrest ⊢
    rw [List.map_cons]
    rcases hclass.kind with hk | hk | hk
    · have hnone : skippedName? value.2 = none := by
        unfold skippedName?
        rw [hclass.annotated hk]
        rfl
      rw [List.filter_cons_of_neg (by rw [hk]; decide), List.filterMap_cons_none hnone]
      exact hrest
    · have hnone : skippedName? value.2 = none := by
        unfold skippedName?
        rw [hclass.rule hk]
        rfl
      rw [List.filter_cons_of_neg (by rw [hk]; decide), List.filterMap_cons_none hnone]
      exact hrest
    · rw [List.filter_cons_of_pos (by rw [hk]; decide), List.map_cons, skippedKeys_cons, hrest]
      unfold skippedKeys
      rw [List.filterMap_cons, List.filterMap_nil, skippedKey_skippedTag (hclass.known hk),
        List.filterMap_cons]
      cases skippedName? value.2 <;> rfl

end Skipped

end Projector.Encoded
