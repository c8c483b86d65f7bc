import Projector.Compiler.ScanProofs

namespace Projector.Compiler
open Lib Projector.Core

section Shapes

/-- The texts that are admitted as IRIs, lexical forms and language tags. -/
structure TextRules where
  iri : String → Prop
  lexical : String → Prop
  language : String → Prop

/-- A property expression of a role axiom. -/
inductive CoreProperty (rules : TextRules) : Node → Prop
  | named {name : String} (h : rules.iri name) : CoreProperty rules (objectProperty name)
  | inverse {name : String} (h : rules.iri name) :
      CoreProperty rules (.mk .objectInverseOf [.node (objectProperty name)])

inductive CoreLanguage (rules : TextRules) (datatype : String) : Component → Prop
  | none : CoreLanguage rules datatype .none
  | tagged {language : String} (h : rules.language language)
      (hplain : datatype = RDF_PLAIN_LITERAL_IRI) : CoreLanguage rules datatype (.text language)

inductive CoreAnnotationValue (rules : TextRules) : Node → Prop
  | iri {text : String} (h : rules.iri text) : CoreAnnotationValue rules (iri text)
  | literal {lexical datatype : String} {language : Component} (hlexical : rules.lexical lexical)
      (hdatatype : rules.iri datatype) (hlanguage : CoreLanguage rules datatype language) :
      CoreAnnotationValue rules
        (.mk .literal [.text lexical, .node (entity .datatype datatype), language])
  | anonymous {scope key : Bytes} (hscope : scope.length = 32) (hkey : key ≠ []) :
      CoreAnnotationValue rules (anonymousIndividual scope key)

/-- An annotation, annotated to any depth. -/
inductive CoreAnnotation (rules : TextRules) : Node → Prop
  | mk {property : String} {value : Node} {nested : List Node} (hproperty : rules.iri property)
      (hvalue : CoreAnnotationValue rules value) (hnested : ∀ a ∈ nested, CoreAnnotation rules a) :
      CoreAnnotation rules
        (.mk .annotationTerm
          [.node (entity .annotationProperty property), .node value, .set nested])

def propertyChain (items : List Node) : Node :=
  .mk .objectPropertyChain [.sequence (items.map .node)]

/-- The role axioms that the core model can build. -/
inductive CoreRoleAxiom (rules : TextRules) : Node → Prop
  | subProperty {sub sup : Node} {annotations : List Node} (hsub : CoreProperty rules sub)
      (hsup : CoreProperty rules sup) (hannotations : ∀ a ∈ annotations, CoreAnnotation rules a) :
      CoreRoleAxiom rules (.mk .subObjectPropertyOf [.node sub, .node sup, .set annotations])
  | chain {items : List Node} {sup : Node} {annotations : List Node} (hlength : 2 ≤ items.length)
      (hitems : ∀ p ∈ items, CoreProperty rules p) (hsup : CoreProperty rules sup)
      (hannotations : ∀ a ∈ annotations, CoreAnnotation rules a) :
      CoreRoleAxiom rules
        (.mk .subObjectPropertyOf [.node (propertyChain items), .node sup, .set annotations])
  | inverse {first second : Node} {annotations : List Node} (hfirst : CoreProperty rules first)
      (hsecond : CoreProperty rules second)
      (hannotations : ∀ a ∈ annotations, CoreAnnotation rules a) :
      CoreRoleAxiom rules
        (.mk .inverseObjectProperties [.node first, .node second, .set annotations])

def isChainAxiom (axiomNode : Node) : Bool := (axiomNode.child 0).isOf .objectPropertyChain

/-- An annotation by an anonymous individual whose key is not UTF-8. -/
def isOpaque (note : Node) : Bool :=
  (note.child 1).isOf .anonymousIndividual &&
    (fromUtf8? ((note.child 1).payload 1)).isNone

/-- Only the annotations of the axiom itself count, and none that they nest. -/
def opaquelyAnnotated (axiomNode : Node) : Bool := (axiomNode.items 2).any isOpaque

end Shapes

section Hashes
variable {rules : TextRules}

/-- The named property under a property expression, and the hash of the expression. -/
theorem CoreProperty.hash {v : Node} (h : CoreProperty rules v) :
    ∃ name, namedProperty? v = some name ∧ rules.iri name ∧
      ((v = objectProperty name ∧ owlapiHash v = some (combine 4153 [owlapiIriHash name])) ∨
        (v = .mk .objectInverseOf [.node (objectProperty name)] ∧
          owlapiHash v = some (combine 4241 [combine 4153 [owlapiIriHash name]]))) := by
  cases h with
  | @named name hname => exact ⟨name, rfl, hname, .inl ⟨rfl, rfl⟩⟩
  | @inverse name hname => exact ⟨name, rfl, hname, .inr ⟨rfl, rfl⟩⟩

theorem CoreProperty.hashable {v : Node} (h : CoreProperty rules v) : (owlapiHash v).isSome := by
  obtain ⟨name, -, -, ⟨-, hhash⟩ | ⟨-, hhash⟩⟩ := h.hash <;> simp [hhash]

/-- An annotation value raises when it is anonymous and its key is not UTF-8. -/
theorem CoreAnnotationValue.hashable_iff {v : Node} (h : CoreAnnotationValue rules v) :
    (owlapiHash v).isSome ↔
      (v.isOf .anonymousIndividual && (fromUtf8? (v.payload 1)).isNone) = false := by
  rw [owlapiHash_eq]
  cases h with
  | iri h => exact ⟨fun _ => rfl, fun _ => rfl⟩
  | literal hlexical hdatatype hlanguage => exact ⟨fun _ => rfl, fun _ => rfl⟩
  | @anonymous scope key hscope hkey =>
    change (fromUtf8? key >>= fun key => some (javaStringHash key)).isSome ↔
      (true && (fromUtf8? key).isNone) = false
    cases fromUtf8? key <;> simp

/-- Nested annotations are not part of the hash. -/
theorem annotation_hash (property : String) (value : Node) (nested : List Node) :
    owlapiHash (.mk .annotationTerm
        [.node (entity .annotationProperty property), .node value, .set nested]) =
      (owlapiHash value).map fun hash => combine 6311 [owlapiIriHash property, hash] := by
  rw [owlapiHash_eq]
  change (some (owlapiIriHash property) >>= fun property => owlapiHash value >>= fun value =>
    some (combine 6311 [property, value])) = _
  cases owlapiHash value <;> rfl

theorem CoreAnnotation.constructor_eq {v : Node} (h : CoreAnnotation rules v) :
    v.constructor = .annotationTerm := by
  cases h
  rfl

theorem CoreAnnotation.hashable_iff {v : Node} (h : CoreAnnotation rules v) :
    (owlapiHash v).isSome ↔ isOpaque v = false := by
  cases h with
  | mk hproperty hvalue hnested =>
    rw [annotation_hash, Option.isSome_map]
    exact hvalue.hashable_iff

theorem setHashFrom_isSome (result : Int) (values : List Node) :
    (setHashFrom result values).isSome ↔ ∀ v ∈ values, (owlapiHash v).isSome := by
  induction values generalizing result with
  | nil => simp [setHashFrom]
  | cons v rest ih =>
    cases hv : owlapiHash v with
    | none => simp [setHashFrom, hv]
    | some hash =>
      simp only [setHashFrom, hv, List.forall_mem_cons, Option.isSome_some, true_and]
      exact ih _

theorem annotations_hashable_iff {annotations : List Node}
    (h : ∀ a ∈ annotations, CoreAnnotation rules a) :
    (setHashFrom 0 annotations).isSome ↔ annotations.any isOpaque = false := by
  rw [setHashFrom_isSome, List.any_eq_false]
  constructor
  · intro hall a ha
    rw [(h a ha).hashable_iff.mp (hall a ha)]
    exact Bool.false_ne_true
  · intro hall a ha
    apply (h a ha).hashable_iff.mpr
    exact Bool.not_eq_true _ ▸ hall a ha

/-- The hash of a sub-property axiom, from those of its parts. -/
theorem subProperty_hash (sub sup : Node) (annotations : List Node) :
    owlapiHash (.mk .subObjectPropertyOf [.node sub, .node sup, .set annotations]) = (do
      let sub ← owlapiHash sub
      let sup ← owlapiHash sup
      let annotations ← setHashFrom 0 annotations
      some (combine 1823 [sub, sup, annotations])) := by
  rw [owlapiHash_eq]
  rfl

theorem inverse_hash (first second : Node) (annotations : List Node) :
    owlapiHash (.mk .inverseObjectProperties [.node first, .node second, .set annotations]) = (do
      let first ← owlapiHash first
      let second ← owlapiHash second
      let annotations ← setHashFrom 0 annotations
      some (combine 1229 [int32 (first + second), annotations])) := by
  rw [owlapiHash_eq]
  rfl

theorem bind₃_isSome {a b c : Option Int} {f : Int → Int → Int → Int} (ha : a.isSome)
    (hb : b.isSome) :
    (do let x ← a; let y ← b; let z ← c; some (f x y z) : Option Int).isSome ↔ c.isSome := by
  obtain ⟨x, rfl⟩ := Option.isSome_iff_exists.mp ha
  obtain ⟨y, rfl⟩ := Option.isSome_iff_exists.mp hb
  cases c <;> simp

/-- A role axiom has a hash unless one of its own annotations is opaque. -/
theorem CoreRoleAxiom.hashable_iff {v : Node} (h : CoreRoleAxiom rules v) :
    (owlapiHash v).isSome ↔ opaquelyAnnotated v = false := by
  cases h with
  | subProperty hsub hsup hannotations =>
    rw [subProperty_hash, bind₃_isSome hsub.hashable hsup.hashable]
    exact annotations_hashable_iff hannotations
  | @chain items sup annotations hlength hitems hsup hannotations =>
    have hchain : (owlapiHash (propertyChain items)).isSome := by
      rw [owlapiHash_eq]
      rfl
    rw [subProperty_hash, bind₃_isSome hchain hsup.hashable]
    exact annotations_hashable_iff hannotations
  | inverse hfirst hsecond hannotations =>
    rw [inverse_hash, bind₃_isSome hfirst.hashable hsecond.hashable]
    exact annotations_hashable_iff hannotations

theorem hashable_rbox_iff {rbox : List Node} (h : ∀ a ∈ rbox, CoreRoleAxiom rules a) :
    Hashable rbox ↔ ∀ a ∈ rbox, opaquelyAnnotated a = false := by
  constructor
  · exact fun hall a ha => (h a ha).hashable_iff.mp (hall a ha)
  · exact fun hall a ha => (h a ha).hashable_iff.mpr (hall a ha)

end Hashes

section Steps

theorem roleStep_named {roles : RoleState} {statistics : CompileStatistics} {v : Node}
    {first second : String} (hfirst : namedProperty? (v.child 0) = some first)
    (hsecond : namedProperty? (v.child 1) = some second) :
    roleStep (roles, statistics) v =
      (if v.isOf .subObjectPropertyOf then
        { roles with
          subroles := roles.subroles.insert second (first :: roles.subroles.getOr first []) }
      else
        { roles with
          inverseRoles := (roles.inverseRoles.insert first second).insert second first },
        statistics) := by
  unfold roleStep
  simp only [hfirst, hsecond]
  split <;> rfl

theorem roleStep_chain {roles : RoleState} {statistics : CompileStatistics} {v : Node}
    (h : isChainAxiom v = true) :
    roleStep (roles, statistics) v = (roles, statistics.ignore) := by
  have hchain : (v.child 0).constructor = .objectPropertyChain := beq_iff_eq.mp h
  have hnone : namedProperty? (v.child 0) = none := by
    simp [namedProperty?, Node.isEntity, Node.isOf, Node.entityKind?, hchain]
  unfold roleStep
  simp only [hnone]

/-- Chains do not touch the maps. -/
theorem foldl_roleStep_rows (axioms : List Node) (roles : RoleState)
    (statistics statistics' : CompileStatistics) :
    (axioms.foldl roleStep (roles, statistics)).1 =
      ((axioms.filter fun v => !isChainAxiom v).foldl roleStep (roles, statistics')).1 := by
  induction axioms generalizing roles statistics statistics' with
  | nil => rfl
  | cons v rest ih =>
    rw [List.foldl_cons]
    cases hchain : isChainAxiom v with
    | true =>
      rw [roleStep_chain hchain, List.filter_cons_of_neg (by simp [hchain])]
      exact ih roles _ _
    | false =>
      rw [List.filter_cons_of_pos (by simp [hchain]), List.foldl_cons,
        roleStep_statistics roles statistics v, roleStep_statistics roles statistics' v]
      exact ih _ _ _

end Steps

end Projector.Compiler
