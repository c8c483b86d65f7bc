import Projector.Encoded.RootProofs

namespace Projector.Encoded
open Lib Projector.Core Compiler

/-! Which fields of an inspected table are sequences. -/

/-- A field that was read as something else than a sequence. -/
inductive Columns.ReadPlain (cols : Columns) (index : Nat) : Prop
  | node {j : Nat} (h : cols.fieldNode index = .ok j)
  | set {minimum : Nat} {ids : List Nat} (h : cols.nodeSet index minimum = .ok ids)
  | scalar {kind : Nat} {payload : Bytes} (hkind : kind < COMPONENT_SET)
      (h : cols.scalarPayload index kind = .ok payload)
  | none (h : cols.read .fieldKinds index = .ok COMPONENT_NONE)

def PlainFields (v : Node) : Prop := ∀ i items, v.field i ≠ .sequence items

section Fields
variable {cols : Columns} {nodes : List Node} (table : EncodesNodes cols nodes)
  {id index start arity minimum : Nat} {v : Node} {c : Component}

include table in
theorem Columns.ReadPlain.not_sequence (h : cols.ReadPlain index)
    (hcell : FieldCell cols nodes index c) : ∀ items, c ≠ .sequence items := by
  rintro items rfl
  cases h with
  | node h =>
    obtain ⟨w, hw, -⟩ := fieldNode_ok table hcell h
    cases hw
  | set h =>
    obtain ⟨ws, hw, -⟩ := nodeSet_ok table hcell h
    cases hw
  | scalar hkind h =>
    obtain ⟨offset, length, hc, -⟩ := scalarPayload_ok hcell hkind h
    cases hc
  | none h =>
    obtain ⟨kind, value, length, hrow, hkind⟩ := hcell.row
    rw [(read_field hrow).1] at h
    rw [Except.ok.inj h] at hkind
    cases hkind

include table in
theorem plain_of_reads (ho : Opened cols nodes id v arity start)
    (h : ∀ i < arity, cols.ReadPlain (start + i)) : PlainFields v := by
  intro i items
  by_cases hi : i < arity
  · exact (h i hi).not_sequence table (ho.cell i hi) items
  · have hnone : v.field i = .none := by
      unfold Node.field
      rw [List.getD_eq_getElem?_getD, List.getElem?_eq_none (by rw [ho.length]; omega)]
      rfl
    rw [hnone]
    exact fun he => by cases he

include table in
theorem plain_one (ho : Opened cols nodes id v 1 start) (h0 : cols.ReadPlain start) :
    PlainFields v := by
  refine plain_of_reads table ho fun i hi => ?_
  obtain rfl : i = 0 := by omega
  exact h0

include table in
theorem plain_two (ho : Opened cols nodes id v 2 start) (h0 : cols.ReadPlain start)
    (h1 : cols.ReadPlain (start + 1)) : PlainFields v := by
  refine plain_of_reads table ho fun i hi => ?_
  obtain rfl | rfl : i = 0 ∨ i = 1 := by omega
  · exact h0
  · exact h1

include table in
theorem plain_three (ho : Opened cols nodes id v 3 start) (h0 : cols.ReadPlain start)
    (h1 : cols.ReadPlain (start + 1)) (h2 : cols.ReadPlain (start + 2)) : PlainFields v := by
  refine plain_of_reads table ho fun i hi => ?_
  obtain rfl | rfl | rfl : i = 0 ∨ i = 1 ∨ i = 2 := by omega
  · exact h0
  · exact h1
  · exact h2

include table in
theorem plain_four (ho : Opened cols nodes id v 4 start) (h0 : cols.ReadPlain start)
    (h1 : cols.ReadPlain (start + 1)) (h2 : cols.ReadPlain (start + 2))
    (h3 : cols.ReadPlain (start + 3)) : PlainFields v := by
  refine plain_of_reads table ho fun i hi => ?_
  obtain rfl | rfl | rfl | rfl : i = 0 ∨ i = 1 ∨ i = 2 ∨ i = 3 := by omega
  · exact h0
  · exact h1
  · exact h2
  · exact h3

theorem readPlain_demandField {test : Nat → Read Bool} {message : String} {a : Unit}
    (h : cols.demandField index test message = .ok a) : cols.ReadPlain index := by
  obtain ⟨j, hj, -⟩ := bind_ok h
  exact .node hj

theorem readPlain_demandSet {test : Nat → Read Bool} {message : String} {ids : List Nat}
    (h : cols.demandSet index minimum test message = .ok ids) : cols.ReadPlain index := by
  obtain ⟨ids, hids, -⟩ := bind_ok h
  exact .set hids

theorem readPlain_annotationSet {ids : List Nat} (h : cols.annotationSet index = .ok ids) :
    cols.ReadPlain index := by
  obtain ⟨ids, hids, -⟩ := bind_ok h
  exact .set hids

theorem readPlain_text {maximum : Nat} {exceeds notUtf8 text : String}
    (h : cols.boundedText index maximum exceeds notUtf8 = .ok text) : cols.ReadPlain index := by
  obtain ⟨payload, hpayload, -⟩ := bind_ok h
  exact .scalar (by decide) hpayload

theorem readPlain_integer {a : Unit} (h : cols.canonicalIntegerBytes index = .ok a) :
    cols.ReadPlain index := by
  obtain ⟨payload, hpayload, -⟩ := bind_ok h
  exact .scalar (by decide) hpayload

end Fields

section Families
variable {cols : Columns} {nodes : List Node} (table : EncodesNodes cols nodes) {id : Nat}
  {v : Node} (h : Holds nodes id v) {first second third : Nat → Read Bool}
  {firstMessage secondMessage thirdMessage : String}
include table h

theorem unary_plain (hr : cols.inspectUnary id first firstMessage = .ok none) : PlainFields v := by
  obtain ⟨start, hstart, hr⟩ := bind_ok hr
  obtain ⟨_, hfirst, hr⟩ := bind_ok hr
  obtain ⟨_, hset, -⟩ := bind_ok hr
  exact plain_two table (opened table h hstart) (readPlain_demandField hfirst)
    (readPlain_annotationSet hset)

theorem binary_plain (hr : cols.inspectBinary id first firstMessage second secondMessage =
    .ok none) : PlainFields v := by
  obtain ⟨start, hstart, hr⟩ := bind_ok hr
  obtain ⟨_, hfirst, hr⟩ := bind_ok hr
  obtain ⟨_, hsecond, hr⟩ := bind_ok hr
  obtain ⟨_, hset, -⟩ := bind_ok hr
  exact plain_three table (opened table h hstart) (readPlain_demandField hfirst)
    (readPlain_demandField hsecond) (readPlain_annotationSet hset)

theorem ternary_plain (hr : cols.inspectTernary id first firstMessage second secondMessage third
    thirdMessage = .ok none) : PlainFields v := by
  obtain ⟨start, hstart, hr⟩ := bind_ok hr
  obtain ⟨_, hfirst, hr⟩ := bind_ok hr
  obtain ⟨_, hsecond, hr⟩ := bind_ok hr
  obtain ⟨_, hthird, hr⟩ := bind_ok hr
  obtain ⟨_, hset, -⟩ := bind_ok hr
  exact plain_four table (opened table h hstart) (readPlain_demandField hfirst)
    (readPlain_demandField hsecond) (readPlain_demandField hthird) (readPlain_annotationSet hset)

theorem members_plain (hr : cols.inspectMembers id first firstMessage = .ok none) :
    PlainFields v := by
  obtain ⟨start, hstart, hr⟩ := bind_ok hr
  obtain ⟨_, hmembers, hr⟩ := bind_ok hr
  obtain ⟨_, hset, -⟩ := bind_ok hr
  exact plain_two table (opened table h hstart) (readPlain_demandSet hmembers)
    (readPlain_annotationSet hset)

theorem operand_plain (hr : cols.inspectOperand id first firstMessage = .ok none) :
    PlainFields v := by
  obtain ⟨start, hstart, hr⟩ := bind_ok hr
  obtain ⟨_, hfirst, -⟩ := bind_ok hr
  exact plain_one table (opened table h hstart) (readPlain_demandField hfirst)

theorem operands_plain (hr : cols.inspectOperands id first firstMessage second secondMessage =
    .ok none) : PlainFields v := by
  obtain ⟨start, hstart, hr⟩ := bind_ok hr
  obtain ⟨_, hfirst, hr⟩ := bind_ok hr
  obtain ⟨_, hsecond, -⟩ := bind_ok hr
  exact plain_two table (opened table h hstart) (readPlain_demandField hfirst)
    (readPlain_demandField hsecond)

theorem membersTerm_plain {minimum : Nat}
    (hr : cols.inspectMembersTerm id minimum first firstMessage = .ok none) : PlainFields v := by
  obtain ⟨start, hstart, hr⟩ := bind_ok hr
  obtain ⟨_, hmembers, -⟩ := bind_ok hr
  exact plain_one table (opened table h hstart) (readPlain_demandSet hmembers)

end Families

section Terms
variable {cols : Columns} {nodes : List Node} (table : EncodesNodes cols nodes) {id : Nat}
  {v : Node} (h : Holds nodes id v)
include table h

theorem iri_plain (hr : cols.inspectIri id = .ok none) : PlainFields v := by
  obtain ⟨_, hr, -⟩ := bind_ok hr
  obtain ⟨_, -, hr⟩ := bind_ok hr
  obtain ⟨_, -, hr⟩ := bind_ok hr
  obtain ⟨start, hstart, hr⟩ := bind_ok hr
  exact plain_one table (opened table h hstart) (readPlain_text hr)

theorem entity_plain (hr : cols.inspectEntity id = .ok none) : PlainFields v := by
  obtain ⟨_, hr, -⟩ := bind_ok hr
  obtain ⟨_, -, hr⟩ := bind_ok hr
  obtain ⟨_, -, hr⟩ := bind_ok hr
  obtain ⟨start, hstart, hr⟩ := bind_ok hr
  obtain ⟨payload, hpayload, hr⟩ := bind_ok hr
  split at hr
  · cases hr
  · obtain ⟨iri, hiri, -⟩ := bind_ok hr
    exact plain_two table (opened table h hstart) (.scalar (by decide) hpayload) (.node hiri)

theorem literal_plain (hr : cols.inspectLiteral id = .ok none) : PlainFields v := by
  obtain ⟨_, hr, -⟩ := bind_ok hr
  obtain ⟨_, -, hr⟩ := bind_ok hr
  obtain ⟨_, -, hr⟩ := bind_ok hr
  obtain ⟨start, hstart, hr⟩ := bind_ok hr
  obtain ⟨lexical, hlexical, hr⟩ := bind_ok hr
  obtain ⟨datatype, hdatatype, hr⟩ := bind_ok hr
  obtain ⟨named, -, hr⟩ := bind_ok hr
  split at hr
  · cases hr
  · obtain ⟨kind, hkind, hr⟩ := bind_ok hr
    have hlanguage : cols.ReadPlain (start + 2) := by
      split at hr
      · rename_i hnone
        exact .none (hnone ▸ hkind)
      · split at hr
        · obtain ⟨language, hlanguage, -⟩ := bind_ok hr
          exact readPlain_text hlanguage
        · cases hr
    exact plain_three table (opened table h hstart) (readPlain_text hlexical) (.node hdatatype)
      hlanguage

theorem anonymous_plain (hr : cols.inspectAnonymous id = .ok none) : PlainFields v := by
  obtain ⟨start, hstart, hr⟩ := bind_ok hr
  obtain ⟨scope, hscope, hr⟩ := bind_ok hr
  obtain ⟨key, hkey, -⟩ := bind_ok hr
  exact plain_two table (opened table h hstart) (.scalar (by decide) hscope)
    (.scalar (by decide) hkey)

theorem annotation_plain (hr : cols.inspectAnnotation id = .ok none) : PlainFields v := by
  obtain ⟨start, hstart, hr⟩ := bind_ok hr
  obtain ⟨_, hproperty, hr⟩ := bind_ok hr
  obtain ⟨_, hvalue, hr⟩ := bind_ok hr
  obtain ⟨_, hset, -⟩ := bind_ok hr
  exact plain_three table (opened table h hstart) (readPlain_demandField hproperty)
    (readPlain_demandField hvalue) (readPlain_annotationSet hset)

theorem dataAggregate_plain {c : Constructor} (hr : cols.inspectDataAggregate id c = .ok none) :
    PlainFields v := by
  obtain ⟨start, hstart, hr⟩ := bind_ok hr
  obtain ⟨ids, hids, -⟩ := bind_ok hr
  exact plain_one table (opened table h hstart) (.set hids)

theorem datatypeRestriction_plain (hr : cols.inspectDatatypeRestriction id = .ok none) :
    PlainFields v := by
  obtain ⟨start, hstart, hr⟩ := bind_ok hr
  obtain ⟨_, hdatatype, hr⟩ := bind_ok hr
  obtain ⟨_, hfacets, -⟩ := bind_ok hr
  exact plain_two table (opened table h hstart) (readPlain_demandField hdatatype)
    (readPlain_demandSet hfacets)

theorem complement_plain (hr : cols.inspectComplement id = .ok none) : PlainFields v := by
  obtain ⟨start, hstart, hr⟩ := bind_ok hr
  obtain ⟨operand, hoperand, -⟩ := bind_ok hr
  exact plain_one table (opened table h hstart) (.node hoperand)

theorem aggregate_plain (hr : cols.inspectAggregate id = .ok none) : PlainFields v := by
  obtain ⟨start, hstart, hr⟩ := bind_ok hr
  obtain ⟨ids, hids, -⟩ := bind_ok hr
  exact plain_one table (opened table h hstart) (.set hids)

omit table h in
theorem restrictionAt_plain {index : Nat} (hr : cols.inspectRestrictionAt index = .ok none) :
    cols.ReadPlain index ∧ cols.ReadPlain (index + 1) := by
  obtain ⟨property, hproperty, hr⟩ := bind_ok hr
  obtain ⟨_, -, hr⟩ := bind_ok hr
  obtain ⟨filler, hfiller, -⟩ := bind_ok hr
  exact ⟨.node hproperty, .node hfiller⟩

theorem restriction_plain (hr : cols.inspectRestriction id = .ok none) : PlainFields v := by
  obtain ⟨start, hstart, hr⟩ := bind_ok hr
  obtain ⟨hproperty, hfiller⟩ := restrictionAt_plain hr
  exact plain_two table (opened table h hstart) hproperty hfiller

theorem cardinality_plain (hr : cols.inspectCardinality id = .ok none) : PlainFields v := by
  obtain ⟨start, hstart, hr⟩ := bind_ok hr
  obtain ⟨_, hcount, hr⟩ := bind_ok hr
  obtain ⟨hproperty, hfiller⟩ := restrictionAt_plain hr
  exact plain_three table (opened table h hstart) (readPlain_integer hcount) hproperty hfiller

theorem classAtom_plain (hr : cols.inspectClassAtom id = .ok none) : PlainFields v := by
  obtain ⟨start, hstart, hr⟩ := bind_ok hr
  obtain ⟨predicate, hpredicate, hr⟩ := bind_ok hr
  obtain ⟨_, -, hr⟩ := bind_ok hr
  obtain ⟨_, hargument, -⟩ := bind_ok hr
  exact plain_two table (opened table h hstart) (.node hpredicate)
    (readPlain_demandField hargument)

theorem objectPropertyAtom_plain (hr : cols.inspectObjectPropertyAtom id = .ok none) :
    PlainFields v := by
  obtain ⟨start, hstart, hr⟩ := bind_ok hr
  obtain ⟨_, hpredicate, hr⟩ := bind_ok hr
  obtain ⟨_, hsource, hr⟩ := bind_ok hr
  obtain ⟨_, htarget, -⟩ := bind_ok hr
  exact plain_three table (opened table h hstart) (readPlain_demandField hpredicate)
    (readPlain_demandField hsource) (readPlain_demandField htarget)

theorem dataPropertyAtom_plain (hr : cols.inspectDataPropertyAtom id = .ok none) :
    PlainFields v := by
  obtain ⟨start, hstart, hr⟩ := bind_ok hr
  obtain ⟨_, hpredicate, hr⟩ := bind_ok hr
  obtain ⟨_, hsource, hr⟩ := bind_ok hr
  obtain ⟨_, htarget, -⟩ := bind_ok hr
  exact plain_three table (opened table h hstart) (readPlain_demandField hpredicate)
    (readPlain_demandField hsource) (readPlain_demandField htarget)

theorem rule_plain (hr : cols.inspectRule id = .ok none) : PlainFields v := by
  obtain ⟨start, hstart, hr⟩ := bind_ok hr
  obtain ⟨_, hbody, hr⟩ := bind_ok hr
  obtain ⟨_, hhead, hr⟩ := bind_ok hr
  obtain ⟨_, hset, -⟩ := bind_ok hr
  exact plain_three table (opened table h hstart) (readPlain_demandSet hbody)
    (readPlain_demandSet hhead) (readPlain_annotationSet hset)

end Terms

section Axioms
variable {cols : Columns} {nodes : List Node} (table : EncodesNodes cols nodes) {id : Nat}
  {v : Node} (h : Holds nodes id v)
include table h

theorem declaration_plain (hr : cols.inspectDeclaration id = .ok none) : PlainFields v := by
  obtain ⟨start, hstart, hr⟩ := bind_ok hr
  obtain ⟨entity, hentity, hr⟩ := bind_ok hr
  obtain ⟨_, -, hr⟩ := bind_ok hr
  obtain ⟨_, hset, -⟩ := bind_ok hr
  exact plain_two table (opened table h hstart) (.node hentity) (readPlain_annotationSet hset)

theorem subClassOf_plain (hr : cols.inspectSubClassOf id = .ok none) : PlainFields v := by
  obtain ⟨start, hstart, hr⟩ := bind_ok hr
  obtain ⟨sub, hsub, hr⟩ := bind_ok hr
  obtain ⟨sup, hsup, hr⟩ := bind_ok hr
  obtain ⟨_, -, hr⟩ := bind_ok hr
  obtain ⟨_, -, hr⟩ := bind_ok hr
  obtain ⟨_, hset, -⟩ := bind_ok hr
  exact plain_three table (opened table h hstart) (.node hsub) (.node hsup)
    (readPlain_annotationSet hset)

theorem equivalentClasses_plain (hr : cols.inspectEquivalentClasses id = .ok none) :
    PlainFields v := by
  obtain ⟨start, hstart, hr⟩ := bind_ok hr
  obtain ⟨ids, hids, hr⟩ := bind_ok hr
  obtain ⟨_, -, hr⟩ := bind_ok hr
  obtain ⟨_, hset, -⟩ := bind_ok hr
  exact plain_two table (opened table h hstart) (.set hids) (readPlain_annotationSet hset)

theorem disjointClasses_plain (hr : cols.inspectDisjointClasses id = .ok none) :
    PlainFields v := by
  obtain ⟨start, hstart, hr⟩ := bind_ok hr
  obtain ⟨ids, hids, hr⟩ := bind_ok hr
  obtain ⟨_, -, hr⟩ := bind_ok hr
  obtain ⟨_, hset, -⟩ := bind_ok hr
  exact plain_two table (opened table h hstart) (.set hids) (readPlain_annotationSet hset)

theorem disjointUnion_plain (hr : cols.inspectDisjointUnion id = .ok none) : PlainFields v := by
  obtain ⟨start, hstart, hr⟩ := bind_ok hr
  obtain ⟨_, hdefined, hr⟩ := bind_ok hr
  obtain ⟨ids, hids, hr⟩ := bind_ok hr
  obtain ⟨_, -, hr⟩ := bind_ok hr
  obtain ⟨_, hset, -⟩ := bind_ok hr
  exact plain_three table (opened table h hstart) (readPlain_demandField hdefined) (.set hids)
    (readPlain_annotationSet hset)

theorem roleAxiom_plain {chains : Bool} (hr : cols.inspectRoleAxiom id chains = .ok none) :
    PlainFields v := by
  obtain ⟨start, hstart, hr⟩ := bind_ok hr
  obtain ⟨first, hfirst, hr⟩ := bind_ok hr
  obtain ⟨_, -, hr⟩ := bind_ok hr
  obtain ⟨_, -, hr⟩ := bind_ok hr
  obtain ⟨second, hsecond, hr⟩ := bind_ok hr
  obtain ⟨_, -, hr⟩ := bind_ok hr
  have hset : cols.ReadPlain (start + 2) := by
    split at hr
    · rename_i hash hhash
      obtain ⟨ids, hset, -⟩ := bind_ok hhash
      exact readPlain_annotationSet hset
    · have hnone := (orElse_none (Except.ok.inj hr)).2
      cases hnone
    · cases hr
  exact plain_three table (opened table h hstart) (.node hfirst) (.node hsecond) hset

theorem domainRange_plain (hr : cols.inspectDomainRange id = .ok none) : PlainFields v := by
  obtain ⟨start, hstart, hr⟩ := bind_ok hr
  obtain ⟨property, hproperty, hr⟩ := bind_ok hr
  obtain ⟨_, -, hr⟩ := bind_ok hr
  obtain ⟨expression, hexpression, hr⟩ := bind_ok hr
  obtain ⟨_, -, hr⟩ := bind_ok hr
  obtain ⟨_, hset, -⟩ := bind_ok hr
  exact plain_three table (opened table h hstart) (.node hproperty) (.node hexpression)
    (readPlain_annotationSet hset)

theorem dataPropertyDomain_plain (hr : cols.inspectDataPropertyDomain id = .ok none) :
    PlainFields v := by
  obtain ⟨start, hstart, hr⟩ := bind_ok hr
  obtain ⟨_, hproperty, hr⟩ := bind_ok hr
  obtain ⟨expression, hexpression, hr⟩ := bind_ok hr
  obtain ⟨_, -, hr⟩ := bind_ok hr
  obtain ⟨_, hset, -⟩ := bind_ok hr
  exact plain_three table (opened table h hstart) (readPlain_demandField hproperty)
    (.node hexpression) (readPlain_annotationSet hset)

theorem hasKey_plain (hr : cols.inspectHasKey id = .ok none) : PlainFields v := by
  obtain ⟨start, hstart, hr⟩ := bind_ok hr
  obtain ⟨expression, hexpression, hr⟩ := bind_ok hr
  obtain ⟨_, -, hr⟩ := bind_ok hr
  obtain ⟨objects, hobjects, hr⟩ := bind_ok hr
  obtain ⟨data, hdata, hr⟩ := bind_ok hr
  obtain ⟨_, -, hr⟩ := bind_ok hr
  obtain ⟨_, hset, -⟩ := bind_ok hr
  exact plain_four table (opened table h hstart) (.node hexpression)
    (readPlain_demandSet hobjects) (readPlain_demandSet hdata) (readPlain_annotationSet hset)

theorem classAssertion_plain (hr : cols.inspectClassAssertion id = .ok none) :
    PlainFields v := by
  obtain ⟨start, hstart, hr⟩ := bind_ok hr
  obtain ⟨expression, hexpression, hr⟩ := bind_ok hr
  obtain ⟨_, -, hr⟩ := bind_ok hr
  obtain ⟨individual, hindividual, hr⟩ := bind_ok hr
  obtain ⟨_, -, hr⟩ := bind_ok hr
  obtain ⟨_, hset, -⟩ := bind_ok hr
  exact plain_three table (opened table h hstart) (.node hexpression) (.node hindividual)
    (readPlain_annotationSet hset)

theorem objectPropertyAssertion_plain (hr : cols.inspectObjectPropertyAssertion id = .ok none) :
    PlainFields v := by
  obtain ⟨start, hstart, hr⟩ := bind_ok hr
  obtain ⟨property, hproperty, hr⟩ := bind_ok hr
  obtain ⟨_, -, hr⟩ := bind_ok hr
  obtain ⟨source, hsource, hr⟩ := bind_ok hr
  obtain ⟨_, -, hr⟩ := bind_ok hr
  obtain ⟨target, htarget, hr⟩ := bind_ok hr
  obtain ⟨_, -, hr⟩ := bind_ok hr
  obtain ⟨_, hset, -⟩ := bind_ok hr
  exact plain_four table (opened table h hstart) (.node hproperty) (.node hsource) (.node htarget)
    (readPlain_annotationSet hset)

end Axioms

section Sequences
variable {cols : Columns} {nodes : List Node} (pre : Preflighted cols nodes) {id : Nat} {v : Node}
include pre

/-- Only property chains and built-in atoms have a sequence. -/
theorem plain_of_inspected (h : Holds nodes id v) (hchain : v.constructor ≠ .objectPropertyChain)
    (hatom : v.constructor ≠ .builtInAtom) : PlainFields v := by
  have table := pre.toEncodesNodes
  have hr : cols.inspectConstructor id v.constructor = .ok none := inspected_as pre h rfl
  cases hc : v.constructor <;> rw [hc] at hr
  case iri => exact iri_plain table h hr
  case entity => exact entity_plain table h hr
  case literal => exact literal_plain table h hr
  case anonymousIndividual => exact anonymous_plain table h hr
  case annotationTerm => exact annotation_plain table h hr
  case objectPropertyChain => exact absurd hc hchain
  case builtInAtom => exact absurd hc hatom
  case dataIntersectionOf | dataUnionOf => exact dataAggregate_plain table h hr
  case dataOneOf | objectOneOf => exact membersTerm_plain table h hr
  case datatypeRestriction => exact datatypeRestriction_plain table h hr
  case objectComplementOf => exact complement_plain table h hr
  case objectIntersectionOf | objectUnionOf => exact aggregate_plain table h hr
  case objectSomeValuesFrom | objectAllValuesFrom => exact restriction_plain table h hr
  case objectMinCardinality | objectMaxCardinality => exact cardinality_plain table h hr
  case objectInverseOf | dataComplementOf | objectHasSelf | swrlVariable =>
    exact operand_plain table h hr
  case facetRestriction | objectHasValue | dataRangeAtom | sameIndividualAtom
      | differentIndividualsAtom => exact operands_plain table h hr
  case classAtom => exact classAtom_plain table h hr
  case objectPropertyAtom => exact objectPropertyAtom_plain table h hr
  case dataPropertyAtom => exact dataPropertyAtom_plain table h hr
  case swrlRule => exact rule_plain table h hr
  case declaration => exact declaration_plain table h hr
  case subClassOf => exact subClassOf_plain table h hr
  case equivalentClasses => exact equivalentClasses_plain table h hr
  case disjointClasses => exact disjointClasses_plain table h hr
  case disjointUnion => exact disjointUnion_plain table h hr
  case subObjectPropertyOf | inverseObjectProperties => exact roleAxiom_plain table h hr
  case objectPropertyDomain | objectPropertyRange => exact domainRange_plain table h hr
  case dataPropertyDomain => exact dataPropertyDomain_plain table h hr
  case hasKey => exact hasKey_plain table h hr
  case classAssertion => exact classAssertion_plain table h hr
  case objectPropertyAssertion => exact objectPropertyAssertion_plain table h hr
  case equivalentObjectProperties | disjointObjectProperties | equivalentDataProperties
      | disjointDataProperties | sameIndividual | differentIndividuals =>
    exact members_plain table h hr
  case functionalObjectProperty | inverseFunctionalObjectProperty | reflexiveObjectProperty
      | irreflexiveObjectProperty | symmetricObjectProperty | asymmetricObjectProperty
      | transitiveObjectProperty | functionalDataProperty => exact unary_plain table h hr
  case subDataPropertyOf | dataPropertyRange | datatypeDefinition | subAnnotationPropertyOf
      | annotationPropertyDomain | annotationPropertyRange => exact binary_plain table h hr
  case negativeObjectPropertyAssertion | dataPropertyAssertion | negativeDataPropertyAssertion
      | annotationAssertion => exact ternary_plain table h hr
  case objectExactCardinality | dataSomeValuesFrom | dataAllValuesFrom | dataHasValue
      | dataMinCardinality | dataMaxCardinality | dataExactCardinality => cases hr

omit pre in
theorem itemNode_ok (table : EncodesNodes cols nodes) {index kind value length i : Nat}
    {c : Component} (hrow : ItemRow cols index kind value length)
    (hc : Cell cols nodes kind value length c) (hr : cols.itemNode index = .ok i) :
    ∃ w, c = .node w ∧ Holds nodes i w := by
  unfold Columns.itemNode at hr
  simp only [Columns.read, Columns.buffer, hrow.kinds, hrow.values, hrow.lengths, bind,
    Except.bind] at hr
  split at hr
  · cases hr
  · rename_i hshape
    simp only [ne_eq, not_or, not_not] at hshape
    obtain ⟨rfl, -⟩ := nodeId_ok table hr
    cases hc <;> try (exact absurd hshape.1 (by decide))
    case node hw => exact ⟨_, rfl, hw⟩

omit pre in
/-- The members of a sequence that could be read are nodes. -/
theorem itemNodes_ok (table : EncodesNodes cols nodes) {start : Nat} {items : List Component}
    {ids : List Nat} (h : SequenceItems cols nodes start items)
    (hr : cols.itemNodes start items.length = .ok ids) :
    List.Forall₂ (fun i c => ∃ w, c = .node w ∧ Holds nodes i w) ids items := by
  have hread := forall₂_of_mapM hr
  clear hr
  induction h generalizing ids with
  | nil =>
    cases hread
    exact .nil
  | cons hrow hc _ ih =>
    rw [List.length_cons, List.range'_succ] at hread
    cases hread with
    | cons hi hrest => exact .cons (itemNode_ok table hrow hc hi) (ih hrest)

omit pre in
theorem nodeSequence_ok (table : EncodesNodes cols nodes) {index minimum : Nat} {c : Component}
    {ids : List Nat} (h : FieldCell cols nodes index c)
    (hr : cols.nodeSequence index minimum = .ok ids) : ∃ items, c = .sequence items ∧
      List.Forall₂ (fun i c => ∃ w, c = .node w ∧ Holds nodes i w) ids items := by
  obtain ⟨kind, value, length, hrow, hkind⟩ := h.row
  obtain ⟨hk, hv, hl⟩ := read_field hrow
  unfold Columns.nodeSequence at hr
  rw [ok_bind _ hk] at hr
  obtain ⟨_, hd, hr⟩ := bind_ok hr
  have hsequence := demand_ok hd
  simp only [beq_iff_eq] at hsequence
  rw [ok_bind _ hv, ok_bind _ hl] at hr
  obtain ⟨_, -, hr⟩ := bind_ok hr
  cases h with
  | plain hrow' hc =>
    obtain ⟨rfl, rfl, rfl⟩ := hrow.unique hrow'
    cases hc <;> exact absurd hsequence (by decide)
  | set hrow' _ _ _ =>
    obtain ⟨rfl, -, -⟩ := hrow.unique hrow'
    exact absurd hsequence (by decide)
  | sequence hrow' _ hitems =>
    obtain ⟨rfl, rfl, rfl⟩ := hrow.unique hrow'
    split at hr
    · cases hr
    · exact ⟨_, rfl, itemNodes_ok table hitems hr⟩

end Sequences

end Projector.Encoded
