import Projector.Encoded.Projection
import Projector.Encoded.AxiomShapes

namespace Projector.Encoded
open Lib Projector.Core Compiler

variable {cols : Columns} {nodes : List Node} (pre : Preflighted cols nodes) {id : Nat} {v : Node}

section Restrictions

include pre in
theorem restrictionAt_ok {arity start i : Nat} (ho : Opened cols nodes id v arity start)
    (hi : i + 1 < arity) (hr : cols.inspectRestrictionAt (start + i) = .ok none) :
    ∃ property filler iri, cols.fieldNode (start + i) = .ok property ∧
      Holds nodes property (v.child i) ∧ cols.fieldNode (start + i + 1) = .ok filler ∧
      Holds nodes filler (v.child (i + 1)) ∧ namedProperty? (v.child i) = some iri ∧
      (v.child (i + 1)).isEntity .classEntity = true := by
  obtain ⟨property, hproperty, hr⟩ := bind_ok hr
  obtain ⟨-, hpholds⟩ := ho.node pre.toEncodesNodes i (by omega) hproperty
  rw [ok_bind _ (isSupportedObjectPropertyExpression_eq pre hpholds)] at hr
  obtain ⟨filler, hfiller, hr⟩ := bind_ok hr
  obtain ⟨-, hfholds⟩ := ho.node pre.toEncodesNodes (i + 1) hi hfiller
  rw [Columns.isNamedClass, ok_bind _ (isNamed_eq pre hfholds _)] at hr
  have hboth := fallbackUnless_none hr
  simp only [Bool.and_eq_true] at hboth
  obtain ⟨iri, hiri⟩ := Option.isSome_iff_exists.mp hboth.1
  exact ⟨property, filler, iri, hproperty, hpholds, hfiller, hfholds, hiri, hboth.2⟩

include pre in
/-- Where the property of a restriction is, for the compiler and for the inspection. -/
theorem restrictionIndex_eq (h : Holds nodes id v)
    (hc : Columns.restrictionTags.contains v.constructor = true) :
    ∃ arity start i, Opened cols nodes id v arity start ∧ i + 1 < arity ∧
      cols.restrictionIndex id = .ok (start + i) ∧
      cols.inspectRestrictionAt (start + i) = .ok none ∧
      restrictionProperty v = v.child i ∧ restrictionFiller v = v.child (i + 1) := by
  simp only [Columns.restrictionTags, List.contains_iff_mem, List.mem_cons, List.not_mem_nil,
    or_false] at hc
  have htable := pre.toEncodesNodes
  unfold Columns.restrictionIndex restrictionProperty restrictionFiller
  rw [ok_bind _ (tagIn_eq htable h _), ok_bind _ (tagIn_eq htable h _)]
  have hquantified : cols.inspectRestriction id = .ok none →
      ∃ start, Opened cols nodes id v 2 start ∧
        cols.inspectRestrictionAt (start + 0) = .ok none := by
    intro hi
    obtain ⟨start, hstart, hr⟩ := bind_ok hi
    exact ⟨start, opened htable h hstart, hr⟩
  have hcounted : cols.inspectCardinality id = .ok none →
      ∃ start a, Opened cols nodes id v 3 start ∧ cols.canonicalIntegerBytes start = .ok a ∧
        cols.inspectRestrictionAt (start + 1) = .ok none := by
    intro hi
    obtain ⟨start, hstart, hr⟩ := bind_ok hi
    obtain ⟨a, ha, hr⟩ := bind_ok hr
    exact ⟨start, a, opened htable h hstart, ha, hr⟩
  rcases hc with hc | hc | hc | hc
  · obtain ⟨start, ho, hr⟩ := hquantified (inspected_as pre h hc)
    exact ⟨2, start, 0, ho, by omega, by simpa [hc] using ho.read, hr, by simp [hc], by simp [hc]⟩
  · obtain ⟨start, ho, hr⟩ := hquantified (inspected_as pre h hc)
    exact ⟨2, start, 0, ho, by omega, by simpa [hc] using ho.read, hr, by simp [hc], by simp [hc]⟩
  · obtain ⟨start, a, ho, hbytes, hr⟩ := hcounted (inspected_as pre h hc)
    refine ⟨3, start, 1, ho, by omega, ?_, hr, by simp [hc], by simp [hc]⟩
    simp [hc, ho.read, hbytes, Bind.bind, Except.bind, pure, Except.pure]
  · obtain ⟨start, a, ho, hbytes, hr⟩ := hcounted (inspected_as pre h hc)
    refine ⟨3, start, 1, ho, by omega, ?_, hr, by simp [hc], by simp [hc]⟩
    simp [hc, ho.read, hbytes, Bind.bind, Except.bind, pure, Except.pure]

include pre in
/-- A restriction that passed the inspection has the parts that the scalar compiler sees. -/
theorem restrictionIris_eq (h : Holds nodes id v)
    (hc : Columns.restrictionTags.contains v.constructor = true) :
    ∃ parts, cols.restrictionIris id = .ok parts ∧ restrictionParts? v = some parts := by
  obtain ⟨arity, start, i, ho, hi, hindex, hr, hproperty, hfiller⟩ := restrictionIndex_eq pre h hc
  obtain ⟨property, filler, iri, hp, hpholds, hf, hfholds, hiri, hclass⟩ :=
    restrictionAt_ok pre ho hi hr
  have hrestriction : isRestriction v.constructor = true := hc
  refine ⟨(iri, (v.child (i + 1)).entityIri), ?_, ?_⟩
  · unfold Columns.restrictionIris
    rw [ok_bind _ hindex, ok_bind _ hp, ok_bind _ (projectedObjectPropertyIri_eq pre hpholds),
      ok_bind _ hf, Columns.namedClassIri, ok_bind _ (namedIri_eq pre hfholds _), hiri]
    simp only [hclass, if_true]
    rfl
  · simp [restrictionParts?, hrestriction, hproperty, hfiller, hclass, hiri]

end Restrictions

section Subclasses

/-- The projection of a subclass axiom, on the value. -/
def subclassParts (v : Node) : Option SubclassProjection :=
  let sub := v.child 0
  let sup := v.child 1
  if sub.isEntity .classEntity && sup.isEntity .classEntity then
    some ⟨sub.entityIri, SUBCLASS_OF, sup.entityIri, false⟩
  else if sub.isEntity .classEntity then
    (restrictionParts? sup).map fun p => ⟨sub.entityIri, p.1, p.2, true⟩
  else if sup.isEntity .classEntity then
    (restrictionParts? sub).map fun p => ⟨sup.entityIri, p.1, p.2, true⟩
  else none

include pre in
theorem restrictionProjection_eq (h : Holds nodes id v) (subject : String) :
    cols.restrictionProjection subject id =
      .ok ((restrictionParts? v).map fun p => ⟨subject, p.1, p.2, true⟩) := by
  unfold Columns.restrictionProjection
  rw [ok_bind _ (tagIn_eq pre.toEncodesNodes h _)]
  cases hc : Columns.restrictionTags.contains v.constructor with
  | true =>
    obtain ⟨parts, hparts, hv⟩ := restrictionIris_eq pre h hc
    simp only [if_true]
    rw [ok_bind _ hparts, hv]
    rfl
  | false =>
    have hnone : restrictionParts? v = none := by
      have hr : isRestriction v.constructor = false := hc
      simp [restrictionParts?, hr]
    simp only [Bool.false_eq_true, if_false, hnone]
    rfl

include pre in
theorem subclassProjection_eq (h : Holds nodes id v) (hc : v.constructor = .subClassOf) :
    cols.subclassProjection id = .ok (subclassParts v) := by
  have htable := pre.toEncodesNodes
  have hof : v.isOf .subClassOf = true := isOf_iff.mpr hc
  obtain ⟨start, hstart, hr⟩ := bind_ok (inspected_as pre h hc)
  have ho := opened htable h hstart
  obtain ⟨sub, hsub, hr⟩ := bind_ok hr
  obtain ⟨sup, hsup, -⟩ := bind_ok hr
  obtain ⟨-, hsubholds⟩ := ho.node htable 0 (by omega) hsub
  obtain ⟨-, hsupholds⟩ := ho.node htable 1 (by omega) hsup
  unfold Columns.subclassProjection Columns.namedClassIri
  rw [ok_bind _ (tagIs_eq htable h _), hof, demand_true, ok_bind _ rfl, ok_bind _ hstart,
    ok_bind _ hsub, ok_bind _ hsup, ok_bind _ (namedIri_eq pre hsubholds _),
    ok_bind _ (namedIri_eq pre hsupholds _)]
  cases hsubclass : (v.child 0).isEntity .classEntity with
  | true =>
    cases hsupclass : (v.child 1).isEntity .classEntity with
    | true =>
      simp only [subclassParts, hsubclass, hsupclass, if_true, Bool.and_true]
      rfl
    | false =>
      simp only [subclassParts, hsubclass, hsupclass, if_true, Bool.false_eq_true, if_false,
        Bool.and_false]
      exact restrictionProjection_eq pre hsupholds _
  | false =>
    cases hsupclass : (v.child 1).isEntity .classEntity with
    | true =>
      simp only [subclassParts, hsubclass, hsupclass, if_true, Bool.false_eq_true, if_false,
        Bool.false_and]
      exact restrictionProjection_eq pre hsubholds _
    | false =>
      simp only [subclassParts, hsubclass, hsupclass, Bool.false_eq_true, if_false, Bool.false_and]
      rfl

end Subclasses

section Equivalents

/-- The class expressions that the inspection validates. -/
def isValidated (v : Node) : Bool :=
  v.isEntity .classEntity ||
    (Columns.aggregateTags ++ Columns.restrictionTags ++
      Columns.nonprojectingTags).contains v.constructor

/-- The operands of an aggregate that the projection supports. -/
def isOperand (v : Node) : Bool :=
  v.isEntity .classEntity ||
    (Columns.restrictionTags ++ Columns.nonprojectingTags).contains v.constructor

theorem isOperand_validated (h : isOperand v = true) : isValidated v = true := by
  simp only [isOperand, isValidated, List.contains_iff_mem, Bool.or_eq_true, List.mem_append]
    at h ⊢
  rcases h with h | h | h
  · exact Or.inl h
  · exact Or.inr (Or.inl (Or.inr h))
  · exact Or.inr (Or.inr h)

/-- The sort key of an operand as the table gives it. -/
def tableKey (id : Nat) (v : Node) : Columns.OperandKey :=
  if v.isEntity .classEntity then toLex (1001, utf8 v.entityIri)
  else toLex (expressionIndex v, bigEndian 4 id)

theorem expressionIndex_large (v : Node) : 3001 ≤ expressionIndex v := by
  unfold expressionIndex
  split <;> omega

/-- Identifiers order the operands of one type as their canonical bytes do. -/
theorem tableKey_le_iff (table : EncodesNodes cols nodes) {i j : Nat} {w : Node}
    (h : Holds nodes i v) (h' : Holds nodes j w) :
    tableKey i v ≤ tableKey j w ↔ expressionKey v ≤ expressionKey w := by
  have hv := expressionIndex_large v
  have hw := expressionIndex_large w
  have hsmall := table.small
  have hi : i < 256 ^ 4 := by
    have := h.le
    omega
  have hj : j < 256 ^ 4 := by
    have := h'.le
    omega
  have hbytes : bigEndian 4 i ≤ bigEndian 4 j ↔ v.canonicalBytes ≤ w.canonicalBytes := by
    rw [bigEndian_le_iff hi hj, ← not_lt, ← not_lt, h'.lt_iff table.canonical h]
  unfold tableKey expressionKey
  cases v.isEntity .classEntity with
  | true =>
    cases w.isEntity .classEntity with
    | true => rfl
    | false =>
      simp only [if_true, Bool.false_eq_true, if_false, Prod.Lex.toLex_le_toLex]
      omega
  | false =>
    cases w.isEntity .classEntity with
    | true =>
      simp only [if_true, Bool.false_eq_true, if_false, Prod.Lex.toLex_le_toLex]
      omega
    | false =>
      simp only [Bool.false_eq_true, if_false, Prod.Lex.toLex_le_toLex, hbytes]

theorem expressionOrder_lookup (hclass : v.isEntity .classEntity = false)
    (h : isValidated v = true) :
    Columns.EXPRESSION_ORDER.lookup v.constructor.tag = some (expressionIndex v) := by
  simp only [isValidated, hclass, Bool.false_or, Columns.aggregateTags, Columns.restrictionTags,
    Columns.nonprojectingTags, List.contains_iff_mem, List.mem_append, List.mem_cons,
    List.not_mem_nil, or_false] at h
  unfold expressionIndex
  rcases h with ((h | h) | (h | h | h | h)) | (h | h | h | h) <;> rw [h] <;> rfl

theorem expressionOrderKey_eq (table : EncodesNodes cols nodes) (h : Holds nodes id v)
    (hclass : v.isEntity .classEntity = false) (hv : isValidated v = true) :
    Columns.expressionOrderKey v.constructor.tag id = .ok (tableKey id v) := by
  have hle := h.le
  have hsmall := table.small
  have hid : id < 4294967296 := by omega
  unfold Columns.expressionOrderKey tableKey
  rw [expressionOrder_lookup hclass hv]
  simp only [hid, if_true, hclass, Bool.false_eq_true, if_false]

include pre in
theorem expressionKey_eq (h : Holds nodes id v) (hv : isValidated v = true) :
    cols.expressionKey id = .ok (tableKey id v) := by
  unfold Columns.expressionKey Columns.namedClassIri
  rw [ok_bind _ (namedIri_eq pre h _)]
  cases hclass : v.isEntity .classEntity with
  | true =>
    simp only [if_true, tableKey, hclass]
    rfl
  | false =>
    simp only [Bool.false_eq_true, if_false]
    rw [ok_bind _ (nodeTag_eq pre.toEncodesNodes h)]
    exact expressionOrderKey_eq pre.toEncodesNodes h hclass hv

/-- A sort by keys that are read keeps in step with the sort of the scalar compiler. -/
theorem sortByKey_forall₂ {α : Type} (key : α → Read Columns.OperandKey)
    {rel : α → Node → Prop} (table : EncodesNodes cols nodes) {xs : List α} {vs : List Node}
    (h : List.Forall₂ rel xs vs)
    (hkey : ∀ x w, rel x w → ∃ i, Holds nodes i w ∧ key x = .ok (tableKey i w)) :
    ∃ sorted, Columns.sortByKey key xs = .ok sorted ∧
      List.Forall₂ rel sorted (expressionOrder vs) := by
  have hkeyed : ∃ keyed, (xs.mapM fun x => do
        let k ← key x
        pure (k, x)) = .ok keyed ∧
      List.Forall₂ (fun p w => rel p.2 w ∧ ∃ i, Holds nodes i w ∧ p.1 = tableKey i w)
        keyed vs := by
    apply mapM_forall₂ h
    intro x w hx
    obtain ⟨i, hi, hk⟩ := hkey x w hx
    refine ⟨(tableKey i w, x), ?_, hx, i, hi, rfl⟩
    rw [ok_bind _ hk]
    rfl
  obtain ⟨keyed, hread, hstep⟩ := hkeyed
  refine ⟨(sortOn Prod.fst keyed).map Prod.snd, ?_, ?_⟩
  · unfold Columns.sortByKey
    rw [ok_bind _ hread]
    rfl
  · have hsorted := forall₂_sortOn Prod.fst expressionKey hstep (by
      intro p v q w ⟨_, i, hi, hp⟩ ⟨_, j, hj, hq⟩
      rw [hp, hq]
      exact tableKey_le_iff table hi hj)
    rw [List.forall₂_map_left_iff]
    exact hsorted.imp (fun _ _ hpw => hpw.1)

/-- The operand that stands for a supported value. -/
def operandOf (id : Nat) (v : Node) : EquivalentOperand :=
  if v.isEntity .classEntity then ⟨v.constructor.tag, id, v.entityIri, none, false⟩
  else
    match restrictionParts? v with
    | some (relation, destination) =>
      ⟨v.constructor.tag, id, relation, some destination, false⟩
    | none => ⟨v.constructor.tag, id, "", none, true⟩

/-- An operand of the projection and the value it was read from. -/
structure Matches (nodes : List Node) (operand : EquivalentOperand) (v : Node) : Prop where
  read : ∃ id, Holds nodes id v ∧ operand = operandOf id v
  supported : isOperand v = true

include pre in
theorem aggregateOperand_eq (h : Holds nodes id v) (hv : isOperand v = true) :
    cols.aggregateOperand id = .ok (operandOf id v) := by
  have htable := pre.toEncodesNodes
  unfold Columns.aggregateOperand operandOf Columns.namedClassIri
  rw [ok_bind _ (nodeTag_eq htable h), ok_bind _ (tagIs_eq htable h _),
    ok_bind _ (tagIn_eq htable h _)]
  cases hclass : v.isEntity .classEntity with
  | true =>
    have hof : v.isOf .entity = true := isOf_iff.mpr (isEntity_constructor hclass)
    simp only [hof, if_true]
    rw [ok_bind _ (namedIri_eq pre h _)]
    simp only [hclass, if_true]
    rfl
  | false =>
    simp only [isOperand, hclass, Bool.false_or, List.contains_iff_mem, List.mem_append] at hv
    cases hv with
    | inl hrestriction =>
      have hcontains := List.contains_iff_mem.mpr hrestriction
      have hof : v.isOf .entity = false := by
        by_contra hne
        have hc := isOf_iff.mp (Bool.not_eq_false _ ▸ hne)
        rw [hc] at hrestriction
        exact absurd hrestriction (by decide)
      have hnot : Columns.nonprojectingTags.contains v.constructor = false := by
        simp only [Columns.restrictionTags, List.mem_cons, List.not_mem_nil, or_false]
          at hrestriction
        rcases hrestriction with hc | hc | hc | hc <;> rw [hc] <;> rfl
      obtain ⟨parts, hparts, hscalar⟩ := restrictionIris_eq pre h hcontains
      simp only [hof, hnot, Bool.false_eq_true, if_false, hscalar]
      rw [ok_bind _ hparts]
      rfl
    | inr hnonprojecting =>
      have hcontains := List.contains_iff_mem.mpr hnonprojecting
      have hshape : v.isOf .entity = false ∧ isRestriction v.constructor = false := by
        simp only [Columns.nonprojectingTags, List.mem_cons, List.not_mem_nil, or_false]
          at hnonprojecting
        rcases hnonprojecting with hc | hc | hc | hc <;> simp [Node.isOf, hc, isRestriction]
      have hnone : restrictionParts? v = none := by simp [restrictionParts?, hshape.2]
      simp only [hshape.1, hcontains, Bool.false_eq_true, if_false, if_true, hnone]
      rfl

theorem operandOf_key (table : EncodesNodes cols nodes) (h : Holds nodes id v)
    (hv : isOperand v = true) :
    Columns.operandKey (operandOf id v) = .ok (tableKey id v) := by
  cases hclass : v.isEntity .classEntity with
  | true =>
    have hc := isEntity_constructor hclass
    simp [Columns.operandKey, operandOf, hclass, tableKey, hc, pure, Except.pure]
  | false =>
    have hkey := expressionOrderKey_eq table h hclass (isOperand_validated hv)
    have hne : v.constructor.tag ≠ Constructor.tag .entity := by
      intro he
      have hc := Constructor.tag_inj he
      simp only [isOperand, hclass, Bool.false_or, hc] at hv
      exact absurd hv (by decide)
    unfold Columns.operandKey operandOf
    simp only [hclass, Bool.false_eq_true, if_false]
    cases restrictionParts? v with
    | none => simpa only [hne, if_false] using hkey
    | some parts => simpa only [hne, if_false] using hkey

include pre in
/-- The operands of an aggregate come in the order of the scalar compiler. -/
theorem aggregateOperands_eq (h : Holds nodes id v)
    (hc : Columns.aggregateTags.contains v.constructor = true) :
    ∃ operands, cols.aggregateOperands id = .ok operands ∧
      List.Forall₂ (Matches nodes) operands (expressionOrder (v.items 0)) := by
  have htable := pre.toEncodesNodes
  have hinspected : cols.inspectAggregate id = .ok none := by
    have hmem := hc
    simp only [Columns.aggregateTags, List.contains_iff_mem, List.mem_cons, List.not_mem_nil,
      or_false] at hmem
    cases hmem with
    | inl hi => exact inspected_as pre h hi
    | inr hu => exact inspected_as pre h hu
  obtain ⟨start, hstart, hr⟩ := bind_ok hinspected
  have ho := opened htable h hstart
  obtain ⟨ids, hset, hr⟩ := bind_ok hr
  obtain ⟨-, -, hids, -⟩ := ho.set htable 0 (by omega) hset
  obtain ⟨supported, hpass, hr⟩ := bind_ok hr
  have hall := allPass_ok (fallbackUnless_none hr ▸ hpass)
  have hoperands : ∃ operands, ids.mapM cols.aggregateOperand = .ok operands ∧
      List.Forall₂ (Matches nodes) operands (v.items 0) := by
    have hstep : List.Forall₂ (fun i w => Holds nodes i w ∧ isOperand w = true) ids
        (v.items 0) := by
      rw [List.forall₂_iff_zip] at hids ⊢
      refine ⟨hids.1, fun {i w} hm => ⟨hids.2 hm, ?_⟩⟩
      have htest := hall i (List.of_mem_zip hm).1
      rw [Columns.isSupportedOperand, isNamedOr_eq pre (hids.2 hm)] at htest
      exact Except.ok.inj htest
    apply mapM_forall₂ hstep
    intro i w ⟨hw, hv⟩
    exact ⟨_, aggregateOperand_eq pre hw hv, ⟨i, hw, rfl⟩, hv⟩
  obtain ⟨operands, hread, hmatch⟩ := hoperands
  obtain ⟨sorted, hsort, hsorted⟩ := sortByKey_forall₂ Columns.operandKey htable hmatch (by
    intro operand w hm
    obtain ⟨i, hi, rfl⟩ := hm.read
    exact ⟨i, hi, operandOf_key htable hi hm.supported⟩)
  refine ⟨sorted, ?_, hsorted⟩
  unfold Columns.aggregateOperands
  rw [ok_bind _ (tagIn_eq htable h _), hc, demand_true, ok_bind _ rfl, ok_bind _ hstart,
    ok_bind _ hset, ok_bind _ hread]
  exact hsort

/-- What an equivalence projects to, from its first two expressions. -/
inductive EquivalentResult (nodes : List Node) (first second : Node) :
    Option EquivalentProjection → Prop
  | named (hfirst : first.isEntity .classEntity = true)
      (hsecond : second.isEntity .classEntity = true) :
      EquivalentResult nodes first second
        (some ⟨first.entityIri, some second.entityIri, []⟩)
  | aggregate {operands : List EquivalentOperand} (hfirst : first.isEntity .classEntity = true)
      (hsecond : second.isEntity .classEntity = false)
      (htag : Columns.aggregateTags.contains second.constructor = true)
      (hoperands : List.Forall₂ (Matches nodes) operands (expressionOrder (second.items 0))) :
      EquivalentResult nodes first second (some ⟨first.entityIri, none, operands⟩)
  | unnamed (hfirst : first.isEntity .classEntity = false) :
      EquivalentResult nodes first second none
  | other (hsecond : second.isEntity .classEntity = false)
      (htag : Columns.aggregateTags.contains second.constructor = false) :
      EquivalentResult nodes first second none

include pre in
theorem equivalentProjection_eq (h : Holds nodes id v) (hc : v.constructor = .equivalentClasses) :
    ∃ first second rest p, expressionOrder (v.items 0) = first :: second :: rest ∧
      cols.equivalentProjection id = .ok p ∧ EquivalentResult nodes first second p := by
  have htable := pre.toEncodesNodes
  have hof : v.isOf .equivalentClasses = true := isOf_iff.mpr hc
  obtain ⟨start, hstart, hr⟩ := bind_ok (inspected_as pre h hc)
  have ho := opened htable h hstart
  obtain ⟨ids, hset, hr⟩ := bind_ok hr
  obtain ⟨-, hmin, hids, -⟩ := ho.set htable 0 (by omega) hset
  obtain ⟨validated, hpass, hr⟩ := bind_ok hr
  obtain ⟨_, -, hr⟩ := bind_ok hr
  have hall := allPass_ok (fallbackUnless_none hr ▸ hpass)
  have hstep : List.Forall₂ (fun i w => Holds nodes i w ∧ isValidated w = true) ids
      (v.items 0) := by
    rw [List.forall₂_iff_zip] at hids ⊢
    refine ⟨hids.1, fun {i w} hm => ⟨hids.2 hm, ?_⟩⟩
    have htest := hall i (List.of_mem_zip hm).1
    rw [Columns.isValidatedClassExpression, isNamedOr_eq pre (hids.2 hm)] at htest
    exact Except.ok.inj htest
  obtain ⟨sorted, hsort, hsorted⟩ := sortByKey_forall₂ cols.expressionKey htable hstep (by
    intro i w ⟨hw, hv⟩
    exact ⟨i, hw, expressionKey_eq pre hw hv⟩)
  have hlength : 2 ≤ (expressionOrder (v.items 0)).length := by
    rw [expressionOrder, (sortOn_perm _ _).length_eq]
    exact hmin
  unfold Columns.equivalentProjection Columns.namedClassIri
  rw [ok_bind _ (tagIs_eq htable h _), hof, demand_true, ok_bind _ rfl, ok_bind _ hstart,
    ok_bind _ hset, ok_bind _ hsort]
  generalize expressionOrder (v.items 0) = ordered at hsorted hlength
  cases hsorted with
  | nil => simp at hlength
  | @cons firstId first _ _ hf hrest =>
    cases hrest with
    | nil => simp at hlength
    | @cons secondId second _ rest hs _ =>
      simp only
      rw [ok_bind _ (namedIri_eq pre hf.1 _), ok_bind _ (namedIri_eq pre hs.1 _)]
      cases hfirst : first.isEntity .classEntity with
      | false => exact ⟨first, second, rest, none, rfl, rfl, .unnamed hfirst⟩
      | true =>
        cases hsecond : second.isEntity .classEntity with
        | true => exact ⟨first, second, rest, _, rfl, rfl, .named hfirst hsecond⟩
        | false =>
          simp only [if_true, Bool.false_eq_true, if_false]
          rw [ok_bind _ (tagIn_eq htable hs.1 _)]
          cases htag : Columns.aggregateTags.contains second.constructor with
          | false => exact ⟨first, second, rest, none, rfl, rfl, .other hsecond htag⟩
          | true =>
            obtain ⟨operands, hread, hmatch⟩ := aggregateOperands_eq pre hs.1 htag
            simp only [if_true]
            rw [ok_bind _ hread]
            exact ⟨first, second, rest, _, rfl, rfl, .aggregate hfirst hsecond htag hmatch⟩

end Equivalents

end Projector.Encoded
