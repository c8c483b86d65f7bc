import Projector.Encoded.RolePreparation
import Projector.Encoded.TableCheck
import Projector.Native.Hashing
import Projector.Native.ReadProofs

namespace Projector.Native
open Lib Projector.Core Projector.Encoded Compiler

structure ObjectPropertyExpression where
  iri : String
  owlapiHash : Int32
  deriving DecidableEq

structure RoleAxiom where
  tag : Nat
  first : String
  second : String
  spread : UInt32
  canonicalOrder : Nat
  sourceOrder : Nat
  deriving DecidableEq

namespace DirectColumns
variable (d : DirectColumns) (toLowercase : Char → List Char)

section Annotations

def annotationValueHash (id maximum : Nat) : Except KernelError Int32 := do
  let tag ← d.nodeTag id
  if tag = Constructor.iri.tag then do
    let text ← d.iri id maximum
    .ok (owlapiIriHash text)
  else if tag = Constructor.literal.tag then do
    let (lexical, _) ← d.literalParts toLowercase id maximum
    .ok (javaStringHash lexical.toList)
  else if tag = Constructor.anonymousIndividual.tag then do
    d.validateAnonymousIndividual id
    let start ← d.exactFields id 2
    let localKey ← d.scalarPayload (start + 1) COMPONENT_BYTES
    match fromUtf8? localKey with
    | some text => .ok (javaStringHash text.toList)
    | none =>
      .error (.unsupported "direct native role annotation value cannot reproduce scalar hashing")
  else if isSchemaTag tag then
    .error (.unsupported ("direct native role annotation hashing supports only IRI, literal, or " ++
      "anonymous-individual values"))
  else
    .error (.malformed ("encoded role annotation value tag " ++ toString tag ++
      " is outside structural-columns v1"))

def annotationHash (id maximum : Nat) : Except KernelError Int32 := do
  let tag ← d.nodeTag id
  if tag ≠ Constructor.annotationTerm.tag then
    .error (.malformed "encoded annotation set item does not reference an Annotation")
  else do
    let start ← d.exactFields id 3
    let property ← d.namedAnnotationPropertyIri (← d.fieldNode start) maximum
    let value ← d.annotationValueHash toLowercase (← d.fieldNode (start + 1)) maximum
    -- Nested annotations are validated but are not part of the hash.
    d.validateAnnotationSet (start + 2)
    .ok (combineHash 6311 [owlapiIriHash property, value])

/-- The loop of `annotation_set_hash`, from a partial sum. -/
def annotationHashFrom (maximum : Nat) (result : Int32) (index : Nat) :
    Nat → Except KernelError Int32
  | 0 => .ok result
  | length + 1 => do
    let hash ← d.annotationHash toLowercase (← d.itemNode index) maximum
    annotationHashFrom maximum (result + hash) (index + 1) length

def annotationSetHash (index maximum : Nat) : Except KernelError Int32 := do
  let (start, length) ← d.nodeSetRange index 0
  d.annotationHashFrom toLowercase maximum 0 start length

end Annotations

section Properties

def objectInverseIri (id maximum : Nat) : Except KernelError String := do
  let tag ← d.nodeTag id
  if tag ≠ Constructor.objectInverseOf.tag then
    .error (.malformed "encoded inverse-property cursor has the wrong constructor tag")
  else do
    let start ← d.exactFields id 1
    d.namedObjectPropertyIri (← d.fieldNode start) maximum

def objectPropertyExpressionIri (id maximum : Nat) : Except KernelError String := do
  let tag ← d.nodeTag id
  if tag = Constructor.entity.tag then d.namedObjectPropertyIri id maximum
  else if tag = Constructor.objectInverseOf.tag then d.objectInverseIri id maximum
  else if isSchemaTag tag then
    .error (.unsupported
      "direct native slice supports only named or inverse object properties here")
  else
    .error (.malformed ("encoded object-property expression tag " ++ toString tag ++
      " is outside structural-columns v1"))

def objectPropertyExpression (id maximum : Nat) :
    Except KernelError ObjectPropertyExpression := do
  let tag ← d.nodeTag id
  let iri ← d.objectPropertyExpressionIri id maximum
  let namedHash := combineHash 4153 [owlapiIriHash iri]
  .ok ⟨iri, if tag = Constructor.objectInverseOf.tag then combineHash 4241 [namedHash]
    else namedHash⟩

def validateObjectPropertyChain (id maximum : Nat) : Except KernelError Unit := do
  let tag ← d.nodeTag id
  if tag ≠ Constructor.objectPropertyChain.tag then
    .error (.malformed "encoded object-property-chain cursor has the wrong constructor tag")
  else do
    let start ← d.exactFields id 1
    let (itemStart, length) ← d.nodeSequenceRange start 2
    let _ ← (List.range' itemStart length).mapM fun index => do
      d.objectPropertyExpression (← d.itemNode index) maximum
    .ok ()

/-- Validate a sub-property axiom; the result tells whether it is a chain. -/
def validateSubObjectPropertyOf (id maximum : Nat) : Except KernelError Bool := do
  let tag ← d.nodeTag id
  if tag ≠ Constructor.subObjectPropertyOf.tag then
    .error (.malformed "encoded sub-object-property cursor has the wrong constructor tag")
  else do
    let start ← d.exactFields id 3
    let firstId ← d.fieldNode start
    let firstTag ← d.nodeTag firstId
    let isChain := firstTag == Constructor.objectPropertyChain.tag
    if isChain then d.validateObjectPropertyChain firstId maximum
    else do
      let _ ← d.objectPropertyExpression firstId maximum
      .ok ()
    let _ ← d.objectPropertyExpression (← d.fieldNode (start + 1)) maximum
    let _ ← d.annotationSetHash toLowercase (start + 2) maximum
    .ok isChain

end Properties

section Rows

def roleAxiomParts (id expectedTag maximum : Nat) :
    Except KernelError (ObjectPropertyExpression × ObjectPropertyExpression × Int32) := do
  let tag ← d.nodeTag id
  if tag ≠ expectedTag ∨ (expectedTag ≠ Constructor.subObjectPropertyOf.tag ∧
      expectedTag ≠ Constructor.inverseObjectProperties.tag) then
    .error (.malformed "encoded role-axiom cursor has the wrong constructor tag")
  else do
    let start ← d.exactFields id 3
    let first ← d.objectPropertyExpression (← d.fieldNode start) maximum
    let second ← d.objectPropertyExpression (← d.fieldNode (start + 1)) maximum
    let annotationHash ← d.annotationSetHash toLowercase (start + 2) maximum
    .ok (first, second, annotationHash)

/-- The hash of a role axiom, from those of its parts. -/
def rowHash (expectedTag : Nat) (first second : ObjectPropertyExpression)
    (annotationHash : Int32) : Int32 :=
  if expectedTag = Constructor.subObjectPropertyOf.tag then
    combineHash 1823 [first.owlapiHash, second.owlapiHash, annotationHash]
  else combineHash 1229 [first.owlapiHash + second.owlapiHash, annotationHash]

def roleAxiomRow (id expectedTag maximum canonicalOrder sourceOrder : Nat) :
    Except KernelError RoleAxiom := do
  let (first, second, annotationHash) ← d.roleAxiomParts toLowercase id expectedTag maximum
  let owlapiHash := rowHash expectedTag first second annotationHash
  .ok ⟨expectedTag, first.iri, second.iri, spreadHash owlapiHash, canonicalOrder, sourceOrder⟩

end Rows

end DirectColumns

section Agreement
variable {d : DirectColumns} {nodes : List Node} {toLowercase : Char → List Char} {maximum : Nat}
  (table : EncodesNodes d.columns nodes) (compat : Compatible d toLowercase maximum)
  {id : Nat} {v : Node}

include table compat in
theorem annotationValueHash_native (h : Holds nodes id v)
    (hv : CoreAnnotationValue d.columns.textRules v) {hash : Int}
    (hhash : owlapiHash v = some hash) :
    ∃ native, d.annotationValueHash toLowercase id maximum = .ok native ∧ native.toInt = hash := by
  have htag := nodeTag_of (nodeTag_eq table h)
  unfold DirectColumns.annotationValueHash
  rw [ok_bind _ htag]
  cases hv with
  | @iri text htext =>
    cases hhash
    refine ⟨owlapiIriHash text, ?_, owlapiIriHash_toInt text⟩
    have hread := iri_of compat (iriText_of table h htext)
    change (d.iri id maximum >>= fun _ => _) = _
    rw [ok_bind _ hread]
  | @literal lexical datatype language hlexical hdatatype hlanguage =>
    cases hhash
    refine ⟨javaStringHash lexical.toList, ?_, javaStringHash_toInt _⟩
    have hread := literalParts_native compat
      (literalParts_of table h hlexical hdatatype hlanguage)
    change (d.literalParts toLowercase id maximum >>= fun _ => _) = _
    rw [ok_bind _ hread]
  | @anonymous scope key hscope hkey =>
    obtain ⟨start, hstart, hfields⟩ := exactFields_eq table 2 h rfl
    have hopen := exactFields_of hstart
    have hdocument := scalarPayload_of compat.addressed (bytesField_eq hfields.first)
    have hlocal := scalarPayload_of compat.addressed (bytesField_eq (hfields 1 _ rfl))
    have hvalid : d.validateAnonymousIndividual id = .ok () := by
      have hempty : key.isEmpty = false := by
        cases key with
        | nil => exact absurd rfl hkey
        | cons b rest => rfl
      unfold DirectColumns.validateAnonymousIndividual
      rw [ok_bind _ htag, if_neg (by simp [anonymousIndividual]), ok_bind _ hopen,
        ok_bind _ hdocument, ok_bind _ hlocal, if_neg (by simp [hscope]), hempty]
      rfl
    have hkeyHash : (fromUtf8? key >>= fun key => some (Compiler.javaStringHash key)) =
        some hash := by
      rw [← hhash, owlapiHash_eq]
      rfl
    cases htext : fromUtf8? key with
    | none =>
      rw [htext] at hkeyHash
      cases hkeyHash
    | some text =>
      rw [htext] at hkeyHash
      cases hkeyHash
      refine ⟨javaStringHash text.toList, ?_, javaStringHash_toInt _⟩
      change (d.validateAnonymousIndividual id >>= fun _ => _) = _
      rw [ok_bind _ hvalid, ok_bind _ hopen, ok_bind _ hlocal, htext]

include table compat in
theorem annotationHash_native (h : Holds nodes id v) (hv : CoreAnnotation d.columns.textRules v)
    {hash : Int} (hhash : owlapiHash v = some hash) :
    ∃ native, d.annotationHash toLowercase id maximum = .ok native ∧ native.toInt = hash := by
  cases hv with
  | @mk property value nested hproperty hvalue hnested =>
    obtain ⟨start, hstart, hfields⟩ := exactFields_eq table 3 h rfl
    obtain ⟨p, hp, hpholds⟩ := fieldNode_eq table hfields.first
    obtain ⟨w, hw, hwholds⟩ := fieldNode_eq table (hfields 1 _ rfl)
    obtain ⟨ids, hids, -⟩ := annotationSet_of table (hfields 2 _ rfl)
      (fun a ha => (hnested a ha).constructor_eq)
    obtain ⟨-, -, -, hvalid⟩ := annotationSet_native hids
    have hread : d.namedAnnotationPropertyIri p maximum = .ok property :=
      named_of compat (namedIri_of table hpholds hproperty)
    rw [annotation_hash] at hhash
    obtain ⟨valueHash, hvalueHash, rfl⟩ := Option.map_eq_some_iff.mp hhash
    obtain ⟨native, hnative, hsame⟩ :=
      annotationValueHash_native table compat hwholds hvalue hvalueHash
    refine ⟨combineHash 6311 [owlapiIriHash property, native], ?_, ?_⟩
    · unfold DirectColumns.annotationHash
      rw [ok_bind _ (nodeTag_of (nodeTag_eq table h)), if_neg (by simp),
        ok_bind _ (exactFields_of hstart), ok_bind _ (fieldNode_of hp), ok_bind _ hread,
        ok_bind _ (fieldNode_of hw), ok_bind _ hnative, ok_bind _ hvalid]
    · rw [combineHash_toInt]
      simp only [List.map_cons, List.map_nil, owlapiIriHash_toInt, hsame]
      rfl

include table compat in
/-- The sums of the hashes keep in step, annotation by annotation. -/
theorem annotationHashFrom_native {index : Nat} {ids : List Nat} {items : List Node}
    (hitems : ItemsFrom d index ids) (h : List.Forall₂ (Holds nodes) ids items)
    (hall : ∀ a ∈ items, CoreAnnotation d.columns.textRules a) {result : Int32} {hash : Int}
    (hhash : setHashFrom result.toInt items = some hash) :
    ∃ native, d.annotationHashFrom toLowercase maximum result index ids.length = .ok native ∧
      native.toInt = hash := by
  induction h generalizing index result with
  | nil =>
    cases hhash
    exact ⟨result, rfl, rfl⟩
  | @cons i a ids items ha _ ih =>
    cases hitems with
    | cons hid hrest =>
      unfold setHashFrom at hhash
      obtain ⟨itemHash, hitem, hhash⟩ := Option.bind_eq_some_iff.mp hhash
      obtain ⟨native, hnative, rfl⟩ :=
        annotationHash_native table compat ha (hall a List.mem_cons_self) hitem
      rw [← toInt_sum] at hhash
      obtain ⟨total, htotal, hsame⟩ :=
        ih hrest (fun b hb => hall b (List.mem_cons_of_mem a hb)) hhash
      refine ⟨total, ?_, hsame⟩
      rw [List.length_cons]
      unfold DirectColumns.annotationHashFrom
      rw [ok_bind _ hid, ok_bind _ hnative]
      exact htotal

include table compat in
theorem annotationSetHash_native {index : Nat} {items : List Node}
    (h : FieldCell d.columns nodes index (.set items))
    (hall : ∀ a ∈ items, CoreAnnotation d.columns.textRules a) {hash : Int}
    (hhash : setHashFrom 0 items = some hash) :
    ∃ native, d.annotationSetHash toLowercase index maximum = .ok native ∧ native.toInt = hash := by
  obtain ⟨ids, hset, hids⟩ := annotationSet_of table h (fun a ha => (hall a ha).constructor_eq)
  obtain ⟨start, hrange, hitems, -⟩ := annotationSet_native hset
  obtain ⟨native, hnative, hsame⟩ :=
    annotationHashFrom_native table compat hitems hids hall
      (show setHashFrom (0 : Int32).toInt items = some hash from hhash)
  refine ⟨native, ?_, hsame⟩
  unfold DirectColumns.annotationSetHash
  rw [ok_bind _ hrange]
  exact hnative

include table compat in
theorem objectPropertyExpression_native (h : Holds nodes id v)
    (hv : CoreProperty d.columns.textRules v) :
    ∃ expression, d.objectPropertyExpression id maximum = .ok expression ∧
      namedProperty? v = some expression.iri ∧
      owlapiHash v = some expression.owlapiHash.toInt := by
  have htag := nodeTag_of (nodeTag_eq table h)
  unfold DirectColumns.objectPropertyExpression DirectColumns.objectPropertyExpressionIri
  rw [ok_bind _ htag, ok_bind _ htag]
  cases hv with
  | @named name hname =>
    have hread : d.namedObjectPropertyIri id maximum = .ok name :=
      named_of compat (namedIri_of table h hname)
    refine ⟨⟨name, combineHash 4153 [owlapiIriHash name]⟩, ?_, rfl, ?_⟩
    · change (d.namedObjectPropertyIri id maximum >>= fun _ => _) = _
      rw [ok_bind _ hread]
      rfl
    · rw [combineHash_toInt, List.map_cons, owlapiIriHash_toInt]
      rfl
  | @inverse name hname =>
    obtain ⟨start, hstart, hfields⟩ := exactFields_eq table 1 h rfl
    obtain ⟨j, hj, hchild⟩ := fieldNode_eq table hfields.first
    have hnamed : d.namedObjectPropertyIri j maximum = .ok name :=
      named_of compat (namedIri_of table hchild hname)
    have hread : d.objectInverseIri id maximum = .ok name := by
      unfold DirectColumns.objectInverseIri
      rw [ok_bind _ htag, if_neg (by simp), ok_bind _ (exactFields_of hstart),
        ok_bind _ (fieldNode_of hj)]
      exact hnamed
    refine ⟨⟨name, combineHash 4241 [combineHash 4153 [owlapiIriHash name]]⟩, ?_, rfl, ?_⟩
    · change (d.objectInverseIri id maximum >>= fun _ => _) = _
      rw [ok_bind _ hread]
      rfl
    · rw [combineHash_toInt, List.map_cons, combineHash_toInt, List.map_cons, owlapiIriHash_toInt]
      rfl

include table compat in
/-- The native row of a role axiom has the hash that the scalar compiler combines. -/
theorem roleAxiomRow_native (h : Holds nodes id v) (hv : CoreRoleAxiom d.columns.textRules v)
    (hchain : isChainAxiom v = false) {hash : Int} (hhash : owlapiHash v = some hash)
    (canonicalOrder sourceOrder : Nat) :
    ∃ first second annotations,
      d.roleAxiomParts toLowercase id v.constructor.tag maximum =
        .ok (first, second, annotations) ∧
      namedProperty? (v.child 0) = some first.iri ∧
      namedProperty? (v.child 1) = some second.iri ∧
      (DirectColumns.rowHash v.constructor.tag first second annotations).toInt = hash ∧
      d.roleAxiomRow toLowercase id v.constructor.tag maximum canonicalOrder sourceOrder =
        .ok ⟨v.constructor.tag, first.iri, second.iri,
          spreadHash (DirectColumns.rowHash v.constructor.tag first second annotations),
          canonicalOrder, sourceOrder⟩ := by
  obtain ⟨start, i, j, shape⟩ := roleFields table h hv
  have parts := roleParts hv
  have hproperty : CoreProperty d.columns.textRules (v.child 0) := by
    rcases parts.first with ⟨-, hfirst⟩ | ⟨-, hfirst⟩
    · exact hfirst
    · exact absurd (isOf_iff.mpr hfirst) (by simpa [isChainAxiom] using hchain)
  obtain ⟨first, hfirst, hfirstNamed, hfirstHash⟩ :=
    objectPropertyExpression_native table compat shape.holdsFirst hproperty
  obtain ⟨second, hsecond, hsecondNamed, hsecondHash⟩ :=
    objectPropertyExpression_native table compat shape.holdsSecond parts.second
  have hcombined := parts.hash hfirstHash hsecondHash
  rw [hhash] at hcombined
  obtain ⟨total, htotal, hcombine⟩ := Option.map_eq_some_iff.mp hcombined.symm
  obtain ⟨annotations, hannotations, rfl⟩ :=
    annotationSetHash_native table compat shape.annotations parts.annotations htotal
  have hread : d.roleAxiomParts toLowercase id v.constructor.tag maximum =
      .ok (first, second, annotations) := by
    have hrole : ¬(v.constructor.tag ≠ v.constructor.tag ∨
        (v.constructor.tag ≠ Constructor.subObjectPropertyOf.tag ∧
          v.constructor.tag ≠ Constructor.inverseObjectProperties.tag)) := by
      rcases parts.constructor with hc | hc <;> simp [hc]
    unfold DirectColumns.roleAxiomParts
    rw [ok_bind _ (nodeTag_of (nodeTag_eq table h)), if_neg hrole,
      ok_bind _ (exactFields_of shape.opened), ok_bind _ (fieldNode_of shape.readFirst),
      ok_bind _ hfirst, ok_bind _ (fieldNode_of shape.readSecond), ok_bind _ hsecond,
      ok_bind _ hannotations]
  refine ⟨first, second, annotations, hread, hfirstNamed, hsecondNamed, ?_, ?_⟩
  · rw [← hcombine]
    unfold DirectColumns.rowHash
    rcases parts.constructor with hc | hc
    · rw [hc, if_pos rfl, if_pos rfl, combineHash_toInt]
      rfl
    · rw [hc, if_neg (by decide), if_neg (by decide), combineHash_toInt]
      simp only [List.map_cons, List.map_nil, toInt_sum]
      rfl
  · unfold DirectColumns.roleAxiomRow
    rw [ok_bind _ hread]

end Agreement

/-- The scalar, the encoded and the native compiler hash a role axiom to one number, so
that its spread falls in the same bucket of every table. -/
theorem role_axiom_hashes_agree {d : DirectColumns} {nodes : List Node}
    {toLowercase : Char → List Char} {maximum id : Nat} {v : Node}
    (table : EncodesNodes d.columns nodes) (compat : Compatible d toLowercase maximum)
    (h : Holds nodes id v) (hv : CoreRoleAxiom d.columns.textRules v)
    (hchain : isChainAxiom v = false) (hutf8 : opaquelyAnnotated v = false)
    (canonicalOrder sourceOrder : Nat) :
    ∃ hash row, owlapiHash v = some hash ∧
      d.columns.roleAxiomRow v.constructor id canonicalOrder = .ok row ∧ row.owlapiHash = hash ∧
      ∃ first second annotations native,
        d.roleAxiomParts toLowercase id v.constructor.tag maximum =
          .ok (first, second, annotations) ∧
        (DirectColumns.rowHash v.constructor.tag first second annotations).toInt = hash ∧
        d.roleAxiomRow toLowercase id v.constructor.tag maximum canonicalOrder sourceOrder =
          .ok native ∧
        native.spread.toNat = spreadOf hash ∧
        ∀ capacity, native.spread.toNat &&& (2 ^ capacity - 1) = spreadOf hash % 2 ^ capacity := by
  obtain ⟨hash, hhash⟩ := Option.isSome_iff_exists.mp (hv.hashable_iff.mpr hutf8)
  rcases roleAxiomRow_of table h hv hchain canonicalOrder with
    ⟨-, row, hrow, hof⟩ | ⟨hblocked, -⟩
  · have hsame : row.owlapiHash = hash := Option.some.inj (hof.hash.symm.trans hhash)
    obtain ⟨first, second, annotations, hparts, -, -, hnative, hread⟩ :=
      roleAxiomRow_native table compat h hv hchain hhash canonicalOrder sourceOrder
    have hspread : (spreadHash (DirectColumns.rowHash v.constructor.tag first second
        annotations)).toNat = spreadOf hash := by
      rw [spreadHash_toNat, hnative]
    refine ⟨hash, row, hhash, hrow, hsame, first, second, annotations, _, hparts, hnative, hread,
      hspread, ?_⟩
    intro capacity
    rw [Nat.and_two_pow_sub_one_eq_mod]
    exact congrArg (· % 2 ^ capacity) hspread
  · rw [hutf8] at hblocked
    cases hblocked

section Samples

def blankNote : Node :=
  .mk .annotationTerm [.node (entity .annotationProperty "a"),
    .node (anonymousIndividual (List.replicate 32 0) [98]), .set []]

/-- A sub-property axiom that is annotated by a blank node. -/
def notedAxiom : Node :=
  .mk .subObjectPropertyOf
    [.node (objectProperty "p"), .node (objectProperty "q"), .set [blankNote]]

def notedNodes : List Node :=
  [iri "a", iri "p", iri "q", objectProperty "p", objectProperty "q",
   entity .annotationProperty "a", anonymousIndividual (List.replicate 32 0) [98], blankNote,
   notedAxiom]

def notedColumns : Columns where
  rootKinds := [2]
  rootIds := [9]
  nodeTags := [1, 1, 1, 2, 2, 2, 3, 5, 70]
  nodeFieldOffsets := [0, 1, 2, 3, 5, 7, 9, 11, 14, 17]
  fieldKinds := [2, 2, 2, 5, 1, 5, 1, 5, 1, 3, 3, 1, 1, 6, 1, 1, 6]
  fieldValues := [0, 1, 2, 3, 2, 3, 3, 18, 1, 37, 69, 6, 7, 0, 4, 5, 0]
  fieldLengths := [1, 1, 1, 15, 0, 15, 0, 19, 0, 32, 1, 0, 0, 0, 0, 0, 1]
  itemKinds := [1]
  itemValues := [8]
  itemLengths := [0]
  scalarBytes := utf8 "apqobject_propertyannotation_property" ++ List.replicate 32 0 ++ [98]
  maxIriBytes := 64
  maxLiteralBytes := 64
  lowered := id

theorem noted_encodes : EncodesNodes notedColumns notedNodes :=
  encodes_sound (by decide +kernel)

theorem noted_compatible : Compatible ⟨notedColumns, []⟩ (fun c => [c]) 64 where
  addressed := by decide +kernel
  limit := le_refl 64
  lowercase text := by simp [notedColumns]

theorem noted_core : CoreRoleAxiom notedColumns.textRules notedAxiom := by
  have hshort : ∀ text ∈ ["a", "p", "q"], notedColumns.textRules.iri text := by
    intro text htext
    simp only [Columns.textRules, notedColumns]
    revert text
    decide +kernel
  refine .subProperty (.named (hshort _ (by simp))) (.named (hshort _ (by simp))) ?_
  intro a ha
  rw [List.mem_singleton.mp ha]
  exact .mk (hshort _ (by simp)) (.anonymous rfl (List.cons_ne_nil _ _)) (fun b hb => by cases hb)

theorem role_axiom_hashes_agree_sample : ∃ hash row, owlapiHash notedAxiom = some hash ∧
    notedColumns.roleAxiomRow .subObjectPropertyOf 9 0 = .ok row ∧ row.owlapiHash = hash := by
  obtain ⟨hash, row, hhash, hrow, hsame, -⟩ :=
    role_axiom_hashes_agree noted_encodes noted_compatible
      (show Holds notedNodes 9 notedAxiom from ⟨by omega, rfl⟩) noted_core rfl
      (by decide +kernel) 0 1
  exact ⟨hash, row, hhash, hrow, hsame⟩

end Samples

end Projector.Native
