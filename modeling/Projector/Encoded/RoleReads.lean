import Projector.Encoded.AxiomShapes
import Projector.Compiler.RoleAxioms

namespace Projector.Encoded
open Lib Projector.Core Compiler

section Cells
variable {cols : Columns} {nodes : List Node} (table : EncodesNodes cols nodes)
  {id index minimum : Nat} {v : Node}

include table in
/-- The fields of a value are where its row says. -/
theorem exactFields_eq (arity : Nat) (h : Holds nodes id v) (harity : v.fields.length = arity) :
    ∃ start, cols.exactFields id arity = .ok start ∧ FieldsAt cols nodes start v.fields := by
  obtain ⟨start, hrange, hfields⟩ := fieldRange_eq table h
  refine ⟨start, ?_, hfields⟩
  unfold Columns.exactFields
  rw [ok_bind _ hrange]
  simp only [harity, Nat.add_sub_cancel_left, ne_eq, not_true_eq_false, if_false]
  rfl

theorem FieldsAt.first {start : Nat} {c : Component} {rest : List Component}
    (h : FieldsAt cols nodes start (c :: rest)) : FieldCell cols nodes start c := h 0 c rfl

include table in
theorem fieldNode_eq {w : Node} (h : FieldCell cols nodes index (.node w)) :
    ∃ j, cols.fieldNode index = .ok j ∧ Holds nodes j w := by
  cases h with
  | @plain _ j _ _ hrow hc =>
    cases hc with
    | node hj =>
      obtain ⟨hk, hv, hl⟩ := read_field hrow
      refine ⟨j, ?_, hj⟩
      unfold Columns.fieldNode
      rw [ok_bind _ hk, ok_bind _ hl]
      simp only [ne_eq, not_true_eq_false, or_self, if_false]
      rw [ok_bind _ hv]
      exact nodeId_eq table hj

theorem scalarPayload_eq {kind offset length : Nat} {payload : Bytes}
    (hrow : FieldRow cols index kind offset length) (h : Scalar cols offset length payload) :
    cols.scalarPayload index kind = .ok payload := by
  obtain ⟨hk, hv, hl⟩ := read_field hrow
  unfold Columns.scalarPayload
  rw [ok_bind _ hk, beq_self_eq_true, demand_true, ok_bind _ rfl, ok_bind _ hv, ok_bind _ hl,
    decide_eq_true h.inside, demand_true, ok_bind _ rfl, h.holds]
  rfl

theorem textField_eq {text : String} (h : FieldCell cols nodes index (.text text)) :
    cols.scalarPayload index COMPONENT_TEXT = .ok (utf8 text) := by
  cases h with
  | plain hrow hc =>
    cases hc with
    | text ht => exact scalarPayload_eq hrow ht

theorem bytesField_eq {payload : Bytes} (h : FieldCell cols nodes index (.bytes payload)) :
    cols.scalarPayload index COMPONENT_BYTES = .ok payload := by
  cases h with
  | plain hrow hc =>
    cases hc with
    | bytes hb => exact scalarPayload_eq hrow hb

theorem enumField_eq {kind : EntityKind} (h : FieldCell cols nodes index (.enum kind)) :
    cols.scalarPayload index COMPONENT_ENUM = .ok (utf8 kind.text) := by
  cases h with
  | plain hrow hc =>
    cases hc with
    | enum he => exact scalarPayload_eq hrow he

/-- A text within its limit is read back. -/
theorem boundedText_eq {text exceeds notUtf8 : String} {maximum : Nat}
    (h : FieldCell cols nodes index (.text text)) (hlimit : (utf8 text).length ≤ maximum) :
    cols.boundedText index maximum exceeds notUtf8 = .ok text := by
  unfold Columns.boundedText
  rw [ok_bind _ (textField_eq h)]
  simp only [Nat.not_lt.mpr hlimit, if_false, fromUtf8_utf8]
  rfl

include table in
theorem nodeSet_eq {items : List Node} (h : FieldCell cols nodes index (.set items))
    (hminimum : minimum ≤ items.length) :
    ∃ ids, cols.nodeSet index minimum = .ok ids ∧ List.Forall₂ (Holds nodes) ids items := by
  cases h with
  | plain hrow hc => cases hc
  | @set start ids items hrow hinside hitems hsorted =>
    refine ⟨ids, ?_, hitems.holds⟩
    obtain ⟨hk, hv, hl⟩ := read_field hrow
    have hpositive : ∀ i ∈ ids, 0 < i := by
      intro i hi
      obtain ⟨k, hk, rfl⟩ := List.getElem_of_mem hi
      have hlen := hitems.holds.length_eq
      exact ((List.forall₂_iff_get.mp hitems.holds).2 k hk (hlen ▸ hk)).positive
    have hrange : (decide (start ≤ cols.itemCount) &&
        decide (items.length ≤ cols.itemCount - start)) = true := by
      simp only [Bool.and_eq_true, decide_eq_true_eq]
      omega
    unfold Columns.nodeSet
    rw [ok_bind _ hk, beq_self_eq_true, demand_true, ok_bind _ rfl, ok_bind _ hv, ok_bind _ hl,
      hrange, demand_true, ok_bind _ rfl, if_neg (Nat.not_lt.mpr hminimum)]
    exact setItems_eq table hitems hsorted hpositive

end Cells

/-- The texts that a table admits. -/
def Columns.textRules (cols : Columns) : TextRules where
  iri text := (utf8 text).length ≤ cols.maxIriBytes
  lexical text := (utf8 text).length ≤ cols.maxLiteralBytes
  language text := (utf8 text).length ≤ cols.maxLiteralBytes ∧ text ≠ "" ∧ text = cols.lowered text

section Texts
variable {cols : Columns} {nodes : List Node} (table : EncodesNodes cols nodes) {id : Nat} {v : Node}

include table in
theorem iriText_of {text : String} (h : Holds nodes id (iri text)) (hrule : cols.textRules.iri text) :
    cols.iriText id = .ok text := by
  obtain ⟨start, hstart, hfields⟩ := exactFields_eq table 1 h rfl
  unfold Columns.iriText
  rw [ok_bind _ (tagIs_eq table h .iri)]
  change (demand true _ >>= fun _ => _) = _
  rw [demand_true, ok_bind _ rfl, ok_bind _ hstart]
  exact boundedText_eq hfields.first hrule

include table in
theorem entity_of {kind : EntityKind} {text : String} (h : Holds nodes id (entity kind text)) :
    ∃ j, cols.entity id = .ok (kind, j) ∧ Holds nodes j (iri text) := by
  obtain ⟨start, hstart, hfields⟩ := exactFields_eq table 2 h rfl
  obtain ⟨j, hj, hiri⟩ := fieldNode_eq table (hfields 1 _ rfl)
  refine ⟨j, ?_, hiri⟩
  unfold Columns.entity
  rw [ok_bind _ (tagIs_eq table h .entity)]
  change (demand true _ >>= fun _ => _) = _
  rw [demand_true, ok_bind _ rfl, ok_bind _ hstart, ok_bind _ (enumField_eq hfields.first)]
  simp only [entityKindOf?_text]
  rw [ok_bind _ hj, ok_bind _ (tagIs_eq table hiri .iri)]
  change (demand true _ >>= fun _ => _) = _
  rw [demand_true, ok_bind _ rfl]
  rfl

include table in
theorem namedIri_of {kind : EntityKind} {text : String} (h : Holds nodes id (entity kind text))
    (hrule : cols.textRules.iri text) : cols.namedIri kind id = .ok (some text) := by
  obtain ⟨j, hj, hiri⟩ := entity_of table h
  unfold Columns.namedIri
  rw [ok_bind _ (tagIs_eq table h .entity)]
  change (cols.entity id >>= fun _ => _) = _
  rw [ok_bind _ hj]
  simp only [if_true]
  rw [iriText_of table hiri hrule]
  rfl

include table in
theorem namedIri_none (h : Holds nodes id v) (hc : v.constructor ≠ .entity) (kind : EntityKind) :
    cols.namedIri kind id = .ok none := by
  have hof : v.isOf .entity = false := by simp [Node.isOf, hc]
  unfold Columns.namedIri
  rw [ok_bind _ (tagIs_eq table h .entity), hof]
  rfl

include table in
/-- The parts of a property expression are read as they are. -/
theorem propertyParts_of (h : Holds nodes id v) (hv : CoreProperty cols.textRules v) :
    ∃ name hash, cols.projectedObjectPropertyParts id = .ok (some (name, hash)) ∧
      namedProperty? v = some name ∧ owlapiHash v = some hash := by
  unfold Columns.projectedObjectPropertyParts Columns.namedObjectPropertyIri
  cases hv with
  | @named name hname =>
    refine ⟨name, combine 4153 [owlapiIriHash name], ?_, rfl, rfl⟩
    rw [ok_bind _ (namedIri_of table h hname)]
    rfl
  | @inverse name hname =>
    refine ⟨name, combine 4241 [combine 4153 [owlapiIriHash name]], ?_, rfl, rfl⟩
    obtain ⟨start, hstart, hfields⟩ := exactFields_eq table 1 h rfl
    obtain ⟨j, hj, hchild⟩ := fieldNode_eq table hfields.first
    rw [ok_bind _ (namedIri_none table h (by simp) _)]
    change (cols.tagIs id .objectInverseOf >>= fun _ => _) = _
    rw [ok_bind _ (tagIs_eq table h .objectInverseOf)]
    change (cols.exactFields id 1 >>= fun _ => _) = _
    rw [ok_bind _ hstart, ok_bind _ hj, ok_bind _ (namedIri_of table hchild hname)]
    rfl

include table in
theorem literalParts_of {lexical datatype : String} {language : Component}
    (h : Holds nodes id (.mk .literal [.text lexical, .node (entity .datatype datatype), language]))
    (hlexical : cols.textRules.lexical lexical) (hdatatype : cols.textRules.iri datatype)
    (hlanguage : CoreLanguage cols.textRules datatype language) :
    cols.literalParts id = .ok (lexical, datatype) := by
  obtain ⟨start, hstart, hfields⟩ := exactFields_eq table 3 h rfl
  obtain ⟨j, hj, hchild⟩ := fieldNode_eq table (hfields 1 _ rfl)
  unfold Columns.literalParts
  rw [ok_bind _ (tagIs_eq table h .literal)]
  change (demand true _ >>= fun _ => _) = _
  rw [demand_true, ok_bind _ rfl, ok_bind _ hstart]
  unfold Columns.textScalar Columns.namedDatatypeIri
  rw [ok_bind _ (boundedText_eq hfields.first hlexical), ok_bind _ hj,
    ok_bind _ (namedIri_of table hchild hdatatype)]
  have hcell := hfields 2 _ rfl
  cases hlanguage with
  | none =>
    cases hcell with
    | plain hrow hc =>
      cases hc
      obtain ⟨hk, hv, hl⟩ := read_field hrow
      simp only
      rw [ok_bind _ hk, if_pos rfl, ok_bind _ hv, ok_bind _ hl]
      rfl
  | @tagged text htext hplain =>
    obtain ⟨hlimit, hne, hlowered⟩ := htext
    have hread : cols.boundedText (start + 2) cols.maxLiteralBytes
        ("encoded subset " ++ "literal language" ++ " exceeds its public byte limit")
        ("encoded subset " ++ "literal language" ++ " is not UTF-8") = .ok text :=
      boundedText_eq hcell hlimit
    obtain ⟨kind, value, length, hrow, hkind⟩ := hcell.row
    obtain ⟨hk, -, -⟩ := read_field hrow
    have htagged : kind = COMPONENT_TEXT := hkind
    have hother : COMPONENT_TEXT ≠ COMPONENT_NONE := by decide
    simp only
    rw [ok_bind _ hk, htagged, if_neg hother, if_pos rfl, ok_bind _ hread]
    have hcanonical : (decide (text ≠ "") && text == cols.lowered text &&
        datatype == RDF_PLAIN_LITERAL_IRI) = true := by
      simp only [Bool.and_eq_true, decide_eq_true_eq, beq_iff_eq]
      exact ⟨⟨hne, hlowered⟩, hplain⟩
    rw [hcanonical, demand_true, ok_bind _ rfl]
    rfl

end Texts

section Annotations
variable {cols : Columns} {nodes : List Node} (table : EncodesNodes cols nodes)
  {id index : Nat} {v : Node}

include table in
theorem annotationSet_of {items : List Node} (h : FieldCell cols nodes index (.set items))
    (hitems : ∀ a ∈ items, a.constructor = .annotationTerm) :
    ∃ ids, cols.annotationSet index = .ok ids ∧ List.Forall₂ (Holds nodes) ids items := by
  obtain ⟨ids, hset, hids⟩ := nodeSet_eq table h (Nat.zero_le _)
  refine ⟨ids, ?_, hids⟩
  have hall : ∀ i ∈ ids, cols.tagIs i .annotationTerm = .ok true := by
    intro i hi
    obtain ⟨k, hk, rfl⟩ := List.getElem_of_mem hi
    have hlen := hids.length_eq
    have hholds := (List.forall₂_iff_get.mp hids).2 k hk (hlen ▸ hk)
    have htag := tagIs_eq table hholds .annotationTerm
    rwa [isOf_iff.mpr (hitems _ (List.get_mem _ _))] at htag
  unfold Columns.annotationSet
  rw [ok_bind _ hset, ok_bind _ (demandAll_pass hall)]
  rfl

include table in
theorem annotationValueHash_of (h : Holds nodes id v) (hv : CoreAnnotationValue cols.textRules v) :
    cols.annotationValueHash id = readHash (owlapiHash v) := by
  unfold Columns.annotationValueHash
  rw [ok_bind _ (nodeTag_eq table h)]
  cases hv with
  | @iri text htext =>
    change (cols.iriText id >>= fun _ => _) = _
    rw [ok_bind _ (iriText_of table h htext)]
    rfl
  | literal hlexical hdatatype hlanguage =>
    change (cols.literalParts id >>= fun _ => _) = _
    rw [ok_bind _ (literalParts_of table h hlexical hdatatype hlanguage)]
    rfl
  | @anonymous scope key hscope hkey =>
    obtain ⟨start, hstart, hfields⟩ := exactFields_eq table 2 h rfl
    change (cols.exactFields id 2 >>= fun _ => _) = _
    rw [ok_bind _ hstart, ok_bind _ (bytesField_eq (hfields 1 _ rfl)), owlapiHash_eq]
    change _ = readHash (fromUtf8? key >>= fun key => some (javaStringHash key))
    cases fromUtf8? key <;> rfl

include table in
theorem annotationHash_of (h : Holds nodes id v) (hv : CoreAnnotation cols.textRules v) :
    cols.annotationHash id = readHash (owlapiHash v) := by
  cases hv with
  | @mk property value nested hproperty hvalue hnested =>
    obtain ⟨start, hstart, hfields⟩ := exactFields_eq table 3 h rfl
    obtain ⟨p, hp, hpholds⟩ := fieldNode_eq table hfields.first
    obtain ⟨w, hw, hwholds⟩ := fieldNode_eq table (hfields 1 _ rfl)
    obtain ⟨ids, hids, -⟩ := annotationSet_of table (hfields 2 _ rfl)
      (fun a ha => (hnested a ha).constructor_eq)
    unfold Columns.annotationHash Columns.namedAnnotationPropertyIri
    rw [ok_bind _ (tagIs_eq table h .annotationTerm)]
    change (demand true _ >>= fun _ => _) = _
    rw [demand_true, ok_bind _ rfl, ok_bind _ hstart, ok_bind _ hp,
      ok_bind _ (namedIri_of table hpholds hproperty)]
    simp only
    rw [ok_bind _ hw, annotationValueHash_of table hwholds hvalue, annotation_hash]
    cases owlapiHash value with
    | none => rfl
    | some hash =>
      simp only [readHash]
      rw [ok_bind _ rfl, ok_bind _ hids]
      rfl

include table in
theorem annotationHashFrom_of {ids : List Nat} {items : List Node}
    (h : List.Forall₂ (Holds nodes) ids items)
    (hall : ∀ a ∈ items, CoreAnnotation cols.textRules a) (result : Int) :
    cols.annotationHashFrom result ids = readHash (setHashFrom result items) := by
  induction h generalizing result with
  | nil => rfl
  | @cons i a ids items ha _ ih =>
    unfold Columns.annotationHashFrom setHashFrom
    rw [annotationHash_of table ha (hall a List.mem_cons_self)]
    cases owlapiHash a with
    | none => rfl
    | some hash => exact ih (fun b hb => hall b (List.mem_cons_of_mem a hb)) _

include table in
theorem annotationSetHash_of {items : List Node} (h : FieldCell cols nodes index (.set items))
    (hall : ∀ a ∈ items, CoreAnnotation cols.textRules a) :
    cols.annotationSetHash index = readHash (setHashFrom 0 items) := by
  obtain ⟨ids, hset, hids⟩ := annotationSet_of table h (fun a ha => (hall a ha).constructor_eq)
  unfold Columns.annotationSetHash
  rw [ok_bind _ hset]
  exact annotationHashFrom_of table hids hall 0

end Annotations

end Projector.Encoded
