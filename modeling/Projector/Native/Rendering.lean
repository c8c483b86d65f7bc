import Projector.Encoded.AxiomShapes
import Projector.Encoded.Projection
import Projector.Native.CanonicalBytes

namespace Projector.Native
open Lib Projector.Core Projector.Encoded Compiler

section Rendering

def sizeOverflow : String := "encoded annotation rendering size overflow"

/-- What the pass over the lexical form pushes for one character. -/
def renderedCharacter (c : Char) : List Char :=
  if c = '\\' then []
  else if c = '\n' then ['n']
  else if c = '\r' then ['r']
  else if c = '\t' then ['t']
  else [c]

/-- The text that is pushed into the reserved buffer. Only the short form of a datatype
loses its last character here: the long one is never closed. -/
def renderedText (lexical datatype : String) : List Char :=
  let output := lexical.toList.flatMap renderedCharacter ++ "\"^^".toList
  match stripPrefix? XSD_NAMESPACE datatype with
  | some suffix => (output ++ "xsd:".toList ++ suffix.toList).dropLast
  | none => output ++ '<' :: datatype.toList

/-- `render_typed_annotation_literal`. Whether a buffer of some size can be had is up to
the allocator. -/
def renderTypedAnnotationLiteral (reserves : Nat → Bool) (lexical datatype : String) :
    Except KernelError String := do
  let datatypeCapacity ← checkedAdd datatype.utf8ByteSize 5 sizeOverflow
  let size ← checkedAdd lexical.utf8ByteSize 3 sizeOverflow
  let capacity ← checkedAdd size datatypeCapacity sizeOverflow
  if reserves capacity then .ok (String.ofList (renderedText lexical datatype))
  else .error (.resource "encoded annotation rendering allocation failed")

end Rendering

section Characters

theorem replaceChar_append (old : Char) (new xs ys : List Char) :
    replaceChar old new (xs ++ ys) = replaceChar old new xs ++ replaceChar old new ys := by
  simp [replaceChar]

/-- Text without the character is left alone. -/
theorem replaceChar_absent {old : Char} {new text : List Char} (h : old ∉ text) :
    replaceChar old new text = text := by
  induction text with
  | nil => rfl
  | cons c rest ih =>
    simp only [List.mem_cons, not_or] at h
    have hc : c ≠ old := fun he => h.1 he.symm
    have hrest := ih h.2
    simp only [replaceChar] at hrest
    simp [replaceChar, hc, hrest]

/-- Removing a character only keeps the length of text that does not have it. -/
theorem length_remove_lt {old : Char} {text : List Char} (h : old ∈ text) :
    (replaceChar old [] text).length < text.length := by
  induction text with
  | nil => cases h
  | cons c rest ih =>
    have hle : (replaceChar old [] rest).length ≤ rest.length := by
      by_cases hr : old ∈ rest
      · exact le_of_lt (ih hr)
      · rw [replaceChar_absent hr]
    have hstep : replaceChar old [] (c :: rest) =
        (if c = old then [] else [c]) ++ replaceChar old [] rest := rfl
    rw [hstep, List.length_append, List.length_cons]
    rcases List.mem_cons.mp h with rfl | hr
    · rw [if_pos rfl, List.length_nil]
      omega
    · have hlt := ih hr
      split
      · rw [List.length_nil]
        omega
      · rw [List.length_singleton]
        omega

/-- Escaping and then stripping every backslash is one pass. -/
theorem stripped_lexical (lexical : String) :
    replaceChar '\\' [] (owlapiEscapeLiteral lexical) =
      lexical.toList.flatMap renderedCharacter := by
  simp only [owlapiEscapeLiteral, replaceChar, List.flatMap_assoc]
  apply List.flatMap_congr
  intro c _
  unfold renderedCharacter
  by_cases hb : c = '\\'
  · subst hb
    rfl
  by_cases hn : c = '\n'
  · subst hn
    rfl
  by_cases hr : c = '\r'
  · subst hr
    rfl
  by_cases ht : c = '\t'
  · subst ht
    rfl
  by_cases hq : c = '"'
  · subst hq
    rfl
  simp [hb, hn, hr, ht, hq]

/-- What the reference keeps of the datatype: no backslash, and not its last character. -/
def strippedDatatype (datatype : String) : List Char :=
  (replaceChar '\\' [] (renderDatatype datatype).toList).dropLast

theorem renderDatatype_ne_nil (datatype : String) :
    replaceChar '\\' [] (renderDatatype datatype).toList ≠ [] := by
  unfold renderDatatype
  cases stripPrefix? XSD_NAMESPACE datatype with
  | some suffix => simp [replaceChar, String.toList_append]
  | none => simp [replaceChar, String.toList_append]

/-- The reference rendering starts with a quote, which it loses with its last character. -/
theorem renderTypedLiteral_eq (lexical datatype : String) :
    renderTypedLiteral lexical datatype =
      String.ofList (lexical.toList.flatMap renderedCharacter ++ "\"^^".toList ++
        strippedDatatype datatype) := by
  have hquote : replaceChar '\\' [] ['"'] = ['"'] := by decide
  have hcaret : replaceChar '\\' [] "\"^^".toList = "\"^^".toList := by decide
  unfold renderTypedLiteral strippedDatatype
  simp only [replaceChar_append, stripped_lexical, hquote, hcaret]
  rw [if_pos (Or.inl (by simp))]
  congr 1
  have hne := renderDatatype_ne_nil datatype
  simp only [List.append_assoc, List.cons_append, List.nil_append, List.drop_succ_cons,
    List.drop_zero]
  rw [List.dropLast_append_of_ne_nil (by simp), List.dropLast_append_of_ne_nil hne]

theorem prefix_toList {pre text rest : String} (h : stripPrefix? pre text = some rest) :
    text.toList = pre.toList ++ rest.toList := by
  unfold stripPrefix? at h
  split at h
  · rename_i hpre
    cases h
    obtain ⟨tail, htail⟩ := List.isPrefixOf_iff_prefix.mp hpre
    simp [← htail]
  · cases h

/-- The datatype as the native pass pushes it. -/
def pushedDatatype (datatype : String) : List Char :=
  match stripPrefix? XSD_NAMESPACE datatype with
  | some suffix => ("xsd:".toList ++ suffix.toList).dropLast
  | none => '<' :: datatype.toList

theorem renderedText_eq (lexical datatype : String) :
    renderedText lexical datatype =
      lexical.toList.flatMap renderedCharacter ++ "\"^^".toList ++ pushedDatatype datatype := by
  unfold renderedText pushedDatatype
  cases stripPrefix? XSD_NAMESPACE datatype with
  | some suffix =>
    simp only
    rw [List.append_assoc, List.dropLast_append_of_ne_nil]
    simp
  | none => rfl

/-- The short form of a datatype: the native pass cuts the same text unless a backslash was
to be removed first. -/
theorem short_datatype_iff {suffix : List Char} :
    (replaceChar '\\' [] ("xsd:".toList ++ suffix)).dropLast = ("xsd:".toList ++ suffix).dropLast ↔
      '\\' ∉ suffix := by
  have hshort : '\\' ∉ "xsd:".toList := by decide
  constructor
  · intro h hmem
    have hlt := length_remove_lt (List.mem_append_right "xsd:".toList hmem)
    have hpos : 4 ≤ (replaceChar '\\' [] ("xsd:".toList ++ suffix)).length := by
      rw [replaceChar_append, replaceChar_absent hshort, List.length_append]
      exact Nat.le_add_right 4 _
    have hlen := congrArg List.length h
    simp only [List.length_dropLast] at hlen
    omega
  · intro h
    have hall : '\\' ∉ "xsd:".toList ++ suffix := by
      simp only [List.mem_append, not_or]
      exact ⟨hshort, h⟩
    rw [replaceChar_absent hall]

/-- The long form: the closing bracket goes, the opening one stays. -/
theorem long_datatype_iff {datatype : List Char} :
    (replaceChar '\\' [] ('<' :: (datatype ++ ['>']))).dropLast = '<' :: datatype ↔
      '\\' ∉ datatype := by
  have hstep : replaceChar '\\' [] ('<' :: (datatype ++ ['>'])) =
      '<' :: replaceChar '\\' [] datatype ++ ['>'] := by
    simp [replaceChar]
  rw [hstep, List.dropLast_concat]
  simp only [List.cons.injEq, true_and]
  constructor
  · intro h hmem
    have hlt := length_remove_lt hmem
    rw [h] at hlt
    exact lt_irrefl _ hlt
  · exact replaceChar_absent

/-- The two renderings of a datatype agree when there is no backslash to strip from it. -/
theorem strippedDatatype_iff (datatype : String) :
    strippedDatatype datatype = pushedDatatype datatype ↔ '\\' ∉ datatype.toList := by
  unfold strippedDatatype pushedDatatype renderDatatype
  cases hxsd : stripPrefix? XSD_NAMESPACE datatype with
  | some suffix =>
    have hname : '\\' ∉ XSD_NAMESPACE.toList := by decide
    have hmem : '\\' ∈ datatype.toList ↔ '\\' ∈ suffix.toList := by
      rw [prefix_toList hxsd, List.mem_append]
      exact ⟨fun h => h.resolve_left hname, Or.inr⟩
    simp only [String.toList_append, hmem]
    exact short_datatype_iff
  | none =>
    have htext : ("<" ++ datatype ++ ">").toList = '<' :: (datatype.toList ++ ['>']) := by
      simp [String.toList_append]
    simp only [htext]
    exact long_datatype_iff

theorem renderTypedAnnotationLiteral_ok {reserves : Nat → Bool} {lexical datatype text : String}
    (h : renderTypedAnnotationLiteral reserves lexical datatype = .ok text) :
    text = String.ofList (renderedText lexical datatype) := by
  obtain ⟨_, -, h⟩ := bind_ok h
  obtain ⟨_, -, h⟩ := bind_ok h
  obtain ⟨_, -, h⟩ := bind_ok h
  split at h
  · cases h
    rfl
  · cases h

theorem renderings_agree_iff (lexical datatype : String) :
    String.ofList (renderedText lexical datatype) = renderTypedLiteral lexical datatype ↔
      '\\' ∉ datatype.toList := by
  rw [renderTypedLiteral_eq, renderedText_eq, String.ofList_inj, List.append_cancel_left_eq,
    eq_comm]
  exact strippedDatatype_iff datatype

end Characters

section Literals

/-- A literal of a datatype that is rendered with its type. -/
structure TypedLiteral (lexical datatype : String) (v : Node) : Prop where
  isLiteral : v.constructor = .literal
  lexicalForm : v.text 0 = lexical
  ofDatatype : (v.child 1).entityIri = datatype
  notString : datatype ≠ XSD_STRING_IRI
  notPlain : datatype ≠ RDF_PLAIN_LITERAL_IRI

variable {lexical datatype : String} {v : Node}

theorem annotationValue_typed (h : TypedLiteral lexical datatype v) (c : Compilation) :
    (annotationValue v c).outcome = .ok (renderTypedLiteral lexical datatype) := by
  have hnot : ¬(datatype = XSD_STRING_IRI ∨ datatype = RDF_PLAIN_LITERAL_IRI) := by
    simp only [not_or]
    exact ⟨h.notString, h.notPlain⟩
  unfold annotationValue
  simp only [h.isLiteral, h.lexicalForm, h.ofDatatype, if_neg hnot]
  rfl

theorem encoded_annotationValue_typed {cols : Columns} {nodes : List Node}
    (pre : Preflighted cols nodes) {id : Nat} (hv : Holds nodes id v)
    (h : TypedLiteral lexical datatype v) (anonymousIds : Columns.AnonymousIds) :
    cols.annotationValue anonymousIds id = .ok (renderTypedLiteral lexical datatype, true) := by
  have hnot : ¬(datatype = XSD_STRING_IRI ∨ datatype = RDF_PLAIN_LITERAL_IRI) := by
    simp only [not_or]
    exact ⟨h.notString, h.notPlain⟩
  have hiri : v.isOf .iri = false := by simp [Node.isOf, h.isLiteral]
  have hanonymous : v.isOf .anonymousIndividual = false := by simp [Node.isOf, h.isLiteral]
  unfold Columns.annotationValue
  rw [ok_bind _ (tagIs_eq pre.toEncodesNodes hv _), ok_bind _ (tagIs_eq pre.toEncodesNodes hv _)]
  simp only [hiri, hanonymous, Bool.false_eq_true, if_false]
  rw [ok_bind _ (literalParts_eq pre hv h.isLiteral)]
  simp only [h.lexicalForm, h.ofDatatype, if_neg hnot]
  rfl

end Literals

/-- The scalar and the encoded compiler give one text for a literal of a typed datatype. The
native pass gives that text exactly when there is no backslash in the datatype: it strips
them from the lexical form only. -/
theorem typed_literal_rendering_iff (lexical datatype : String) :
    ∃ text,
      (∀ v, TypedLiteral lexical datatype v → ∀ c, (annotationValue v c).outcome = .ok text) ∧
      (∀ (cols : Columns) (nodes : List Node) (id : Nat) (v : Node), Preflighted cols nodes →
        Holds nodes id v → TypedLiteral lexical datatype v → ∀ anonymousIds,
        cols.annotationValue anonymousIds id = .ok (text, true)) ∧
      ∀ reserves : Nat → Bool,
        (∀ rendered, renderTypedAnnotationLiteral reserves lexical datatype = .ok rendered →
          (rendered = text ↔ '\\' ∉ datatype.toList)) ∧
        ((∀ capacity, reserves capacity = true) →
          lexical.utf8ByteSize + datatype.utf8ByteSize + 8 < usizeLimit →
          ∃ rendered, renderTypedAnnotationLiteral reserves lexical datatype = .ok rendered) := by
  refine ⟨renderTypedLiteral lexical datatype, fun v hv c => annotationValue_typed hv c,
    fun cols nodes id v pre h hv ids => encoded_annotationValue_typed pre h hv ids, ?_⟩
  intro reserves
  constructor
  · intro rendered hrendered
    rw [renderTypedAnnotationLiteral_ok hrendered]
    exact renderings_agree_iff lexical datatype
  · intro hreserves hfits
    unfold renderTypedAnnotationLiteral checkedAdd
    rw [if_pos (by omega), ok_bind _ rfl, if_pos (by omega), ok_bind _ rfl, if_pos (by omega),
      ok_bind _ rfl, if_pos (hreserves _)]
    exact ⟨_, rfl⟩

/-- A backslash in the datatype survives the native pass and not the reference. -/
theorem backslash_datatype_differs :
    renderTypedAnnotationLiteral (fun _ => true) "x" "urn:a\\b" = .ok "x\"^^<urn:a\\b" ∧
      ∀ c, (annotationValue (.mk .literal [.text "x", .node (entity .datatype "urn:a\\b"), .none])
        c).outcome = .ok "x\"^^<urn:ab" :=
  ⟨by decide +kernel, fun c => annotationValue_typed ⟨rfl, rfl, rfl, by decide, by decide⟩ c⟩

end Projector.Native
