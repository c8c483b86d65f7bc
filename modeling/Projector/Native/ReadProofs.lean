import Projector.Encoded.RoleReads
import Projector.Native.Reads

namespace Projector.Native
open Lib Projector.Core Projector.Encoded Compiler

/-! What the reference readers read from a table, the native readers read too. -/

section Columns
variable {d : DirectColumns} {index id n : Nat}

theorem read_ok {b : Buffer} {value : Nat} (h : d.columns.read b index = .ok value) :
    (d.columns.buffer b)[index]? = some value := by
  unfold Columns.read at h
  split at h
  · rename_i stored hstored
    cases h
    exact hstored
  · cases h

theorem readUsize_of {b : Buffer} {name : String} {value : Nat}
    (h : d.columns.read b index = .ok value) :
    readUsize (d.columns.buffer b) index name = .ok value := by
  rw [readUsize, read_ok h]

theorem fieldKind_of {kind : Nat} (h : d.columns.read .fieldKinds index = .ok kind) :
    d.fieldKind index = .ok kind := by
  have hread : d.columns.fieldKinds[index]? = some kind := read_ok h
  rw [DirectColumns.fieldKind, hread]

theorem fieldValue_of {value : Nat} (h : d.columns.read .fieldValues index = .ok value) :
    d.fieldValue index = .ok value := readUsize_of h

theorem fieldLength_of {length : Nat} (h : d.columns.read .fieldLengths index = .ok length) :
    d.fieldLength index = .ok length := readUsize_of h

theorem checkedNodeId_of {value : Nat} (h : d.columns.nodeId value = .ok n) :
    d.checkedNodeId value = .ok n := by
  unfold Columns.nodeId at h
  split at h
  · rename_i hrange
    cases h
    rw [DirectColumns.checkedNodeId, if_pos hrange]
  · cases h

theorem nodeId_same {value : Nat} (h : d.columns.nodeId value = .ok n) : n = value := by
  unfold Columns.nodeId at h
  split at h
  · cases h
    rfl
  · cases h

theorem nodeTag_of {tag : Nat} (h : d.columns.nodeTag id = .ok tag) : d.nodeTag id = .ok tag := by
  obtain ⟨i, hid, hread⟩ := bind_ok h
  have hi := nodeId_same hid
  rw [hi] at hid hread
  unfold DirectColumns.nodeTag
  rw [ok_bind _ (checkedNodeId_of hid)]
  exact readUsize_of hread

theorem exactFields_of {arity start : Nat} (h : d.columns.exactFields id arity = .ok start) :
    d.exactFields id arity = .ok start := by
  obtain ⟨⟨first, stop⟩, hrange, h⟩ := bind_ok h
  obtain ⟨i, hid, hoffsets⟩ := bind_ok hrange
  have hi := nodeId_same hid
  rw [hi] at hid hoffsets
  obtain ⟨a, ha, hoffsets⟩ := bind_ok hoffsets
  obtain ⟨b, hb, hoffsets⟩ := bind_ok hoffsets
  split at hoffsets
  · cases hoffsets
  rename_i hvalid
  cases hoffsets
  have hfirst : readUsize d.columns.nodeFieldOffsets (id - 1) "node_field_offsets" = .ok first :=
    readUsize_of ha
  have hstop : readUsize d.columns.nodeFieldOffsets id "node_field_offsets" = .ok stop :=
    readUsize_of hb
  have hfield : d.fieldRange id = .ok (first, stop) := by
    unfold DirectColumns.fieldRange
    rw [ok_bind _ (checkedNodeId_of hid), ok_bind _ hfirst, ok_bind _ hstop, if_pos (by omega)]
  unfold DirectColumns.exactFields
  rw [ok_bind _ hfield]
  simp only at h ⊢
  split at h
  · cases h
  · rename_i harity
    cases h
    rw [if_pos (not_not.mp harity)]

theorem fieldNode_of (h : d.columns.fieldNode index = .ok n) : d.fieldNode index = .ok n := by
  obtain ⟨kind, hkind, h⟩ := bind_ok h
  obtain ⟨length, hlength, h⟩ := bind_ok h
  split at h
  · cases h
  rename_i hshape
  simp only [ne_eq, not_or, not_not] at hshape
  obtain ⟨value, hvalue, h⟩ := bind_ok h
  unfold DirectColumns.fieldNode
  rw [ok_bind _ (fieldKind_of hkind), if_neg (by simpa using hshape.1),
    ok_bind _ (fieldLength_of hlength), if_neg (by simpa using hshape.2),
    ok_bind _ (fieldValue_of hvalue)]
  exact checkedNodeId_of h

theorem itemNode_of (h : d.columns.itemNode index = .ok n) : d.itemNode index = .ok n := by
  obtain ⟨kind, hkind, h⟩ := bind_ok h
  obtain ⟨length, hlength, h⟩ := bind_ok h
  split at h
  · cases h
  rename_i hshape
  simp only [ne_eq, not_or, not_not] at hshape
  obtain ⟨value, hvalue, h⟩ := bind_ok h
  have hread : d.columns.itemKinds[index]? = some kind := read_ok hkind
  have hitem : d.itemKind index = .ok kind := by rw [DirectColumns.itemKind, hread]
  have hitemLength : readUsize d.columns.itemLengths index "item_lengths" = .ok length :=
    readUsize_of hlength
  have hitemValue : readUsize d.columns.itemValues index "item_values" = .ok value :=
    readUsize_of hvalue
  unfold DirectColumns.itemNode
  rw [ok_bind _ hitem, if_neg (by simpa using hshape.1), ok_bind _ hitemLength,
    if_neg (by simpa using hshape.2), ok_bind _ hitemValue]
  exact checkedNodeId_of h

/-- The items of a set from `index` on. -/
inductive ItemsFrom (d : DirectColumns) : Nat → List Nat → Prop
  | nil {index : Nat} : ItemsFrom d index []
  | cons {index id : Nat} {ids : List Nat} (h : d.itemNode index = .ok id)
      (hrest : ItemsFrom d (index + 1) ids) : ItemsFrom d index (id :: ids)

theorem ascendingItems_of {previous length : Nat} {ids : List Nat}
    (h : d.columns.setItems previous index length = .ok ids) :
    d.ascendingItems previous index length = .ok () ∧ ItemsFrom d index ids ∧
      ids.length = length := by
  induction length generalizing previous index ids with
  | zero =>
    cases h
    exact ⟨rfl, .nil, rfl⟩
  | succ length ih =>
    obtain ⟨id, hid, h⟩ := bind_ok h
    split at h
    · cases h
    rename_i hascends
    obtain ⟨rest, hrest, h⟩ := bind_ok h
    cases h
    obtain ⟨hloop, hitems, hlength⟩ := ih hrest
    refine ⟨?_, .cons (itemNode_of hid) hitems, by simp [hlength]⟩
    unfold DirectColumns.ascendingItems
    rw [ok_bind _ (itemNode_of hid), if_neg hascends]
    exact hloop

theorem nodeSetRange_of {minimum : Nat} {ids : List Nat}
    (h : d.columns.nodeSet index minimum = .ok ids) :
    ∃ start, d.nodeSetRange index minimum = .ok (start, ids.length) ∧ ItemsFrom d start ids := by
  obtain ⟨kind, hkind, h⟩ := bind_ok h
  obtain ⟨_, hset, h⟩ := bind_ok h
  obtain ⟨start, hstart, h⟩ := bind_ok h
  obtain ⟨length, hlength, h⟩ := bind_ok h
  obtain ⟨_, hrange, h⟩ := bind_ok h
  have hsetKind := demand_ok hset
  have hinside := demand_ok hrange
  simp only [beq_iff_eq] at hsetKind
  simp only [Bool.and_eq_true, decide_eq_true_eq] at hinside
  split at h
  · cases h
  rename_i hminimum
  obtain ⟨hloop, hitems, hlengths⟩ := ascendingItems_of h
  refine ⟨start, ?_, hitems⟩
  unfold DirectColumns.nodeSetRange
  rw [ok_bind _ (fieldKind_of hkind), if_neg (by simpa using hsetKind),
    ok_bind _ (fieldValue_of hstart), ok_bind _ (fieldLength_of hlength), if_neg (by omega),
    if_neg hminimum, ok_bind _ hloop, hlengths]

theorem scalarPayload_of {kind : Nat} {payload : Bytes}
    (hfits : d.columns.scalarBytes.length < usizeLimit)
    (h : d.columns.scalarPayload index kind = .ok payload) :
    d.scalarPayload index kind = .ok payload := by
  obtain ⟨actual, hactual, h⟩ := bind_ok h
  obtain ⟨_, hkind, h⟩ := bind_ok h
  obtain ⟨start, hstart, h⟩ := bind_ok h
  obtain ⟨length, hlength, h⟩ := bind_ok h
  obtain ⟨_, hrange, h⟩ := bind_ok h
  have hsame := demand_ok hkind
  have hinside := demand_ok hrange
  simp only [beq_iff_eq] at hsame
  simp only [decide_eq_true_eq] at hinside
  unfold DirectColumns.scalarPayload DirectColumns.scalarRange
  rw [ok_bind _ (fieldKind_of hactual), if_neg (by simpa using hsame),
    ok_bind _ (fieldValue_of hstart), ok_bind _ (fieldLength_of hlength), if_neg (by omega),
    if_pos hinside]
  cases h
  rfl

end Columns

section Values
variable {d : DirectColumns} {index id maximum : Nat}

/-- Enough for the native readers to read what the reference readers do: a scalar arena
that can be addressed, the same limit on IRIs, and a lowercase mapping of characters under
which the same texts are lowercase. -/
structure Compatible (d : DirectColumns) (toLowercase : Char → List Char) (maximum : Nat) :
    Prop where
  addressed : d.columns.scalarBytes.length < usizeLimit
  limit : d.columns.maxIriBytes ≤ maximum
  lowercase : ∀ text : String, text = d.columns.lowered text ↔
    text.toList.flatMap toLowercase = text.toList

variable {toLowercase : Char → List Char} (compat : Compatible d toLowercase maximum)

theorem tagIs_true {c : Constructor} (h : d.columns.tagIs id c = .ok true) :
    d.nodeTag id = .ok c.tag := by
  obtain ⟨tag, htag, h⟩ := bind_ok h
  have heq := Except.ok.inj h
  simp only [beq_iff_eq] at heq
  exact heq ▸ nodeTag_of htag

theorem boundedPayload {text exceeds notUtf8 : String} {limit : Nat}
    (h : d.columns.boundedText index limit exceeds notUtf8 = .ok text) :
    ∃ payload, d.columns.scalarPayload index COMPONENT_TEXT = .ok payload ∧
      payload.length ≤ limit ∧ fromUtf8? payload = some text := by
  obtain ⟨payload, hpayload, h⟩ := bind_ok h
  split at h
  · cases h
  rename_i hlimit
  refine ⟨payload, hpayload, Nat.le_of_not_lt hlimit, ?_⟩
  split at h
  · rename_i t ht
    cases h
    exact ht
  · cases h

include compat in
theorem iri_of {text : String} (h : d.columns.iriText id = .ok text) :
    d.iri id maximum = .ok text := by
  obtain ⟨isIri, htag, h⟩ := bind_ok h
  obtain ⟨_, hdemand, h⟩ := bind_ok h
  obtain ⟨start, hstart, h⟩ := bind_ok h
  obtain ⟨payload, hpayload, hlimit, htext⟩ := boundedPayload h
  rw [demand_ok hdemand] at htag
  have hmaximum := compat.limit
  unfold DirectColumns.iri
  rw [ok_bind _ (tagIs_true htag), if_neg (by simp), ok_bind _ (exactFields_of hstart),
    ok_bind _ (scalarPayload_of compat.addressed hpayload), if_neg (by omega)]
  simp only [htext]

theorem entityKindNames_text (kind : EntityKind) :
    utf8 kind.text ∈ DirectColumns.entityKindNames := by
  cases kind <;> simp [DirectColumns.entityKindNames, EntityKind.text]

theorem entityKindOf_text {payload : Bytes} {kind : EntityKind}
    (h : Columns.entityKindOf? payload = some kind) : payload = utf8 kind.text := by
  have hfound := List.find?_some h
  simp only [beq_iff_eq] at hfound
  exact hfound.symm

include compat in
theorem entity_native {kind : EntityKind} {iriId : Nat}
    (h : d.columns.entity id = .ok (kind, iriId)) :
    d.entity id = .ok (utf8 kind.text, iriId) := by
  obtain ⟨isEntity, htag, h⟩ := bind_ok h
  obtain ⟨_, hdemand, h⟩ := bind_ok h
  obtain ⟨start, hstart, h⟩ := bind_ok h
  obtain ⟨payload, hpayload, h⟩ := bind_ok h
  rw [demand_ok hdemand] at htag
  split at h
  · cases h
  rename_i kind' hkind
  obtain ⟨i, hi, h⟩ := bind_ok h
  obtain ⟨isIri, hiri, h⟩ := bind_ok h
  obtain ⟨_, hdemand', h⟩ := bind_ok h
  cases h
  rw [demand_ok hdemand'] at hiri
  unfold DirectColumns.entity
  rw [ok_bind _ (tagIs_true htag), if_neg (by simp), ok_bind _ (exactFields_of hstart),
    ok_bind _ (scalarPayload_of compat.addressed hpayload), entityKindOf_text hkind,
    if_neg (not_not.mpr (entityKindNames_text kind)), ok_bind _ (fieldNode_of hi),
    ok_bind _ (tagIs_true hiri), if_neg (by simp)]

include compat in
theorem named_of {reader : DirectColumns.NamedReader} {text : String}
    (h : d.columns.namedIri reader.kind id = .ok (some text)) :
    d.named reader id maximum = .ok text := by
  obtain ⟨isEntity, htag, h⟩ := bind_ok h
  split at h
  · cases h
  rename_i hentity
  simp only [Bool.not_eq_true, Bool.not_eq_false'] at hentity
  obtain ⟨⟨actual, iriId⟩, hread, h⟩ := bind_ok h
  simp only at h
  split at h
  · rename_i hkind
    subst hkind
    have hiri : d.columns.iriText iriId = .ok text := by
      cases htext : d.columns.iriText iriId with
      | error e =>
        rw [htext] at h
        cases h
      | ok t =>
        rw [htext] at h
        cases h
        rfl
    unfold DirectColumns.named
    rw [ok_bind _ (tagIs_true (hentity ▸ htag)), if_neg (by simp),
      ok_bind _ (entity_native compat hread)]
    simp only [ne_eq, not_true_eq_false, if_false]
    exact iri_of compat hiri
  · cases h

include compat in
theorem literalParts_native {lexical datatype : String}
    (h : d.columns.literalParts id = .ok (lexical, datatype)) :
    d.literalParts toLowercase id maximum = .ok (lexical, datatype) := by
  obtain ⟨isLiteral, htag, h⟩ := bind_ok h
  obtain ⟨_, hdemand, h⟩ := bind_ok h
  obtain ⟨start, hstart, h⟩ := bind_ok h
  obtain ⟨lexical', hlexical, h⟩ := bind_ok h
  obtain ⟨payload, hpayload, -, htext⟩ := boundedPayload hlexical
  obtain ⟨j, hj, h⟩ := bind_ok h
  obtain ⟨named, hnamed, h⟩ := bind_ok h
  rw [demand_ok hdemand] at htag
  unfold DirectColumns.literalParts
  rw [ok_bind _ (tagIs_true htag), if_neg (by simp), ok_bind _ (exactFields_of hstart),
    ok_bind _ (scalarPayload_of compat.addressed hpayload)]
  simp only [htext]
  cases named with
  | none => cases h
  | some datatype' =>
    rw [ok_bind _ (fieldNode_of hj)]
    unfold DirectColumns.namedDatatypeIri
    have hdatatype : d.named DirectColumns.datatypeReader j maximum = .ok datatype' :=
      named_of compat hnamed
    rw [ok_bind _ hdatatype]
    simp only at h
    obtain ⟨kind, hkind, h⟩ := bind_ok h
    rw [ok_bind _ (fieldKind_of hkind)]
    split at h
    · rename_i hnone
      obtain ⟨value, hvalue, h⟩ := bind_ok h
      obtain ⟨length, hlength, h⟩ := bind_ok h
      obtain ⟨_, hempty, h⟩ := bind_ok h
      have hzero := demand_ok hempty
      simp only [Bool.and_eq_true, beq_iff_eq] at hzero
      cases h
      rw [if_pos hnone, ok_bind _ (fieldValue_of hvalue), ok_bind _ (fieldLength_of hlength),
        if_neg (by omega)]
    · rename_i hsome
      split at h
      · rename_i htagged
        obtain ⟨language, hlanguage, h⟩ := bind_ok h
        obtain ⟨_, hcanonical, h⟩ := bind_ok h
        obtain ⟨languagePayload, hread, -, hdecoded⟩ := boundedPayload hlanguage
        have hrules := demand_ok hcanonical
        simp only [Bool.and_eq_true, decide_eq_true_eq, beq_iff_eq] at hrules
        obtain ⟨⟨hne, hlowered⟩, hplain⟩ := hrules
        cases h
        have hlower := (compat.lowercase language).mp hlowered
        have hpass : ¬(language = "" ∨ language.toList.flatMap toLowercase ≠ language.toList ∨
            datatype ≠ RDF_PLAIN_LITERAL_IRI) := by
          simp [hne, hlower, hplain]
        rw [if_neg hsome, if_pos htagged,
          ok_bind _ (scalarPayload_of compat.addressed hread)]
        simp only [hdecoded]
        rw [if_neg hpass]
      · cases h

theorem annotationItems_of {index : Nat} {ids : List Nat} (hitems : ItemsFrom d index ids)
    (hall : ∀ i ∈ ids, d.columns.tagIs i .annotationTerm = .ok true) :
    d.annotationItems index ids.length = .ok () := by
  induction hitems with
  | nil => rfl
  | @cons index id ids hid _ ih =>
    rw [List.length_cons]
    unfold DirectColumns.annotationItems
    rw [ok_bind _ hid, ok_bind _ (tagIs_true (hall id List.mem_cons_self)), if_neg (by simp)]
    exact ih (fun i hi => hall i (List.mem_cons_of_mem id hi))

theorem annotationSet_native {ids : List Nat} (h : d.columns.annotationSet index = .ok ids) :
    ∃ start, d.nodeSetRange index 0 = .ok (start, ids.length) ∧ ItemsFrom d start ids ∧
      d.validateAnnotationSet index = .ok () := by
  obtain ⟨ids', hset, h⟩ := bind_ok h
  obtain ⟨_, hall, h⟩ := bind_ok h
  cases h
  obtain ⟨start, hrange, hitems⟩ := nodeSetRange_of hset
  refine ⟨start, hrange, hitems, ?_⟩
  unfold DirectColumns.validateAnnotationSet
  rw [ok_bind _ hrange]
  exact annotationItems_of hitems (demandAll_ok hall)

end Values

end Projector.Native
