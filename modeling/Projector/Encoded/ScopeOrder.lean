import Projector.Encoded.ScopeRemap

namespace Projector.Encoded
open Lib Projector.Core Compiler

/-- The constructors of the schema that have a sequence among their fields. -/
def sequenceConstructors : List Constructor :=
  [.objectPropertyChain, .builtInAtom, .dataSomeValuesFrom, .dataAllValuesFrom]

/-- A field of a node that is a sequence. -/
structure SequenceField (cols : Columns) (id index tag start length : Nat) : Prop where
  tagged : cols.nodeTag id = .ok tag
  inside : ∃ low high, cols.rangeAt id = some (low, high) ∧ low ≤ index ∧ index < high
  cell : cols.cellAt index false = some ⟨COMPONENT_SEQUENCE, start, length⟩

/-- Each node has the fields of its constructor. The sequences of data restrictions, which the
inspection leaves to the scalar compiler, hold data properties. -/
structure SchemaFields (arity : Nat → Nat) (cols : Columns) : Prop where
  arity : cols.FixedArity arity
  sequences : ∀ id index tag start length, SequenceField cols id index tag start length →
    ∃ c ∈ sequenceConstructors, tag = c.tag
  dataProperties : ∀ id index start length c, c = .dataSomeValuesFrom ∨ c = .dataAllValuesFrom →
    SequenceField cols id index (Constructor.tag c) start length →
    ∀ j, start ≤ j → j < start + length →
      ∃ child, cols.itemNode j = .ok child ∧ cols.tagIs child .entity = .ok true

/-- A table that has passed the inspection of its nodes and of the order of its roots. The nodes
are numbered in the order of their canonical bytes. -/
structure InspectedTable (arity : Nat → Nat) (cols : Columns) : Prop
    extends SchemaFields arity cols where
  inspected : ∀ id, 1 ≤ id → id ≤ cols.nodeCount → ∃ reason, cols.inspectNode id = .ok reason
  roots : ∃ roots, cols.rootsFrom none 0 cols.rootCount = .ok roots
  bytes : ∀ id, 1 ≤ id → id ≤ cols.nodeCount → ∃ t, cols.Stands noScopeMap id t
  canonical : ∀ i j s t, i < j → cols.Stands noScopeMap i s → cols.Stands noScopeMap j t →
    s.encode < t.encode

section Plain
variable {cols : Columns} {arity : Nat → Nat} {id : Nat}

/-- No scope occurs under a node. -/
def PlainNode (cols : Columns) (id : Nat) : Prop :=
  ∀ fuel t, cols.termAt noScopeMap fuel id = some t → t.LabelsIn scopeTag fun _ => False

/-- A component that is no collection, and under which no scope occurs. -/
structure PlainCell (cols : Columns) (cell : ComponentRow) : Prop where
  leaf : cell.kind ≠ COMPONENT_SET ∧ cell.kind ≠ COMPONENT_SEQUENCE
  child : cell.kind = COMPONENT_NODE → PlainNode cols cell.value

theorem LeafView.labelsIn {S : Bytes → Prop} {fuel : Nat} {rescope : Bytes → Bytes}
    {cell : ComponentRow} {p : Piece}
    (h : LeafView cols (cols.termAt noScopeMap fuel) rescope cell p)
    (hchild : cell.kind = COMPONENT_NODE → ∀ t, cols.termAt noScopeMap fuel cell.value = some t →
      t.LabelsIn scopeTag S) : p.LabelsIn scopeTag S := by
  cases h with
  | none => trivial
  | @node child t ht => exact hchild rfl t ht
  | scalar => trivial
  | integer => trivial

/-- A node of plain components, that is no anonymous individual, is plain. -/
theorem plain_of_cells {count tag start : Nat}
    (hrange : cols.rangeAt id = some (start, start + count))
    (htag : cols.nodeTags[id - 1]? = some tag) (hne : tag ≠ scopeTag)
    (hcells : ∀ k < count, ∃ cell, cols.cellAt (start + k) false = some cell ∧
      PlainCell cols cell) : PlainNode cols id := by
  intro fuel t ht
  obtain ⟨previous, low, high, tag', fields, -, rfl, hview⟩ := termAt_some ht
  obtain ⟨rfl, rfl⟩ := Prod.mk.inj (Option.some.inj (hview.range.symm.trans hrange))
  obtain rfl := Option.some.inj (hview.tagged.symm.trans htag)
  refine ⟨fun hmark => absurd hmark hne, Piece.labelsInAll_of_forall fun p hp => ?_⟩
  obtain ⟨index, hindex, hpiece⟩ := partner_of_right hview.fields hp
  obtain ⟨cell, hcell, hfield⟩ := fieldPiece_some hpiece
  have hin := List.mem_range'_1.mp hindex
  obtain ⟨cell', hcell', hplain⟩ := hcells (index - low) (by omega)
  rw [show low + (index - low) = index by omega] at hcell'
  obtain rfl := Option.some.inj (hcell.symm.trans hcell')
  cases hfield with
  | leaf hleaf => exact hleaf.labelsIn fun hnode t ht => hplain.child hnode previous t ht
  | set _ _ => exact absurd rfl hplain.leaf.1
  | sequence _ _ => exact absurd rfl hplain.leaf.2

theorem plainCell_scalar {kind offset length : Nat}
    (h : kind = COMPONENT_NONE ∨ kind = COMPONENT_TEXT ∨ kind = COMPONENT_ENUM) :
    PlainCell cols ⟨kind, offset, length⟩ := by
  rcases h with rfl | rfl | rfl <;>
    exact ⟨by simp [COMPONENT_NONE, COMPONENT_TEXT, COMPONENT_ENUM, COMPONENT_SET,
      COMPONENT_SEQUENCE], fun hnode => by
        simp [COMPONENT_NONE, COMPONENT_TEXT, COMPONENT_ENUM, COMPONENT_NODE] at hnode⟩

theorem plainCell_node {child : Nat} (h : PlainNode cols child) :
    PlainCell cols ⟨COMPONENT_NODE, child, 0⟩ :=
  ⟨by simp [COMPONENT_NODE, COMPONENT_SET, COMPONENT_SEQUENCE], fun _ => h⟩

theorem nodeTag_of_tagIs {c : Constructor} (h : cols.tagIs id c = .ok true) :
    cols.nodeTag id = .ok c.tag := by
  obtain ⟨tag, htag, h⟩ := bind_ok h
  rw [htag, eq_of_beq (Except.ok.inj h)]

variable (table : InspectedTable arity cols)
include table

/-- What the inspection made sure of about a node of this constructor. -/
theorem InspectedTable.constructor {c : Constructor} (h : cols.nodeTag id = .ok c.tag) :
    ∃ reason, cols.inspectConstructor id c = .ok reason := by
  obtain ⟨i, hi, -⟩ := bind_ok h
  obtain ⟨-, hlow, hhigh⟩ := nodeId_of_ok hi
  obtain ⟨reason, hreason⟩ := table.inspected id hlow hhigh
  unfold Columns.inspectNode at hreason
  rw [ok_bind _ h, Constructor.ofTag_tag] at hreason
  exact ⟨reason, hreason⟩

theorem plain_iri (h : cols.nodeTag id = .ok Constructor.iri.tag) : PlainNode cols id := by
  obtain ⟨reason, hinspect⟩ := table.constructor h
  obtain ⟨text, htext, -⟩ := bind_ok hinspect
  obtain ⟨isIri, -, htext⟩ := bind_ok htext
  obtain ⟨_, -, htext⟩ := bind_ok htext
  obtain ⟨start, hstart, htext⟩ := bind_ok htext
  obtain ⟨payload, hpayload, -⟩ := bind_ok htext
  obtain ⟨offset, length, hcell, -⟩ := cell_of_scalarPayload hpayload
  apply plain_of_cells (range_of_exactFields hstart) (tag_of_nodeTag h) (by decide)
  intro k hk
  obtain rfl : k = 0 := by omega
  exact ⟨_, hcell, plainCell_scalar (.inr (.inl rfl))⟩

theorem plain_entity (h : cols.nodeTag id = .ok Constructor.entity.tag) : PlainNode cols id := by
  obtain ⟨reason, hinspect⟩ := table.constructor h
  obtain ⟨found, hentity, -⟩ := bind_ok hinspect
  obtain ⟨isEntity, -, hentity⟩ := bind_ok hentity
  obtain ⟨_, -, hentity⟩ := bind_ok hentity
  obtain ⟨start, hstart, hentity⟩ := bind_ok hentity
  obtain ⟨payload, hpayload, hentity⟩ := bind_ok hentity
  obtain ⟨offset, length, hkind, -⟩ := cell_of_scalarPayload hpayload
  split at hentity
  · cases hentity
  · obtain ⟨child, hchild, hentity⟩ := bind_ok hentity
    obtain ⟨isIri, htag, hentity⟩ := bind_ok hentity
    obtain ⟨_, hdemand, -⟩ := bind_ok hentity
    rw [demand_ok hdemand] at htag
    apply plain_of_cells (range_of_exactFields hstart) (tag_of_nodeTag h) (by decide)
    intro k hk
    obtain rfl | rfl : k = 0 ∨ k = 1 := by omega
    · exact ⟨_, hkind, plainCell_scalar (.inr (.inr rfl))⟩
    · exact ⟨_, cell_of_fieldNode hchild,
        plainCell_node (plain_iri table (nodeTag_of_tagIs htag))⟩

theorem plain_named {kind : EntityKind} (h : cols.isNamed kind id = .ok true) :
    PlainNode cols id := by
  obtain ⟨isEntity, htag, h⟩ := bind_ok h
  cases isEntity with
  | false => cases h
  | true => exact plain_entity table (nodeTag_of_tagIs htag)

theorem plain_namedIri {kind : EntityKind} {text : String}
    (h : cols.namedIri kind id = .ok (some text)) : PlainNode cols id := by
  obtain ⟨isEntity, htag, h⟩ := bind_ok h
  cases isEntity with
  | false => cases h
  | true => exact plain_entity table (nodeTag_of_tagIs htag)

omit table in
theorem plain_operand {c : Constructor} {test : Nat → Read Bool} {message : String}
    {reason : Option String} (h : cols.nodeTag id = .ok c.tag) (hne : c.tag ≠ scopeTag)
    (hinspect : cols.inspectOperand id test message = .ok reason)
    (htest : ∀ child, test child = .ok true → PlainNode cols child) : PlainNode cols id := by
  obtain ⟨start, hstart, hinspect⟩ := bind_ok hinspect
  obtain ⟨_, hdemand, -⟩ := bind_ok hinspect
  obtain ⟨child, hchild, hdemand⟩ := bind_ok hdemand
  obtain ⟨ok, hok, hdemand⟩ := bind_ok hdemand
  rw [demand_ok hdemand] at hok
  apply plain_of_cells (range_of_exactFields hstart) (tag_of_nodeTag h) hne
  intro k hk
  obtain rfl : k = 0 := by omega
  exact ⟨_, cell_of_fieldNode hchild, plainCell_node (htest child hok)⟩

theorem plain_inverse (h : cols.nodeTag id = .ok Constructor.objectInverseOf.tag) :
    PlainNode cols id := by
  obtain ⟨reason, hinspect⟩ := table.constructor h
  exact plain_operand h (by decide) hinspect fun child hchild => plain_named table hchild

theorem plain_variable (h : cols.nodeTag id = .ok Constructor.swrlVariable.tag) :
    PlainNode cols id := by
  obtain ⟨reason, hinspect⟩ := table.constructor h
  exact plain_operand h (by decide) hinspect fun child hchild =>
    plain_iri table (nodeTag_of_tagIs hchild)

theorem plain_literal (h : cols.nodeTag id = .ok Constructor.literal.tag) :
    PlainNode cols id := by
  obtain ⟨reason, hinspect⟩ := table.constructor h
  obtain ⟨parts, hparts, -⟩ := bind_ok hinspect
  obtain ⟨isLiteral, -, hparts⟩ := bind_ok hparts
  obtain ⟨_, -, hparts⟩ := bind_ok hparts
  obtain ⟨start, hstart, hparts⟩ := bind_ok hparts
  obtain ⟨lexical, hlexical, hparts⟩ := bind_ok hparts
  obtain ⟨payload, hpayload, -⟩ := bind_ok hlexical
  obtain ⟨offset, length, hfirst, -⟩ := cell_of_scalarPayload hpayload
  obtain ⟨child, hchild, hparts⟩ := bind_ok hparts
  obtain ⟨datatype, hdatatype, hparts⟩ := bind_ok hparts
  cases datatype with
  | none => cases hparts
  | some datatype =>
    obtain ⟨kind, hkind, hparts⟩ := bind_ok hparts
    have hlast : ∃ cell, cols.cellAt (start + 2) false = some cell ∧ PlainCell cols cell := by
      split at hparts
      · rename_i hnone
        obtain ⟨value, hvalue, hparts⟩ := bind_ok hparts
        obtain ⟨length, hlength, -⟩ := bind_ok hparts
        exact ⟨_, cell_of_field hkind hvalue hlength, plainCell_scalar (.inl hnone)⟩
      · split at hparts
        · obtain ⟨language, hlanguage, -⟩ := bind_ok hparts
          obtain ⟨payload, hpayload, -⟩ := bind_ok hlanguage
          obtain ⟨offset, length, hcell, -⟩ := cell_of_scalarPayload hpayload
          exact ⟨_, hcell, plainCell_scalar (.inr (.inl rfl))⟩
        · cases hparts
    apply plain_of_cells (range_of_exactFields hstart) (tag_of_nodeTag h) (by decide)
    intro k hk
    obtain rfl | rfl | rfl : k = 0 ∨ k = 1 ∨ k = 2 := by omega
    · exact ⟨_, hfirst, plainCell_scalar (.inr (.inl rfl))⟩
    · exact ⟨_, cell_of_fieldNode hchild, plainCell_node (plain_namedIri table hdatatype)⟩
    · exact hlast

theorem plain_property (h : cols.isSupportedObjectPropertyExpression id = .ok true) :
    PlainNode cols id := by
  obtain ⟨iri, hiri, h⟩ := bind_ok h
  obtain ⟨parts, hparts, hiri⟩ := bind_ok hiri
  obtain ⟨named, hnamed, hparts⟩ := bind_ok hparts
  cases named with
  | some text => exact plain_namedIri table hnamed
  | none =>
    obtain ⟨isInverse, htag, hparts⟩ := bind_ok hparts
    cases isInverse with
    | true => exact plain_inverse table (nodeTag_of_tagIs htag)
    | false =>
      cases hparts
      cases hiri
      cases h

theorem plain_argument (h : cols.isSwrlDataArgument id = .ok true) : PlainNode cols id := by
  obtain ⟨tag, htag, h⟩ := bind_ok h
  have hin := Except.ok.inj h
  simp only [List.map_cons, List.map_nil, List.contains_cons, List.contains_nil, Bool.or_false,
    Bool.or_eq_true, beq_iff_eq] at hin
  rcases hin with rfl | rfl
  · exact plain_literal table htag
  · exact plain_variable table htag

omit table in
/-- The items of a sequence that has been read, each with what was tested of it. -/
theorem items_tested {index start length minimum : Nat} {ids : List Nat}
    (hcell : cols.cellAt index false = some ⟨COMPONENT_SEQUENCE, start, length⟩)
    (hread : cols.nodeSequence index minimum = .ok ids) {P : Nat → Prop} (hall : ∀ i ∈ ids, P i)
    {j : Nat} (hlow : start ≤ j) (hhigh : j < start + length) :
    ∃ child, cols.itemNode j = .ok child ∧ P child := by
  obtain ⟨start', hcell', hitems⟩ := items_of_nodeSequence hread
  rw [hcell] at hcell'
  obtain ⟨-, rfl, rfl⟩ := ComponentRow.mk.inj (Option.some.inj hcell')
  obtain ⟨child, hchild, hitem⟩ := partner_of_right hitems.flip
    (List.mem_range'_1.mpr ⟨hlow, hhigh⟩)
  exact ⟨child, hitem, hall child hchild⟩

/-- No scope occurs under an item of a sequence. -/
theorem sequence_plain {index tag start length : Nat}
    (h : SequenceField cols id index tag start length) {j : Nat} (hlow : start ≤ j)
    (hhigh : j < start + length) :
    ∃ child, cols.itemNode j = .ok child ∧ PlainNode cols child := by
  obtain ⟨c, hc, rfl⟩ := table.sequences id index tag start length h
  obtain ⟨low, high, hrange, hle, hlt⟩ := h.inside
  obtain ⟨reason, hinspect⟩ := table.constructor h.tagged
  simp only [sequenceConstructors, List.mem_cons, List.not_mem_nil, or_false] at hc
  rcases hc with rfl | rfl | hdata
  · obtain ⟨first, hfirst, hinspect⟩ := bind_ok hinspect
    obtain ⟨ids, hids, hinspect⟩ := bind_ok hinspect
    obtain ⟨_, hall, -⟩ := bind_ok hinspect
    have hfields := range_of_exactFields hfirst
    rw [hrange] at hfields
    obtain ⟨rfl, rfl⟩ := Prod.mk.inj (Option.some.inj hfields)
    obtain rfl : index = low := by omega
    exact items_tested h.cell hids (fun i hi => plain_property table (demandAll_ok hall i hi))
      hlow hhigh
  · obtain ⟨first, hfirst, hinspect⟩ := bind_ok hinspect
    obtain ⟨_, hpredicate, hinspect⟩ := bind_ok hinspect
    obtain ⟨predicate, hnode, -⟩ := bind_ok hpredicate
    obtain ⟨ids, hids, hinspect⟩ := bind_ok hinspect
    obtain ⟨_, hall, -⟩ := bind_ok hinspect
    have hfields := range_of_exactFields hfirst
    rw [hrange] at hfields
    obtain ⟨rfl, rfl⟩ := Prod.mk.inj (Option.some.inj hfields)
    have hne : index ≠ low := by
      rintro rfl
      have hcell := h.cell
      rw [cell_of_fieldNode hnode] at hcell
      cases hcell
    obtain rfl : index = low + 1 := by omega
    exact items_tested h.cell hids (fun i hi => plain_argument table (demandAll_ok hall i hi))
      hlow hhigh
  · obtain ⟨child, hchild, htag⟩ :=
      table.dataProperties id index start length c hdata h j hlow hhigh
    exact ⟨child, hchild, plain_entity table (nodeTag_of_tagIs htag)⟩

end Plain

section Scopes
variable {cols : Columns} {arity : Nat → Nat} (table : InspectedTable arity cols)

/-- An anonymous individual and its scope. -/
structure ScopeAt (cols : Columns) (id : Nat) (scope : Bytes) : Prop where
  tagged : cols.nodeTag id = .ok scopeTag
  read : cols.anonymousScope id = .ok scope

theorem ScopeAt.unique {id : Nat} {p q : Bytes} (h : ScopeAt cols id p) (h' : ScopeAt cols id q) :
    p = q := Except.ok.inj (h.read.symm.trans h'.read)

/-- The scopes of the individuals among some nodes. -/
def ScopeOf (cols : Columns) (ids : List Nat) (scope : Bytes) : Prop :=
  ∃ id ∈ ids, ScopeAt cols id scope

theorem ScopeAt.cell {id : Nat} {scope : Bytes} (h : ScopeAt cols id scope) :
    ∃ start offset, cols.rangeAt id = some (start, start + 2) ∧
      ∃ length, cols.cellAt start false = some ⟨COMPONENT_BYTES, offset, length⟩ ∧
        cols.payloadAt offset length = some scope := by
  obtain ⟨start, hstart, hread⟩ := bind_ok h.read
  obtain ⟨offset, length, hcell, hpayload⟩ := cell_of_scalarPayload hread
  exact ⟨start, offset, range_of_exactFields hstart, length, hcell, hpayload⟩

/-- The term of an individual begins with its scope. -/
theorem ScopeAt.term {id fuel : Nat} {scope : Bytes} {t : Term} (h : ScopeAt cols id scope)
    (ht : cols.termAt noScopeMap fuel id = some t) :
    ∃ rest, t = .mk scopeTag (.scalar .bytes scope :: rest) := by
  obtain ⟨start, offset, hrange, length, hcell, hpayload⟩ := h.cell
  obtain ⟨previous, low, high, tag, fields, -, rfl, hview⟩ := termAt_some ht
  obtain ⟨rfl, rfl⟩ := Prod.mk.inj (Option.some.inj (hview.range.symm.trans hrange))
  obtain rfl := Option.some.inj (hview.tagged.symm.trans (tag_of_nodeTag h.tagged))
  have hfields := hview.fields
  rw [show low + 2 - low = 1 + 1 by omega, List.range'_succ] at hfields
  cases hfields with
  | @cons _ p _ rest hp _ =>
    refine ⟨rest, ?_⟩
    obtain ⟨cell, hcell', hfield⟩ := fieldPiece_some hp
    rw [hcell] at hcell'
    obtain rfl := Option.some.inj hcell'
    rw [rescopeOf_none] at hfield
    cases hfield with
    | leaf hleaf =>
      generalize hkind : COMPONENT_BYTES = kind at hleaf
      cases hleaf with
      | none => cases hkind
      | node => cases hkind
      | @scalar _ _ payload kind hread =>
        obtain rfl := Option.some.inj (hread.symm.trans hpayload)
        cases kind with
        | bytes => rfl
        | text => cases hkind
        | enum => cases hkind
      | integer => cases hkind

include table

theorem scope_width {id : Nat} {scope : Bytes} (h : ScopeAt cols id scope) :
    scope.length = 32 := by
  have htag : cols.nodeTag id = .ok Constructor.anonymousIndividual.tag := h.tagged
  obtain ⟨reason, hinspect⟩ := table.constructor htag
  obtain ⟨start, hstart, hinspect⟩ := bind_ok hinspect
  obtain ⟨documentScope, hdocument, hinspect⟩ := bind_ok hinspect
  obtain ⟨localKey, -, hinspect⟩ := bind_ok hinspect
  obtain ⟨_, hwidth, -⟩ := bind_ok hinspect
  have hread : cols.anonymousScope id = .ok documentScope := by
    unfold Columns.anonymousScope
    rw [ok_bind _ hstart]
    exact hdocument
  rw [Except.ok.inj (h.read.symm.trans hread)]
  exact eq_of_beq (demand_ok hwidth)

/-- Every individual has a scope. -/
theorem scope_exists {id : Nat} (h : cols.nodeTag id = .ok scopeTag) :
    ∃ scope, ScopeAt cols id scope := by
  have htag : cols.nodeTag id = .ok Constructor.anonymousIndividual.tag := h
  obtain ⟨reason, hinspect⟩ := table.constructor htag
  obtain ⟨start, hstart, hinspect⟩ := bind_ok hinspect
  obtain ⟨documentScope, hdocument, -⟩ := bind_ok hinspect
  refine ⟨documentScope, h, ?_⟩
  unfold Columns.anonymousScope
  rw [ok_bind _ hstart]
  exact hdocument

omit table in
theorem nodeTag_range {id tag : Nat} (h : cols.nodeTag id = .ok tag) :
    1 ≤ id ∧ id ≤ cols.nodeCount := by
  obtain ⟨i, hi, -⟩ := bind_ok h
  exact (nodeId_of_ok hi).2

/-- Individuals are numbered in the order of their scopes. -/
theorem scope_le {i j : Nat} {p q : Bytes} (hij : i ≤ j) (hi : ScopeAt cols i p)
    (hj : ScopeAt cols j q) : p ≤ q := by
  rcases Nat.lt_or_eq_of_le hij with hlt | rfl
  · obtain ⟨s, hs⟩ := table.bytes i (nodeTag_range hi.tagged).1 (nodeTag_range hi.tagged).2
    obtain ⟨t, ht⟩ := table.bytes j (nodeTag_range hj.tagged).1 (nodeTag_range hj.tagged).2
    have hless := table.canonical i j s t hlt hs ht
    obtain ⟨_, hs⟩ := hs
    obtain ⟨_, ht⟩ := ht
    obtain ⟨rest, rfl⟩ := hi.term hs
    obtain ⟨rest', rfl⟩ := hj.term ht
    by_contra hle
    have hp := scope_width table hi
    have hq := scope_width table hj
    have hbefore := before_of_lt (hq.trans hp.symm) (not_le.mp hle)
    have hsized : Before (sized q) (sized p) := by
      unfold sized
      rw [hp, hq]
      exact hbefore.after _
    have htagged : Before (3 :: sized q) (3 :: sized p) := .tail hsized
    have hpieces := htagged.append (Piece.encodeAll rest') (Piece.encodeAll rest)
    exact lt_asymm hless (hpieces.after (varint scopeTag)).lt
  · exact le_of_eq (hi.unique hj)

/-- The scopes that are listed ascend and leave out none. -/
theorem scopesFrom_spec {previous : Option Bytes} {ids : List Nat} {scopes : List Bytes}
    (h : cols.scopesFrom previous ids = .ok scopes) (hsorted : SortedOn id ids)
    (hprevious : ∀ p, previous = some p → ∀ i ∈ ids, ∀ q, ScopeAt cols i q → p ≤ q) :
    StrictOn id scopes ∧ (∀ p, previous = some p → ∀ q ∈ scopes, p < q) ∧
      ∀ i ∈ ids, ∀ q, ScopeAt cols i q → q ∈ scopes ∨ previous = some q := by
  induction ids generalizing previous scopes with
  | nil =>
    cases h
    refine ⟨List.Pairwise.nil, ?_, ?_⟩
    · intro _ _ q hq
      cases hq
    · intro i hi
      cases hi
  | cons i rest ih =>
    obtain ⟨hfirst, hrest⟩ := List.pairwise_cons.mp hsorted
    obtain ⟨anonymous, htag, h⟩ := bind_ok h
    cases anonymous with
    | false =>
      obtain ⟨hstrict, habove, hall⟩ := ih h hrest fun p hp j hj =>
        hprevious p hp j (List.mem_cons_of_mem i hj)
      refine ⟨hstrict, habove, fun j hj q hq => ?_⟩
      rcases List.mem_cons.mp hj with rfl | hj
      · obtain ⟨tag, hread, htag⟩ := bind_ok htag
        rw [hq.tagged] at hread
        cases hread
        cases htag
      · exact hall j hj q hq
    | true =>
      obtain ⟨scope, hscope, h⟩ := bind_ok h
      obtain ⟨others, hothers, h⟩ := bind_ok h
      have hat : ScopeAt cols i scope := ⟨nodeTag_of_tagIs htag, hscope⟩
      obtain ⟨hstrict, habove, hall⟩ := ih hothers hrest fun p hp j hj q hq => by
        obtain rfl := Option.some.inj hp
        exact scope_le table (hfirst j hj) hat hq
      have hcover : ∀ j ∈ i :: rest, ∀ q, ScopeAt cols j q → q ∈ others ∨ q = scope := by
        intro j hj q hq
        rcases List.mem_cons.mp hj with rfl | hj
        · exact .inr (hq.unique hat)
        · exact (hall j hj q hq).imp_right fun hq => (Option.some.inj hq).symm
      by_cases hsame : previous = some scope
      · rw [if_pos hsame] at h
        cases h
        refine ⟨hstrict, fun p hp q hq => ?_, fun j hj q hq => ?_⟩
        · rw [hsame] at hp
          obtain rfl := Option.some.inj hp
          exact habove scope rfl q hq
        · refine (hcover j hj q hq).imp_right fun he => ?_
          rw [he]
          exact hsame
      · rw [if_neg hsame] at h
        cases h
        refine ⟨List.pairwise_cons.mpr ⟨habove scope rfl, hstrict⟩, fun p hp q hq => ?_,
          fun j hj q hq => ?_⟩
        · have hle := hprevious p hp i List.mem_cons_self scope hat
          have hlt : p < scope := lt_of_le_of_ne hle fun he => hsame (he ▸ hp)
          rcases List.mem_cons.mp hq with rfl | hq
          · exact hlt
          · exact lt_trans hlt (habove scope rfl q hq)
        · rcases hcover j hj q hq with hin | rfl
          · exact .inl (List.mem_cons_of_mem _ hin)
          · exact .inl List.mem_cons_self

end Scopes

end Projector.Encoded
