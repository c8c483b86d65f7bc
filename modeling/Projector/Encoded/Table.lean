import Projector.Lib.Effects
import Projector.Encoded.Columns

namespace Projector.Encoded
open Lib Projector.Core Compiler

theorem demand_ok {c : Bool} {message : String} {a : Unit} (h : demand c message = .ok a) :
    c = true := by
  cases c with
  | true => rfl
  | false => cases h

@[simp] theorem demand_true (message : String) : demand true message = .ok () := rfl

section Encoding

/-- A range of the scalar arena that holds some bytes. -/
structure Scalar (cols : Columns) (offset length : Nat) (payload : Bytes) : Prop where
  inside : offset + length ≤ cols.scalarBytes.length
  holds : (cols.scalarBytes.drop offset).take length = payload

/-- Identifiers count the nodes from one. -/
structure Holds (nodes : List Node) (id : Nat) (v : Node) : Prop where
  positive : 1 ≤ id
  holds : nodes[id - 1]? = some v

/-- The value of the digits of a number, least significant first. -/
def littleEndian : Bytes → Nat
  | [] => 0
  | b :: rest => b.toNat + 256 * littleEndian rest

/-- A kind, a value and a length that stand for a component without items. -/
inductive Cell (cols : Columns) (nodes : List Node) : Nat → Nat → Nat → Component → Prop
  | none : Cell cols nodes COMPONENT_NONE 0 0 .none
  | node {id : Nat} {v : Node} (h : Holds nodes id v) :
      Cell cols nodes COMPONENT_NODE id 0 (.node v)
  | text {offset length : Nat} {text : String} (h : Scalar cols offset length (utf8 text)) :
      Cell cols nodes COMPONENT_TEXT offset length (.text text)
  | bytes {offset length : Nat} {payload : Bytes} (h : Scalar cols offset length payload) :
      Cell cols nodes COMPONENT_BYTES offset length (.bytes payload)
  | integer {offset length : Nat} {payload : Bytes} (h : Scalar cols offset length payload)
      (hminimal : Columns.minimalInteger payload = true) :
      Cell cols nodes COMPONENT_INTEGER offset length (.integer (littleEndian payload))
  | enum {offset length : Nat} {kind : EntityKind}
      (h : Scalar cols offset length (utf8 kind.text)) :
      Cell cols nodes COMPONENT_ENUM offset length (.enum kind)

structure FieldRow (cols : Columns) (index kind value length : Nat) : Prop where
  kinds : cols.fieldKinds[index]? = some kind
  values : cols.fieldValues[index]? = some value
  lengths : cols.fieldLengths[index]? = some length

structure ItemRow (cols : Columns) (index kind value length : Nat) : Prop where
  kinds : cols.itemKinds[index]? = some kind
  values : cols.itemValues[index]? = some value
  lengths : cols.itemLengths[index]? = some length

/-- The item rows from `start` on hold some nodes. -/
inductive SetItems (cols : Columns) (nodes : List Node) : Nat → List Nat → List Node → Prop
  | nil {start : Nat} : SetItems cols nodes start [] []
  | cons {start id : Nat} {v : Node} {ids : List Nat} {vs : List Node}
      (hrow : ItemRow cols start COMPONENT_NODE id 0) (hv : Holds nodes id v)
      (hrest : SetItems cols nodes (start + 1) ids vs) :
      SetItems cols nodes start (id :: ids) (v :: vs)

/-- The item rows from `start` on hold some components. -/
inductive SequenceItems (cols : Columns) (nodes : List Node) : Nat → List Component → Prop
  | nil {start : Nat} : SequenceItems cols nodes start []
  | cons {start kind value length : Nat} {c : Component} {cs : List Component}
      (hrow : ItemRow cols start kind value length) (hc : Cell cols nodes kind value length c)
      (hrest : SequenceItems cols nodes (start + 1) cs) :
      SequenceItems cols nodes start (c :: cs)

/-- A field row that stands for a component. Sets are in canonical order. -/
inductive FieldCell (cols : Columns) (nodes : List Node) (index : Nat) : Component → Prop
  | plain {kind value length : Nat} {c : Component} (hrow : FieldRow cols index kind value length)
      (hc : Cell cols nodes kind value length c) : FieldCell cols nodes index c
  | set {start : Nat} {ids : List Nat} {items : List Node}
      (hrow : FieldRow cols index COMPONENT_SET start items.length)
      (hinside : start + items.length ≤ cols.itemCount)
      (hitems : SetItems cols nodes start ids items)
      (hsorted : StrictOn Node.canonicalBytes items) : FieldCell cols nodes index (.set items)
  | sequence {start : Nat} {items : List Component}
      (hrow : FieldRow cols index COMPONENT_SEQUENCE start items.length)
      (hinside : start + items.length ≤ cols.itemCount)
      (hitems : SequenceItems cols nodes start items) :
      FieldCell cols nodes index (.sequence items)

def FieldsAt (cols : Columns) (nodes : List Node) (start : Nat) (fields : List Component) :
    Prop :=
  ∀ i c, fields[i]? = some c → FieldCell cols nodes (start + i) c

/-- The table numbers its nodes in canonical order and writes out their fields. -/
structure EncodesNodes (cols : Columns) (nodes : List Node) : Prop where
  tags : cols.nodeTags = nodes.map (fun v => v.constructor.tag)
  fields : ∀ id v, Holds nodes id v → ∃ start,
    cols.nodeFieldOffsets[id - 1]? = some start ∧
    cols.nodeFieldOffsets[id]? = some (start + v.fields.length) ∧
    start + v.fields.length ≤ cols.fieldCount ∧ FieldsAt cols nodes start v.fields
  canonical : StrictOn Node.canonicalBytes nodes
  small : nodes.length < 4294967296

/-- The table encodes the roots of an ontology canonically: each has a kind and a value. -/
structure Encodes (cols : Columns) (nodes : List Node) (roots : List (Nat × Node)) : Prop
    extends EncodesNodes cols nodes where
  rootKinds : cols.rootKinds = roots.map Prod.fst
  rootIds : List.Forall₂ (fun id root => Holds nodes id root.2) cols.rootIds roots

end Encoding

section Identifiers
variable {nodes : List Node} {i j : Nat} {v w : Node}

theorem Holds.mem (h : Holds nodes i v) : v ∈ nodes := List.mem_of_getElem? h.holds

theorem Holds.value (h : Holds nodes i v) (h' : Holds nodes i w) : v = w :=
  Option.some.inj (h.holds.symm.trans h'.holds)

theorem Holds.le (h : Holds nodes i v) : i ≤ nodes.length := by
  have hlt := (List.getElem?_eq_some_iff.mp h.holds).1
  omega

theorem holds_of_mem (h : v ∈ nodes) : ∃ i, Holds nodes i v := by
  obtain ⟨k, hk⟩ := List.mem_iff_getElem?.mp h
  exact ⟨k + 1, by omega, hk⟩

/-- Identifiers are in the order of the canonical bytes. -/
theorem Holds.lt_iff (hc : StrictOn Node.canonicalBytes nodes) (h : Holds nodes i v)
    (h' : Holds nodes j w) : i < j ↔ v.canonicalBytes < w.canonicalBytes := by
  have hmono : ∀ {a b : Nat} {x y : Node}, Holds nodes a x → Holds nodes b y → a < b →
      x.canonicalBytes < y.canonicalBytes := by
    intro a b x y ha hb hab
    obtain ⟨hla, hxa⟩ := List.getElem?_eq_some_iff.mp ha.holds
    obtain ⟨hlb, hyb⟩ := List.getElem?_eq_some_iff.mp hb.holds
    have hpos := ha.positive
    have hlt := List.pairwise_iff_getElem.mp hc (a - 1) (b - 1) hla hlb (by omega)
    rwa [hxa, hyb] at hlt
  constructor
  · exact hmono h h'
  · intro hlt
    by_contra hge
    cases Nat.lt_or_eq_of_le (Nat.le_of_not_lt hge) with
    | inl hji => exact absurd (hmono h' h hji) (lt_asymm hlt)
    | inr heq =>
      subst heq
      rw [h.value h'] at hlt
      exact lt_irrefl _ hlt

theorem Holds.id_eq (hc : StrictOn Node.canonicalBytes nodes) (h : Holds nodes i v)
    (h' : Holds nodes j v) : i = j := by
  have hlt : ¬i < j := fun hij => lt_irrefl _ ((h.lt_iff hc h').mp hij)
  have hgt : ¬j < i := fun hji => lt_irrefl _ ((h'.lt_iff hc h).mp hji)
  omega

end Identifiers

section Reads
variable {cols : Columns} {nodes : List Node} (table : EncodesNodes cols nodes)
  {id index minimum maximum : Nat} {v : Node} {c : Component}

theorem EncodesNodes.nodeCount (table : EncodesNodes cols nodes) :
    cols.nodeCount = nodes.length := by
  simp [Columns.nodeCount, table.tags]

include table in
theorem nodeId_eq (h : Holds nodes id v) : cols.nodeId id = .ok id := by
  simp [Columns.nodeId, table.nodeCount, h.positive, h.le]

include table in
theorem nodeId_ok {i : Nat} (h : cols.nodeId id = .ok i) : i = id ∧ ∃ v, Holds nodes id v := by
  unfold Columns.nodeId at h
  split at h
  · rename_i hrange
    rw [table.nodeCount] at hrange
    obtain ⟨v, hv⟩ : ∃ v, nodes[id - 1]? = some v :=
      ⟨nodes[id - 1], List.getElem?_eq_getElem (by omega)⟩
    cases h
    exact ⟨rfl, v, hrange.1, hv⟩
  · cases h

include table in
@[simp] theorem nodeTag_eq (h : Holds nodes id v) : cols.nodeTag id = .ok v.constructor.tag := by
  unfold Columns.nodeTag
  rw [nodeId_eq table h]
  simp [Bind.bind, Except.bind, Columns.read, Columns.buffer, table.tags, h.holds]

include table in
theorem tagIs_eq (h : Holds nodes id v) (c : Constructor) :
    cols.tagIs id c = .ok (v.isOf c) := by
  unfold Columns.tagIs
  rw [nodeTag_eq table h]
  have htag : (v.constructor.tag == c.tag) = v.isOf c := by
    rw [Bool.eq_iff_iff]
    simp only [beq_iff_eq, Node.isOf]
    exact ⟨Constructor.tag_inj, fun he => he ▸ rfl⟩
  simp [Bind.bind, Except.bind, pure, Except.pure, htag]

include table in
theorem tagIn_eq (h : Holds nodes id v) (cs : List Constructor) :
    cols.tagIn id cs = .ok (cs.contains v.constructor) := by
  unfold Columns.tagIn
  rw [nodeTag_eq table h]
  have htag : (cs.map Constructor.tag).contains v.constructor.tag =
      cs.contains v.constructor := by
    rw [Bool.eq_iff_iff]
    simp only [List.contains_iff_mem, List.mem_map]
    constructor
    · intro hm
      obtain ⟨d, hd, he⟩ := hm
      exact Constructor.tag_inj he ▸ hd
    · exact fun hm => ⟨_, hm, rfl⟩
  simp only [Bind.bind, Except.bind, pure, Except.pure, htag]

include table in
theorem fieldRange_eq (h : Holds nodes id v) :
    ∃ start, cols.fieldRange id = .ok (start, start + v.fields.length) ∧
      FieldsAt cols nodes start v.fields := by
  obtain ⟨start, hstart, hstop, hinside, hfields⟩ := table.fields id v h
  refine ⟨start, ?_, hfields⟩
  unfold Columns.fieldRange
  rw [nodeId_eq table h]
  have hbad : ¬(start > start + v.fields.length ∨ start + v.fields.length > cols.fieldCount) := by
    omega
  simp [Bind.bind, Except.bind, Columns.read, Columns.buffer, hstart, hstop, pure, Except.pure,
    hinside]

include table in
/-- A successful arity check tells how many fields the value has and where they start. -/
theorem exactFields_ok {arity start : Nat} (h : Holds nodes id v)
    (hr : cols.exactFields id arity = .ok start) :
    v.fields.length = arity ∧ FieldsAt cols nodes start v.fields := by
  obtain ⟨first, hrange, hfields⟩ := fieldRange_eq table h
  unfold Columns.exactFields at hr
  rw [hrange] at hr
  simp only [Bind.bind, Except.bind, Nat.add_sub_cancel_left] at hr
  split at hr
  · cases hr
  · rename_i hne
    cases hr
    exact ⟨by omega, hfields⟩

theorem read_field {kind value length : Nat} (h : FieldRow cols index kind value length) :
    cols.read .fieldKinds index = .ok kind ∧ cols.read .fieldValues index = .ok value ∧
      cols.read .fieldLengths index = .ok length := by
  simp [Columns.read, Columns.buffer, h.kinds, h.values, h.lengths]

theorem FieldRow.unique {k k' a a' l l' : Nat} (h : FieldRow cols index k a l)
    (h' : FieldRow cols index k' a' l') : k = k' ∧ a = a' ∧ l = l' :=
  ⟨Option.some.inj (h.kinds.symm.trans h'.kinds), Option.some.inj (h.values.symm.trans h'.values),
    Option.some.inj (h.lengths.symm.trans h'.lengths)⟩

/-- The row under a field. -/
theorem FieldCell.row (h : FieldCell cols nodes index c) :
    ∃ kind value length, FieldRow cols index kind value length ∧ kind = c.kind.toNat := by
  cases h with
  | plain hrow hc => exact ⟨_, _, _, hrow, by cases hc <;> rfl⟩
  | set hrow _ _ _ => exact ⟨_, _, _, hrow, rfl⟩
  | sequence hrow _ _ => exact ⟨_, _, _, hrow, rfl⟩

include table in
theorem fieldNode_ok {i : Nat} (h : FieldCell cols nodes index c)
    (hr : cols.fieldNode index = .ok i) : ∃ w, c = .node w ∧ Holds nodes i w := by
  obtain ⟨kind, value, length, hrow, hkind⟩ := h.row
  obtain ⟨hk, hv, hl⟩ := read_field hrow
  unfold Columns.fieldNode at hr
  simp only [hk, hl, hv, Bind.bind, Except.bind] at hr
  split at hr
  · cases hr
  · rename_i hcond
    simp only [ne_eq, not_or, not_not] at hcond
    obtain ⟨he, hw⟩ := nodeId_ok table hr
    cases h with
    | plain hrow' hc =>
      obtain ⟨rfl, rfl, rfl⟩ := hrow.unique hrow'
      cases hc <;> try (exact absurd hcond.1 (by decide))
      case node hn => exact ⟨_, rfl, he ▸ hn⟩
    | set hrow' _ _ _ =>
      obtain ⟨rfl, -, -⟩ := hrow.unique hrow'
      exact absurd hcond.1 (by decide)
    | sequence hrow' _ _ =>
      obtain ⟨rfl, -, -⟩ := hrow.unique hrow'
      exact absurd hcond.1 (by decide)

include table in
theorem itemNode_eq {i : Nat} (hrow : ItemRow cols index COMPONENT_NODE i 0)
    (h : Holds nodes i v) : cols.itemNode index = .ok i := by
  unfold Columns.itemNode
  simp [Columns.read, Columns.buffer, hrow.kinds, hrow.values, hrow.lengths, Bind.bind,
    Except.bind, nodeId_eq table h]

theorem SetItems.holds {start : Nat} {ids : List Nat} {items : List Node}
    (h : SetItems cols nodes start ids items) : List.Forall₂ (Holds nodes) ids items := by
  induction h with
  | nil => exact List.Forall₂.nil
  | cons _ hv _ ih => exact List.Forall₂.cons hv ih

include table in
/-- The members of a set are read back: their identifiers ascend because they do. -/
theorem setItems_eq {start previous : Nat} {ids : List Nat} {items : List Node}
    (h : SetItems cols nodes start ids items) (hsorted : StrictOn Node.canonicalBytes items)
    (hprevious : ∀ i ∈ ids, previous < i) :
    cols.setItems previous start items.length = .ok ids := by
  induction h generalizing previous with
  | nil => rfl
  | @cons start id v ids vs hrow hv hrest ih =>
    have hpairs := List.pairwise_cons.mp hsorted
    have hless : ∀ i ∈ ids, id < i := by
      intro i hi
      obtain ⟨k, hk, rfl⟩ := List.getElem_of_mem hi
      have hlen := hrest.holds.length_eq
      have hkv := (List.forall₂_iff_get.mp hrest.holds).2 k hk (hlen ▸ hk)
      exact (hv.lt_iff table.canonical hkv).mpr (hpairs.1 _ (List.get_mem _ _))
    have hnot : ¬id ≤ previous := Nat.not_le.mpr (hprevious id List.mem_cons_self)
    simp [Columns.setItems, Bind.bind, Except.bind, itemNode_eq table hrow hv, hnot,
      ih hpairs.2 hless, pure, Except.pure]

include table in
theorem nodeSet_ok {ids : List Nat} (h : FieldCell cols nodes index c)
    (hr : cols.nodeSet index minimum = .ok ids) :
    ∃ items, c = .set items ∧ minimum ≤ items.length ∧ List.Forall₂ (Holds nodes) ids items ∧
      StrictOn Node.canonicalBytes items := by
  obtain ⟨kind, value, length, hrow, hkind⟩ := h.row
  obtain ⟨hk, hv, hl⟩ := read_field hrow
  unfold Columns.nodeSet at hr
  simp only [hk, hl, hv, Bind.bind, Except.bind] at hr
  split at hr
  · cases hr
  rename_i hd
  have hset := demand_ok hd
  simp only [beq_iff_eq] at hset
  cases h with
  | plain hrow' hc =>
    obtain ⟨rfl, rfl, rfl⟩ := hrow.unique hrow'
    cases hc <;> exact absurd hset (by decide)
  | sequence hrow' _ _ =>
    obtain ⟨rfl, -, -⟩ := hrow.unique hrow'
    exact absurd hset (by decide)
  | @set start ids' items hrow' hinside hitems hsorted =>
    obtain ⟨rfl, rfl, rfl⟩ := hrow.unique hrow'
    split at hr
    · cases hr
    split at hr
    · cases hr
    rename_i hmin
    have hpositive : ∀ i ∈ ids', 0 < i := by
      intro i hi
      obtain ⟨k, hk, rfl⟩ := List.getElem_of_mem hi
      have hlen := hitems.holds.length_eq
      exact ((List.forall₂_iff_get.mp hitems.holds).2 k hk (hlen ▸ hk)).positive
    rw [setItems_eq table hitems hsorted hpositive] at hr
    cases hr
    exact ⟨items, rfl, Nat.le_of_not_lt hmin, hitems.holds, hsorted⟩

theorem Scalar.unique {offset length : Nat} {a b : Bytes} (h : Scalar cols offset length a)
    (h' : Scalar cols offset length b) : a = b := h.holds.symm.trans h'.holds

/-- A scalar that could be read stands for the component of the field. -/
theorem scalarPayload_ok {kind : Nat} {payload : Bytes} (h : FieldCell cols nodes index c)
    (hkind : kind < COMPONENT_SET) (hr : cols.scalarPayload index kind = .ok payload) :
    ∃ offset length, Cell cols nodes kind offset length c ∧ Scalar cols offset length payload := by
  obtain ⟨kind', offset, length, hrow, -⟩ := h.row
  obtain ⟨hk, hv, hl⟩ := read_field hrow
  unfold Columns.scalarPayload at hr
  simp only [hk, hl, hv, Bind.bind, Except.bind] at hr
  split at hr
  · cases hr
  rename_i hd
  have heq := demand_ok hd
  simp only [beq_iff_eq] at heq
  split at hr
  · cases hr
  rename_i hd'
  have hinside := demand_ok hd'
  simp only [decide_eq_true_eq] at hinside
  cases hr
  subst heq
  cases h with
  | plain hrow' hc =>
    obtain ⟨rfl, rfl, rfl⟩ := hrow.unique hrow'
    exact ⟨_, _, hc, hinside, rfl⟩
  | set hrow' _ _ _ =>
    obtain ⟨rfl, -, -⟩ := hrow.unique hrow'
    exact absurd hkind (by decide)
  | sequence hrow' _ _ =>
    obtain ⟨rfl, -, -⟩ := hrow.unique hrow'
    exact absurd hkind (by decide)

theorem bytesField_ok {payload : Bytes} (h : FieldCell cols nodes index c)
    (hr : cols.scalarPayload index COMPONENT_BYTES = .ok payload) : c = .bytes payload := by
  obtain ⟨offset, length, hc, hscalar⟩ := scalarPayload_ok h (by decide) hr
  cases hc with
  | bytes hb => rw [hb.unique hscalar]

theorem textField_ok {payload : Bytes} (h : FieldCell cols nodes index c)
    (hr : cols.scalarPayload index COMPONENT_TEXT = .ok payload) :
    ∃ text, c = .text text ∧ payload = utf8 text := by
  obtain ⟨offset, length, hc, hscalar⟩ := scalarPayload_ok h (by decide) hr
  cases hc with
  | text ht => exact ⟨_, rfl, hscalar.unique ht⟩

theorem enumField_ok {payload : Bytes} (h : FieldCell cols nodes index c)
    (hr : cols.scalarPayload index COMPONENT_ENUM = .ok payload) :
    ∃ kind, c = .enum kind ∧ payload = utf8 kind.text := by
  obtain ⟨offset, length, hc, hscalar⟩ := scalarPayload_ok h (by decide) hr
  cases hc with
  | enum he => exact ⟨_, rfl, hscalar.unique he⟩

theorem boundedText_ok {text exceeds notUtf8 : String} (h : FieldCell cols nodes index c)
    (hr : cols.boundedText index maximum exceeds notUtf8 = .ok text) : c = .text text := by
  obtain ⟨payload, hpayload, hrest⟩ := bind_ok hr
  obtain ⟨t, rfl, rfl⟩ := textField_ok h hpayload
  split at hrest
  · cases hrest
  · rw [fromUtf8_utf8] at hrest
    cases hrest
    rfl

end Reads

end Projector.Encoded
