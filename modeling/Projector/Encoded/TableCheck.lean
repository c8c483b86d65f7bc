import Projector.Encoded.Table

namespace Projector.Encoded
open Lib Projector.Core Compiler

/-! A test that a table encodes some nodes. -/

namespace Columns
variable (cols : Columns) (nodes : List Node)

def scalarIs (offset length : Nat) (payload : Bytes) : Bool :=
  offset + length ≤ cols.scalarBytes.length &&
    (cols.scalarBytes.drop offset).take length == payload

def holdsNode (id : Nat) (v : Node) : Bool := 1 ≤ id && nodes[id - 1]? == some v

/-- A kind, a value and a length that stand for a component without items. -/
def cellIs (kind value length : Nat) : Component → Bool
  | .none => kind == COMPONENT_NONE && value == 0 && length == 0
  | .node v => kind == COMPONENT_NODE && length == 0 && holdsNode nodes value v
  | .text text => kind == COMPONENT_TEXT && cols.scalarIs value length (utf8 text)
  | .bytes payload => kind == COMPONENT_BYTES && cols.scalarIs value length payload
  | .integer n =>
    let payload := (cols.scalarBytes.drop value).take length
    kind == COMPONENT_INTEGER && cols.scalarIs value length payload && minimalInteger payload &&
      littleEndian payload == n
  | .enum entityKind => kind == COMPONENT_ENUM && cols.scalarIs value length (utf8 entityKind.text)
  | .set _ => false
  | .sequence _ => false

def itemsAre (start : Nat) : List Component → Bool
  | [] => true
  | c :: cs =>
    match cols.itemKinds[start]?, cols.itemValues[start]?, cols.itemLengths[start]? with
    | some kind, some value, some length =>
      cols.cellIs nodes kind value length c && itemsAre (start + 1) cs
    | _, _, _ => false

def fieldIs (index : Nat) (c : Component) : Bool :=
  match cols.fieldKinds[index]?, cols.fieldValues[index]?, cols.fieldLengths[index]? with
  | some kind, some value, some length =>
    match c with
    | .set items =>
      kind == COMPONENT_SET && length == items.length && value + length ≤ cols.itemCount &&
        cols.itemsAre nodes value (items.map .node) && decide (StrictOn Node.canonicalBytes items)
    | .sequence items =>
      kind == COMPONENT_SEQUENCE && length == items.length && value + length ≤ cols.itemCount &&
        cols.itemsAre nodes value items
    | c => cols.cellIs nodes kind value length c
  | _, _, _ => false

def fieldsAre (start : Nat) : List Component → Bool
  | [] => true
  | c :: cs => cols.fieldIs nodes start c && fieldsAre (start + 1) cs

def nodeIs (id : Nat) (v : Node) : Bool :=
  match cols.nodeFieldOffsets[id - 1]?, cols.nodeFieldOffsets[id]? with
  | some start, some stop =>
    stop == start + v.fields.length && stop ≤ cols.fieldCount && cols.fieldsAre nodes start v.fields
  | _, _ => false

/-- Whether the table encodes the nodes, all of them and in their order. -/
def encodes : Bool :=
  cols.nodeTags == nodes.map (fun v => v.constructor.tag) &&
    nodes.zipIdx.all (fun entry => cols.nodeIs nodes (entry.2 + 1) entry.1) &&
    decide (StrictOn Node.canonicalBytes nodes) && nodes.length < 4294967296

end Columns

section Soundness
variable {cols : Columns} {nodes : List Node} {index : Nat}

theorem scalarIs_sound {offset length : Nat} {payload : Bytes}
    (h : cols.scalarIs offset length payload = true) : Scalar cols offset length payload := by
  simp only [Columns.scalarIs, Bool.and_eq_true, decide_eq_true_eq, beq_iff_eq] at h
  exact ⟨h.1, h.2⟩

theorem holdsNode_sound {id : Nat} {v : Node} (h : Columns.holdsNode nodes id v = true) :
    Holds nodes id v := by
  simp only [Columns.holdsNode, Bool.and_eq_true, decide_eq_true_eq, beq_iff_eq] at h
  exact ⟨h.1, h.2⟩

theorem cellIs_sound {kind value length : Nat} {c : Component}
    (h : cols.cellIs nodes kind value length c = true) : Cell cols nodes kind value length c := by
  cases c with
  | none =>
    simp only [Columns.cellIs, Bool.and_eq_true, beq_iff_eq] at h
    obtain ⟨⟨rfl, rfl⟩, rfl⟩ := h
    exact .none
  | node v =>
    simp only [Columns.cellIs, Bool.and_eq_true, beq_iff_eq] at h
    obtain ⟨⟨rfl, rfl⟩, hnode⟩ := h
    exact .node (holdsNode_sound hnode)
  | text text =>
    simp only [Columns.cellIs, Bool.and_eq_true, beq_iff_eq] at h
    obtain ⟨rfl, hscalar⟩ := h
    exact .text (scalarIs_sound hscalar)
  | bytes payload =>
    simp only [Columns.cellIs, Bool.and_eq_true, beq_iff_eq] at h
    obtain ⟨rfl, hscalar⟩ := h
    exact .bytes (scalarIs_sound hscalar)
  | integer n =>
    simp only [Columns.cellIs, Bool.and_eq_true, beq_iff_eq] at h
    obtain ⟨⟨⟨rfl, hscalar⟩, hminimal⟩, rfl⟩ := h
    exact .integer (scalarIs_sound hscalar) hminimal
  | enum entityKind =>
    simp only [Columns.cellIs, Bool.and_eq_true, beq_iff_eq] at h
    obtain ⟨rfl, hscalar⟩ := h
    exact .enum (scalarIs_sound hscalar)
  | set items => cases h
  | sequence items => cases h

theorem itemsAre_sound {start : Nat} {cs : List Component}
    (h : cols.itemsAre nodes start cs = true) : SequenceItems cols nodes start cs := by
  induction cs generalizing start with
  | nil => exact .nil
  | cons c cs ih =>
    unfold Columns.itemsAre at h
    split at h
    · rename_i kind value length hk hv hl
      simp only [Bool.and_eq_true] at h
      exact .cons ⟨hk, hv, hl⟩ (cellIs_sound h.1) (ih h.2)
    · cases h

/-- Items that are nodes are the items of a set. -/
theorem setItems_of_sequence {start : Nat} {vs : List Node}
    (h : SequenceItems cols nodes start (vs.map .node)) :
    ∃ ids, SetItems cols nodes start ids vs := by
  induction vs generalizing start with
  | nil => exact ⟨[], .nil⟩
  | cons v vs ih =>
    cases h with
    | cons hrow hc hrest =>
      obtain ⟨ids, hids⟩ := ih hrest
      cases hc with
      | node hv => exact ⟨_, .cons hrow hv hids⟩

theorem fieldIs_sound {c : Component} (h : cols.fieldIs nodes index c = true) :
    FieldCell cols nodes index c := by
  unfold Columns.fieldIs at h
  split at h
  · rename_i kind value length hk hv hl
    split at h
    · rename_i items
      simp only [Bool.and_eq_true, beq_iff_eq, decide_eq_true_eq] at h
      obtain ⟨⟨⟨⟨rfl, rfl⟩, hinside⟩, hitems⟩, hsorted⟩ := h
      obtain ⟨ids, hids⟩ := setItems_of_sequence (itemsAre_sound hitems)
      exact .set ⟨hk, hv, hl⟩ hinside hids hsorted
    · rename_i items
      simp only [Bool.and_eq_true, beq_iff_eq, decide_eq_true_eq] at h
      obtain ⟨⟨⟨rfl, rfl⟩, hinside⟩, hitems⟩ := h
      exact .sequence ⟨hk, hv, hl⟩ hinside (itemsAre_sound hitems)
    · exact .plain ⟨hk, hv, hl⟩ (cellIs_sound h)
  · cases h

theorem fieldsAre_sound {start : Nat} {cs : List Component}
    (h : cols.fieldsAre nodes start cs = true) : FieldsAt cols nodes start cs := by
  induction cs generalizing start with
  | nil =>
    intro i c hc
    cases hc
  | cons c cs ih =>
    unfold Columns.fieldsAre at h
    simp only [Bool.and_eq_true] at h
    intro i d hd
    cases i with
    | zero =>
      cases hd
      exact fieldIs_sound h.1
    | succ i =>
      have hrest := ih h.2 i d (by simpa using hd)
      rwa [Nat.add_assoc, Nat.add_comm 1 i] at hrest

/-- A table that passes the test encodes the nodes. -/
theorem encodes_sound (h : cols.encodes nodes = true) : EncodesNodes cols nodes := by
  simp only [Columns.encodes, Bool.and_eq_true, beq_iff_eq, decide_eq_true_eq] at h
  obtain ⟨⟨⟨htags, hnodes⟩, hsorted⟩, hsmall⟩ := h
  refine ⟨htags, ?_, hsorted, hsmall⟩
  intro id v hv
  have hpositive := hv.positive
  have hentry : (v, id - 1) ∈ nodes.zipIdx := by
    rw [List.mem_zipIdx_iff_getElem?]
    exact hv.holds
  have hnode := List.all_eq_true.mp hnodes _ hentry
  simp only at hnode
  rw [Nat.sub_add_cancel hpositive] at hnode
  unfold Columns.nodeIs at hnode
  split at hnode
  · rename_i start stop hstart hstop
    simp only [Bool.and_eq_true, beq_iff_eq, decide_eq_true_eq] at hnode
    obtain ⟨⟨rfl, hinside⟩, hfields⟩ := hnode
    exact ⟨start, hstart, hstop, hinside, fieldsAre_sound hfields⟩
  · cases hnode

end Soundness

end Projector.Encoded
