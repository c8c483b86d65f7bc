import Projector.Encoded.NodeLength

namespace Projector.Encoded
open Lib Projector.Core Compiler

/-- What every cursor of a session remembers is right. -/
def Remembers (cursors : List Cursor) (session : Session) : Prop :=
  ∀ c ∈ cursors, Sound c (session.lengths c.identity)

/-- An identity names one cursor. -/
def Distinct (cursors : List Cursor) : Prop :=
  ∀ c ∈ cursors, ∀ d ∈ cursors, c.identity = d.identity → c = d

section Session
variable {cursors : List Cursor} {session : Session} {c : Cursor} {lengths : Lengths}

theorem remembers_start : Remembers cursors Session.start := by
  intro c _ id n h
  cases h

theorem Remembers.remember (h : Remembers cursors session) (hd : Distinct cursors)
    (hc : c ∈ cursors) (hsound : Sound c lengths) :
    Remembers cursors (session.remember c.identity lengths) := by
  intro d hdc
  unfold Session.remember
  dsimp only
  split
  · rename_i heq
    rwa [hd d hdc c hc heq]
  · exact h d hdc

end Session

section Streaming
variable {cursors : List Cursor} {c : Cursor} {fuel id : Nat} {t : Term} {bytes : Bytes}
  {parts : List (Read Cursor.Part)} {frames : Cursor.Frames}

/-- The bytes that a cursor still yields, whatever its session remembers. -/
abbrev Yields (cursors : List Cursor) (c : Cursor) : Cursor.Frames → Bytes → Prop :=
  Streams c.byteTurn (Remembers cursors) (fun _ => False)

theorem yields_silent {next : Cursor.Frames} (hrest : Yields cursors c next bytes)
    (h : ∀ session, c.byteTurn session frames = .ok (session, .silent next)) :
    Yields cursors c frames bytes :=
  .silent (fun session hs => .inl ⟨session, hs, h session⟩) hrest

theorem yields_emit {next : Cursor.Frames} {byte : UInt8} (hrest : Yields cursors c next bytes)
    (h : ∀ session, c.byteTurn session frames = .ok (session, .emit byte next)) :
    Yields cursors c frames (byte :: bytes) :=
  .emit (fun session hs => .inl ⟨session, hs, h session⟩) hrest

theorem yields_end : Yields cursors c [] [] :=
  .stop fun session hs => .inl ⟨session, hs, rfl⟩

theorem yields_done (hrest : Yields cursors c frames bytes) :
    Yields cursors c ([] :: frames) bytes :=
  yields_silent hrest fun _ => rfl

theorem yields_byte (value : Nat) (hrest : Yields cursors c (parts :: frames) bytes) :
    Yields cursors c ((.ok (.byte value) :: parts) :: frames) (UInt8.ofNat value :: bytes) :=
  yields_emit hrest fun _ => rfl

theorem yields_bytes (payload : Bytes) (hrest : Yields cursors c (parts :: frames) bytes) :
    Yields cursors c ((.ok (.bytes payload) :: parts) :: frames) (payload ++ bytes) := by
  induction payload with
  | nil => exact yields_silent hrest fun _ => rfl
  | cons b payload ih => exact yields_emit ih fun _ => rfl

theorem yields_lengthOf (hd : Distinct cursors) (hc : c ∈ cursors)
    (ht : c.columns.Stands c.scopeMap id t) (hrest : Yields cursors c (parts :: frames) bytes) :
    Yields cursors c ((.ok (.lengthOf id) :: parts) :: frames)
      (varint t.encode.length ++ bytes) := by
  refine .silent (fun session hs => .inl ?_) (yields_bytes (varint t.encode.length) hrest)
  obtain ⟨lengths, hsound, hlength⟩ := nodeLength_eq (hs c hc) ht
  refine ⟨session.remember c.identity lengths, hs.remember hd hc hsound, ?_⟩
  change (c.nodeLength (session.lengths c.identity) id >>= fun _ => _) = _
  rw [ok_bind _ hlength]

/-- A node yields the code of the term that it stands for. -/
def YieldsCode (cursors : List Cursor) (c : Cursor) (fuel : Nat) : Prop :=
  ∀ id t, c.columns.termAt c.scopeMap fuel id = some t → ∀ frames bytes,
    Yields cursors c frames bytes → Yields cursors c (c.nodeParts id :: frames) (t.encode ++ bytes)

section Pieces
variable {index : Nat} {item : Bool} {owner : Option Nat} {rescope : Bytes → Bytes}
  {row : ComponentRow} {p : Piece}
variable (hd : Distinct cursors) (hc : c ∈ cursors) (ih : YieldsCode cursors c fuel)

include hd hc ih

theorem yields_child (ht : c.columns.termAt c.scopeMap fuel id = some t)
    (hrest : Yields cursors c (parts :: frames) bytes) :
    Yields cursors c ((Cursor.childParts (.ok id) ++ parts) :: frames)
      (sized t.encode ++ bytes) := by
  have hnode : Yields cursors c ((.ok (.node id) :: parts) :: frames) (t.encode ++ bytes) :=
    yields_silent (ih id t ht _ _ hrest) fun _ => rfl
  unfold sized
  rw [List.append_assoc]
  exact yields_lengthOf hd hc ⟨fuel, ht⟩ hnode

theorem yields_leaf (howned : Owned c index owner item rescope)
    (hrow : c.columns.cellAt index item = some row)
    (hleaf : LeafView c.columns (c.columns.termAt c.scopeMap fuel) rescope row p)
    (hrest : Yields cursors c frames bytes) :
    Yields cursors c (c.componentParts owner index item :: frames) (p.encode ++ bytes) := by
  have hend := yields_done hrest
  unfold Cursor.componentParts
  rw [head_eq hrow]
  cases hleaf with
  | none => exact yields_byte _ hend
  | @node child s hs =>
    simp only [COMPONENT_NODE, COMPONENT_NONE, one_ne_zero, if_false, if_true,
      nodeId_of_term hs]
    have hchild := yields_child hd hc ih hs hend
    rw [List.append_nil] at hchild
    exact yields_byte _ hchild
  | @scalar offset length payload kind hpayload =>
    obtain ⟨hnone, hnode, -, -⟩ := scalar_ne kind
    simp only [hnone, hnode, scalar_isPlain, if_false, if_true,
      scalarPart_eq howned hrow hpayload, scalar_bytes]
    have hpayload := yields_byte kind.code.toNat
      (yields_bytes (varint (if kind = .bytes then rescope payload else payload).length)
        (yields_bytes (if kind = .bytes then rescope payload else payload) hend))
    rw [UInt8.ofNat_toNat] at hpayload
    simpa [Piece.encode, sized] using hpayload
  | @integer offset length payload hpayload hminimal =>
    have hpart := scalarPart_eq howned hrow hpayload
    simp only [COMPONENT_INTEGER, COMPONENT_BYTES, COMPONENT_NONE, COMPONENT_NODE, isPlainScalar,
      COMPONENT_TEXT, COMPONENT_ENUM] at hpart ⊢
    simp only [OfNat.ofNat_ne_zero, OfNat.ofNat_ne_one, Nat.reduceBEq,
      Nat.reduceEqDiff, Bool.or_self, Bool.false_eq_true, if_false, if_true] at hpart ⊢
    rw [hpart]
    exact yields_byte _ (yields_bytes _ hend)

theorem yields_members {indices : List Nat} {items : List Term}
    (hitems : List.Forall₂
      (fun j s => c.columns.memberTerm (c.columns.termAt c.scopeMap fuel) j = some s)
      indices items)
    (hrest : Yields cursors c frames bytes) :
    Yields cursors c
      ((indices.flatMap fun j => Cursor.childParts (c.columns.itemNode j)) :: frames)
      (Term.encodeAll items ++ bytes) := by
  induction hitems with
  | nil => exact yields_done hrest
  | @cons j s indices items hmember _ ihrest =>
    obtain ⟨child, hcell, hterm⟩ := memberTerm_some hmember
    rw [List.flatMap_cons, itemNode_of_cell hcell hterm, Term.encodeAll, List.append_assoc]
    exact yields_child hd hc ih hterm ihrest

theorem yields_items {indices : List Nat} {items : List Piece}
    (hitems : List.Forall₂
      (fun j q => c.columns.itemPiece (c.columns.termAt c.scopeMap fuel) j = some q)
      indices items)
    (hrest : Yields cursors c frames bytes) :
    Yields cursors c
      ((indices.flatMap fun j => [.ok (.component none j true)]) :: frames)
      (Piece.encodeAll items ++ bytes) := by
  induction hitems with
  | nil => exact yields_done hrest
  | @cons j q indices items hpiece _ ihrest =>
    obtain ⟨row, hrow, hleaf⟩ := itemPiece_some hpiece
    rw [List.flatMap_cons, Piece.encodeAll, List.append_assoc]
    exact yields_silent (yields_leaf hd hc ih .item hrow hleaf ihrest) fun _ => rfl

theorem yields_field {start stop tag : Nat}
    (hrange : c.columns.rangeAt id = some (start, stop))
    (htag : c.columns.nodeTags[id - 1]? = some tag)
    (h : c.columns.fieldPiece (c.columns.termAt c.scopeMap fuel)
      (Columns.rescopeOf c.scopeMap tag start index) index = some p)
    (hrest : Yields cursors c frames bytes) :
    Yields cursors c (c.componentParts (some id) index false :: frames) (p.encode ++ bytes) := by
  obtain ⟨row, hrow, hview⟩ := fieldPiece_some h
  cases hview with
  | leaf hleaf => exact yields_leaf hd hc ih (.field hrange htag) hrow hleaf hrest
  | @set first length items hinside hitems =>
    have hitems := mapM_some.mp hitems
    have hcount : length = items.length := by simpa using hitems.length_eq
    unfold Cursor.componentParts
    rw [head_eq hrow]
    have hmembers := yields_byte COMPONENT_SET
      (yields_bytes (varint length) (yields_members hd hc ih hitems hrest))
    simpa [COMPONENT_SET, COMPONENT_NONE, COMPONENT_NODE, isPlainScalar, COMPONENT_TEXT,
      COMPONENT_BYTES, COMPONENT_ENUM, COMPONENT_INTEGER, Piece.encode, hcount] using hmembers
  | @sequence first length items hinside hitems =>
    have hitems := mapM_some.mp hitems
    have hcount : length = items.length := by simpa using hitems.length_eq
    unfold Cursor.componentParts
    rw [head_eq hrow]
    have hmembers := yields_byte COMPONENT_SEQUENCE
      (yields_bytes (varint length) (yields_items hd hc ih hitems hrest))
    simpa [COMPONENT_SET, COMPONENT_SEQUENCE, COMPONENT_NONE, COMPONENT_NODE, isPlainScalar,
      COMPONENT_TEXT, COMPONENT_BYTES, COMPONENT_ENUM, COMPONENT_INTEGER, Piece.encode, hcount]
      using hmembers

theorem yields_fields {start stop tag : Nat} {indices : List Nat} {fields : List Piece}
    (hrange : c.columns.rangeAt id = some (start, stop))
    (htag : c.columns.nodeTags[id - 1]? = some tag)
    (hfields : List.Forall₂
      (fun index p => c.columns.fieldPiece (c.columns.termAt c.scopeMap fuel)
        (Columns.rescopeOf c.scopeMap tag start index) index = some p) indices fields)
    (hrest : Yields cursors c frames bytes) :
    Yields cursors c
      ((indices.map fun index => .ok (.component (some id) index false)) :: frames)
      (Piece.encodeAll fields ++ bytes) := by
  induction hfields with
  | nil => exact yields_done hrest
  | @cons index p indices fields hpiece _ ihrest =>
    rw [List.map_cons, Piece.encodeAll, List.append_assoc]
    exact yields_silent (yields_field hd hc ih hrange htag hpiece ihrest) fun _ => rfl

end Pieces

theorem yields_node (hd : Distinct cursors) (hc : c ∈ cursors) (fuel : Nat) :
    YieldsCode cursors c fuel := by
  induction fuel with
  | zero =>
    intro id t h
    cases h
  | succ fuel ih =>
    intro id t h frames bytes hrest
    obtain ⟨previous, start, stop, tag, fields, hfuel, rfl, hview⟩ := termAt_some h
    obtain rfl := Nat.succ.inj hfuel
    unfold Cursor.nodeParts
    rw [nodeTag_of_range hview.range hview.tagged, (rangeAt_some hview.range).2, Term.encode,
      List.append_assoc]
    exact yields_bytes (varint tag)
      (yields_fields hd hc ih hview.range hview.tagged hview.fields hrest)

end Streaming

end Projector.Encoded
