import Projector.Native.Components

namespace Projector.Native
open Lib Projector.Core Projector.Encoded

section Pieces

/-- What a component stands for, when its document scope has been mapped. -/
def pieceOf (cols : Columns) (term : Nat → Option Term) : CanonicalComponent → Option Piece
  | .none => some .none
  | .node id => (term id).map .node
  | .scalar kind payload => (Columns.scalarKindOf? kind).map (.scalar · payload)
  | .integer payload => some (.integer (fromLittleEndian payload))
  | .collection kind start length =>
    let items := List.range' start length
    if kind = COMPONENT_SET then (items.mapM (cols.memberTerm term)).map .set
    else (items.mapM (cols.itemPiece term)).map .sequence

def mapScope (rescope : Bytes → Bytes) : CanonicalComponent → CanonicalComponent
  | .scalar kind payload => .scalar kind (if kind = COMPONENT_BYTES then rescope payload else payload)
  | other => other

variable {d : DirectColumns} {term : Nat → Option Term} {rescope : Bytes → Bytes} {index : Nat}
  {component : CanonicalComponent}

theorem scalarKindOf_code (k : ScalarKind) : Columns.scalarKindOf? k.code.toNat = some k := by
  cases k <;> rfl

theorem scalar_ne_integer (k : ScalarKind) : k.code.toNat ≠ COMPONENT_INTEGER := by
  cases k <;> decide

theorem leafPiece_reads {item : Bool} {row : ComponentRow}
    (hcomponent : ComponentAt d index item row component)
    (hleaf : row.kind ≠ COMPONENT_SET ∧ row.kind ≠ COMPONENT_SEQUENCE) :
    d.columns.leafPiece term rescope row = pieceOf d.columns term (mapScope rescope component) := by
  unfold Columns.leafPiece
  cases hcomponent with
  | none => rfl
  | node hid => rfl
  | scalar kind hpayload hfits hadmitted =>
    obtain ⟨hnone, hnode, -, -⟩ := scalar_ne kind
    dsimp only [mapScope, pieceOf]
    simp only [if_neg hnone, if_neg hnode, if_neg (scalar_ne_integer kind), scalarKindOf_code,
      hpayload, scalar_bytes, Option.map_some]
  | integer hpayload hfits hminimal =>
    dsimp only [mapScope, pieceOf]
    simp [COMPONENT_INTEGER, COMPONENT_NONE, COMPONENT_NODE, hpayload, hminimal]
  | collection hkind hitem hinside => exact absurd hkind (by simpa using hleaf)

theorem ComponentAt.leaf_kind {item : Bool} {row : ComponentRow}
    (h : ComponentAt d index item row component) (hitem : item = true) :
    row.kind ≠ COMPONENT_SET ∧ row.kind ≠ COMPONENT_SEQUENCE := by
  cases h with
  | none => simp [COMPONENT_NONE, COMPONENT_SET, COMPONENT_SEQUENCE]
  | node => simp [COMPONENT_NODE, COMPONENT_SET, COMPONENT_SEQUENCE]
  | scalar kind => exact (scalar_ne kind).2.2
  | integer => simp [COMPONENT_INTEGER, COMPONENT_SET, COMPONENT_SEQUENCE]
  | collection _ hfield => simp [hitem] at hfield

theorem itemPiece_reads (h : Reads d index true component) :
    d.columns.itemPiece term index = pieceOf d.columns term component := by
  obtain ⟨row, hrow, hcomponent⟩ := h
  unfold Columns.itemPiece
  rw [hrow]
  have hsame : mapScope id component = component := by
    cases component <;> simp [mapScope]
  have hleaf : d.columns.leafPiece term id row = pieceOf d.columns term (mapScope id component) :=
    leafPiece_reads hcomponent (hcomponent.leaf_kind rfl)
  rw [hsame] at hleaf
  exact hleaf

theorem memberTerm_reads {id : Nat} (h : Reads d index true (.node id)) :
    d.columns.memberTerm term index = term id := by
  obtain ⟨row, hrow, hcomponent⟩ := h
  cases hcomponent
  simp [Columns.memberTerm, hrow]

theorem fieldPiece_reads (h : Reads d index false component) :
    d.columns.fieldPiece term rescope index =
      pieceOf d.columns term (mapScope rescope component) := by
  obtain ⟨row, hrow, hcomponent⟩ := h
  unfold Columns.fieldPiece
  rw [hrow]
  dsimp only
  by_cases hkind : row.kind = COMPONENT_SET ∨ row.kind = COMPONENT_SEQUENCE
  · rw [if_pos hkind]
    cases hcomponent with
    | none => simp [COMPONENT_NONE, COMPONENT_SET, COMPONENT_SEQUENCE] at hkind
    | node => simp [COMPONENT_NODE, COMPONENT_SET, COMPONENT_SEQUENCE] at hkind
    | scalar kind => exact absurd hkind (by simpa using (scalar_ne kind).2.2)
    | integer => simp [COMPONENT_INTEGER, COMPONENT_SET, COMPONENT_SEQUENCE] at hkind
    | collection _ _ hinside =>
      rw [if_pos hinside]
      rfl
  · rw [if_neg hkind]
    exact leafPiece_reads hcomponent (by simpa using hkind)

end Pieces

section Lengths
variable {β : Type} {m : Meter β} {d : DirectColumns} {lengths : Nat → Nat}
  {component : CanonicalComponent} {b b' : β}

/-- The lengths in the table are those of the codes of some terms. -/
def KnownLengths (term : Nat → Option Term) (lengths : Nat → Nat) : Prop :=
  ∀ child, lengths child ≠ 0 → ∃ t, term child = some t ∧ lengths child = t.encode.length

/-- A component that is no collection has a length. -/
def LeafListed (lengths : Nat → Nat) : CanonicalComponent → Prop
  | .node child => lengths child ≠ 0
  | .integer value => ∃ chunks, integerVarintChunks value = .ok chunks
  | _ => True

/-- A component has a length, and its items can be read. -/
def Listed (d : DirectColumns) (lengths : Nat → Nat) : CanonicalComponent → Prop
  | .collection _ start length => ∀ j ∈ List.range' start length, ∃ item, Reads d j true item ∧
      LeafListed lengths item
  | other => LeafListed lengths other

theorem checkedAdd_ok {x y n : Nat} {message : String} (h : checkedAdd x y message = .ok n) :
    n = x + y := by
  unfold checkedAdd at h
  split at h
  · exact (Except.ok.inj h).symm
  · cases h

theorem sizedLength_ok {total length n : Nat} {message : String}
    (h : sizedLength total length message = .ok n) :
    n = total + ((varint length).length + length) := by
  unfold sizedLength at h
  obtain ⟨next, hnext, h⟩ := bind_ok h
  rw [checkedAdd_ok h, checkedAdd_ok hnext, varintWidth_eq, Nat.add_assoc]

theorem childLength_ok {id n : Nat} {message : String}
    (h : childLength lengths id message = .ok n) : lengths id ≠ 0 ∧ n = lengths id := by
  unfold childLength at h
  split at h
  · cases h
  · rename_i hne
    exact ⟨hne, (Except.ok.inj h).symm⟩

theorem scalarKindOf_scalar {item : Bool} {index kind : Nat} {payload : Bytes}
    (h : Reads d index item (.scalar kind payload)) : ∃ k : ScalarKind, kind = k.code.toNat := by
  obtain ⟨row, -, hcomponent⟩ := h
  cases hcomponent with
  | scalar k => exact ⟨k, rfl⟩

/-- The length of a component other than a collection is that of its code. -/
theorem leafLength_ok {n : Nat} (hkind : ∀ kind payload, component = .scalar kind payload →
      ∃ k : ScalarKind, kind = k.code.toNat) (h : leafLength lengths component = .ok n) :
    LeafListed lengths component ∧ ∀ term, KnownLengths term lengths →
      ∃ p, pieceOf d.columns term component = some p ∧ n = p.encode.length := by
  cases component with
  | none =>
    cases h
    exact ⟨trivial, fun _ _ => ⟨_, rfl, rfl⟩⟩
  | node child =>
    obtain ⟨length, hlength, h⟩ := bind_ok h
    obtain ⟨hne, rfl⟩ := childLength_ok hlength
    refine ⟨hne, fun term hterm => ?_⟩
    obtain ⟨t, ht, hlen⟩ := hterm child hne
    refine ⟨.node t, by simp [pieceOf, ht], ?_⟩
    rw [sizedLength_ok h, hlen, Piece.encode, List.length_cons, length_sized, Nat.add_comm]
    rfl
  | scalar kind payload =>
    refine ⟨trivial, fun term _ => ?_⟩
    obtain ⟨k, rfl⟩ := hkind kind payload rfl
    refine ⟨.scalar k payload, by simp [pieceOf, scalarKindOf_code], ?_⟩
    rw [sizedLength_ok h, Piece.encode, List.length_cons, length_sized, Nat.add_comm]
    rfl
  | integer payload =>
    obtain ⟨chunks, hchunks, h⟩ := bind_ok h
    refine ⟨⟨chunks, hchunks⟩, fun term _ => ⟨_, rfl, ?_⟩⟩
    rw [checkedAdd_ok h, Piece.encode, List.length_cons,
      (integerVarintChunks_ok hchunks).varint_length, Nat.add_comm]
  | collection kind start length => cases h

theorem itemTurn_ok {kind total index n : Nat}
    (h : itemTurn m d lengths kind total index b = .ok (n, b')) :
    ∃ size, n = total + size ∧ ∃ item, Reads d index true item ∧ LeafListed lengths item ∧
      ∀ term, KnownLengths term lengths →
        if kind = COMPONENT_SET then
          ∃ t, d.columns.memberTerm term index = some t ∧ size = (sized t.encode).length
        else ∃ p, d.columns.itemPiece term index = some p ∧ size = p.encode.length := by
  unfold itemTurn at h
  obtain ⟨_, _, _, h⟩ := metered_bind_ok h
  obtain ⟨item, _, hitem, h⟩ := metered_bind_ok h
  have hreads := canonicalComponent_ok hitem
  split at h
  · rename_i hset
    split at h
    · rename_i id
      obtain ⟨child, _, hchild, hrest⟩ := metered_bind_ok h
      obtain ⟨hne, rfl⟩ := childLength_ok (lift_ok hchild)
      refine ⟨_, sizedLength_ok (lift_ok hrest), .node id, hreads, hne, fun term hterm => ?_⟩
      obtain ⟨t, ht, hlen⟩ := hterm id hne
      rw [if_pos hset]
      refine ⟨t, by rw [memberTerm_reads hreads, ht], ?_⟩
      rw [length_sized, hlen]
      rfl
    · exact absurd h malformed_ne
  · rename_i hset
    obtain ⟨_, _, _, h⟩ := metered_bind_ok h
    obtain ⟨size, _, hsize, h⟩ := metered_bind_ok h
    obtain ⟨hlisted, hpiece⟩ := leafLength_ok (d := d)
      (fun kind payload he => scalarKindOf_scalar (he ▸ hreads)) (lift_ok hsize)
    refine ⟨size, checkedAdd_ok (lift_ok h), item, hreads, hlisted, fun term hterm => ?_⟩
    rw [if_neg hset]
    obtain ⟨p, hp, hlen⟩ := hpiece term hterm
    exact ⟨p, by rw [itemPiece_reads hreads, hp], hlen⟩

/-- What adds up over the items of a collection. -/
theorem items_ok {kind : Nat} {indices sizes : List Nat}
    (h : List.Forall₂ (fun j size => ∃ item, Reads d j true item ∧ LeafListed lengths item ∧
      ∀ term, KnownLengths term lengths →
        if kind = COMPONENT_SET then
          ∃ t, d.columns.memberTerm term j = some t ∧ size = (sized t.encode).length
        else ∃ p, d.columns.itemPiece term j = some p ∧ size = p.encode.length) indices sizes) :
    (∀ j ∈ indices, ∃ item, Reads d j true item ∧ LeafListed lengths item) ∧
    ∀ term, KnownLengths term lengths →
      if kind = COMPONENT_SET then
        ∃ items, indices.mapM (d.columns.memberTerm term) = some items ∧
          sizes.sum = (Term.encodeAll items).length
      else ∃ items, indices.mapM (d.columns.itemPiece term) = some items ∧
        sizes.sum = (Piece.encodeAll items).length := by
  induction h with
  | nil =>
    refine ⟨fun j hj => (by cases hj), fun term _ => ?_⟩
    split
    · exact ⟨[], rfl, rfl⟩
    · exact ⟨[], rfl, rfl⟩
  | @cons j size indices sizes hj _ ih =>
    obtain ⟨item, hreads, hlisted, hsize⟩ := hj
    obtain ⟨hall, hrest⟩ := ih
    refine ⟨fun k hk => ?_, fun term hterm => ?_⟩
    · cases hk with
      | head => exact ⟨item, hreads, hlisted⟩
      | tail _ hmem => exact hall k hmem
    · have hhead := hsize term hterm
      have htail := hrest term hterm
      split
      · rename_i hset
        rw [if_pos hset] at hhead htail
        obtain ⟨t, ht, rfl⟩ := hhead
        obtain ⟨items, hitems, hsum⟩ := htail
        refine ⟨t :: items, mapM_some.mpr (.cons ht (mapM_some.mp hitems)), ?_⟩
        rw [List.sum_cons, hsum, Term.encodeAll, List.length_append]
      · rename_i hset
        rw [if_neg hset] at hhead htail
        obtain ⟨p, hp, rfl⟩ := hhead
        obtain ⟨items, hitems, hsum⟩ := htail
        refine ⟨p :: items, mapM_some.mpr (.cons hp (mapM_some.mp hitems)), ?_⟩
        rw [List.sum_cons, hsum, Piece.encodeAll, List.length_append]

/-- The length of a component is that of its code. -/
theorem componentLength_ok {n : Nat} (hkind : ∀ kind payload, component = .scalar kind payload →
      ∃ k : ScalarKind, kind = k.code.toNat)
    (h : componentLength m d lengths component b = .ok (n, b')) :
    Listed d lengths component ∧ ∀ term, KnownLengths term lengths →
      ∃ p, pieceOf d.columns term component = some p ∧ n = p.encode.length := by
  unfold componentLength at h
  obtain ⟨_, _, _, hlength⟩ := metered_bind_ok h
  clear h
  split at hlength
  · rename_i kind start length
    obtain ⟨total, _, htotal, h⟩ := metered_bind_ok hlength
    have htotal := checkedAdd_ok (lift_ok htotal)
    obtain ⟨sizes, hsizes, rfl⟩ := metered_sizes (fun total x n b b' _ hx => by
      obtain ⟨size, hn, hrest⟩ := itemTurn_ok hx
      exact ⟨size, hrest, hn⟩) h
    obtain ⟨hlisted, hpieces⟩ := items_ok hsizes
    refine ⟨hlisted, fun term hterm => ?_⟩
    have hitems := hpieces term hterm
    rw [htotal, varintWidth_eq]
    unfold pieceOf
    dsimp only
    split
    · rename_i hset
      rw [if_pos hset] at hitems
      obtain ⟨items, hitems, hsum⟩ := hitems
      have hcount : length = items.length := by simpa using (mapM_some.mp hitems).length_eq
      refine ⟨.set items, by rw [hitems]; rfl, ?_⟩
      rw [hsum, Piece.encode, List.length_cons, List.length_append, hcount]
      omega
    · rename_i hset
      rw [if_neg hset] at hitems
      obtain ⟨items, hitems, hsum⟩ := hitems
      have hcount : length = items.length := by simpa using (mapM_some.mp hitems).length_eq
      refine ⟨.sequence items, by rw [hitems]; rfl, ?_⟩
      rw [hsum, Piece.encode, List.length_cons, List.length_append, hcount]
      omega
  · rename_i hother
    obtain ⟨hlisted, hpiece⟩ := leafLength_ok (d := d) hkind (lift_ok hlength)
    refine ⟨?_, hpiece⟩
    cases component with
    | collection kind start length => exact absurd rfl (hother kind start length)
    | _ => exact hlisted

end Lengths

end Projector.Native
