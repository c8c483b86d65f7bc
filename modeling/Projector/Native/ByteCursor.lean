import Projector.Native.BuiltTable

namespace Projector.Native
open Lib Projector.Core Projector.Encoded

section Emitting
variable {β : Type} {m : Meter β} {d : DirectColumns} {lengths : Nat → Nat} {rest : Tasks}
  {bytes : Bytes}

/-- The bytes that a stack of tasks still gives out, whatever the meter stands at. -/
abbrev Emits (m : Meter β) (d : DirectColumns) (lengths : Nat → Nat) : Tasks → Bytes → Prop :=
  Streams (emitTurn m d lengths) (fun _ => True) (Refusal m)

theorem turns_of_gives {task : EmitTask} {turn : Turn Tasks}
    (h : Gives m (taskTurn m d lengths task rest) turn) :
    Turns (emitTurn m d lengths) (fun _ => True) (Refusal m) (task :: rest) turn := by
  intro budget _
  have hboth : Gives m (do m.consumed 1; taskTurn m d lengths task rest) turn :=
    (Gives.consumed 1).bind h
  unfold emitTurn
  obtain ⟨budget', hok⟩ | ⟨e, he, herror⟩ := hboth budget
  · exact .inl ⟨budget', trivial, by simp only [hok]⟩
  · exact .inr ⟨e, he, by simp only [herror]⟩

theorem emits_silent {task : EmitTask} {next : Tasks} (hnext : Emits m d lengths next bytes)
    (h : Gives m (taskTurn m d lengths task rest) (.silent next)) :
    Emits m d lengths (task :: rest) bytes :=
  .silent (turns_of_gives h) hnext

theorem emits_emit {task : EmitTask} {next : Tasks} {byte : UInt8}
    (hnext : Emits m d lengths next bytes)
    (h : Gives m (taskTurn m d lengths task rest) (.emit byte next)) :
    Emits m d lengths (task :: rest) (byte :: bytes) :=
  .emit (turns_of_gives h) hnext

theorem emits_end : Emits m d lengths [] [] :=
  .stop fun budget _ => .inl ⟨budget, trivial, rfl⟩

theorem emits_byte (value : Nat) (hrest : Emits m d lengths rest bytes) :
    Emits m d lengths (.byte value :: rest) (UInt8.ofNat value :: bytes) :=
  emits_emit hrest .pure

theorem gives_pushing {c : Prop} [Decidable c] {task : EmitTask} {turn : Tasks → Turn Tasks} :
    Gives m
      (if c then (do let stack ← push m task rest; pure (turn stack))
        else (do let stack ← pure rest; pure (turn stack)))
      (turn (if c then task :: rest else rest)) := by
  split
  · exact (Gives.push task rest).bind .pure
  · exact Gives.pure.bind .pure

theorem varint_turn (value : Nat) :
    Gives m (taskTurn m d lengths (.varint value) rest)
      (.emit (UInt8.ofNat (value % 128 + if value / 128 = 0 then 0 else 128))
        (if value / 128 ≠ 0 then .varint (value / 128) :: rest else rest)) :=
  gives_pushing

theorem emits_varint (value : Nat) (hrest : Emits m d lengths rest bytes) :
    Emits m d lengths (.varint value :: rest) (varint value ++ bytes) := by
  induction value using Nat.strong_induction_on with
  | _ value ih =>
    have hturn := (varint_turn value : Gives m (taskTurn m d lengths (.varint value) rest) _)
    by_cases hlarge : 128 ≤ value
    · have hfollowing : value / 128 ≠ 0 := by omega
      rw [if_neg hfollowing, if_pos hfollowing] at hturn
      rw [varint_large hlarge, List.cons_append]
      exact emits_emit (ih (value / 128) (by omega)) hturn
    · have hfollowing : value / 128 = 0 := by omega
      rw [if_pos hfollowing, if_neg (not_not.mpr hfollowing), Nat.add_zero,
        Nat.mod_eq_of_lt (by omega)] at hturn
      rw [varint_small (by omega), List.singleton_append]
      exact emits_emit hrest hturn

theorem slice_turn {value : Bytes} {index : Nat} (hindex : index < value.length) :
    Gives m (taskTurn m d lengths (.slice value index) rest)
      (.emit value[index]
        (if index + 1 < value.length then .slice value (index + 1) :: rest else rest)) := by
  simp only [taskTurn, List.getElem?_eq_getElem hindex]
  exact gives_pushing

theorem emits_slice {value : Bytes} {index : Nat} (hindex : index < value.length)
    (hrest : Emits m d lengths rest bytes) :
    Emits m d lengths (.slice value index :: rest) (value.drop index ++ bytes) := by
  obtain ⟨left, hleft⟩ := Nat.exists_eq_add_of_lt hindex
  induction left generalizing index with
  | zero =>
    rw [List.drop_eq_getElem_cons hindex, List.drop_of_length_le (by omega), List.singleton_append]
    refine emits_emit ?_ (slice_turn hindex)
    rw [if_neg (by omega)]
    exact hrest
  | succ left ih =>
    rw [List.drop_eq_getElem_cons hindex, List.cons_append]
    refine emits_emit ?_ (slice_turn hindex)
    rw [if_pos (by omega)]
    exact ih (by omega) (by omega)

theorem integer_turn {value : Bytes} {chunk chunks : Nat}
    (hgroups : Grouped (fromLittleEndian value) chunks) (hchunk : chunk < chunks) :
    Gives m (taskTurn m d lengths (.integer value chunk chunks) rest)
      (.emit (UInt8.ofNat (fromLittleEndian value / 128 ^ chunk % 128 +
          if chunk + 1 = chunks then 0 else 128))
        (if chunk + 1 < chunks then .integer value (chunk + 1) chunks :: rest else rest)) := by
  have hfits : ¬chunk * 7 ≥ usizeLimit := Nat.not_le.mpr (hgroups.fits hchunk)
  rw [← integerGroup_eq]
  simp only [taskTurn, if_neg (Nat.not_le.mpr hchunk), if_neg hfits]
  exact gives_pushing

theorem emits_integer {value : Bytes} {chunk chunks : Nat}
    (hgroups : Grouped (fromLittleEndian value) chunks) (hchunk : chunk < chunks)
    (hrest : Emits m d lengths rest bytes) :
    Emits m d lengths (.integer value chunk chunks :: rest)
      (varint (fromLittleEndian value / 128 ^ chunk) ++ bytes) := by
  obtain ⟨left, hleft⟩ := Nat.exists_eq_add_of_lt hchunk
  induction left generalizing chunk with
  | zero =>
    rw [hgroups.step hchunk, if_neg (by omega : ¬chunk + 1 < chunks), List.cons_append]
    refine emits_emit ?_ (integer_turn hgroups hchunk)
    rw [if_neg (by omega)]
    exact hrest
  | succ left ih =>
    rw [hgroups.step hchunk, if_pos (by omega : chunk + 1 < chunks), List.cons_append]
    refine emits_emit ?_ (integer_turn hgroups hchunk)
    rw [if_pos (by omega)]
    exact ih (by omega) (by omega)

end Emitting

section Shapes
variable {d : DirectColumns} {index : Nat} {item : Bool} {component : CanonicalComponent}

theorem Reads.leaf (h : Reads d index true component) :
    ∀ kind start length, component ≠ .collection kind start length := by
  intro kind start length he
  subst he
  obtain ⟨row, -, hcomponent⟩ := h
  cases hcomponent with
  | collection _ hitem => cases hitem

theorem ComponentAt.of_node {row : ComponentRow} (h : ComponentAt d index item row component)
    (hkind : row.kind = COMPONENT_NODE) : component = .node row.value := by
  cases h with
  | none => simp [COMPONENT_NONE, COMPONENT_NODE] at hkind
  | node hid => rfl
  | scalar kind => exact absurd hkind (scalar_ne kind).2.1
  | integer => simp [COMPONENT_INTEGER, COMPONENT_NODE] at hkind
  | collection hcollection =>
    dsimp only at hkind
    simp [hkind, COMPONENT_NODE, COMPONENT_SET, COMPONENT_SEQUENCE] at hcollection

theorem ComponentAt.of_bytes {row : ComponentRow} (h : ComponentAt d index item row component)
    (hkind : row.kind = COMPONENT_BYTES) : ∃ value, component = .scalar COMPONENT_BYTES value := by
  cases h with
  | none => simp [COMPONENT_NONE, COMPONENT_BYTES] at hkind
  | node hid => simp [COMPONENT_NODE, COMPONENT_BYTES] at hkind
  | @scalar offset length payload kind => exact ⟨payload, by rw [← hkind]⟩
  | integer => simp [COMPONENT_INTEGER, COMPONENT_BYTES] at hkind
  | collection hcollection =>
    dsimp only at hkind
    simp [hkind, COMPONENT_BYTES, COMPONENT_SET, COMPONENT_SEQUENCE] at hcollection

theorem Reads.collection_kind {kind start length : Nat}
    (h : Reads d index item (.collection kind start length)) :
    kind = COMPONENT_SET ∨ kind = COMPONENT_SEQUENCE := by
  obtain ⟨row, -, hcomponent⟩ := h
  cases hcomponent with
  | collection hkind => exact hkind

end Shapes

section Nodes
variable {β : Type} {m : Meter β} {d : DirectColumns} {lengths : Nat → Nat}
  {scopeMap : Bytes → Option Bytes} {depth fuel : Nat} {rest : Tasks} {bytes : Bytes}

/-- A node gives out the code of the term that it stands for. -/
def EmitsCode (m : Meter β) (d : DirectColumns) (lengths : Nat → Nat)
    (scopeMap : Bytes → Option Bytes) (fuel : Nat) : Prop :=
  ∀ id t, d.columns.termAt scopeMap fuel id = some t → lengths id ≠ 0 → ∀ rest bytes,
    Emits m d lengths rest bytes → Emits m d lengths (.node id :: rest) (t.encode ++ bytes)

variable (htable : Table d scopeMap depth lengths)
  (ih : EmitsCode m d lengths scopeMap fuel)

include htable ih

theorem scheduleNode_emits {id : Nat} {t : Term} (ht : d.columns.termAt scopeMap fuel id = some t)
    (hne : lengths id ≠ 0) (hrest : Emits m d lengths rest bytes) :
    (∃ stack, Gives m (scheduleNode m lengths id false rest) stack ∧
      Emits m d lengths stack (sized t.encode ++ bytes)) ∧
    ∃ stack, Gives m (scheduleNode m lengths id true rest) stack ∧
      Emits m d lengths stack ((Piece.node t).encode ++ bytes) := by
  obtain ⟨-, s, hs, hlength⟩ := htable id hne
  have hlength : lengths id = t.encode.length := by
    rw [hlength, Columns.Stands.unique ⟨depth, hs⟩ ⟨fuel, ht⟩]
  have hchild : childLength lengths id "encoded canonical cursor node length is unavailable" =
      .ok t.encode.length := by
    unfold childLength
    rw [if_neg hne, hlength]
  have hsized : Emits m d lengths (.varint t.encode.length :: .node id :: rest)
      (sized t.encode ++ bytes) := by
    unfold sized
    rw [List.append_assoc]
    exact emits_varint _ (ih id t ht hne _ _ hrest)
  exact ⟨⟨_, (Gives.lift hchild).bind ((Gives.push _ _).bind ((Gives.push _ _).bind .pure)),
      hsized⟩,
    ⟨_, (Gives.lift hchild).bind ((Gives.push _ _).bind ((Gives.push _ _).bind (.push _ _))),
      emits_byte COMPONENT_NODE hsized⟩⟩

theorem scheduleLeaf_emits {component : CanonicalComponent} {p : Piece}
    (hleaf : ∀ kind start length, component ≠ .collection kind start length)
    (hp : pieceOf d.columns (d.columns.termAt scopeMap fuel) component = some p)
    (hlisted : LeafListed lengths component) (hrest : Emits m d lengths rest bytes) :
    ∃ stack, Gives m (scheduleComponent m lengths component rest) stack ∧
      Emits m d lengths stack (p.encode ++ bytes) := by
  cases component with
  | none =>
    cases hp
    exact ⟨_, .push _ _, emits_byte COMPONENT_NONE hrest⟩
  | node id =>
    obtain ⟨t, ht, rfl⟩ := Option.map_eq_some_iff.mp hp
    exact (scheduleNode_emits htable ih ht hlisted hrest).2
  | scalar kind payload =>
    obtain ⟨k, hk, rfl⟩ := Option.map_eq_some_iff.mp hp
    obtain rfl := scalarKindOf_eq hk
    have hcode : ∀ stack, Emits m d lengths stack (payload ++ bytes) →
        Emits m d lengths (.byte k.code.toNat :: .varint payload.length :: stack)
          ((Piece.scalar k payload).encode ++ bytes) := by
      intro stack hstack
      have hbyte := emits_byte k.code.toNat (emits_varint payload.length hstack)
      rw [UInt8.ofNat_toNat] at hbyte
      simpa [Piece.encode, sized] using hbyte
    by_cases hempty : payload.isEmpty = true
    · refine ⟨.byte k.code.toNat :: .varint payload.length :: rest, ?_, hcode rest ?_⟩
      · simp only [scheduleComponent, if_pos hempty]
        exact Gives.pure.bind ((Gives.push _ _).bind (.push _ _))
      · rw [List.isEmpty_iff.mp hempty]
        exact hrest
    · refine ⟨.byte k.code.toNat :: .varint payload.length :: .slice payload 0 :: rest, ?_,
        hcode _ ?_⟩
      · simp only [scheduleComponent, if_neg hempty]
        exact (Gives.push _ _).bind ((Gives.push _ _).bind (.push _ _))
      · have hpositive : 0 < payload.length := by
          apply List.length_pos_iff.mpr
          intro hnil
          exact hempty (by rw [hnil]; rfl)
        exact emits_slice hpositive hrest
  | integer value =>
    cases hp
    obtain ⟨chunks, hchunks⟩ := hlisted
    have hgroups := integerVarintChunks_ok hchunks
    refine ⟨_, (Gives.lift hchunks).bind ((Gives.push _ _).bind (.push _ _)), ?_⟩
    have hinteger := emits_integer hgroups hgroups.chunks_pos hrest
    rw [Nat.pow_zero, Nat.div_one] at hinteger
    exact emits_byte COMPONENT_INTEGER hinteger
  | collection kind start length => exact absurd rfl (hleaf kind start length)

theorem emits_set {start index length left : Nat} {items : List Term}
    (hleft : index + left = length)
    (hlisted : ∀ j ∈ List.range' (start + index) left, ∃ item, Reads d j true item ∧
      LeafListed lengths item)
    (hitems : List.Forall₂
      (fun j t => d.columns.memberTerm (d.columns.termAt scopeMap fuel) j = some t)
      (List.range' (start + index) left) items)
    (hrest : Emits m d lengths rest bytes) :
    Emits m d lengths (.collection start index length true :: rest)
      (Term.encodeAll items ++ bytes) := by
  induction left generalizing index items with
  | zero =>
    cases hitems
    refine emits_silent hrest ?_
    simp only [taskTurn, if_pos (show index ≥ length by omega)]
    exact .pure
  | succ left ihleft =>
    rw [List.range'_succ] at hitems hlisted
    obtain ⟨t, items, hmember, hmembers, rfl⟩ := List.forall₂_cons_left_iff.mp hitems
    obtain ⟨item, hreads, hleaf⟩ := hlisted (start + index) List.mem_cons_self
    obtain ⟨id, hcell, hterm⟩ := memberTerm_some hmember
    have hnode : item = .node id := by
      obtain ⟨row, hrow, hcomponent⟩ := hreads
      rw [hcell] at hrow
      cases hrow
      exact hcomponent.of_node rfl
    subst hnode
    have hnext := @ihleft (index + 1) items (by omega)
      (fun j hj => hlisted j (List.mem_cons_of_mem _ hj)) hmembers
    obtain ⟨stack, hgives, hstack⟩ := (scheduleNode_emits htable ih hterm hleaf hnext).1
    rw [Term.encodeAll, List.append_assoc]
    refine emits_silent hstack ?_
    simp only [taskTurn, if_neg (show ¬index ≥ length by omega), if_true]
    exact (Gives.push _ _).bind ((canonicalComponent_gives hreads).bind (hgives.bind .pure))

theorem emits_sequence {start index length left : Nat} {items : List Piece}
    (hleft : index + left = length)
    (hlisted : ∀ j ∈ List.range' (start + index) left, ∃ item, Reads d j true item ∧
      LeafListed lengths item)
    (hitems : List.Forall₂
      (fun j p => d.columns.itemPiece (d.columns.termAt scopeMap fuel) j = some p)
      (List.range' (start + index) left) items)
    (hrest : Emits m d lengths rest bytes) :
    Emits m d lengths (.collection start index length false :: rest)
      (Piece.encodeAll items ++ bytes) := by
  induction left generalizing index items with
  | zero =>
    cases hitems
    refine emits_silent hrest ?_
    simp only [taskTurn, if_pos (show index ≥ length by omega)]
    exact .pure
  | succ left ihleft =>
    rw [List.range'_succ] at hitems hlisted
    obtain ⟨p, items, hpiece, hpieces, rfl⟩ := List.forall₂_cons_left_iff.mp hitems
    obtain ⟨item, hreads, hleaf⟩ := hlisted (start + index) List.mem_cons_self
    rw [itemPiece_reads hreads] at hpiece
    have hnext := @ihleft (index + 1) items (by omega)
      (fun j hj => hlisted j (List.mem_cons_of_mem _ hj)) hpieces
    obtain ⟨stack, hgives, hstack⟩ :=
      scheduleLeaf_emits htable ih (Reads.leaf hreads) hpiece hleaf hnext
    rw [Piece.encodeAll, List.append_assoc]
    refine emits_silent hstack ?_
    simp only [taskTurn, if_neg (show ¬index ≥ length by omega), Bool.false_eq_true, if_false]
    exact (Gives.push _ _).bind ((canonicalComponent_gives hreads).bind (hgives.bind .pure))

theorem scheduleComponent_emits {component : CanonicalComponent} {p : Piece}
    (hkind : ∀ kind start length, component = .collection kind start length →
      kind = COMPONENT_SET ∨ kind = COMPONENT_SEQUENCE)
    (hp : pieceOf d.columns (d.columns.termAt scopeMap fuel) component = some p)
    (hlisted : Listed d lengths component) (hrest : Emits m d lengths rest bytes) :
    ∃ stack, Gives m (scheduleComponent m lengths component rest) stack ∧
      Emits m d lengths stack (p.encode ++ bytes) := by
  by_cases hcollection : ∃ kind start length, component = .collection kind start length
  · obtain ⟨kind, start, length, rfl⟩ := hcollection
    refine ⟨_, (Gives.push _ _).bind ((Gives.push _ _).bind (.push _ _)), ?_⟩
    have hlisted : ∀ j ∈ List.range' (start + 0) length, ∃ item, Reads d j true item ∧
      LeafListed lengths item := hlisted
    unfold pieceOf at hp
    dsimp only at hp
    split at hp
    · rename_i hset
      subst hset
      obtain ⟨items, hitems, rfl⟩ := Option.map_eq_some_iff.mp hp
      have hitems := mapM_some.mp hitems
      have hcount : length = items.length := by simpa using hitems.length_eq
      have hall := emits_set htable ih (Nat.zero_add length) hlisted hitems hrest
      rw [Piece.encode, ← hcount, List.cons_append, List.append_assoc]
      exact emits_byte COMPONENT_SET (emits_varint length hall)
    · rename_i hset
      obtain rfl := (hkind kind start length rfl).resolve_left hset
      obtain ⟨items, hitems, rfl⟩ := Option.map_eq_some_iff.mp hp
      have hitems := mapM_some.mp hitems
      have hcount : length = items.length := by simpa using hitems.length_eq
      have hall := emits_sequence htable ih (Nat.zero_add length) hlisted hitems hrest
      rw [Piece.encode, ← hcount, List.cons_append, List.append_assoc]
      exact emits_byte COMPONENT_SEQUENCE (emits_varint length hall)
  · have hleaf : ∀ kind start length, component ≠ .collection kind start length :=
      fun kind start length he => hcollection ⟨kind, start, length, he⟩
    apply scheduleLeaf_emits htable ih hleaf hp _ hrest
    cases component with
    | collection kind start length => exact absurd rfl (hleaf kind start length)
    | _ => exact hlisted

end Nodes

/-- The document scope of every anonymous individual is a bytes component. -/
def BytesScopes (d : DirectColumns) : Prop :=
  ∀ id start stop, d.columns.rangeAt id = some (start, stop) → start < stop →
    d.columns.nodeTags[id - 1]? = some Constructor.anonymousIndividual.tag →
    ∃ offset length, d.columns.cellAt start false = some ⟨COMPONENT_BYTES, offset, length⟩

section Code
variable {β : Type} {m : Meter β} {d : DirectColumns} {lengths : Nat → Nat}
  {scopeMap : Bytes → Option Bytes} {depth fuel : Nat} {rest : Tasks} {bytes : Bytes}

/-- The tasks for the fields of a node. -/
def fieldTask (start : Nat) (remapsScope : Bool) (index : Nat) : EmitTask :=
  .component index false (remapsScope && index == start)

theorem pushFields_gives {start : Nat} {remapsScope : Bool} (indices : List Nat) (stack : Tasks) :
    Gives m (indices.reverse.foldlM (pushFields m start remapsScope) stack)
      (indices.map (fieldTask start remapsScope) ++ stack) := by
  induction indices with
  | nil => exact .pure
  | cons index indices ih =>
    rw [List.reverse_cons, List.foldlM_append, List.map_cons, List.cons_append]
    refine ih.bind ?_
    rw [List.foldlM_cons]
    exact (Gives.push _ _).bind .pure

/-- Only the document scope of an anonymous individual is mapped. -/
theorem remapped_eq (hscope : ∀ scope, d.remapAnonymousScope scope = (scopeMap scope).getD scope)
    {start tag index : Nat} {component : CanonicalComponent}
    (hbytes : tag = Constructor.anonymousIndividual.tag ∧ index = start →
      ∃ value, component = .scalar COMPONENT_BYTES value) :
    remapped d ((tag == Constructor.anonymousIndividual.tag) && index == start) component =
      .ok (mapScope (Columns.rescopeOf scopeMap tag start index) component) := by
  by_cases hmapped : tag = Constructor.anonymousIndividual.tag ∧ index = start
  · obtain ⟨value, rfl⟩ := hbytes hmapped
    have hflag : ((tag == Constructor.anonymousIndividual.tag) && index == start) = true := by
      simp [hmapped.1, hmapped.2]
    simp only [remapped, hflag, if_true, mapScope, Columns.rescopeOf, if_pos hmapped, hscope]
  · have hflag : ((tag == Constructor.anonymousIndividual.tag) && index == start) = false := by
      rw [Bool.and_eq_false_iff, beq_eq_false_iff_ne, beq_eq_false_iff_ne]
      exact not_and_or.mp hmapped
    have hsame : mapScope (Columns.rescopeOf scopeMap tag start index) component = component := by
      cases component with
      | scalar kind payload =>
        simp only [mapScope, Columns.rescopeOf, if_neg hmapped]
        split <;> rfl
      | _ => rfl
    simp only [remapped, hflag, Bool.false_eq_true, if_false, hsame]

theorem mapScope_listed {rescope : Bytes → Bytes} {component : CanonicalComponent}
    (h : Listed d lengths component) : Listed d lengths (mapScope rescope component) := by
  cases component with
  | scalar kind payload => trivial
  | _ => exact h

variable (htable : Table d scopeMap depth lengths)
  (hscope : ∀ scope, d.remapAnonymousScope scope = (scopeMap scope).getD scope)
  (hanonymous : BytesScopes d)

include htable hscope hanonymous

theorem emits_field (ih : EmitsCode m d lengths scopeMap fuel) {id start stop tag index : Nat}
    {p : Piece} (hread : NodeReadable d lengths id start stop tag)
    (hindex : index ∈ List.range' start (stop - start))
    (hp : d.columns.fieldPiece (d.columns.termAt scopeMap fuel)
      (Columns.rescopeOf scopeMap tag start index) index = some p)
    (hrest : Emits m d lengths rest bytes) :
    Emits m d lengths
      (fieldTask start (tag == Constructor.anonymousIndividual.tag) index :: rest)
      (p.encode ++ bytes) := by
  obtain ⟨component, hreads, hlisted⟩ := hread.fields index hindex
  rw [fieldPiece_reads hreads] at hp
  have hbytes : tag = Constructor.anonymousIndividual.tag ∧ index = start →
      ∃ value, component = .scalar COMPONENT_BYTES value := by
    intro hmapped
    obtain ⟨rfl, rfl⟩ := hmapped
    have hin := List.mem_range'_1.mp hindex
    obtain ⟨offset, length, hcell⟩ := hanonymous id index stop hread.range (by omega) hread.tagged
    obtain ⟨row, hrow, hcomponent⟩ := hreads
    rw [hcell] at hrow
    cases hrow
    exact hcomponent.of_bytes rfl
  obtain ⟨stack, hgives, hstack⟩ := scheduleComponent_emits htable ih (by
    intro kind first length he
    cases component with
    | collection kind' first' length' =>
      obtain ⟨rfl, rfl, rfl⟩ := CanonicalComponent.collection.inj he
      exact hreads.collection_kind
    | _ => cases he) hp (mapScope_listed hlisted) hrest
  apply emits_silent hstack
  exact (canonicalComponent_gives hreads).bind
    ((Gives.lift (remapped_eq hscope hbytes)).bind (hgives.bind .pure))

theorem emits_fields (ih : EmitsCode m d lengths scopeMap fuel) {id start stop tag : Nat}
    (hread : NodeReadable d lengths id start stop tag) {indices : List Nat} {fields : List Piece}
    (hindices : ∀ index ∈ indices, index ∈ List.range' start (stop - start))
    (hfields : List.Forall₂ (fun index p => d.columns.fieldPiece (d.columns.termAt scopeMap fuel)
      (Columns.rescopeOf scopeMap tag start index) index = some p) indices fields)
    (hrest : Emits m d lengths rest bytes) :
    Emits m d lengths
      (indices.map (fieldTask start (tag == Constructor.anonymousIndividual.tag)) ++ rest)
      (Piece.encodeAll fields ++ bytes) := by
  induction hfields with
  | nil => exact hrest
  | @cons index p indices fields hp _ ihrest =>
    have hnext := ihrest fun i hi => hindices i (List.mem_cons_of_mem _ hi)
    rw [List.map_cons, List.cons_append, Piece.encodeAll, List.append_assoc]
    exact emits_field htable hscope hanonymous ih hread (hindices index List.mem_cons_self) hp hnext

/-- The cursor gives out the code of the term that a node stands for. -/
theorem emits_node (fuel : Nat) : EmitsCode m d lengths scopeMap fuel := by
  induction fuel with
  | zero =>
    intro id t h
    cases h
  | succ fuel ih =>
    intro id t h hne rest bytes hrest
    obtain ⟨previous, start, stop, tag, fields, hfuel, rfl, hview⟩ := termAt_some h
    obtain rfl := Nat.succ.inj hfuel
    obtain ⟨⟨start', stop', tag', hread⟩, -⟩ := htable id hne
    obtain ⟨rfl, rfl⟩ : start' = start ∧ stop' = stop := by
      have := Option.some.inj (hread.range.symm.trans hview.range)
      exact ⟨congrArg Prod.fst this, congrArg Prod.snd this⟩
    obtain rfl : tag' = tag := Option.some.inj (hread.tagged.symm.trans hview.tagged)
    have hfields := emits_fields htable hscope hanonymous ih hread (fun _ hi => hi) hview.fields
      hrest
    rw [Term.encode, List.append_assoc]
    apply emits_silent (emits_varint tag' hfields)
    exact (Gives.lift (fieldRange_ok.mpr hread.range)).bind
      ((Gives.lift ((nodeTag_ok hread.range).mpr hread.tagged)).bind
        ((pushFields_gives _ _).bind ((Gives.push _ _).bind .pure)))

end Code

end Projector.Native
