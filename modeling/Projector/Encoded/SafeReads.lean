import Projector.Encoded.ValidationProofs

namespace Projector.Encoded
open Lib Compiler

variable {b : Buffers}

/-- A place of the table that a read can be about. -/
inductive Target where
  | root (index : Nat)
  | node (id : Nat)
  | field (index : Nat)
  | item (index : Nat)

/-- What the table's own references lead to. -/
inductive Refers (b : Buffers) : Target → Prop where
  | root {i} : i < rowCount b .rootKinds → Refers b (.root i)
  | node {id} : 1 ≤ id → id ≤ rowCount b .nodeTags → Refers b (.node id)
  | rootNode {i} : Refers b (.root i) → Refers b (.node (row b .rootIds i))
  | nodeField {id i} : Refers b (.node id) → row b .nodeFieldOffsets (id - 1) ≤ i →
      i < row b .nodeFieldOffsets id → Refers b (.field i)
  | fieldNode {i} : Refers b (.field i) → row b .fieldKinds i = COMPONENT_NODE →
      Refers b (.node (row b .fieldValues i))
  | fieldItem {i j} : Refers b (.field i) → isCollection b i = true → (itemSpan b i).Has j →
      Refers b (.item j)
  | itemNode {j} : Refers b (.item j) → row b .itemKinds j = COMPONENT_NODE →
      Refers b (.node (row b .itemValues j))

namespace Target

def InRange (b : Buffers) : Target → Prop
  | .root i => i < rowCount b .rootKinds
  | .node id => 1 ≤ id ∧ id ≤ rowCount b .nodeTags
  | .field i => i < rowCount b .fieldKinds
  | .item j => j < rowCount b .itemKinds

/-- The rows that are read of a place. -/
def rows : Target → List (Column × Nat)
  | .root i => [(.rootKinds, i), (.rootIds, i)]
  | .node id => [(.nodeTags, id - 1), (.nodeFieldOffsets, id - 1), (.nodeFieldOffsets, id)]
  | .field i => [(.fieldKinds, i), (.fieldValues, i), (.fieldLengths, i)]
  | .item j => [(.itemKinds, j), (.itemValues, j), (.itemLengths, j)]

end Target

def Owner.InTable (b : Buffers) : Owner → Prop
  | .field i => i < rowCount b .fieldKinds
  | .item j => j < rowCount b .itemKinds

namespace Referenced

theorem field_mem_leaves {f : Nat} (hcol : isCollection b f = false) :
    Owner.field f ∈ leavesOf b f := by
  rw [leavesOf, hcol]
  exact List.mem_singleton.mpr rfl

theorem item_mem_leaves {f j : Nat} (hcol : isCollection b f = true) (hj : (itemSpan b f).Has j) :
    Owner.item j ∈ leavesOf b f := by
  rw [leavesOf, if_pos hcol]
  exact List.mem_map.mpr ⟨j, List.mem_range'_1.mpr ⟨hj.1, hj.2⟩, rfl⟩

theorem mem_collections {f n : Nat} : f ∈ collections b n ↔ f < n ∧ isCollection b f = true := by
  simp [collections]

variable (h : Referenced b)
include h

theorem item_lt {f j : Nat} (hf : f < rowCount b .fieldKinds) (hcol : isCollection b f = true)
    (hj : (itemSpan b f).Has j) : j < rowCount b .itemKinds :=
  Nat.lt_of_lt_of_le hj.2 (h.itemTiles.within (mem_collections.mpr ⟨hf, hcol⟩)).2

theorem leaf {owner : Owner} (howner : owner.InTable b)
    (hcol : ∀ f, owner = .field f → isCollection b f = false) :
    ∃ f < rowCount b .fieldKinds, owner ∈ leavesOf b f := by
  cases owner with
  | field f => exact ⟨f, howner, field_mem_leaves (hcol f rfl)⟩
  | item j =>
    obtain ⟨f, hf, hj⟩ := h.itemTiles.cover (Nat.zero_le j) howner
    obtain ⟨hlt, hcollection⟩ := mem_collections.mp hf
    exact ⟨f, hlt, item_mem_leaves hcollection hj⟩

theorem inTable_of_leaf {owner : Owner} {f : Nat} (hf : f < rowCount b .fieldKinds)
    (howner : owner ∈ leavesOf b f) : owner.InTable b := by
  unfold leavesOf at howner
  split at howner
  · rename_i hcol
    obtain ⟨j, hj, rfl⟩ := List.mem_map.mp howner
    exact h.item_lt hf hcol (List.mem_range'_1.mp hj)
  · obtain rfl := List.mem_singleton.mp howner
    exact hf

theorem mem_scalarOwners {owner : Owner} : owner ∈ scalarOwners b (rowCount b .fieldKinds) ↔
    owner.InTable b ∧ owner.isScalar b = true := by
  simp only [scalarOwners, List.mem_filter, List.mem_flatMap, List.mem_range]
  constructor
  · intro hm
    obtain ⟨⟨f, hf, howner⟩, hscalar⟩ := hm
    exact ⟨h.inTable_of_leaf hf howner, hscalar⟩
  · intro hm
    refine ⟨h.leaf hm.1 ?_, hm.2⟩
    intro f hf
    subst hf
    cases hcol : isCollection b f with
    | false => rfl
    | true =>
      have hscalar := hm.2
      simp only [isCollection, isCollectionKind, Bool.or_eq_true, beq_iff_eq] at hcol
      rcases hcol with hkind | hkind <;>
      · rw [Owner.isScalar, Owner.kind, hkind] at hscalar
        cases hscalar

/-- Every field row belongs to exactly one node. -/
theorem field_owner {i : Nat} (hi : i < rowCount b .fieldKinds) :
    ∃! id, (1 ≤ id ∧ id ≤ rowCount b .nodeTags) ∧
      row b .nodeFieldOffsets (id - 1) ≤ i ∧ i < row b .nodeFieldOffsets id := by
  have hspan : ∀ k < rowCount b .nodeTags, (fieldSpan b k).Has i ↔
      row b .nodeFieldOffsets k ≤ i ∧ i < row b .nodeFieldOffsets (k + 1) := by
    intro k hk
    have := h.monotone k hk
    simp only [Span.Has, fieldSpan]
    omega
  obtain ⟨k, ⟨hk, hhas⟩, hunique⟩ := h.fieldTiles.partition hi
  rw [List.mem_range] at hk
  refine ⟨k + 1, ⟨⟨by omega, hk⟩, (hspan k hk).mp hhas⟩, ?_⟩
  intro id hid
  obtain ⟨⟨hpos, hle⟩, hrange⟩ := hid
  obtain ⟨m, rfl⟩ : ∃ m, id = m + 1 := ⟨id - 1, by omega⟩
  have hm : m < rowCount b .nodeTags := by omega
  rw [hunique m ⟨List.mem_range.mpr hm, (hspan m hm).mpr hrange⟩]

/-- Every item row belongs to exactly one collection. -/
theorem item_owner {j : Nat} (hj : j < rowCount b .itemKinds) :
    ∃! f, (f < rowCount b .fieldKinds ∧ isCollection b f = true) ∧ (itemSpan b f).Has j := by
  have hpart := h.itemTiles.partition hj
  simpa only [mem_collections] using hpart

/-- Every scalar byte belongs to exactly one scalar. -/
theorem scalar_owner {p : Nat} (hp : p < (b .scalarBytes).length) :
    ∃! owner : Owner, (owner.InTable b ∧ owner.isScalar b = true) ∧ (owner.span b).Has p := by
  have hpart := h.scalarTiles.partition hp
  simpa only [h.mem_scalarOwners] using hpart

theorem refers_inRange {t : Target} (ht : Refers b t) : t.InRange b := by
  have hnode : ∀ owner : Owner, owner.InTable b → owner.kind b = COMPONENT_NODE →
      1 ≤ owner.value b ∧ owner.value b ≤ rowCount b .nodeTags := by
    intro owner howner hkind
    obtain ⟨f, hf, hleaf⟩ := h.leaf howner (by
      intro f hf
      subst hf
      rw [isCollection, show row b .fieldKinds f = COMPONENT_NODE from hkind]
      rfl)
    exact ((h.leaves f hf owner hleaf).node hkind).2
  induction ht with
  | root hi => exact hi
  | node hpos hle => exact ⟨hpos, hle⟩
  | rootNode _ ih => exact h.roots _ ih
  | @nodeField id i _ hlo hhi ih =>
    have hwithin := (h.fieldTiles.within (List.mem_range.mpr (show id - 1 < _ by
      have hid := ih
      simp only [Target.InRange] at hid
      omega))).2
    have hmono := h.monotone (id - 1) (by
      have hid := ih
      simp only [Target.InRange] at hid
      omega)
    have hsucc : id - 1 + 1 = id := by
      have hid := ih.1
      omega
    simp only [fieldSpan, hsucc] at hwithin
    rw [hsucc] at hmono
    simp only [Target.InRange]
    omega
  | @fieldNode i _ hkind ih => exact hnode (.field i) ih hkind
  | fieldItem _ hcol hj ih => exact h.item_lt ih hcol hj
  | @itemNode j _ hkind ih => exact hnode (.item j) ih hkind

/-- Every row that is read of a place the references lead to is there. -/
theorem rows_inBounds {t : Target} (ht : Refers b t) :
    ∀ r ∈ t.rows, r.2 < rowCount b r.1 ∧ (r.2 + 1) * r.1.width ≤ (b r.1).length := by
  have hrange := h.refers_inRange ht
  have hcount : ∀ r ∈ t.rows, r.2 < rowCount b r.1 := by
    have hroots := h.rootIds
    have hoffsets := h.offsets
    have hvalues := h.fieldValues
    have hlengths := h.fieldLengths
    have hitemValues := h.itemValues
    have hitemLengths := h.itemLengths
    intro r hr
    cases t with
    | root i =>
      simp only [Target.rows, List.mem_cons, List.not_mem_nil, or_false] at hr
      simp only [Target.InRange] at hrange
      rcases hr with rfl | rfl <;> simp only <;> omega
    | node id =>
      simp only [Target.rows, List.mem_cons, List.not_mem_nil, or_false] at hr
      simp only [Target.InRange] at hrange
      rcases hr with rfl | rfl | rfl <;> simp only <;> omega
    | field i =>
      simp only [Target.rows, List.mem_cons, List.not_mem_nil, or_false] at hr
      simp only [Target.InRange] at hrange
      rcases hr with rfl | rfl | rfl <;> simp only <;> omega
    | item j =>
      simp only [Target.rows, List.mem_cons, List.not_mem_nil, or_false] at hr
      simp only [Target.InRange] at hrange
      rcases hr with rfl | rfl | rfl <;> simp only <;> omega
  intro r hr
  have hlt := hcount r hr
  refine ⟨hlt, ?_⟩
  have hpos : 0 < r.1.width := by
    cases r.1 <;> decide
  exact (Nat.le_div_iff_mul_le hpos).mp hlt

/-- Every scalar range is inside the arena. -/
theorem scalar_inBounds (owner : Owner) (howner : owner.InTable b)
    (hscalar : owner.isScalar b = true) :
    owner.value b + owner.length b ≤ (b .scalarBytes).length :=
  (h.scalarTiles.within (h.mem_scalarOwners.mpr ⟨howner, hscalar⟩)).2

end Referenced

/-- The readers' view of the buffers, with the limits and the text operation they need. -/
def columnsOf (b : Buffers) (maxIriBytes maxLiteralBytes : Nat) (lowered : String → String) :
    Columns :=
  let rows (c : Column) := (List.range (rowCount b c)).map (row b c)
  { rootKinds := rows .rootKinds
    rootIds := rows .rootIds
    nodeTags := rows .nodeTags
    nodeFieldOffsets := rows .nodeFieldOffsets
    fieldKinds := rows .fieldKinds
    fieldValues := rows .fieldValues
    fieldLengths := rows .fieldLengths
    itemKinds := rows .itemKinds
    itemValues := rows .itemValues
    itemLengths := rows .itemLengths
    scalarBytes := b .scalarBytes
    maxIriBytes := maxIriBytes
    maxLiteralBytes := maxLiteralBytes
    lowered := lowered }

def Buffer.column : Buffer → Column
  | .rootKinds => .rootKinds
  | .rootIds => .rootIds
  | .nodeTags => .nodeTags
  | .nodeFieldOffsets => .nodeFieldOffsets
  | .fieldKinds => .fieldKinds
  | .fieldValues => .fieldValues
  | .fieldLengths => .fieldLengths
  | .itemKinds => .itemKinds
  | .itemValues => .itemValues
  | .itemLengths => .itemLengths

/-- The messages of a read outside its column, its arena or its table. -/
def boundsMessages : List String :=
  ["encoded subset column read is out of bounds",
    "encoded subset canonical-set range is out of bounds",
    "encoded subset sequence range is out of bounds",
    "encoded subset scalar range is out of bounds",
    "encoded subset node reference is out of range",
    "encoded subset field range is invalid"]

/-- A read that does not fail for being out of bounds. -/
def InBounds {α : Type} (r : Read α) : Prop :=
  ∀ message details, r = .error (.snapshotCompatibility message details) →
    message ∉ boundsMessages

section InBounds
variable {α β : Type}

theorem InBounds.ok {a : α} : InBounds (.ok a : Read α) := by
  intro message details h
  cases h

theorem InBounds.error {message : String} {details : Details} (h : message ∉ boundsMessages) :
    InBounds (.error (.snapshotCompatibility message details) : Read α) := by
  intro m d he
  obtain ⟨rfl, -⟩ := CompileError.snapshotCompatibility.inj (Except.error.inj he)
  exact h

theorem InBounds.reject {message : String} (h : message ∉ boundsMessages) :
    InBounds (reject message : Read α) :=
  .error h

theorem InBounds.demand {c : Bool} {message : String} (h : c = false → message ∉ boundsMessages) :
    InBounds (demand c message) := by
  cases c with
  | true => exact .ok
  | false => exact .reject (h rfl)

theorem InBounds.bind {x : Read α} {f : α → Read β} (hx : InBounds x)
    (hf : ∀ a, x = .ok a → InBounds (f a)) : InBounds (x >>= f) := by
  cases x with
  | ok a => exact hf a rfl
  | error e =>
    intro message details he
    exact hx message details (congrArg Except.error (Except.error.inj he))

end InBounds

/-- Columns that show the rows of the buffers. -/
structure Shows (b : Buffers) (cols : Columns) : Prop where
  read : ∀ (buffer : Buffer) (index : Nat), index < rowCount b buffer.column →
    cols.read buffer index = .ok (row b buffer.column index)
  nodeCount : cols.nodeCount = rowCount b .nodeTags
  fieldCount : cols.fieldCount = rowCount b .fieldKinds
  itemCount : cols.itemCount = rowCount b .itemKinds
  scalarBytes : cols.scalarBytes = b .scalarBytes

theorem columnsOf_shows (b : Buffers) (maxIriBytes maxLiteralBytes : Nat)
    (lowered : String → String) : Shows b (columnsOf b maxIriBytes maxLiteralBytes lowered) where
  read := by
    intro buffer index hi
    have hrow : ((columnsOf b maxIriBytes maxLiteralBytes lowered).buffer buffer)[index]? =
        some (row b buffer.column index) := by
      cases buffer <;>
      · simp only [Columns.buffer, columnsOf, Buffer.column] at hi ⊢
        rw [List.getElem?_map, List.getElem?_range hi]
        rfl
    simp only [Columns.read, hrow]
  nodeCount := by simp [Columns.nodeCount, columnsOf]
  fieldCount := by simp [Columns.fieldCount, columnsOf]
  itemCount := by simp [Columns.itemCount, columnsOf]
  scalarBytes := rfl

namespace Target

/-- No reader of a place fails for being out of bounds. -/
def Readable (cols : Columns) : Target → Prop
  | .root i => InBounds (cols.rootKind i) ∧ InBounds (cols.rootId i)
  | .node id => InBounds (cols.nodeId id) ∧ InBounds (cols.nodeTag id) ∧
      InBounds (cols.fieldRange id) ∧ ∀ arity, InBounds (cols.exactFields id arity)
  | .field i => InBounds (cols.fieldNode i) ∧ (∀ minimum, InBounds (cols.nodeSet i minimum)) ∧
      (∀ minimum, InBounds (cols.nodeSequence i minimum)) ∧
      ∀ kind, isScalarKind kind = true → InBounds (cols.scalarPayload i kind)
  | .item j => InBounds (cols.itemNode j)

end Target

section Readers
variable {cols : Columns} (hcols : Shows b cols) (h : Referenced b)
include hcols h

theorem nodeId_inRange {id : Nat} (ht : Refers b (.node id)) : cols.nodeId id = .ok id := by
  have hrange := h.refers_inRange ht
  unfold Columns.nodeId
  rw [hcols.nodeCount]
  exact if_pos hrange

theorem read_inRange {t : Target} (ht : Refers b t) (buffer : Buffer) (index : Nat)
    (hr : (buffer.column, index) ∈ t.rows) :
    cols.read buffer index = .ok (row b buffer.column index) :=
  hcols.read buffer index (h.rows_inBounds ht _ hr).1

theorem fieldRange_inRange {id : Nat} (ht : Refers b (.node id)) :
    cols.fieldRange id = .ok (row b .nodeFieldOffsets (id - 1), row b .nodeFieldOffsets id) := by
  have hrange := h.refers_inRange ht
  simp only [Target.InRange] at hrange
  have hsucc : id - 1 + 1 = id := by omega
  have hmono := h.monotone (id - 1) (by omega)
  have hwithin := (h.fieldTiles.within (List.mem_range.mpr (show id - 1 < _ by omega))).2
  simp only [fieldSpan, hsucc] at hwithin
  rw [hsucc] at hmono
  unfold Columns.fieldRange
  rw [ok_bind _ (nodeId_inRange hcols h ht),
    ok_bind _ (read_inRange hcols h ht .nodeFieldOffsets (id - 1)
      (by simp [Target.rows, Buffer.column])),
    ok_bind _ (read_inRange hcols h ht .nodeFieldOffsets id
      (by simp [Target.rows, Buffer.column]))]
  rw [if_neg]
  · rfl
  · rw [hcols.fieldCount]
    simp only [Buffer.column]
    omega

theorem node_readable {id : Nat} (ht : Refers b (.node id)) :
    (Target.node id).Readable cols := by
  have hid := nodeId_inRange hcols h ht
  have htag : cols.nodeTag id = .ok (row b .nodeTags (id - 1)) := by
    unfold Columns.nodeTag
    rw [ok_bind _ hid]
    exact read_inRange hcols h ht .nodeTags _ (by simp [Target.rows, Buffer.column])
  have hrange := fieldRange_inRange hcols h ht
  refine ⟨hid ▸ .ok, htag ▸ .ok, hrange ▸ .ok, fun arity => ?_⟩
  unfold Columns.exactFields
  rw [ok_bind _ hrange]
  simp only
  split
  · exact .error (by decide)
  · exact .ok

theorem itemNode_inBounds {j : Nat} (ht : Refers b (.item j)) : InBounds (cols.itemNode j) := by
  unfold Columns.itemNode
  rw [ok_bind _ (read_inRange hcols h ht .itemKinds _ (by simp [Target.rows, Buffer.column])),
    ok_bind _ (read_inRange hcols h ht .itemLengths _ (by simp [Target.rows, Buffer.column]))]
  split
  · exact .reject (by decide)
  · rename_i hkind
    have hvalue : cols.read .itemValues j = .ok (row b .itemValues j) :=
      read_inRange hcols h ht .itemValues _ (by simp [Target.rows, Buffer.column])
    rw [ok_bind _ hvalue, nodeId_inRange hcols h (Refers.itemNode ht (by
      simp only [Buffer.column] at hkind
      omega))]
    exact .ok

/-- The walk over the members of a set stays in the items of the collection. -/
theorem setItems_inBounds (length : Nat) : ∀ previous index : Nat,
    (∀ j, index ≤ j → j < index + length → Refers b (.item j)) →
      InBounds (cols.setItems previous index length) := by
  induction length with
  | zero =>
    intro previous index _
    exact .ok
  | succ length ih =>
    intro previous index hitems
    rw [Columns.setItems]
    refine .bind (itemNode_inBounds hcols h (hitems index (le_refl _) (by omega))) ?_
    intro id _
    split
    · exact .reject (by decide)
    · refine .bind (ih id (index + 1) (fun j hlo hhi => hitems j (by omega) (by omega))) ?_
      intro rest _
      exact .ok

theorem itemNodes_inBounds (length : Nat) : ∀ start : Nat,
    (∀ j, start ≤ j → j < start + length → Refers b (.item j)) →
      InBounds (cols.itemNodes start length) := by
  unfold Columns.itemNodes
  induction length with
  | zero =>
    intro start _
    exact .ok
  | succ length ih =>
    intro start hitems
    rw [List.range'_succ, List.mapM_cons]
    refine .bind (itemNode_inBounds hcols h (hitems start (le_refl _) (by omega))) ?_
    intro id _
    refine .bind (ih (start + 1) (fun j hlo hhi => hitems j (by omega) (by omega))) ?_
    intro rest _
    exact .ok

/-- The items of a collection field are there, and the range check of its readers passes. -/
theorem collection_inBounds {i : Nat} (ht : Refers b (.field i)) (hcol : isCollection b i = true) :
    (row b .fieldValues i ≤ cols.itemCount &&
        row b .fieldLengths i ≤ cols.itemCount - row b .fieldValues i) = true ∧
      ∀ j, row b .fieldValues i ≤ j → j < row b .fieldValues i + row b .fieldLengths i →
        Refers b (.item j) := by
  have hi := h.refers_inRange ht
  have hwithin := (h.itemTiles.within (Referenced.mem_collections.mpr ⟨hi, hcol⟩)).2
  simp only [itemSpan] at hwithin
  refine ⟨?_, fun j hlo hhi => .fieldItem ht hcol ⟨hlo, hhi⟩⟩
  rw [hcols.itemCount]
  simp only [Bool.and_eq_true, decide_eq_true_eq]
  omega

theorem field_readable {i : Nat} (ht : Refers b (.field i)) :
    (Target.field i).Readable cols := by
  have hkind : cols.read .fieldKinds i = .ok (row b .fieldKinds i) :=
    read_inRange hcols h ht .fieldKinds _ (by simp [Target.rows, Buffer.column])
  have hvalue : cols.read .fieldValues i = .ok (row b .fieldValues i) :=
    read_inRange hcols h ht .fieldValues _ (by simp [Target.rows, Buffer.column])
  have hlength : cols.read .fieldLengths i = .ok (row b .fieldLengths i) :=
    read_inRange hcols h ht .fieldLengths _ (by simp [Target.rows, Buffer.column])
  refine ⟨?_, fun minimum => ?_, fun minimum => ?_, fun kind hscalar => ?_⟩
  · unfold Columns.fieldNode
    rw [ok_bind _ hkind, ok_bind _ hlength]
    split
    · exact .reject (by decide)
    · rename_i hnode
      rw [ok_bind _ hvalue, nodeId_inRange hcols h (Refers.fieldNode ht (by omega))]
      exact .ok
  · unfold Columns.nodeSet
    rw [ok_bind _ hkind]
    refine .bind (.demand fun _ => by decide) (fun _ hset => ?_)
    have hcol : isCollection b i = true := by
      cases hk : row b .fieldKinds i == COMPONENT_SET with
      | true => rw [isCollection, isCollectionKind, hk, Bool.true_or]
      | false =>
        rw [hk] at hset
        cases hset
    obtain ⟨hrange, hitems⟩ := collection_inBounds hcols h ht hcol
    rw [ok_bind _ hvalue, ok_bind _ hlength, hrange]
    refine .bind .ok (fun _ _ => ?_)
    split
    · exact .error (by decide)
    · exact setItems_inBounds hcols h _ _ _ hitems
  · unfold Columns.nodeSequence
    rw [ok_bind _ hkind]
    refine .bind (.demand fun _ => by decide) (fun _ hsequence => ?_)
    have hcol : isCollection b i = true := by
      cases hk : row b .fieldKinds i == COMPONENT_SEQUENCE with
      | true => rw [isCollection, isCollectionKind, hk, Bool.or_true]
      | false =>
        rw [hk] at hsequence
        cases hsequence
    obtain ⟨hrange, hitems⟩ := collection_inBounds hcols h ht hcol
    rw [ok_bind _ hvalue, ok_bind _ hlength, hrange]
    refine .bind .ok (fun _ _ => ?_)
    split
    · exact .error (by decide)
    · exact itemNodes_inBounds hcols h _ _ hitems
  · unfold Columns.scalarPayload
    rw [ok_bind _ hkind]
    refine .bind (.demand fun _ => by decide) (fun _ hexpected => ?_)
    rw [ok_bind _ hvalue, ok_bind _ hlength]
    refine .bind (.demand fun hout => ?_) (fun _ _ => .ok)
    have hk : row b .fieldKinds i = kind := by
      cases hk : row b .fieldKinds i == kind with
      | true => exact beq_iff_eq.mp hk
      | false =>
        rw [hk] at hexpected
        cases hexpected
    have hbound := h.scalar_inBounds (.field i) (h.refers_inRange ht) (by
      rw [Owner.isScalar, Owner.kind, hk]
      exact hscalar)
    rw [hcols.scalarBytes] at hout
    simp only [Owner.value, Owner.length] at hbound
    simp only [decide_eq_false_iff_not] at hout
    exact absurd hbound hout

/-- Nothing that the table's own references lead to is read out of bounds. -/
theorem refers_readable {t : Target} (ht : Refers b t) : t.Readable cols := by
  cases t with
  | root i =>
    have hkind : cols.read .rootKinds i = .ok (row b .rootKinds i) :=
      read_inRange hcols h ht .rootKinds _ (by simp [Target.rows, Buffer.column])
    have hid : cols.read .rootIds i = .ok (row b .rootIds i) :=
      read_inRange hcols h ht .rootIds _ (by simp [Target.rows, Buffer.column])
    refine ⟨?_, ?_⟩
    · unfold Columns.rootKind
      rw [hkind]
      exact .ok
    · unfold Columns.rootId
      rw [ok_bind _ hid, nodeId_inRange hcols h (Refers.rootNode ht)]
      exact .ok
  | node id => exact node_readable hcols h ht
  | field i => exact field_readable hcols h ht
  | item j => exact itemNode_inBounds hcols h ht

end Readers

end Projector.Encoded
