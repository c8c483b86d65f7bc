import Projector.Lib.Tiling
import Projector.Native.Components
import Projector.Native.RootSelection
import Projector.Native.ScopeSearch

namespace Projector.Native
open Lib Projector.Core Projector.Encoded

section Code
variable (d : DirectColumns)

/-- `validate_leaf`: where the scalars that are not read yet begin. -/
def validateLeaf (kind value length scalarCursor : Nat) : Except KernelError Nat :=
  if kind = COMPONENT_NONE then
    if value ≠ 0 ∨ length ≠ 0 then .error (.malformed "encoded none component is not canonical")
    else .ok scalarCursor
  else if kind = COMPONENT_NODE then
    if length ≠ 0 then .error (.malformed "encoded node component has a nonzero length")
    else do
      let _ ← d.checkedNodeId value
      .ok scalarCursor
  else if kind = COMPONENT_TEXT ∨ kind = COMPONENT_BYTES ∨ kind = COMPONENT_INTEGER ∨
      kind = COMPONENT_ENUM then
    if value ≠ scalarCursor ∨ length > d.columns.scalarBytes.length - scalarCursor then
      .error (.malformed "encoded scalar offset or bounds are invalid")
    else .ok (scalarCursor + length)
  else .error (.malformed "encoded component kind is invalid")

/-- The checks of an item that only members of sets are given; the identifiers ascend. -/
def validateMember (kind itemKind itemCursor previousSetNode : Nat) : Except KernelError Nat :=
  if kind = COMPONENT_SET then
    if itemKind ≠ COMPONENT_NODE then
      .error (.malformed "encoded canonical-set item is not a node reference")
    else do
      let nodeId ← readUsize d.columns.itemValues itemCursor "item_values"
      let _ ← d.checkedNodeId nodeId
      if nodeId ≤ previousSetNode then
        .error (.malformed "encoded canonical-set items are not sorted and unique")
      else .ok nodeId
  else .ok previousSetNode

/-- `while item_cursor < end`, over the items that are left. -/
def validateItems (kind : Nat) : Nat → Nat → Nat → Nat → Except KernelError Nat
  | 0, _, _, scalarCursor => .ok scalarCursor
  | left + 1, itemCursor, previousSetNode, scalarCursor => do
    let itemKind ← itemKind d itemCursor
    let previous ← validateMember d kind itemKind itemCursor previousSetNode
    let value ← readUsize d.columns.itemValues itemCursor "item_values"
    let length ← readUsize d.columns.itemLengths itemCursor "item_lengths"
    let scalarCursor ← validateLeaf d itemKind value length scalarCursor
    validateItems kind left (itemCursor + 1) previous scalarCursor

/-- The loop over fields: where the items and the scalars that are not read yet begin. -/
def validateFields : List Nat → Nat → Nat → Except KernelError (Nat × Nat)
  | [], itemCursor, scalarCursor => .ok (itemCursor, scalarCursor)
  | index :: rest, itemCursor, scalarCursor => do
    let (kind, value, length) ← componentRow d index false
    if kind = COMPONENT_SET ∨ kind = COMPONENT_SEQUENCE then
      if value ≠ itemCursor ∨ length > d.columns.itemCount - itemCursor then
        .error (.malformed "encoded collection offset or bounds are invalid")
      else do
        let scalarCursor ← validateItems d kind length itemCursor 0 scalarCursor
        validateFields rest (itemCursor + length) scalarCursor
    else do
      let scalarCursor ← validateLeaf d kind value length scalarCursor
      validateFields rest itemCursor scalarCursor

/-- The loop over the offsets of the fields: the last offset. -/
def validateOffsets : List Nat → Nat → Except KernelError Nat
  | [], previous => .ok previous
  | index :: rest, previous => do
    let offset ← readUsize d.columns.nodeFieldOffsets index "node_field_offsets"
    if (index = 0 ∧ offset ≠ 0) ∨ offset < previous ∨ offset > d.columns.fieldCount then
      .error (.malformed "encoded node-field offsets are not monotone in-range boundaries")
    else validateOffsets rest offset

/-- The loop over the rows of one scope map. -/
def validateScopeRows (scopeMap : Bytes) : List Nat → Option Bytes → Except KernelError Unit
  | [], _ => .ok ()
  | index :: rest, previous =>
    let source := scopeSource scopeMap index
    if source = scopeTarget scopeMap index then
      .error (.malformed "encoded anonymous scope map contains an identity row")
    else if previous.any fun before => !decide (before < source) then
      .error (.malformed "encoded anonymous scope-map sources are not sorted unique")
    else validateScopeRows scopeMap rest (some source)

def validateWidth (scopeMap : Bytes) : Except KernelError Unit :=
  if scopeMap.length % 64 ≠ 0 then
    .error (.malformed "encoded anonymous scope-map length is not divisible by 64")
  else .ok ()

/-- The loop over the roots, after the kind and the node of the root before. -/
def validateRoots (d : SelectedColumns) : List Nat → Option (Nat × Nat) → Except KernelError Unit
  | [], _ => .ok ()
  | index :: rest, previous => do
    let kind ← d.rootKind index
    if ! [ROOT_ONTOLOGY_ANNOTATION, ROOT_AXIOM, ROOT_EXTENSION].contains kind then
      .error (.malformed "encoded root kind is invalid")
    else do
      let nodeId ← d.rootId index
      if previous.any fun before => !decide (toLex before < toLex (kind, nodeId)) then
        .error (.malformed "encoded roots are not canonical and unique")
      else validateRoots d rest (some (kind, nodeId))

def demandColumns (c : Bool) (message : String) : Except KernelError Unit :=
  if c then .ok () else .error (.malformed message)

/-- `validate_generic`, of columns that are decoded. -/
def validateGeneric (d : SelectedColumns) : Except KernelError Unit := do
  let cols := d.direct.columns
  d.direct.scopeMaps.forM validateWidth
  demandColumns (cols.rootIds.length == cols.rootCount) "encoded root columns differ in length"
  demandColumns (d.includedRootIds.isEmpty || d.excludedRootIds.isEmpty)
    "encoded root selection cannot combine INCLUDE and EXCLUDE postings"
  d.direct.scopeMaps.forM fun scopeMap =>
    validateScopeRows scopeMap (List.range (scopeMap.length / 64)) none
  demandColumns (cols.nodeFieldOffsets.length == cols.nodeCount + 1)
    "encoded node-field offsets do not match node count"
  demandColumns (cols.fieldValues.length == cols.fieldCount &&
    cols.fieldLengths.length == cols.fieldCount) "encoded field columns differ in length"
  demandColumns (cols.itemValues.length == cols.itemCount &&
    cols.itemLengths.length == cols.itemCount) "encoded item columns differ in length"
  let last ← validateOffsets d.direct (List.range (cols.nodeCount + 1)) 0
  demandColumns (last == cols.fieldCount) "encoded node-field offsets do not cover every field"
  validateRoots d (List.range d.rootCount) none
  d.validatePostings
  let (itemCursor, scalarCursor) ← validateFields d.direct (List.range cols.fieldCount) 0 0
  demandColumns (itemCursor == cols.itemCount) "encoded collection offsets do not cover every item"
  demandColumns (scalarCursor == cols.scalarBytes.length)
    "encoded scalar offsets do not cover the byte arena"

end Code

section Tables
variable (d : DirectColumns)

/-- The fields of a node. -/
def fieldSpan (id : Nat) : Span :=
  let start := d.columns.nodeFieldOffsets.getD (id - 1) 0
  (start, d.columns.nodeFieldOffsets.getD id 0 - start)

/-- The fields that hold collections. -/
def collections (indices : List Nat) : List Nat :=
  indices.filter fun index => (d.columns.cellAt index false).any fun row => isCollectionKind row.kind

/-- The items of a field that holds a collection. -/
def itemSpan (index : Nat) : Span :=
  ((d.columns.cellAt index false).map fun row => (row.value, row.length)).getD (0, 0)

/-- A component that is no collection, with what it refers to within the table. -/
inductive LeafRow : ComponentRow → Prop where
  | none : LeafRow ⟨COMPONENT_NONE, 0, 0⟩
  | node {id : Nat} (hid : 1 ≤ id ∧ id ≤ d.columns.nodeCount) : LeafRow ⟨COMPONENT_NODE, id, 0⟩
  | scalar {kind value length : Nat} (hkind : kind = COMPONENT_TEXT ∨ kind = COMPONENT_BYTES ∨
        kind = COMPONENT_INTEGER ∨ kind = COMPONENT_ENUM)
      (hinside : value + length ≤ d.columns.scalarBytes.length) : LeafRow ⟨kind, value, length⟩

/-- An item, which is a node in a set. -/
def ItemRow (kind index : Nat) : Prop :=
  ∃ row, d.columns.cellAt index true = some row ∧ LeafRow d row ∧
    (kind = COMPONENT_SET → row.kind = COMPONENT_NODE)

/-- A field: a collection of items, or a component of its own. -/
inductive FieldHolds (index : Nat) : Prop where
  | leaf {row : ComponentRow} (hrow : d.columns.cellAt index false = some row)
      (hleaf : LeafRow d row)
  | collection {kind start length : Nat}
      (hrow : d.columns.cellAt index false = some ⟨kind, start, length⟩)
      (hkind : kind = COMPONENT_SET ∨ kind = COMPONENT_SEQUENCE)
      (hinside : start + length ≤ d.columns.itemCount)
      (hitems : ∀ j, start ≤ j → j < start + length → ItemRow d kind j)

/-- What the checks of `validate_generic` establish of the nodes, the fields and the items. -/
structure SoundTable : Prop where
  nodes : ∀ id, 1 ≤ id ∧ id ≤ d.columns.nodeCount → ∃ start stop tag,
    d.columns.rangeAt id = some (start, stop) ∧ fieldSpan d id = (start, stop - start) ∧
      d.columns.nodeTags[id - 1]? = some tag
  fieldTiles : Tiles (fieldSpan d) 0 (List.range' 1 d.columns.nodeCount) d.columns.fieldCount
  fields : ∀ index < d.columns.fieldCount, FieldHolds d index
  itemTiles : Tiles (itemSpan d) 0 (collections d (List.range d.columns.fieldCount))
    d.columns.itemCount
  scopes : ∀ scopeMap ∈ d.scopeMaps, AscendingSources scopeMap

end Tables

section Leaves
variable {d : DirectColumns} {kind value length scalarCursor next : Nat}

theorem LeafRow.not_collection {row : ComponentRow} (h : LeafRow d row) :
    isCollectionKind row.kind = false := by
  cases h with
  | none => rfl
  | node => rfl
  | scalar hkind =>
    obtain rfl | rfl | rfl | rfl := hkind
    · rfl
    · rfl
    · rfl
    · rfl

/-- A leaf that is let through refers within the table, and the scalars go on inside it. -/
theorem validateLeaf_ok (hcursor : scalarCursor ≤ d.columns.scalarBytes.length)
    (h : validateLeaf d kind value length scalarCursor = .ok next) :
    LeafRow d ⟨kind, value, length⟩ ∧ next ≤ d.columns.scalarBytes.length := by
  unfold validateLeaf at h
  split at h
  · rename_i hkind
    split at h
    · cases h
    · rename_i hzero
      obtain ⟨rfl, rfl⟩ : value = 0 ∧ length = 0 := by omega
      cases h
      exact ⟨hkind ▸ .none, hcursor⟩
  · split at h
    · rename_i hkind
      split at h
      · cases h
      · rename_i hzero
        obtain rfl : length = 0 := by omega
        obtain ⟨id, hid, h⟩ := bind_ok h
        obtain ⟨-, hin⟩ := checkedNodeId_ok.mp hid
        cases h
        exact ⟨hkind ▸ .node hin, hcursor⟩
    · split at h
      · rename_i hkind
        split at h
        · cases h
        · rename_i hbounds
          cases h
          exact ⟨.scalar hkind (by omega), by omega⟩
      · cases h

theorem validateMember_ok {itemKind itemCursor previous : Nat}
    (h : validateMember d kind itemKind itemCursor previous = .ok next) :
    kind = COMPONENT_SET → itemKind = COMPONENT_NODE := by
  intro hset
  unfold validateMember at h
  rw [if_pos hset] at h
  split at h
  · cases h
  · rename_i hnode
    exact not_ne_iff.mp hnode

theorem validateItems_ok {left itemCursor previous : Nat}
    (hcursor : scalarCursor ≤ d.columns.scalarBytes.length)
    (h : validateItems d kind left itemCursor previous scalarCursor = .ok next) :
    next ≤ d.columns.scalarBytes.length ∧
    ∀ j, itemCursor ≤ j → j < itemCursor + left → ItemRow d kind j := by
  induction left generalizing itemCursor previous scalarCursor with
  | zero =>
    cases h
    exact ⟨hcursor, fun j hlow hhigh => by omega⟩
  | succ left ih =>
    obtain ⟨itemKind, hkind, h⟩ := bind_ok h
    obtain ⟨following, hmember, h⟩ := bind_ok h
    obtain ⟨value, hvalue, h⟩ := bind_ok h
    obtain ⟨length, hlength, h⟩ := bind_ok h
    obtain ⟨cursor, hleaf, h⟩ := bind_ok h
    obtain ⟨hrow, hnext⟩ := validateLeaf_ok hcursor hleaf
    obtain ⟨hend, hrest⟩ := ih hnext h
    refine ⟨hend, fun j hlow hhigh => ?_⟩
    by_cases hj : j = itemCursor
    · subst hj
      refine ⟨⟨itemKind, value, length⟩, ?_, hrow, validateMember_ok hmember⟩
      apply componentRow_ok.mp
      unfold componentRow
      rw [if_pos rfl, ok_bind _ hkind, ok_bind _ hvalue, ok_bind _ hlength]
    · exact hrest j (by omega) (by omega)

end Leaves

section Fields
variable {d : DirectColumns}

theorem collections_cons_collection {index kind start length : Nat} (indices : List Nat)
    (hrow : d.columns.cellAt index false = some ⟨kind, start, length⟩)
    (hkind : kind = COMPONENT_SET ∨ kind = COMPONENT_SEQUENCE) :
    collections d (index :: indices) = index :: collections d indices := by
  unfold collections
  rw [List.filter_cons_of_pos]
  rw [hrow]
  simpa [isCollectionKind] using hkind

theorem collections_cons_leaf {index : Nat} {row : ComponentRow} (indices : List Nat)
    (hrow : d.columns.cellAt index false = some row) (hleaf : LeafRow d row) :
    collections d (index :: indices) = collections d indices := by
  unfold collections
  rw [List.filter_cons_of_neg]
  rw [hrow]
  simp [hleaf.not_collection]

theorem validateFields_ok {indices : List Nat} {itemCursor scalarCursor : Nat} {ends : Nat × Nat}
    (hitems : itemCursor ≤ d.columns.itemCount)
    (hcursor : scalarCursor ≤ d.columns.scalarBytes.length)
    (h : validateFields d indices itemCursor scalarCursor = .ok ends) :
    Tiles (itemSpan d) itemCursor (collections d indices) ends.1 ∧
      ∀ index ∈ indices, FieldHolds d index := by
  induction indices generalizing itemCursor scalarCursor with
  | nil =>
    cases h
    exact ⟨rfl, fun index hin => absurd hin List.not_mem_nil⟩
  | cons index indices ih =>
    obtain ⟨⟨kind, value, length⟩, hrow, h⟩ := bind_ok h
    have hcell := componentRow_ok.mp hrow
    dsimp only at h
    split at h
    · rename_i hkind
      split at h
      · cases h
      · rename_i hbounds
        obtain ⟨cursor, hall, h⟩ := bind_ok h
        obtain ⟨hend, hmembers⟩ := validateItems_ok hcursor hall
        obtain ⟨hstart, hlength⟩ : value = itemCursor ∧
            length ≤ d.columns.itemCount - itemCursor := by omega
        subst hstart
        obtain ⟨htiles, hrest⟩ := ih (by omega) hend h
        have hspan : itemSpan d index = (value, length) := by
          unfold itemSpan
          rw [hcell]
          rfl
        refine ⟨?_, fun i hi => ?_⟩
        · rw [collections_cons_collection indices hcell hkind]
          exact ⟨congrArg Prod.fst hspan, by rw [hspan]; exact htiles⟩
        · rcases List.mem_cons.mp hi with rfl | hi
          · exact .collection hcell hkind (by omega) hmembers
          · exact hrest i hi
    · obtain ⟨cursor, hleaf, h⟩ := bind_ok h
      obtain ⟨hleafRow, hend⟩ := validateLeaf_ok hcursor hleaf
      obtain ⟨htiles, hrest⟩ := ih hitems hend h
      refine ⟨?_, fun i hi => ?_⟩
      · rw [collections_cons_leaf indices hcell hleafRow]
        exact htiles
      · rcases List.mem_cons.mp hi with rfl | hi
        · exact .leaf hcell hleafRow
        · exact hrest i hi

end Fields

section Offsets
variable {d : DirectColumns}

/-- The offsets tile the fields, each node having those up to the next offset. -/
theorem validateOffsets_ok {n k previous last : Nat} (hk : 1 ≤ k)
    (hprevious : d.columns.nodeFieldOffsets[k - 1]? = some previous)
    (h : validateOffsets d (List.range' k n) previous = .ok last) :
    Tiles (fieldSpan d) previous (List.range' k n) last ∧
    ∀ id, k ≤ id → id < k + n → ∃ start stop, d.columns.nodeFieldOffsets[id - 1]? = some start ∧
      d.columns.nodeFieldOffsets[id]? = some stop ∧ start ≤ stop ∧ stop ≤ d.columns.fieldCount := by
  induction n generalizing k previous with
  | zero =>
    cases h
    exact ⟨rfl, fun id hlow hhigh => by omega⟩
  | succ n ih =>
    rw [List.range'_succ] at h ⊢
    obtain ⟨offset, hoffset, h⟩ := bind_ok h
    have hoffset := readUsize_ok.mp hoffset
    split at h
    · cases h
    · rename_i hgood
      obtain ⟨htiles, hrest⟩ := ih (by omega) hoffset h
      have hspan : fieldSpan d k = (previous, offset - previous) := by
        simp only [fieldSpan, List.getD_eq_getElem?_getD, hprevious, hoffset, Option.getD_some]
      refine ⟨⟨congrArg Prod.fst hspan, ?_⟩, fun id hlow hhigh => ?_⟩
      · rw [hspan, Nat.add_sub_cancel' (by omega)]
        exact htiles
      · by_cases hid : id = k
        · subst hid
          exact ⟨previous, offset, hprevious, hoffset, by omega, by omega⟩
        · exact hrest id (by omega) (by omega)

/-- The sources of the rows ascend from the one before the first row on. -/
theorem validateScopeRows_ok {scopeMap : Bytes} {n k : Nat} {previous : Option Bytes} {u : Unit}
    (h : validateScopeRows scopeMap (List.range' k n) previous = .ok u) :
    (∀ i, k ≤ i → i < k + n → ∀ before ∈ previous, before < scopeSource scopeMap i) ∧
    ∀ i j, k ≤ i → i < j → j < k + n → scopeSource scopeMap i < scopeSource scopeMap j := by
  induction n generalizing k previous with
  | zero => exact ⟨fun i hlow hhigh => by omega, fun i j hlow hij hhigh => by omega⟩
  | succ n ih =>
    rw [List.range'_succ] at h
    unfold validateScopeRows at h
    dsimp only at h
    split at h
    · cases h
    · split at h
      · cases h
      · rename_i hsorted
        obtain ⟨hfirst, hrest⟩ := ih h
        have hprevious : ∀ before ∈ previous, before < scopeSource scopeMap k := by
          intro before hbefore
          rw [Option.mem_def.mp hbefore] at hsorted
          simpa using hsorted
        refine ⟨fun i hlow hhigh before hbefore => ?_, fun i j hlow hij hhigh => ?_⟩
        · by_cases hi : i = k
          · exact hi ▸ hprevious before hbefore
          · exact (hprevious before hbefore).trans (hfirst i (by omega) (by omega) _ rfl)
        · by_cases hi : i = k
          · exact hi ▸ hfirst j (by omega) (by omega) _ rfl
          · exact hrest i j (by omega) hij (by omega)

theorem demandColumns_ok {c : Bool} {message : String} {u : Unit}
    (h : demandColumns c message = .ok u) : c = true := by
  unfold demandColumns at h
  split at h
  · assumption
  · cases h

theorem forM_ok {α ε : Type} {xs : List α} {check : α → Except ε Unit} {u : Unit}
    (h : xs.forM check = .ok u) : ∀ x ∈ xs, check x = .ok () := by
  induction xs with
  | nil => exact fun x hx => absurd hx List.not_mem_nil
  | cons x xs ih =>
    change (check x >>= fun _ => xs.forM check) = _ at h
    obtain ⟨_, hhead, hrest⟩ := bind_ok h
    intro y hy
    rcases List.mem_cons.mp hy with rfl | hy
    · exact hhead
    · exact ih hrest y hy

/-- What `validate_generic` accepts. -/
theorem validateGeneric_sound {d : SelectedColumns} {u : Unit} (h : validateGeneric d = .ok u) :
    SoundTable d.direct := by
  obtain ⟨_, -, h⟩ := bind_ok h
  obtain ⟨_, -, h⟩ := bind_ok h
  obtain ⟨_, -, h⟩ := bind_ok h
  obtain ⟨_, hscopes, h⟩ := bind_ok h
  obtain ⟨_, hoffsets, h⟩ := bind_ok h
  obtain ⟨_, -, h⟩ := bind_ok h
  obtain ⟨_, -, h⟩ := bind_ok h
  obtain ⟨last, hwalk, h⟩ := bind_ok h
  obtain ⟨_, hcovers, h⟩ := bind_ok h
  obtain ⟨_, -, h⟩ := bind_ok h
  obtain ⟨_, -, h⟩ := bind_ok h
  obtain ⟨ends, hfields, h⟩ := bind_ok h
  obtain ⟨_, hitems, -⟩ := bind_ok h
  have hitems := eq_of_beq (demandColumns_ok hitems)
  obtain rfl := eq_of_beq (demandColumns_ok hcovers)
  obtain ⟨htiles, hrows⟩ := validateFields_ok (Nat.zero_le _) (Nat.zero_le _) hfields
  rw [List.range_eq_range', List.range'_succ] at hwalk
  obtain ⟨first, hfirst, hwalk⟩ := bind_ok hwalk
  have hfirst := readUsize_ok.mp hfirst
  split at hwalk
  · cases hwalk
  · rename_i hzero
    obtain rfl : first = 0 := by omega
    obtain ⟨hspans, hranges⟩ := validateOffsets_ok (Nat.le_refl 1) hfirst hwalk
    refine ⟨fun id hid => ?_, hspans, fun index hindex => ?_, hitems ▸ htiles, fun scopeMap hmap => ?_⟩
    · obtain ⟨start, stop, hstart, hstop, hle, hin⟩ := hranges id hid.1 (by omega)
      have hlt : id - 1 < d.direct.columns.nodeTags.length := by
        have := hid.2
        unfold Columns.nodeCount at this
        omega
      refine ⟨start, stop, _, ?_, ?_, List.getElem?_eq_getElem hlt⟩
      · unfold Columns.rangeAt
        rw [if_pos hid, hstart, hstop]
        exact if_pos ⟨hle, hin⟩
      · simp only [fieldSpan, List.getD_eq_getElem?_getD, hstart, hstop, Option.getD_some]
    · exact hrows index (List.mem_range.mpr hindex)
    · have hascends := forM_ok hscopes scopeMap hmap
      rw [List.range_eq_range'] at hascends
      exact fun i j hij hj => (validateScopeRows_ok hascends).2 i j (Nat.zero_le i) hij (by omega)

end Offsets

end Projector.Native
