import Projector.Lib.Effects
import Projector.Lib.Tiling
import Projector.Encoded.Validation

namespace Projector.Encoded
open Lib

theorem require_ok {c : Bool} {message : String} {u : Unit} (h : require c message = .ok u) :
    c = true := by
  cases c with
  | true => rfl
  | false => cases h

variable {b : Buffers}

/-- The fields of the node with the id `k + 1`. -/
def fieldSpan (b : Buffers) (k : Nat) : Span :=
  (row b .nodeFieldOffsets k, row b .nodeFieldOffsets (k + 1) - row b .nodeFieldOffsets k)

/-- The items of a collection field. -/
def itemSpan (b : Buffers) (f : Nat) : Span := (row b .fieldValues f, row b .fieldLengths f)

def isCollection (b : Buffers) (f : Nat) : Bool := isCollectionKind (row b .fieldKinds f)

/-- The fields that own items, in their order. -/
def collections (b : Buffers) (fieldCount : Nat) : List Nat :=
  (List.range fieldCount).filter (isCollection b)

/-- A component of the table: a field or an item. -/
inductive Owner where
  | field (index : Nat)
  | item (index : Nat)
  deriving DecidableEq, Repr

namespace Owner

def kind (b : Buffers) : Owner → Nat
  | .field index => row b .fieldKinds index
  | .item index => row b .itemKinds index

def value (b : Buffers) : Owner → Nat
  | .field index => row b .fieldValues index
  | .item index => row b .itemValues index

def length (b : Buffers) : Owner → Nat
  | .field index => row b .fieldLengths index
  | .item index => row b .itemLengths index

/-- The scalar bytes of a component. -/
def span (b : Buffers) (owner : Owner) : Span := (owner.value b, owner.length b)

def isScalar (b : Buffers) (owner : Owner) : Bool := isScalarKind (owner.kind b)

/-- Neither a set nor a sequence. -/
structure IsLeaf (b : Buffers) (nodeCount : Nat) (owner : Owner) : Prop where
  kinds : owner.kind b = COMPONENT_NONE ∨ owner.kind b = COMPONENT_NODE ∨ owner.isScalar b = true
  node : owner.kind b = COMPONENT_NODE →
    owner.length b = 0 ∧ 1 ≤ owner.value b ∧ owner.value b ≤ nodeCount
  none : owner.kind b = COMPONENT_NONE → owner.value b = 0 ∧ owner.length b = 0

theorem IsLeaf.not_collection {b : Buffers} {nodeCount : Nat} {owner : Owner}
    (h : owner.IsLeaf b nodeCount) :
    owner.kind b ≠ COMPONENT_SET ∧ owner.kind b ≠ COMPONENT_SEQUENCE := by
  rcases h.kinds with hkind | hkind | hscalar
  · rw [hkind]
    exact ⟨by decide, by decide⟩
  · rw [hkind]
    exact ⟨by decide, by decide⟩
  · refine ⟨fun hkind => ?_, fun hkind => ?_⟩
    · rw [Owner.isScalar, hkind] at hscalar
      cases hscalar
    · rw [Owner.isScalar, hkind] at hscalar
      cases hscalar

end Owner

/-- The components of a field that are no collections: the field, or its items. -/
def leavesOf (b : Buffers) (f : Nat) : List Owner :=
  if isCollection b f then
    (List.range' (row b .fieldValues f) (row b .fieldLengths f)).map Owner.item
  else [.field f]

/-- The components that own scalar bytes, in the order of the table. -/
def scalarOwners (b : Buffers) (fieldCount : Nat) : List Owner :=
  ((List.range fieldCount).flatMap (leavesOf b)).filter (Owner.isScalar b)

/-- What the scan of the columns has established when it ends normally. -/
structure Referenced (b : Buffers) : Prop where
  rootIds : rowCount b .rootIds = rowCount b .rootKinds
  offsets : rowCount b .nodeFieldOffsets = rowCount b .nodeTags + 1
  fieldValues : rowCount b .fieldValues = rowCount b .fieldKinds
  fieldLengths : rowCount b .fieldLengths = rowCount b .fieldKinds
  itemValues : rowCount b .itemValues = rowCount b .itemKinds
  itemLengths : rowCount b .itemLengths = rowCount b .itemKinds
  roots : ∀ i < rowCount b .rootKinds,
    1 ≤ row b .rootIds i ∧ row b .rootIds i ≤ rowCount b .nodeTags
  monotone : ∀ k < rowCount b .nodeTags,
    row b .nodeFieldOffsets k ≤ row b .nodeFieldOffsets (k + 1)
  fieldTiles : Tiles (fieldSpan b) 0 (List.range (rowCount b .nodeTags)) (rowCount b .fieldKinds)
  itemTiles : Tiles (itemSpan b) 0 (collections b (rowCount b .fieldKinds)) (rowCount b .itemKinds)
  scalarTiles : Tiles (Owner.span b) 0 (scalarOwners b (rowCount b .fieldKinds))
    (b .scalarBytes).length
  leaves : ∀ f < rowCount b .fieldKinds, ∀ owner ∈ leavesOf b f,
    owner.IsLeaf b (rowCount b .nodeTags)
  setItems : ∀ f < rowCount b .fieldKinds, row b .fieldKinds f = COMPONENT_SET →
    ∀ owner ∈ leavesOf b f, owner.kind b = COMPONENT_NODE

section Scan

/-- The offsets seen so far tile the fields. -/
theorem offsets_tile {fieldCount nodeCount last : Nat}
    (h : (List.range (nodeCount + 1)).foldlM (checkOffset b fieldCount) 0 = .ok last) :
    last = row b .nodeFieldOffsets nodeCount ∧
      (∀ k < nodeCount, row b .nodeFieldOffsets k ≤ row b .nodeFieldOffsets (k + 1)) ∧
      Tiles (fieldSpan b) 0 (List.range nodeCount) last := by
  rw [List.range_eq_range', List.range'_succ, List.foldlM_cons] at h
  obtain ⟨first, hfirst, hrest⟩ := bind_ok h
  have hzero : first = 0 ∧ row b .nodeFieldOffsets 0 = 0 := by
    simp only [checkOffset] at hfirst
    split at hfirst
    · cases hfirst
    · rename_i hn
      have hoffset : row b .nodeFieldOffsets 0 = 0 := by
        by_contra hne
        exact hn (Or.inl ⟨trivial, hne⟩)
      exact ⟨(Except.ok.inj hfirst).symm.trans hoffset, hoffset⟩
  obtain ⟨rfl, hzero⟩ := hzero
  have hscan := foldlM_range_ok (fun index previous => ∃ k, index = k + 1 ∧
      previous = row b .nodeFieldOffsets k ∧
      (∀ j < k, row b .nodeFieldOffsets j ≤ row b .nodeFieldOffsets (j + 1)) ∧
      Tiles (fieldSpan b) 0 (List.range k) previous) nodeCount (0 + 1) 0 last hrest
    ⟨0, rfl, hzero.symm, fun j hj => by omega, rfl⟩ ?_
  · obtain ⟨k, hk, hlast, hmono, htiles⟩ := hscan
    obtain rfl : k = nodeCount := by omega
    exact ⟨hlast, hmono, htiles⟩
  · intro index previous next _ _ hi hnext
    obtain ⟨k, rfl, rfl, hmono, htiles⟩ := hi
    simp only [checkOffset] at hnext
    split at hnext
    · cases hnext
    · rename_i hn
      have heq := Except.ok.inj hnext
      refine ⟨k + 1, rfl, heq.symm, ?_, ?_⟩
      · intro j hj
        rcases Nat.lt_succ_iff_lt_or_eq.mp hj with hj | rfl
        · exact hmono j hj
        · omega
      · rw [List.range_succ]
        have hsingle : Tiles (fieldSpan b) (row b .nodeFieldOffsets k) [k]
            (row b .nodeFieldOffsets k + (fieldSpan b k).2) := .single rfl
        have hend : row b .nodeFieldOffsets k + (fieldSpan b k).2 = next := by
          simp only [fieldSpan]
          omega
        exact htiles.append (hend ▸ hsingle)

theorem roots_inRange {nodeCount rootCount : Nat} {u : Unit}
    (h : (List.range rootCount).foldlM (checkRoot b nodeCount) () = .ok u) :
    ∀ i < rootCount, 1 ≤ row b .rootIds i ∧ row b .rootIds i ≤ nodeCount := by
  rw [List.range_eq_range'] at h
  have hscan := foldlM_range_ok (fun index (_ : Unit) => ∀ i < index,
    1 ≤ row b .rootIds i ∧ row b .rootIds i ≤ nodeCount) rootCount 0 () u h
    (fun i hi => by omega) ?_
  · intro i hi
    exact hscan i (by omega)
  · intro index _ _ _ _ hi hnext
    simp only [checkRoot] at hnext
    obtain ⟨_, _, hnext⟩ := bind_ok hnext
    have hrange := require_ok hnext
    simp only [Bool.and_eq_true, decide_eq_true_eq] at hrange
    intro i hlt
    rcases Nat.lt_succ_iff_lt_or_eq.mp hlt with hlt | rfl
    · exact hi i hlt
    · exact hrange

/-- One leaf moves the scalar cursor over its own bytes. -/
theorem leaf_ok (owner : Owner) {nodeCount scalarCount cursor next : Nat}
    (h : validateLeafReference (owner.kind b) (owner.value b) (owner.length b) nodeCount
      scalarCount cursor = .ok next) :
    owner.IsLeaf b nodeCount ∧
      Tiles (Owner.span b) cursor ([owner].filter (Owner.isScalar b)) next := by
  unfold validateLeafReference at h
  split at h
  · rename_i hnone
    split at h
    · cases h
    · have hscalar : owner.isScalar b = false := by
        rw [Owner.isScalar, hnone]
        rfl
      refine ⟨⟨Or.inl hnone, fun hnode => ?_, fun _ => by omega⟩, ?_⟩
      · rw [hnone] at hnode
        cases hnode
      · rw [List.filter_cons, hscalar]
        exact Except.ok.inj h
  · rename_i hnone
    split at h
    · rename_i hnode
      split at h
      · cases h
      · rename_i hrange
        have hscalar : owner.isScalar b = false := by
          rw [Owner.isScalar, hnode]
          rfl
        refine ⟨⟨Or.inr (Or.inl hnode), fun _ => by omega, fun hn => absurd hn hnone⟩, ?_⟩
        rw [List.filter_cons, hscalar]
        exact Except.ok.inj h
    · rename_i hnode
      split at h
      · cases h
      · rename_i hkind
        have hscalar : owner.isScalar b = true := by
          simpa [Owner.isScalar] using hkind
        split at h
        · cases h
        · rename_i hbounds
          have hnext := Except.ok.inj h
          refine ⟨⟨Or.inr (Or.inr hscalar), fun hn => absurd hn hnode,
            fun hn => absurd hn hnone⟩, ?_⟩
          rw [List.filter_cons, hscalar]
          refine ⟨?_, ?_⟩
          · simp only [Owner.span]
            omega
          · exact hnext

/-- The items of one collection. -/
theorem items_ok {kind nodeCount scalarCount start length cursor next : Nat}
    (h : (List.range' start length).foldlM (checkItem b kind nodeCount scalarCount) cursor =
      .ok next) :
    (∀ j, start ≤ j → j < start + length → (Owner.item j).IsLeaf b nodeCount ∧
      (kind = COMPONENT_SET → (Owner.item j).kind b = COMPONENT_NODE)) ∧
      Tiles (Owner.span b) cursor
        (((List.range' start length).map Owner.item).filter (Owner.isScalar b)) next := by
  have hscan := foldlM_range_ok (fun index scalarCursor => ∃ n, index = start + n ∧
      (∀ j, start ≤ j → j < index → (Owner.item j).IsLeaf b nodeCount ∧
        (kind = COMPONENT_SET → (Owner.item j).kind b = COMPONENT_NODE)) ∧
      Tiles (Owner.span b) cursor
        (((List.range' start n).map Owner.item).filter (Owner.isScalar b)) scalarCursor)
    length start cursor next h ⟨0, rfl, fun j hlo hhi => by omega, rfl⟩ ?_
  · obtain ⟨n, hn, hleaves, htiles⟩ := hscan
    obtain rfl : n = length := by omega
    exact ⟨hleaves, htiles⟩
  · intro index scalarCursor scalarNext _ _ hi hnext
    obtain ⟨n, rfl, hleaves, htiles⟩ := hi
    simp only [checkItem] at hnext
    obtain ⟨_, hset, hnext⟩ := bind_ok hnext
    have hset := require_ok hset
    have hleaf := leaf_ok (.item (start + n)) hnext
    refine ⟨n + 1, by omega, ?_, ?_⟩
    · intro j hlo hhi
      rcases Nat.lt_succ_iff_lt_or_eq.mp hhi with hhi | rfl
      · exact hleaves j hlo hhi
      · refine ⟨hleaf.1, fun hkind => ?_⟩
        rw [hkind] at hset
        have hnode : row b .itemKinds (start + n) = COMPONENT_NODE := by simpa using hset
        exact hnode
    · rw [List.range'_concat, List.map_append, List.filter_append]
      have hone := hleaf.2
      simpa using htiles.append hone

/-- The fields, with the items of the collections among them. -/
theorem fields_ok {nodeCount itemCount scalarCount fieldCount : Nat} {cursors : Nat × Nat}
    (h : (List.range fieldCount).foldlM (checkField b nodeCount itemCount scalarCount) (0, 0) =
      .ok cursors) :
    Tiles (itemSpan b) 0 (collections b fieldCount) cursors.1 ∧
      Tiles (Owner.span b) 0 (scalarOwners b fieldCount) cursors.2 ∧
      ∀ f < fieldCount, ∀ owner ∈ leavesOf b f, owner.IsLeaf b nodeCount ∧
        (row b .fieldKinds f = COMPONENT_SET → owner.kind b = COMPONENT_NODE) := by
  rw [List.range_eq_range'] at h
  have hscan := foldlM_range_ok (fun index (cursors : Nat × Nat) =>
      Tiles (itemSpan b) 0 (collections b index) cursors.1 ∧
        Tiles (Owner.span b) 0 (scalarOwners b index) cursors.2 ∧
        ∀ f < index, ∀ owner ∈ leavesOf b f, owner.IsLeaf b nodeCount ∧
          (row b .fieldKinds f = COMPONENT_SET → owner.kind b = COMPONENT_NODE))
    fieldCount 0 (0, 0) cursors h ⟨rfl, rfl, fun f hf => by omega⟩ ?_
  · rwa [Nat.zero_add] at hscan
  · intro index cursors next _ _ hi hnext
    obtain ⟨hitems, hscalars, hleaves⟩ := hi
    have hcollections : collections b (index + 1) =
        collections b index ++ [index].filter (isCollection b) := by
      rw [collections, collections, List.range_succ, List.filter_append]
    have howners : scalarOwners b (index + 1) =
        scalarOwners b index ++ (leavesOf b index).filter (Owner.isScalar b) := by
      simp [scalarOwners, List.range_succ]
    have hextend : ∀ f < index + 1, (f = index → ∀ owner ∈ leavesOf b index,
        owner.IsLeaf b nodeCount ∧
          (row b .fieldKinds index = COMPONENT_SET → owner.kind b = COMPONENT_NODE)) →
        ∀ owner ∈ leavesOf b f, owner.IsLeaf b nodeCount ∧
          (row b .fieldKinds f = COMPONENT_SET → owner.kind b = COMPONENT_NODE) := by
      intro f hf hlast
      rcases Nat.lt_succ_iff_lt_or_eq.mp hf with hf | rfl
      · exact hleaves f hf
      · exact hlast rfl
    simp only [checkField] at hnext
    by_cases hcollection : isCollectionKind (row b .fieldKinds index) = true
    · have hcol : isCollection b index = true := hcollection
      rw [if_pos hcollection] at hnext
      split at hnext
      · cases hnext
      · rename_i hbounds
        obtain ⟨scalarNext, hscan, hnext⟩ := bind_ok hnext
        obtain rfl := Except.ok.inj hnext
        obtain ⟨hitemLeaves, hitemTiles⟩ := items_ok hscan
        have hstart : row b .fieldValues index = cursors.1 := by omega
        have hleavesOf : leavesOf b index =
            (List.range' cursors.1 (row b .fieldLengths index)).map Owner.item := by
          rw [leavesOf, if_pos hcol, hstart]
        refine ⟨?_, ?_, fun f hf => hextend f hf (fun _ owner howner => ?_)⟩
        · rw [hcollections, List.filter_cons, hcol]
          have hone : Tiles (itemSpan b) cursors.1 [index]
              (cursors.1 + row b .fieldLengths index) := .single hstart
          exact hitems.append hone
        · rw [howners, hleavesOf]
          exact hscalars.append hitemTiles
        · rw [hleavesOf] at howner
          obtain ⟨j, hj, rfl⟩ := List.mem_map.mp howner
          obtain ⟨hlo, hhi⟩ := List.mem_range'_1.mp hj
          exact hitemLeaves j hlo hhi
    · have hcol : isCollection b index = false := by simpa [isCollection] using hcollection
      rw [if_neg hcollection] at hnext
      obtain ⟨scalarNext, hscan, hnext⟩ := bind_ok hnext
      obtain rfl := Except.ok.inj hnext
      obtain ⟨hleaf, htiles⟩ := leaf_ok (.field index) hscan
      have hleavesOf : leavesOf b index = [.field index] := by
        rw [leavesOf, hcol]
        rfl
      refine ⟨?_, ?_, fun f hf => hextend f hf (fun _ owner howner => ?_)⟩
      · rw [hcollections, List.filter_cons, hcol]
        simpa using hitems
      · rw [howners, hleavesOf]
        exact hscalars.append htiles
      · rw [hleavesOf] at howner
        obtain rfl := List.mem_singleton.mp howner
        refine ⟨hleaf, fun hset => ?_⟩
        rw [isCollection, hset] at hcol
        cases hcol

end Scan

theorem referenced_of_ok {owner : SourceView} {localBufferBytes rootCount : Nat}
    (h : validateColumnReferences b owner localBufferBytes = .ok rootCount) :
    Referenced b ∧ rootCount = rowCount b .rootKinds := by
  unfold validateColumnReferences at h
  obtain ⟨_, _, h⟩ := bind_ok h
  obtain ⟨_, _, h⟩ := bind_ok h
  obtain ⟨_, _, h⟩ := bind_ok h
  obtain ⟨_, _, h⟩ := bind_ok h
  obtain ⟨_, _, h⟩ := bind_ok h
  obtain ⟨_, _, h⟩ := bind_ok h
  obtain ⟨_, hroots, h⟩ := bind_ok h
  obtain ⟨_, hoffsets, h⟩ := bind_ok h
  obtain ⟨_, hfields, h⟩ := bind_ok h
  obtain ⟨_, hitems, h⟩ := bind_ok h
  obtain ⟨lastOffset, hscan, h⟩ := bind_ok h
  obtain ⟨_, hlast, h⟩ := bind_ok h
  obtain ⟨_, hrootScan, h⟩ := bind_ok h
  obtain ⟨cursors, hfieldScan, h⟩ := bind_ok h
  obtain ⟨_, hitemEnd, h⟩ := bind_ok h
  obtain ⟨_, hscalarEnd, h⟩ := bind_ok h
  have hroots := require_ok hroots
  have hoffsets := require_ok hoffsets
  have hfields := require_ok hfields
  have hitems := require_ok hitems
  have hlast := require_ok hlast
  have hitemEnd := require_ok hitemEnd
  have hscalarEnd := require_ok hscalarEnd
  simp only [beq_iff_eq, Bool.and_eq_true] at hroots hoffsets hfields hitems hlast hitemEnd hscalarEnd
  rw [hoffsets] at hscan
  obtain ⟨_, hmono, htiles⟩ := offsets_tile hscan
  obtain ⟨hitemTiles, hscalarTiles, hleaves⟩ := fields_ok hfieldScan
  rw [hlast] at htiles
  rw [hitemEnd] at hitemTiles
  rw [hscalarEnd] at hscalarTiles
  exact ⟨⟨hroots, hoffsets, hfields.1, hfields.2, hitems.1, hitems.2, roots_inRange hrootScan, hmono,
    htiles, hitemTiles, hscalarTiles, fun f hf owner ho => (hleaves f hf owner ho).1,
    fun f hf hset owner ho => (hleaves f hf owner ho).2 hset⟩, (Except.ok.inj h).symm⟩

end Projector.Encoded
