import Projector.Lib.ColourWalk
import Projector.Encoded.Preflight
import Projector.Encoded.ReadCells

namespace Projector.Encoded
open Lib Projector.Core Compiler

namespace Columns
variable (cols : Columns)

/-! The graphs that the validators govern, as the rows of the table have them. -/

/-- The nodes that a field refers to: the one of a node field, or the members of a set. -/
def referencesAt (index : Nat) : List Nat :=
  match cols.cellAt index false with
  | none => []
  | some row =>
    if row.kind = COMPONENT_NODE then [row.value]
    else if row.kind = COMPONENT_SET then
      (List.range' row.value row.length).filterMap fun item =>
        (cols.cellAt item true).map fun cell => cell.value
    else []

/-- The field of a node whose references are followed, for the constructors that have one. -/
def governedField (fields : List (Constructor × Nat)) (id : Nat) : Option Nat :=
  if 1 ≤ id then
    (cols.nodeTags[id - 1]?).bind fun tag =>
      (fields.find? fun entry => entry.1.tag == tag).map Prod.snd
  else none

def governs (fields : List (Constructor × Nat)) (id : Nat) : Bool :=
  (cols.governedField fields id).isSome

/-- The edges between governed nodes. -/
def GraphEdge (fields : List (Constructor × Nat)) (a c : Nat) : Prop :=
  cols.governs fields c = true ∧
    ∃ position start stop, cols.governedField fields a = some position ∧
      cols.rangeAt a = some (start, stop) ∧ c ∈ cols.referencesAt (start + position)

/-- Nested annotation sets. -/
def annotationFields : List (Constructor × Nat) := [(.annotationTerm, 2)]

def dataRangeFields : List (Constructor × Nat) :=
  [(.dataIntersectionOf, 0), (.dataUnionOf, 0), (.dataComplementOf, 0)]

def classFields : List (Constructor × Nat) :=
  [(.objectIntersectionOf, 0), (.objectUnionOf, 0), (.objectComplementOf, 0)]

/-- The fillers of restrictions and of cardinalities. -/
def fillerFields : List (Constructor × Nat) :=
  [(.objectSomeValuesFrom, 1), (.objectAllValuesFrom, 1), (.objectMinCardinality, 2),
    (.objectMaxCardinality, 2), (.objectExactCardinality, 2)]

end Columns

section Graph
variable {cols : Columns} {fields : List (Constructor × Nat)} {id index : Nat}

theorem mem_nodeIds : id ∈ cols.nodeIds ↔ 1 ≤ id ∧ id ≤ cols.nodeCount := by
  unfold Columns.nodeIds
  rw [List.mem_range'_1]
  omega

theorem nodeIds_of_nodeId {i : Nat} (h : cols.nodeId id = .ok i) : i ∈ cols.nodeIds := by
  obtain ⟨rfl, hin⟩ := nodeId_of_ok h
  exact mem_nodeIds.mpr hin

theorem nodeIds_of_fieldNode {i : Nat} (h : cols.fieldNode index = .ok i) : i ∈ cols.nodeIds := by
  obtain ⟨kind, -, h⟩ := bind_ok h
  obtain ⟨length, -, h⟩ := bind_ok h
  split at h
  · cases h
  · obtain ⟨value, -, h⟩ := bind_ok h
    exact nodeIds_of_nodeId h

theorem nodeIds_of_itemNode {i : Nat} (h : cols.itemNode index = .ok i) : i ∈ cols.nodeIds := by
  obtain ⟨kind, -, h⟩ := bind_ok h
  obtain ⟨length, -, h⟩ := bind_ok h
  split at h
  · cases h
  · obtain ⟨value, -, h⟩ := bind_ok h
    exact nodeIds_of_nodeId h

/-- Every node has a tag that can be read. -/
theorem nodeTag_total (h : id ∈ cols.nodeIds) :
    ∃ tag, cols.nodeTags[id - 1]? = some tag ∧ cols.nodeTag id = .ok tag := by
  obtain ⟨hlow, hhigh⟩ := mem_nodeIds.mp h
  have hlt : id - 1 < cols.nodeTags.length := by
    have hcount : cols.nodeCount = cols.nodeTags.length := rfl
    omega
  have hread : cols.nodeTags[id - 1]? = some cols.nodeTags[id - 1] := List.getElem?_eq_getElem hlt
  have hid : cols.nodeId id = .ok id := if_pos ⟨hlow, hhigh⟩
  refine ⟨_, hread, ?_⟩
  unfold Columns.nodeTag
  rw [ok_bind _ hid]
  simp only [Columns.read, Columns.buffer, hread]

/-- What governs a node is its tag. -/
theorem governedField_eq {tag : Nat} (hin : id ∈ cols.nodeIds)
    (htag : cols.nodeTags[id - 1]? = some tag) : cols.governedField fields id =
      (fields.find? fun entry => entry.1.tag == tag).map Prod.snd := by
  rw [Columns.governedField, if_pos (mem_nodeIds.mp hin).1, htag]
  rfl

theorem governs_tag {tag : Nat} (hin : id ∈ cols.nodeIds)
    (htag : cols.nodeTags[id - 1]? = some tag) :
    cols.governs fields id = ((fields.map Prod.fst).map Constructor.tag).contains tag := by
  rw [Columns.governs, governedField_eq hin htag, Option.isSome_map, Bool.eq_iff_iff,
    List.find?_isSome, List.contains_iff_mem]
  simp

theorem governs_nodeIds (h : cols.governs fields id = true) : id ∈ cols.nodeIds := by
  unfold Columns.governs Columns.governedField at h
  split at h
  · rename_i hlow
    cases htag : cols.nodeTags[id - 1]? with
    | none => simp [htag] at h
    | some tag =>
      obtain ⟨hlt, -⟩ := List.getElem?_eq_some_iff.mp htag
      refine mem_nodeIds.mpr ⟨hlow, ?_⟩
      have hcount : cols.nodeCount = cols.nodeTags.length := rfl
      omega
  · cases h

/-- The constructor tests of the validators. -/
theorem tagIn_governs (fields : List (Constructor × Nat)) (h : id ∈ cols.nodeIds) :
    cols.tagIn id (fields.map Prod.fst) = .ok (cols.governs fields id) := by
  obtain ⟨tag, htag, hread⟩ := nodeTag_total h
  rw [Columns.tagIn, ok_bind _ hread, governs_tag h htag]
  rfl

theorem referencesAt_fieldNode {i : Nat} (h : cols.fieldNode index = .ok i) :
    cols.referencesAt index = [i] := by
  rw [Columns.referencesAt, cell_of_fieldNode h]
  exact if_pos rfl

theorem items_of_ascending {previous length : Nat} {ids : List Nat}
    (h : cols.setItems previous index length = .ok ids) : ids.length = length ∧
      List.Forall₂ (fun item i => cols.itemNode item = .ok i) (List.range' index length) ids := by
  induction length generalizing previous index ids with
  | zero =>
    cases h
    exact ⟨rfl, .nil⟩
  | succ length ih =>
    obtain ⟨i, hi, h⟩ := bind_ok h
    split at h
    · cases h
    · obtain ⟨rest, hrest, h⟩ := bind_ok h
      cases h
      obtain ⟨hlength, hitems⟩ := ih hrest
      exact ⟨congrArg (· + 1) hlength, .cons hi hitems⟩

theorem cells_of_items {items ids : List Nat}
    (h : List.Forall₂ (fun item i => cols.itemNode item = .ok i) items ids) :
    (items.filterMap fun item => (cols.cellAt item true).map fun cell => cell.value) = ids ∧
      ∀ i ∈ ids, i ∈ cols.nodeIds := by
  induction h with
  | nil => exact ⟨rfl, by simp⟩
  | @cons item i items ids hread _ ih =>
    obtain ⟨hvalues, hin⟩ := ih
    refine ⟨?_, fun j hj => ?_⟩
    · rw [List.filterMap_cons, cell_of_itemNode hread]
      exact congrArg (i :: ·) hvalues
    · rcases List.mem_cons.mp hj with rfl | hj
      · exact nodeIds_of_itemNode hread
      · exact hin j hj

/-- The members of a set that can be read are the references of its field. -/
theorem referencesAt_nodeSet {minimum : Nat} {ids : List Nat}
    (h : cols.nodeSet index minimum = .ok ids) : cols.referencesAt index = ids ∧
      ids.length ≤ cols.itemCount ∧ ∀ i ∈ ids, i ∈ cols.nodeIds := by
  obtain ⟨kind, hkind, h⟩ := bind_ok h
  obtain ⟨_, hset, h⟩ := bind_ok h
  obtain ⟨start, hstart, h⟩ := bind_ok h
  obtain ⟨length, hlength, h⟩ := bind_ok h
  obtain ⟨_, hinside, h⟩ := bind_ok h
  have hinside := demand_ok hinside
  simp only [Bool.and_eq_true, decide_eq_true_eq] at hinside
  split at h
  · cases h
  obtain ⟨hcount, hitems⟩ := items_of_ascending h
  have hcell := cell_of_field hkind hstart hlength
  rw [eq_of_beq (demand_ok hset)] at hcell
  obtain ⟨hvalues, hin⟩ := cells_of_items hitems
  refine ⟨?_, by omega, hin⟩
  rw [Columns.referencesAt, hcell]
  simpa [COMPONENT_SET, COMPONENT_NODE] using hvalues

/-- What a validator has to read for its walk to follow the edges of a graph. -/
structure Lists {ε : Type} (cols : Columns) (fields : List (Constructor × Nat))
    (children : Nat → Except ε (List Nat)) (follow starts : Nat → Except ε Bool) : Prop where
  starts_eq : ∀ a ∈ cols.nodeIds, starts a = .ok (cols.governs fields a)
  children_eq : ∀ a position, cols.governedField fields a = some position →
    ∃ start stop ids, cols.rangeAt a = some (start, stop) ∧
      (∀ c, c ∈ ids ↔ c ∈ cols.referencesAt (start + position)) ∧ children a = .ok ids ∧
      ids.length ≤ cols.itemCount + 1 ∧ ∀ c ∈ ids, follow c = .ok (cols.governs fields c)

theorem Lists.governs {ε : Type} {children : Nat → Except ε (List Nat)}
    {follow starts : Nat → Except ε Bool} (h : Lists cols fields children follow starts) :
    Governs (cols.GraphEdge fields) children follow starts cols.nodeIds (cols.itemCount + 1) where
  starts_ok a ha := ⟨_, h.starts_eq a ha⟩
  lists a ha hs := by
    rw [h.starts_eq a ha] at hs
    obtain ⟨position, hposition⟩ := Option.isSome_iff_exists.mp (Except.ok.inj hs)
    obtain ⟨start, stop, ids, hrange, hrefs, hchildren, hfew, hfollow⟩ :=
      h.children_eq a position hposition
    refine ⟨ids, hchildren, hfew, fun c hc => ⟨_, hfollow c hc⟩, fun c => ?_⟩
    constructor
    · rintro ⟨hgoverns, position', start', stop', hposition', hrange', hc⟩
      rw [hposition] at hposition'
      rw [hrange] at hrange'
      cases hposition'
      cases hrange'
      have hin := (hrefs c).mpr hc
      exact ⟨hin, (hfollow c hin).trans (congrArg Except.ok hgoverns)⟩
    · rintro ⟨hin, hf⟩
      rw [hfollow c hin] at hf
      exact ⟨Except.ok.inj hf, position, start, stop, hposition, hrange, (hrefs c).mp hin⟩
  inside a c := by
    rintro ⟨hgoverns, position, start, stop, hposition, -, -⟩
    have ha : cols.governs fields a = true := by
      rw [Columns.governs, hposition]
      rfl
    have hain := governs_nodeIds ha
    have hcin := governs_nodeIds hgoverns
    refine ⟨⟨hain, ?_⟩, hcin, ?_⟩
    · rw [h.starts_eq a hain, ha]
    · rw [h.starts_eq c hcin, hgoverns]

/-- Without edges there is no cycle. -/
theorem edgeless {ε : Type} {cyclic : ε} (h : ∀ a c, ¬ cols.GraphEdge fields a c) :
    DecidesCycles (.ok ()) cyclic (cols.GraphEdge fields) := by
  refine .inl ⟨rfl, fun a hcycle => ?_⟩
  obtain ⟨c, hedge, -⟩ := Relation.TransGen.head'_iff.mp hcycle
  exact h a c hedge

theorem ungoverned (h : ∀ a ∈ cols.nodeIds, cols.governs fields a = false) (a c : Nat) :
    ¬ cols.GraphEdge fields a c := by
  rintro ⟨hgoverns, -⟩
  rw [h c (governs_nodeIds hgoverns)] at hgoverns
  cases hgoverns

end Graph

section Reference
variable {cols : Columns} {children : Nat → Read (List Nat)} {follow : Nat → Read Bool}
  {cyclic : String}

theorem pushChildren_eq (colors : Columns.Colors) (ids : List Nat) (stack : List (Nat × Bool)) :
    Columns.pushChildren follow cyclic colors ids stack =
      pushWhite follow (.snapshotCompatibility cyclic []) ⟨colors.entered, colors.left⟩ ids stack := by
  induction ids generalizing stack with
  | nil => rfl
  | cons child rest ih =>
    unfold Columns.pushChildren pushWhite
    cases follow child with
    | error e => rfl
    | ok followed =>
      simp only [Bind.bind, Except.bind, ih]
      rfl

/-- The walk of the reference validators is the library's. -/
theorem walk_eq (fuel : Nat) (stack : List (Nat × Bool)) (colors : Columns.Colors) :
    Columns.walk children follow cyclic fuel stack colors =
      (colourWalk follow (.snapshotCompatibility cyclic []) children fuel stack
        ⟨colors.entered, colors.left⟩).map fun colours => ⟨colours.entered, colours.left⟩ := by
  induction fuel generalizing stack colors with
  | zero => rfl
  | succ fuel ih =>
    match stack with
    | [] => rfl
    | (id, exiting) :: stack =>
      unfold Columns.walk colourWalk
      split
      · exact ih _ _
      split
      · exact ih _ _
      split
      · rfl
      cases children id with
      | error e => rfl
      | ok ids =>
        simp only [Bind.bind, Except.bind, pushChildren_eq]
        cases pushWhite follow (.snapshotCompatibility cyclic [])
            ⟨id :: colors.entered, colors.left⟩ ids ((id, true) :: stack) with
        | error e => rfl
        | ok pushed => exact ih _ _

theorem walkFrom_eq (starts : List Constructor) (ids : List Nat) (colors : Columns.Colors) :
    cols.walkFrom starts children follow cyclic ids colors =
      colourWalks follow (.snapshotCompatibility cyclic []) children (cols.tagIn · starts)
        cols.walkFuel ids ⟨colors.entered, colors.left⟩ := by
  induction ids generalizing colors with
  | nil => rfl
  | cons id rest ih =>
    unfold Columns.walkFrom colourWalks
    cases cols.tagIn id starts with
    | error e => rfl
    | ok start =>
      simp only [Bind.bind, Except.bind, walk_eq]
      split
      · exact ih colors
      · cases colourWalk follow (.snapshotCompatibility cyclic []) children cols.walkFuel
            [(id, false)] ⟨colors.entered, colors.left⟩ with
        | error e => rfl
        | ok colours => exact ih _

theorem walkFuel_enough : cols.nodeIds.length * (cols.itemCount + 1 + 1) + 1 ≤ cols.walkFuel := by
  have hlength : cols.nodeIds.length = cols.nodeCount := by simp [Columns.nodeIds]
  have hle := Nat.mul_le_mul_left cols.nodeCount (Nat.le_succ (cols.itemCount + 2))
  rw [hlength, Columns.walkFuel, Nat.add_mul cols.nodeCount 1, Nat.one_mul]
  exact Nat.add_le_add hle (by omega)

theorem walkFrom_decides {fields : List (Constructor × Nat)}
    (h : Lists cols fields children follow (cols.tagIn · (fields.map Prod.fst))) :
    DecidesCycles (cols.walkFrom (fields.map Prod.fst) children follow cyclic cols.nodeIds ⟨[], []⟩)
      (.snapshotCompatibility cyclic []) (cols.GraphEdge fields) := by
  rw [walkFrom_eq]
  exact colourWalks_decide h.governs walkFuel_enough

end Reference

/-- The references that the validators follow can be read, and have the right constructors. -/
structure Columns.RightReferences (cols : Columns) : Prop where
  annotations : ∀ a ∈ cols.nodeIds, cols.tagIs a .annotationTerm = .ok true →
    ∃ ids, cols.nestedAnnotations a = .ok ids
  dataRanges : ∀ a ∈ cols.nodeIds, cols.tagIn a Columns.dataRecursiveTags = .ok true →
    ∃ ids, cols.dataRangeOperands a = .ok ids ∧ ∀ c ∈ ids, cols.isDataRange c = .ok true
  classes : ∀ a ∈ cols.nodeIds, cols.tagIn a Columns.classRecursiveTags = .ok true →
    ∃ ids, cols.classOperands a = .ok ids

section Validators
variable {cols : Columns} {fields : List (Constructor × Nat)} {a c : Nat}

theorem governedField_entry {position : Nat} (h : cols.governedField fields a = some position) :
    a ∈ cols.nodeIds ∧ ∃ entry ∈ fields, cols.nodeTags[a - 1]? = some entry.1.tag ∧
      entry.2 = position := by
  have hgoverns : cols.governs fields a = true := by
    rw [Columns.governs, h]
    rfl
  have hin := governs_nodeIds hgoverns
  obtain ⟨tag, htag, -⟩ := nodeTag_total hin
  rw [governedField_eq hin htag] at h
  obtain ⟨entry, hfind, hposition⟩ := Option.map_eq_some_iff.mp h
  have heq := List.find?_some hfind
  simp only [beq_iff_eq] at heq
  exact ⟨hin, entry, List.mem_of_find?_eq_some hfind, heq ▸ htag, hposition⟩

theorem governs_of_field {position : Nat} (h : cols.governedField fields a = some position) :
    cols.governs fields a = true := by
  rw [Columns.governs, h]
  rfl

theorem tagIs_of {k : Constructor} (hin : a ∈ cols.nodeIds)
    (htag : cols.nodeTags[a - 1]? = some k.tag) : cols.tagIs a k = .ok true := by
  obtain ⟨tag, htag', hread⟩ := nodeTag_total hin
  rw [htag] at htag'
  cases htag'
  rw [Columns.tagIs, ok_bind _ hread]
  simp [pure, Except.pure]

theorem annotationSet_ids {index : Nat} {ids : List Nat} (h : cols.annotationSet index = .ok ids) :
    cols.nodeSet index 0 = .ok ids ∧ ∀ i ∈ ids, cols.tagIs i .annotationTerm = .ok true := by
  obtain ⟨ids', hids, h⟩ := bind_ok h
  obtain ⟨_, hall, h⟩ := bind_ok h
  cases h
  exact ⟨hids, demandAll_ok hall⟩

/-- The nested annotations of an annotation are its references. -/
theorem nestedAnnotations_ids {ids : List Nat} (h : cols.nestedAnnotations a = .ok ids) :
    ∃ start stop, cols.rangeAt a = some (start, stop) ∧
      (∀ c, c ∈ ids ↔ c ∈ cols.referencesAt (start + 2)) ∧ ids.length ≤ cols.itemCount ∧
      ∀ c ∈ ids, c ∈ cols.nodeIds ∧ cols.tagIs c .annotationTerm = .ok true := by
  obtain ⟨start, hstart, h⟩ := bind_ok h
  obtain ⟨members, hmembers, h⟩ := bind_ok h
  cases h
  obtain ⟨hset, htags⟩ := annotationSet_ids hmembers
  obtain ⟨hrefs, hfew, hin⟩ := referencesAt_nodeSet hset
  refine ⟨start, start + 3, range_of_exactFields hstart, fun c => ?_, by simpa using hfew, ?_⟩
  · rw [hrefs, List.mem_reverse]
  · intro c hc
    have hc := List.mem_reverse.mp hc
    exact ⟨hin c hc, htags c hc⟩

/-- The operands of a recursive expression are its references. -/
theorem recursiveOperands_ids {aggregates complements : List Constructor} {changed : String}
    {ids : List Nat} (h : cols.recursiveOperands aggregates complements changed a = .ok ids) :
    ∃ start stop, cols.rangeAt a = some (start, stop) ∧
      (∀ c, c ∈ ids ↔ c ∈ cols.referencesAt start) ∧ ids.length ≤ cols.itemCount + 1 ∧
      ∀ c ∈ ids, c ∈ cols.nodeIds := by
  obtain ⟨aggregate, -, h⟩ := bind_ok h
  split at h
  · obtain ⟨start, hstart, h⟩ := bind_ok h
    obtain ⟨members, hmembers, h⟩ := bind_ok h
    cases h
    obtain ⟨hrefs, hfew, hin⟩ := referencesAt_nodeSet hmembers
    refine ⟨start, _, range_of_exactFields hstart, fun c => ?_, ?_, fun c hc => ?_⟩
    · rw [hrefs, List.mem_reverse]
    · rw [List.length_reverse]
      omega
    · exact hin c (List.mem_reverse.mp hc)
  · obtain ⟨complement, -, h⟩ := bind_ok h
    obtain ⟨_, -, h⟩ := bind_ok h
    obtain ⟨start, hstart, h⟩ := bind_ok h
    obtain ⟨operand, hoperand, h⟩ := bind_ok h
    cases h
    refine ⟨start, _, range_of_exactFields hstart, fun c => ?_, ?_, fun c hc => ?_⟩
    · rw [referencesAt_fieldNode hoperand]
    · simp
    · rw [List.mem_singleton.mp hc]
      exact nodeIds_of_fieldNode hoperand

theorem annotation_lists (h : cols.RightReferences) :
    Lists cols Columns.annotationFields cols.nestedAnnotations (fun _ => pure true)
      (cols.tagIn · (Columns.annotationFields.map Prod.fst)) where
  starts_eq a ha := tagIn_governs _ ha
  children_eq a position hfield := by
    obtain ⟨hin, entry, hentry, htag, rfl⟩ := governedField_entry hfield
    rw [Columns.annotationFields, List.mem_singleton] at hentry
    subst hentry
    obtain ⟨ids, hids⟩ := h.annotations a hin (tagIs_of hin htag)
    obtain ⟨start, stop, hrange, hrefs, hfew, htags⟩ := nestedAnnotations_ids hids
    refine ⟨start, stop, ids, hrange, hrefs, hids, by omega, fun c hc => ?_⟩
    obtain ⟨hcin, hctag⟩ := htags c hc
    rw [governs_tag hcin (tag_of_tagIs hctag)]
    rfl

theorem isNamed_tag {kind : EntityKind} (h : cols.isNamed kind a = .ok true) :
    cols.tagIs a .entity = .ok true := by
  obtain ⟨isEntity, htag, h⟩ := bind_ok h
  cases isEntity with
  | true => exact htag
  | false => cases h

/-- The walk goes on into the operands that are recursive themselves. -/
theorem followDataRange_eq (hin : c ∈ cols.nodeIds) (h : cols.isDataRange c = .ok true) :
    cols.followDataRange c = .ok (cols.governs Columns.dataRangeFields c) := by
  obtain ⟨named, hnamed, h⟩ := bind_ok h
  unfold Columns.followDataRange
  rw [ok_bind (x := cols.isNamedDatatype c) _ hnamed]
  cases named with
  | true =>
    rw [governs_tag hin (tag_of_tagIs (isNamed_tag hnamed))]
    rfl
  | false =>
    simp only [Bool.false_eq_true, if_false] at h ⊢
    rw [ok_bind _ h]
    exact tagIn_governs Columns.dataRangeFields hin

theorem dataRange_lists (h : cols.RightReferences) :
    Lists cols Columns.dataRangeFields cols.dataRangeOperands cols.followDataRange
      (cols.tagIn · (Columns.dataRangeFields.map Prod.fst)) where
  starts_eq a ha := tagIn_governs _ ha
  children_eq a position hfield := by
    obtain ⟨hin, entry, hentry, -, rfl⟩ := governedField_entry hfield
    have hposition : entry.2 = 0 := by
      simp only [Columns.dataRangeFields, List.mem_cons, List.not_mem_nil, or_false] at hentry
      rcases hentry with rfl | rfl | rfl <;> rfl
    have htagged : cols.tagIn a Columns.dataRecursiveTags = .ok true :=
      (tagIn_governs _ hin).trans (congrArg Except.ok (governs_of_field hfield))
    obtain ⟨ids, hids, hright⟩ := h.dataRanges a hin htagged
    obtain ⟨start, stop, hrange, hrefs, hfew, hids_in⟩ := recursiveOperands_ids hids
    rw [hposition]
    exact ⟨start, stop, ids, hrange, hrefs, hids, hfew,
      fun c hc => followDataRange_eq (hids_in c hc) (hright c hc)⟩

theorem class_lists (h : cols.RightReferences) :
    Lists cols Columns.classFields cols.classOperands (cols.tagIn · Columns.classRecursiveTags)
      (cols.tagIn · (Columns.classFields.map Prod.fst)) where
  starts_eq a ha := tagIn_governs _ ha
  children_eq a position hfield := by
    obtain ⟨hin, entry, hentry, -, rfl⟩ := governedField_entry hfield
    have hposition : entry.2 = 0 := by
      simp only [Columns.classFields, List.mem_cons, List.not_mem_nil, or_false] at hentry
      rcases hentry with rfl | rfl | rfl <;> rfl
    have htagged : cols.tagIn a Columns.classRecursiveTags = .ok true :=
      (tagIn_governs _ hin).trans (congrArg Except.ok (governs_of_field hfield))
    obtain ⟨ids, hids⟩ := h.classes a hin htagged
    obtain ⟨start, stop, hrange, hrefs, hfew, hids_in⟩ := recursiveOperands_ids hids
    rw [hposition]
    exact ⟨start, stop, ids, hrange, hrefs, hids, hfew, fun c hc => tagIn_governs Columns.classFields (hids_in c hc)⟩

theorem anyTagged_eq (fields : List (Constructor × Nat)) {ids : List Nat}
    (h : ∀ i ∈ ids, i ∈ cols.nodeIds) :
    cols.anyTagged (fields.map Prod.fst) ids = .ok (ids.any (cols.governs fields)) := by
  induction ids with
  | nil => rfl
  | cons i ids ih =>
    unfold Columns.anyTagged
    rw [ok_bind _ (tagIn_governs fields (h i List.mem_cons_self)), List.any_cons]
    cases cols.governs fields i with
    | true => rfl
    | false => exact ih fun j hj => h j (List.mem_cons_of_mem i hj)

/-- A walk behind the question whether there is anything to walk over. -/
theorem tagged_decides {children : Nat → Read (List Nat)} {follow : Nat → Read Bool}
    {cyclic : String}
    (h : Lists cols fields children follow (cols.tagIn · (fields.map Prod.fst))) :
    DecidesCycles (do
      let recursive ← cols.anyTagged (fields.map Prod.fst) cols.nodeIds
      if recursive then
        cols.walkFrom (fields.map Prod.fst) children follow cyclic cols.nodeIds ⟨[], []⟩
      else pure ()) (.snapshotCompatibility cyclic []) (cols.GraphEdge fields) := by
  rw [ok_bind _ (anyTagged_eq fields fun i hi => hi)]
  cases hany : cols.nodeIds.any (cols.governs fields) with
  | true => exact walkFrom_decides h
  | false =>
    refine edgeless (ungoverned fun a ha => ?_)
    simpa using List.any_eq_false.mp hany a ha

/-- Up to the first annotation that nests others there are no edges. -/
theorem anyNested_eq (h : cols.RightReferences) {ids : List Nat}
    (hids : ∀ i ∈ ids, i ∈ cols.nodeIds) : ∃ nested, cols.anyNested ids = .ok nested ∧
      (nested = false → ∀ a ∈ ids, ∀ c, ¬ cols.GraphEdge Columns.annotationFields a c) := by
  induction ids with
  | nil => exact ⟨false, rfl, by simp⟩
  | cons i ids ih =>
    obtain ⟨nested, hrest, hnone⟩ := ih fun j hj => hids j (List.mem_cons_of_mem i hj)
    have hi := hids i List.mem_cons_self
    obtain ⟨tag, htag, hread⟩ := nodeTag_total hi
    have hannotated : cols.tagIs i .annotationTerm = .ok (tag == Constructor.annotationTerm.tag) := by
      rw [Columns.tagIs, ok_bind _ hread]
      rfl
    unfold Columns.anyNested
    rw [ok_bind _ hannotated]
    cases hsame : tag == Constructor.annotationTerm.tag with
    | false =>
      refine ⟨nested, hrest, fun hf a ha c => ?_⟩
      rcases List.mem_cons.mp ha with rfl | ha
      · rintro ⟨-, position, start, stop, hposition, -, -⟩
        obtain ⟨-, entry, hentry, hentryTag, -⟩ := governedField_entry hposition
        rw [Columns.annotationFields, List.mem_singleton] at hentry
        subst hentry
        rw [htag] at hentryTag
        cases hentryTag
        simp at hsame
      · exact hnone hf a ha c
    | true =>
      rw [hsame] at hannotated
      obtain ⟨members, hmembers⟩ := h.annotations i hi hannotated
      simp only [Bool.not_true, Bool.false_eq_true, if_false]
      rw [ok_bind _ hmembers]
      cases members with
      | cons m members => exact ⟨true, rfl, fun hf => (by cases hf)⟩
      | nil =>
        refine ⟨nested, hrest, fun hf a ha c => ?_⟩
        rcases List.mem_cons.mp ha with rfl | ha
        · rintro ⟨-, position, start, stop, hposition, hrange, hc⟩
          obtain ⟨-, entry, hentry, -, rfl⟩ := governedField_entry hposition
          rw [Columns.annotationFields, List.mem_singleton] at hentry
          subst hentry
          obtain ⟨start', stop', hrange', hrefs, -, -⟩ := nestedAnnotations_ids hmembers
          rw [hrange] at hrange'
          cases hrange'
          cases (hrefs c).mpr hc
        · exact hnone hf a ha c

theorem validateAnnotationGraph_decides (h : cols.RightReferences) :
    DecidesCycles cols.validateAnnotationGraph
      (.snapshotCompatibility "encoded subset annotation metadata graph is cyclic" [])
      (cols.GraphEdge Columns.annotationFields) := by
  obtain ⟨nested, hnested, hnone⟩ := anyNested_eq h fun i hi => hi
  unfold Columns.validateAnnotationGraph
  rw [ok_bind _ hnested]
  cases nested with
  | true => exact walkFrom_decides (annotation_lists h)
  | false =>
    refine edgeless fun a c hedge => ?_
    obtain ⟨_, position, start, stop, hposition, -, -⟩ := id hedge
    exact hnone rfl a (governs_nodeIds (governs_of_field hposition)) c hedge

theorem validateDataRangeGraph_decides (h : cols.RightReferences) :
    DecidesCycles cols.validateDataRangeGraph
      (.snapshotCompatibility "encoded subset data-range graph is cyclic" [])
      (cols.GraphEdge Columns.dataRangeFields) :=
  tagged_decides (dataRange_lists h)

theorem validateClassExpressionGraph_decides (h : cols.RightReferences) :
    DecidesCycles cols.validateClassExpressionGraph
      (.snapshotCompatibility "encoded subset class-expression graph is cyclic" [])
      (cols.GraphEdge Columns.classFields) :=
  tagged_decides (class_lists h)

end Validators

end Projector.Encoded
