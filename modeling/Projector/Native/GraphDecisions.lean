import Projector.Encoded.NodeGraph
import Projector.Native.GraphValidators
import Projector.Native.ReadProofs

namespace Projector.Native
open Lib Projector.Core Projector.Encoded Compiler

namespace DirectColumns

/-- The governed references, with those that only the native validators follow or look at. -/
structure RightReferences (d : DirectColumns) (maximum : Nat) : Prop
    extends Columns.RightReferences d.columns where
  fillers : ∀ a ∈ d.nodeIds, ∀ entry ∈ Columns.fillerFields,
    d.columns.tagIs a entry.1 = .ok true → ∃ start c,
      d.columns.exactFields a (entry.2 + 1) = .ok start ∧
        d.columns.fieldNode (start + entry.2) = .ok c
  datatypes : ∀ a ∈ d.nodeIds, ∀ ids, d.columns.dataRangeOperands a = .ok ids → ∀ c ∈ ids,
    d.columns.isNamedDatatype c = .ok true → ∃ text, d.namedDatatypeIri c maximum = .ok text

def classGraphFields : List (Constructor × Nat) := Columns.classFields ++ Columns.fillerFields

end DirectColumns

section Native
variable {d : DirectColumns} {maximum : Nat} {a c index : Nat} {fields : List (Constructor × Nat)}

theorem mapM_append {α β ε : Type} {f : α → Except ε β} {xs ys : List α} {bs cs : List β}
    (hx : xs.mapM f = .ok bs) (hy : ys.mapM f = .ok cs) : (xs ++ ys).mapM f = .ok (bs ++ cs) := by
  rw [List.mapM_append, ok_bind _ hx, ok_bind _ hy]
  rfl

theorem ItemsFrom.reverse {ids : List Nat} (h : ItemsFrom d index ids) :
    (List.range' index ids.length).reverse.mapM d.itemNode = .ok ids.reverse := by
  induction h with
  | nil => rfl
  | @cons index id ids hread _ ih =>
    have hhead : [index].mapM d.itemNode = .ok [id] := by
      rw [List.mapM_cons, ok_bind _ hread]
      rfl
    rw [List.length_cons, List.range'_succ, List.reverse_cons, List.reverse_cons]
    exact mapM_append ih hhead

theorem setChildren_of {minimum : Nat} {ids : List Nat}
    (h : d.columns.nodeSet index minimum = .ok ids) :
    d.setChildren index minimum = .ok ids.reverse := by
  obtain ⟨start, hrange, hitems⟩ := nodeSetRange_of h
  rw [DirectColumns.setChildren, ok_bind _ hrange]
  exact hitems.reverse

/-- A test of the tag of a node is a question of what governs it. -/
theorem tagTest_governs {test : Nat → Bool} (hin : a ∈ d.nodeIds)
    (htest : ∀ tag, test tag = ((fields.map Prod.fst).map Constructor.tag).contains tag) :
    (do
      let tag ← d.nodeTag a
      .ok (test tag) : Except KernelError Bool) = .ok (d.columns.governs fields a) := by
  obtain ⟨tag, htag, hread⟩ := nodeTag_total hin
  rw [ok_bind _ (nodeTag_of hread), htest, governs_tag hin htag]

theorem isAnnotation_governs (hin : a ∈ d.nodeIds) :
    d.isAnnotation a = .ok (d.columns.governs Columns.annotationFields a) := by
  refine tagTest_governs hin fun tag => ?_
  rw [Bool.eq_iff_iff]
  simp [Columns.annotationFields]

theorem isRecursiveDataRange_governs (hin : a ∈ d.nodeIds) :
    d.isRecursiveDataRange a = .ok (d.columns.governs Columns.dataRangeFields a) :=
  tagTest_governs hin fun _ => rfl

theorem recursiveClassTags (tag : Nat) : isRecursiveClassExpressionTag tag =
    ((DirectColumns.classGraphFields.map Prod.fst).map Constructor.tag).contains tag := by
  rw [Bool.eq_iff_iff]
  simp only [isRecursiveClassExpressionTag, isAggregateTag, isRestrictionTag, isOneOf,
    Columns.aggregateTags, Columns.restrictionTags, DirectColumns.classGraphFields,
    Columns.classFields, Columns.fillerFields, List.map_append, List.map_cons, List.map_nil,
    Bool.or_eq_true, List.contains_iff_mem, List.mem_append, List.mem_cons, List.not_mem_nil,
    or_false]
  tauto

theorem isRecursiveClassExpression_governs (hin : a ∈ d.nodeIds) :
    d.isRecursiveClassExpression a = .ok (d.columns.governs DirectColumns.classGraphFields a) :=
  tagTest_governs hin recursiveClassTags

/-- The nested annotations are read as the reference reads them. -/
theorem annotationChildren_of {ids : List Nat} (h : d.columns.nestedAnnotations a = .ok ids) :
    d.annotationChildren a = .ok ids := by
  obtain ⟨start, hstart, h⟩ := bind_ok h
  obtain ⟨members, hmembers, h⟩ := bind_ok h
  cases h
  obtain ⟨hset, -⟩ := annotationSet_ids hmembers
  unfold DirectColumns.annotationChildren
  rw [ok_bind _ (exactFields_of hstart)]
  exact setChildren_of hset

theorem tagIn_true {cs : List Constructor} {b : Bool} (h : d.columns.tagIn a cs = .ok b) :
    ∃ tag, d.nodeTag a = .ok tag ∧ isOneOf cs tag = b := by
  obtain ⟨tag, htag, h⟩ := bind_ok h
  exact ⟨tag, nodeTag_of htag, Except.ok.inj h⟩

theorem dataRangeChildren_of {ids : List Nat} (h : d.columns.dataRangeOperands a = .ok ids) :
    d.dataRangeChildren a = .ok ids := by
  obtain ⟨aggregate, haggregate, h⟩ := bind_ok h
  obtain ⟨tag, htag, htest⟩ := tagIn_true haggregate
  unfold DirectColumns.dataRangeChildren
  rw [ok_bind _ htag, htest]
  split at h
  · rename_i hset
    obtain ⟨start, hstart, h⟩ := bind_ok h
    obtain ⟨members, hmembers, h⟩ := bind_ok h
    cases h
    rw [if_pos hset, ok_bind _ (exactFields_of hstart)]
    exact setChildren_of hmembers
  · rename_i hset
    obtain ⟨complement, hcomplement, h⟩ := bind_ok h
    obtain ⟨_, hdemand, h⟩ := bind_ok h
    obtain ⟨start, hstart, h⟩ := bind_ok h
    obtain ⟨operand, hoperand, h⟩ := bind_ok h
    cases h
    obtain ⟨tag', htag', htest'⟩ := tagIn_true hcomplement
    rw [htag] at htag'
    cases htag'
    rw [demand_ok hdemand] at htest'
    have htag : tag = Constructor.dataComplementOf.tag := by simpa [isOneOf] using htest'
    rw [if_neg hset, if_pos htag, ok_bind _ (exactFields_of hstart),
      ok_bind _ (fieldNode_of hoperand)]

/-- How the children of a class expression are read: as a set, or as a single one. -/
inductive ClassChildren (d : DirectColumns) (a : Nat) : List Nat → Prop
  | aggregate {tag start : Nat} {members : List Nat} (htag : d.nodeTag a = .ok tag)
      (hset : isAggregateTag tag = true) (hstart : d.exactFields a 1 = .ok start)
      (hmembers : d.columns.nodeSet start 2 = .ok members) : ClassChildren d a members.reverse
  | single {tag child : Nat} (htag : d.nodeTag a = .ok tag) (hset : isAggregateTag tag = false)
      (hchild : d.recursiveClassSingleChild a = .ok (some child)) (hin : child ∈ d.nodeIds) :
      ClassChildren d a [child]

theorem ClassChildren.children {ids : List Nat} (h : ClassChildren d a ids) :
    d.classChildren a = .ok ids := by
  unfold DirectColumns.classChildren
  cases h with
  | aggregate htag hset hstart hmembers =>
    rw [ok_bind _ htag, if_pos hset, ok_bind _ hstart]
    exact setChildren_of hmembers
  | single htag hset hchild _ =>
    rw [ok_bind _ htag, if_neg (by simp [hset]), ok_bind _ hchild]

/-- A class operand is a child, whichever constructor it stands under. -/
theorem classOperands_children {ids : List Nat} (h : d.columns.classOperands a = .ok ids) :
    ClassChildren d a ids := by
  obtain ⟨aggregate, haggregate, h⟩ := bind_ok h
  obtain ⟨tag, htag, htest⟩ := tagIn_true haggregate
  cases aggregate with
  | true =>
    obtain ⟨start, hstart, h⟩ := bind_ok h
    obtain ⟨members, hmembers, h⟩ := bind_ok h
    cases h
    exact .aggregate htag htest (exactFields_of hstart) hmembers
  | false =>
    obtain ⟨complement, hcomplement, h⟩ := bind_ok h
    obtain ⟨_, hdemand, h⟩ := bind_ok h
    obtain ⟨start, hstart, h⟩ := bind_ok h
    obtain ⟨operand, hoperand, h⟩ := bind_ok h
    cases h
    obtain ⟨tag', htag', htest'⟩ := tagIn_true hcomplement
    rw [htag] at htag'
    cases htag'
    rw [demand_ok hdemand] at htest'
    have hcomplementTag : tag = Constructor.objectComplementOf.tag := by
      simpa [isOneOf] using htest'
    have hsingle : d.recursiveClassSingleChild a = .ok (some operand) := by
      unfold DirectColumns.recursiveClassSingleChild
      rw [ok_bind _ htag, if_pos hcomplementTag, ok_bind _ (exactFields_of hstart),
        fieldNode_of hoperand]
      rfl
    exact .single htag htest hsingle (nodeIds_of_fieldNode hoperand)

/-- The filler of a restriction is its only child. -/
theorem filler_children {entry : Constructor × Nat} {start : Nat}
    (hentry : entry ∈ Columns.fillerFields) (htag : d.nodeTag a = .ok entry.1.tag)
    (hstart : d.columns.exactFields a (entry.2 + 1) = .ok start)
    (hfiller : d.columns.fieldNode (start + entry.2) = .ok c) : ClassChildren d a [c] := by
  have hfields := exactFields_of hstart
  have hchild := fieldNode_of hfiller
  simp only [Columns.fillerFields, List.mem_cons, List.not_mem_nil, or_false] at hentry
  refine .single htag ?_ ?_ (nodeIds_of_fieldNode hfiller)
  · rcases hentry with rfl | rfl | rfl | rfl | rfl <;> rfl
  · unfold DirectColumns.recursiveClassSingleChild
    rw [ok_bind _ htag]
    rcases hentry with rfl | rfl | rfl | rfl | rfl
    case inl | inr.inl =>
      rw [if_neg (by decide), if_pos (by decide), ok_bind _ hfields, hchild]
      rfl
    all_goals
      rw [if_neg (by decide), if_neg (by decide), if_pos (by decide), ok_bind _ hfields, hchild]
      rfl

/-- An operand of a data range is followed where it is recursive, and is well formed elsewhere. -/
theorem followDataRange_native (h : d.RightReferences maximum) {ids : List Nat}
    (hin : a ∈ d.nodeIds) (hids : d.columns.dataRangeOperands a = .ok ids) (hc : c ∈ ids)
    (hcin : c ∈ d.nodeIds) (hrange : d.columns.isDataRange c = .ok true) :
    d.followDataRange maximum c = .ok (d.columns.governs Columns.dataRangeFields c) := by
  unfold DirectColumns.followDataRange
  rw [ok_bind _ (isRecursiveDataRange_governs hcin)]
  cases hgoverns : d.columns.governs Columns.dataRangeFields c with
  | true => rfl
  | false =>
    have hvalid : d.validateDataRangeReference c maximum = .ok () := by
      obtain ⟨tag, htag, hread⟩ := nodeTag_total hcin
      unfold DirectColumns.validateDataRangeReference
      rw [ok_bind _ (nodeTag_of hread)]
      obtain ⟨named, hnamed, hrest⟩ := bind_ok hrange
      cases named with
      | true =>
        have hentity : tag = Constructor.entity.tag := by
          have hread' := tag_of_tagIs (isNamed_tag hnamed)
          rw [htag] at hread'
          exact Option.some.inj hread'
        obtain ⟨text, htext⟩ := h.datatypes a hin ids hids c hc hnamed
        rw [if_pos hentity, ok_bind _ htext]
      | false =>
        simp only [Bool.false_eq_true, if_false] at hrest
        obtain ⟨tag', htag', htest⟩ := bind_ok hrest
        rw [hread] at htag'
        cases htag'
        have htest : isDataRangeTag tag = true := Except.ok.inj htest
        by_cases hentity : tag = Constructor.entity.tag
        · rw [hentity] at htest
          exact absurd htest (by decide)
        · rw [if_neg hentity, if_pos htest]
    rw [if_neg (by simp), ok_bind _ hvalid]

theorem annotation_native (h : d.columns.RightReferences) :
    Lists d.columns Columns.annotationFields d.annotationChildren d.followAnnotation
      d.isAnnotation where
  starts_eq b hb := isAnnotation_governs hb
  children_eq b position hfield := by
    obtain ⟨start, stop, ids, hrange, hrefs, hids, hfew, hfollow⟩ :=
      (annotation_lists h).children_eq b position hfield
    refine ⟨start, stop, ids, hrange, hrefs, annotationChildren_of hids, hfew, fun e he => ?_⟩
    obtain ⟨_, _, _, _, _, htags⟩ := nestedAnnotations_ids hids
    have hgoverns := hfollow e he
    unfold DirectColumns.followAnnotation
    rw [ok_bind _ (isAnnotation_governs (htags e he).1), ← Except.ok.inj hgoverns]
    rfl

theorem dataRange_native (h : d.RightReferences maximum) :
    Lists d.columns Columns.dataRangeFields d.dataRangeChildren (d.followDataRange maximum)
      d.isRecursiveDataRange where
  starts_eq b hb := isRecursiveDataRange_governs hb
  children_eq b position hfield := by
    obtain ⟨start, stop, ids, hrange, hrefs, hids, hfew, -⟩ :=
      (dataRange_lists h.toRightReferences).children_eq b position hfield
    obtain ⟨hin, -⟩ := governedField_entry hfield
    have htagged : d.columns.tagIn b Columns.dataRecursiveTags = .ok true :=
      (tagIn_governs Columns.dataRangeFields hin).trans
        (congrArg Except.ok (governs_of_field hfield))
    obtain ⟨ids', hids', hright⟩ := h.dataRanges b hin htagged
    rw [hids] at hids'
    cases hids'
    obtain ⟨_, _, _, _, _, hall⟩ := recursiveOperands_ids hids
    exact ⟨start, stop, ids, hrange, hrefs, dataRangeChildren_of hids, hfew,
      fun e he => followDataRange_native h hin hids he (hall e he) (hright e he)⟩

/-- The children of a recursive class expression are its references. -/
theorem classChildren_refs (h : d.RightReferences maximum) {position : Nat}
    (hfield : d.columns.governedField DirectColumns.classGraphFields a = some position) :
    ∃ start stop ids, d.columns.rangeAt a = some (start, stop) ∧
      (∀ c, c ∈ ids ↔ c ∈ d.columns.referencesAt (start + position)) ∧ ClassChildren d a ids ∧
      ids.length ≤ d.columns.itemCount + 1 ∧ ∀ c ∈ ids, c ∈ d.nodeIds := by
  obtain ⟨hin, entry, hentry, htag, rfl⟩ := governedField_entry hfield
  rcases List.mem_append.mp hentry with hentry | hentry
  · have hgoverns : d.columns.governs Columns.classFields a = true := by
      rw [governs_tag hin htag, List.contains_iff_mem]
      exact List.mem_map_of_mem (List.mem_map_of_mem hentry)
    obtain ⟨ids, hids⟩ := h.classes a hin
      ((tagIn_governs Columns.classFields hin).trans (congrArg Except.ok hgoverns))
    obtain ⟨start, stop, hrange, hrefs, hfew, hall⟩ := recursiveOperands_ids hids
    have hposition : entry.2 = 0 := by
      simp only [Columns.classFields, List.mem_cons, List.not_mem_nil, or_false] at hentry
      rcases hentry with rfl | rfl | rfl <;> rfl
    rw [hposition]
    exact ⟨start, stop, ids, hrange, hrefs, classOperands_children hids, hfew, hall⟩
  · obtain ⟨start, filler, hstart, hfiller⟩ := h.fillers a hin entry hentry (tagIs_of hin htag)
    have hchild := filler_children hentry (tagIs_true (tagIs_of hin htag)) hstart hfiller
    refine ⟨start, _, [filler], range_of_exactFields hstart, fun e => ?_, hchild, ?_, fun e he => ?_⟩
    · rw [referencesAt_fieldNode hfiller]
    · simp
    · rw [List.mem_singleton.mp he]
      exact nodeIds_of_fieldNode hfiller

theorem class_native (h : d.RightReferences maximum) :
    Lists d.columns DirectColumns.classGraphFields d.classChildren d.isRecursiveClassExpression
      d.isRecursiveClassExpression where
  starts_eq b hb := isRecursiveClassExpression_governs hb
  children_eq b position hfield := by
    obtain ⟨start, stop, ids, hrange, hrefs, hchildren, hfew, hall⟩ := classChildren_refs h hfield
    exact ⟨start, stop, ids, hrange, hrefs, hchildren.children, hfew,
      fun e he => isRecursiveClassExpression_governs (hall e he)⟩

/-- A search that finds nothing has looked at everything. -/
theorem anyPasses_eq {test : Nat → Except KernelError Bool} {P : Nat → Prop} {ids : List Nat}
    (h : ∀ i ∈ ids, ∃ b, test i = .ok b ∧ (b = false → P i)) :
    ∃ b, DirectColumns.anyPasses test ids = .ok b ∧ (b = false → ∀ i ∈ ids, P i) := by
  induction ids with
  | nil => exact ⟨false, rfl, by simp⟩
  | cons i ids ih =>
    obtain ⟨b, htest, hnone⟩ := h i List.mem_cons_self
    obtain ⟨found, hrest, hnothing⟩ := ih fun j hj => h j (List.mem_cons_of_mem i hj)
    unfold DirectColumns.anyPasses
    rw [ok_bind _ htest]
    cases b with
    | true => exact ⟨true, rfl, fun hf => (by cases hf)⟩
    | false =>
      refine ⟨found, hrest, fun hf j hj => ?_⟩
      rcases List.mem_cons.mp hj with rfl | hj
      · exact hnone rfl
      · exact hnothing hf j hj

/-- Whether an annotation has nested annotations, as the search looks at it. -/
def nests (d : DirectColumns) (id : Nat) : Except KernelError Bool := do
  let annotated ← d.isAnnotation id
  if !annotated then .ok false
  else do
    let start ← d.exactFields id 3
    let (_, length) ← d.nodeSetRange (start + 2) 0
    .ok (decide (length ≠ 0))

theorem anyNested_passes (ids : List Nat) :
    d.anyNested ids = DirectColumns.anyPasses (nests d) ids := by
  induction ids with
  | nil => rfl
  | cons i ids ih =>
    unfold DirectColumns.anyNested DirectColumns.anyPasses
    rw [ih]
    generalize DirectColumns.anyPasses (nests d) ids = rest
    unfold nests
    cases d.isAnnotation i with
    | error e => rfl
    | ok annotated =>
      cases annotated with
      | false => rfl
      | true =>
        simp only [bind, Except.bind, Bool.not_true, Bool.false_eq_true, if_false]
        cases d.exactFields i 3 with
        | error e => rfl
        | ok start =>
          simp only
          cases d.nodeSetRange (start + 2) 0 with
          | error e => rfl
          | ok range =>
            simp only
            by_cases hempty : range.2 = 0 <;> simp [hempty]

theorem nests_eq (h : d.columns.RightReferences) (hin : a ∈ d.nodeIds) :
    ∃ b, nests d a = .ok b ∧
      (b = false → ∀ c, ¬ d.columns.GraphEdge Columns.annotationFields a c) := by
  unfold nests
  rw [ok_bind _ (isAnnotation_governs hin)]
  cases hgoverns : d.columns.governs Columns.annotationFields a with
  | false =>
    refine ⟨false, rfl, fun _ c => ?_⟩
    rintro ⟨-, position, start, stop, hposition, -, -⟩
    rw [governs_of_field hposition] at hgoverns
    cases hgoverns
  | true =>
    obtain ⟨position, hposition⟩ := Option.isSome_iff_exists.mp hgoverns
    obtain ⟨-, entry, hentry, htag, rfl⟩ := governedField_entry hposition
    rw [Columns.annotationFields, List.mem_singleton] at hentry
    subst hentry
    obtain ⟨ids, hids⟩ := h.annotations a hin (tagIs_of hin htag)
    obtain ⟨start, stop, hrange, hrefs, -, -⟩ := nestedAnnotations_ids hids
    obtain ⟨first, hstart, hids⟩ := bind_ok hids
    obtain ⟨members, hmembers, hids⟩ := bind_ok hids
    cases hids
    obtain ⟨item, hset, -⟩ := nodeSetRange_of (annotationSet_ids hmembers).1
    rw [if_neg (by simp), ok_bind _ (exactFields_of hstart), ok_bind _ hset]
    refine ⟨_, rfl, fun hf c => ?_⟩
    simp only [ne_eq, decide_not, Bool.not_eq_eq_eq_not, Bool.not_false,
      decide_eq_true_eq] at hf
    rintro ⟨-, position, start', stop', hposition', hrange', hc⟩
    rw [hposition] at hposition'
    cases hposition'
    rw [hrange] at hrange'
    cases hrange'
    have hmember := (hrefs c).mpr hc
    rw [List.length_eq_zero_iff.mp hf] at hmember
    cases hmember

theorem itemsPass {ids : List Nat} (hitems : ItemsFrom d index ids)
    (hin : ∀ i ∈ ids, i ∈ d.nodeIds) :
    DirectColumns.anyPasses (fun item => do d.isRecursiveClassExpression (← d.itemNode item))
      (List.range' index ids.length) =
        .ok (ids.any (d.columns.governs DirectColumns.classGraphFields)) := by
  induction hitems with
  | nil => rfl
  | @cons index i ids hread _ ih =>
    rw [List.length_cons, List.range'_succ, List.any_cons]
    unfold DirectColumns.anyPasses
    have hturn : (do d.isRecursiveClassExpression (← d.itemNode index)) =
        (.ok (d.columns.governs DirectColumns.classGraphFields i) : Except KernelError Bool) := by
      rw [ok_bind _ hread]
      exact isRecursiveClassExpression_governs (hin i List.mem_cons_self)
    rw [ok_bind _ hturn]
    cases d.columns.governs DirectColumns.classGraphFields i with
    | true => rfl
    | false => exact ih fun j hj => hin j (List.mem_cons_of_mem i hj)

/-- The search for a recursive child looks at the children of the walk. -/
theorem ClassChildren.recursive {ids : List Nat} (h : ClassChildren d a ids) (hin : a ∈ d.nodeIds)
    (hgoverns : d.columns.governs DirectColumns.classGraphFields a = true)
    (hids : ∀ i ∈ ids, i ∈ d.nodeIds) : d.hasRecursiveChild a =
      .ok (ids.any (d.columns.governs DirectColumns.classGraphFields)) := by
  have hrecursive : ∀ tag, d.nodeTag a = .ok tag → isRecursiveClassExpressionTag tag = true := by
    intro tag htag
    obtain ⟨tag', hread, hread'⟩ := nodeTag_total hin
    rw [nodeTag_of hread'] at htag
    cases htag
    rw [recursiveClassTags, ← governs_tag hin hread, hgoverns]
  unfold DirectColumns.hasRecursiveChild
  cases h with
  | @aggregate tag start members htag hset hstart hmembers =>
    obtain ⟨item, hrange, hitems⟩ := nodeSetRange_of hmembers
    have hmembers : ∀ i ∈ members, i ∈ d.nodeIds := fun i hi => hids i (List.mem_reverse.mpr hi)
    rw [ok_bind _ htag, if_neg (by simp [hrecursive tag htag]), if_pos hset, ok_bind _ hstart,
      ok_bind _ hrange, List.any_reverse]
    exact itemsPass hitems hmembers
  | @single tag child htag hset hchild hchildIn =>
    rw [ok_bind _ htag, if_neg (by simp [hrecursive tag htag]), if_neg (by simp [hset]),
      ok_bind _ hchild]
    simp only [List.any_cons, List.any_nil, Bool.or_false]
    exact isRecursiveClassExpression_governs hchildIn

theorem hasRecursiveChild_eq (h : d.RightReferences maximum) (hin : a ∈ d.nodeIds) :
    ∃ b, d.hasRecursiveChild a = .ok b ∧
      (b = false → ∀ c, ¬ d.columns.GraphEdge DirectColumns.classGraphFields a c) := by
  cases hgoverns : d.columns.governs DirectColumns.classGraphFields a with
  | false =>
    obtain ⟨tag, htag, hread⟩ := nodeTag_total hin
    refine ⟨false, ?_, fun _ c => ?_⟩
    · unfold DirectColumns.hasRecursiveChild
      rw [ok_bind _ (nodeTag_of hread), recursiveClassTags, ← governs_tag hin htag, hgoverns]
      rfl
    · rintro ⟨-, position, start, stop, hposition, -, -⟩
      rw [governs_of_field hposition] at hgoverns
      cases hgoverns
  | true =>
    obtain ⟨position, hposition⟩ := Option.isSome_iff_exists.mp hgoverns
    obtain ⟨start, stop, ids, hrange, hrefs, hchildren, -, hall⟩ := classChildren_refs h hposition
    refine ⟨_, hchildren.recursive hin hgoverns hall, fun hf c => ?_⟩
    rintro ⟨hc, position', start', stop', hposition', hrange', hmember⟩
    rw [hposition] at hposition'
    cases hposition'
    rw [hrange] at hrange'
    cases hrange'
    have hnone := List.any_eq_false.mp hf c ((hrefs c).mpr hmember)
    exact hnone hc

/-- A walk behind a search that finds an edge wherever there is one. -/
theorem searched_decides {search : Except KernelError Bool} {cyclic : KernelError}
    {children : Nat → Except KernelError (List Nat)} {follow starts : Nat → Except KernelError Bool}
    (hlists : Lists d.columns fields children follow starts)
    (hsearch : ∃ b, search = .ok b ∧
      (b = false → ∀ a ∈ d.nodeIds, ∀ c, ¬ d.columns.GraphEdge fields a c)) :
    DecidesCycles (do
      let found ← search
      if found then colourWalks follow cyclic children starts d.walkFuel d.nodeIds ⟨[], []⟩
      else .ok ()) cyclic (d.columns.GraphEdge fields) := by
  obtain ⟨found, hfound, hnone⟩ := hsearch
  rw [ok_bind _ hfound]
  cases found with
  | true => exact colourWalks_decide hlists.governs walkFuel_enough
  | false =>
    refine edgeless fun a c hedge => ?_
    obtain ⟨_, position, start, stop, hposition, -, -⟩ := id hedge
    exact hnone rfl a (governs_nodeIds (governs_of_field hposition)) c hedge

theorem validateAnnotationGraph_native (h : d.columns.RightReferences) :
    DecidesCycles d.validateAnnotationGraph
      (.malformed "encoded annotation metadata graph is cyclic")
      (d.columns.GraphEdge Columns.annotationFields) := by
  refine searched_decides (annotation_native h) ?_
  rw [anyNested_passes]
  exact anyPasses_eq fun a ha => nests_eq h ha

theorem validateDataRangeGraph_native (h : d.RightReferences maximum) :
    DecidesCycles (d.validateDataRangeGraph maximum)
      (.malformed "encoded data-range graph is cyclic")
      (d.columns.GraphEdge Columns.dataRangeFields) := by
  refine searched_decides (dataRange_native h) (anyPasses_eq fun a ha => ?_)
  refine ⟨_, isRecursiveDataRange_governs ha, fun hf c => ?_⟩
  rintro ⟨-, position, start, stop, hposition, -, -⟩
  rw [governs_of_field hposition] at hf
  cases hf

theorem validateClassExpressionGraph_native (h : d.RightReferences maximum) :
    DecidesCycles d.validateRecursiveClassExpressionGraph
      (.malformed "encoded recursive class-expression graph is cyclic")
      (d.columns.GraphEdge DirectColumns.classGraphFields) :=
  searched_decides (class_native h) (anyPasses_eq fun _ ha => hasRecursiveChild_eq h ha)

/-- Fewer fields that are followed make fewer edges. -/
theorem graphEdge_append {more : List (Constructor × Nat)} {cols : Columns}
    (h : cols.GraphEdge fields a c) : cols.GraphEdge (fields ++ more) a c := by
  obtain ⟨hgoverns, position, start, stop, hposition, hrange, hc⟩ := h
  have hfield : ∀ b p, cols.governedField fields b = some p →
      cols.governedField (fields ++ more) b = some p := by
    intro b p hb
    obtain ⟨hin, -⟩ := governedField_entry hb
    obtain ⟨tag, htag, -⟩ := nodeTag_total hin
    rw [governedField_eq hin htag] at hb ⊢
    obtain ⟨entry, hfind, hentry⟩ := Option.map_eq_some_iff.mp hb
    rw [List.find?_append, hfind]
    exact congrArg some hentry
  obtain ⟨p, hp⟩ := Option.isSome_iff_exists.mp hgoverns
  exact ⟨governs_of_field (hfield c p hp), position, start, stop, hfield a position hposition,
    hrange, hc⟩

end Native

/-- Three operands of a union share the last one, which a walk from the union meets twice. -/
def sharedColumns : Columns where
  rootKinds := []
  rootIds := []
  nodeTags := [Constructor.iri.tag, Constructor.iri.tag, Constructor.entity.tag,
    Constructor.entity.tag, Constructor.objectUnionOf.tag, Constructor.objectComplementOf.tag,
    Constructor.objectComplementOf.tag, Constructor.objectSomeValuesFrom.tag]
  nodeFieldOffsets := [0, 1, 2, 4, 6, 7, 8, 9, 11]
  fieldKinds := [2, 2, 5, 1, 5, 1, 6, 1, 1, 1, 1]
  fieldValues := [0, 1, 2, 1, 7, 2, 0, 7, 3, 4, 7]
  fieldLengths := [1, 1, 5, 0, 15, 0, 3, 0, 0, 0, 0]
  itemKinds := [1, 1, 1]
  itemValues := [6, 7, 8]
  itemLengths := [0, 0, 0]
  scalarBytes := utf8 "apclassobject_property"
  maxIriBytes := 64
  maxLiteralBytes := 64
  lowered := id

theorem shared_right : DirectColumns.RightReferences ⟨sharedColumns, []⟩ 64 where
  annotations a ha htag := by
    have hnone : ∀ a ∈ sharedColumns.nodeIds,
        sharedColumns.tagIs a .annotationTerm ≠ .ok true := by decide +kernel
    exact absurd htag (hnone a ha)
  dataRanges a ha htag := by
    have hnone : ∀ a ∈ sharedColumns.nodeIds,
        sharedColumns.tagIn a Columns.dataRecursiveTags ≠ .ok true := by decide +kernel
    exact absurd htag (hnone a ha)
  classes a ha htag := by
    have hread : ∀ a ∈ sharedColumns.nodeIds,
        sharedColumns.tagIn a Columns.classRecursiveTags = .ok true →
          (sharedColumns.classOperands a).toOption.isSome = true := by decide +kernel
    have hsome := hread a ha htag
    cases hids : sharedColumns.classOperands a with
    | ok ids => exact ⟨ids, rfl⟩
    | error e =>
      rw [hids] at hsome
      cases hsome
  fillers a ha entry hentry htag := by
    have hread : ∀ a ∈ sharedColumns.nodeIds, ∀ entry ∈ Columns.fillerFields,
        sharedColumns.tagIs a entry.1 = .ok true → a = 8 ∧ entry.2 = 1 := by decide +kernel
    obtain ⟨rfl, hposition⟩ := hread a ha entry hentry htag
    rw [hposition]
    exact ⟨9, 7, by decide +kernel, by decide +kernel⟩
  datatypes a ha ids hids := by
    have hnone : ∀ a ∈ sharedColumns.nodeIds,
        (sharedColumns.dataRangeOperands a).toOption.isSome = false := by decide +kernel
    have hread := hnone a ha
    rw [show sharedColumns.dataRangeOperands a = .ok ids from hids] at hread
    cases hread

end Projector.Native
