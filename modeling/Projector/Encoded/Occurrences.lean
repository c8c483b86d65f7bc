import Projector.Core.Occurrence
import Projector.Encoded.ReachableOrder
import Projector.Encoded.RoleReads
import Projector.Encoded.SequenceFields

namespace Projector.Encoded
open Lib Projector.Core Compiler

/-! The nodes that a table reaches from its roots, and what occurs in the roots. -/

/-- A node refers to another by a node field or by a member of a set. -/
def Follows (v w : Node) : Prop :=
  ∃ i, v.field i = .node w ∨ ∃ items, v.field i = .set items ∧ w ∈ items

/-- Nothing that is numbered, and no class, occurs in a node. -/
def Silent (v : Node) : Prop :=
  ∀ w, v.Occurs w → w.constructor ≠ .anonymousIndividual ∧ w.isEntity .classEntity = false

section Values
variable {v u w : Node}

theorem field_beyond {i : Nat} (h : v.fields.length ≤ i) : v.field i = .none := by
  unfold Node.field
  rw [List.getD_eq_getElem?_getD, List.getElem?_eq_none h]
  rfl

theorem mem_fields_iff {c : Component} (h : c ≠ .none) :
    c ∈ v.fields ↔ ∃ i, v.field i = c := by
  unfold Node.field
  constructor
  · intro hc
    obtain ⟨i, hi⟩ := List.mem_iff_getElem?.mp hc
    exact ⟨i, by rw [List.getD_eq_getElem?_getD, hi]; rfl⟩
  · rintro ⟨i, hi⟩
    rw [List.getD_eq_getElem?_getD] at hi
    cases hget : v.fields[i]? with
    | none =>
      rw [hget] at hi
      exact absurd hi.symm h
    | some d =>
      rw [hget] at hi
      exact List.mem_iff_getElem?.mpr ⟨i, by rw [hget]; exact congrArg some hi⟩

theorem refers_iff : v.Refers u ↔ ∃ i, (v.field i).Has u := by
  constructor
  · rintro ⟨c, hc, hu⟩
    have hne : c ≠ .none := by
      rintro rfl
      cases hu
    obtain ⟨i, rfl⟩ := (mem_fields_iff hne).mp hc
    exact ⟨i, hu⟩
  · rintro ⟨i, hu⟩
    have hne : v.field i ≠ .none := by
      intro hnone
      rw [hnone] at hu
      cases hu
    exact ⟨v.field i, (mem_fields_iff hne).mpr ⟨i, rfl⟩, hu⟩

theorem Follows.refers (h : Follows v w) : v.Refers w := by
  obtain ⟨i, hi | ⟨items, hi, hw⟩⟩ := h
  · exact refers_iff.mpr ⟨i, hi ▸ .node⟩
  · exact refers_iff.mpr ⟨i, hi ▸ .set hw⟩

/-- A node whose references are all silent is silent, unless it is one itself. -/
theorem silent_of_refers (hconstructor : v.constructor ≠ .anonymousIndividual)
    (hclass : v.isEntity .classEntity = false) (h : ∀ u, v.Refers u → Silent u) : Silent v := by
  intro w hw
  rcases Relation.ReflTransGen.cases_head hw with rfl | ⟨u, hu, hrest⟩
  · exact ⟨hconstructor, hclass⟩
  · exact h u hu w hrest

theorem not_class (h : v.constructor ≠ .entity) : v.isEntity .classEntity = false := by
  by_contra hclass
  exact h (isEntity_constructor (Bool.not_eq_false _ ▸ hclass))

theorem class_of_kind {kind : EntityKind} (h : v.isEntity kind = true)
    (hkind : kind ≠ .classEntity) : v.isEntity .classEntity = false := by
  simp only [Node.isEntity, beq_iff_eq] at h
  simp [Node.isEntity, h, hkind]

end Values

section Leaves
variable {cols : Columns} {nodes : List Node} (pre : Preflighted cols nodes) {id : Nat}
  {v u : Node}
include pre

theorem iri_silent (h : Holds nodes id v) (hc : v.constructor = .iri) : Silent v := by
  refine silent_of_refers (by rw [hc]; decide) (not_class (by rw [hc]; decide)) fun u hu => ?_
  obtain ⟨_, hr, -⟩ := bind_ok (inspected_as pre h hc)
  obtain ⟨_, -, hr⟩ := bind_ok hr
  obtain ⟨_, -, hr⟩ := bind_ok hr
  obtain ⟨start, hstart, hr⟩ := bind_ok hr
  have ho := opened pre.toEncodesNodes h hstart
  have htext := boundedText_ok (ho.cell 0 (by omega)) hr
  obtain ⟨c, hcmem, hhas⟩ := hu
  obtain ⟨d, hfields⟩ := List.length_eq_one_iff.mp ho.length
  simp only [Node.field, hfields] at htext
  rw [hfields, List.mem_singleton] at hcmem
  have hd : d = .text _ := htext
  rw [hcmem, hd] at hhas
  cases hhas

theorem entity_silent (h : Holds nodes id v) {kind : EntityKind} (hv : v.isEntity kind = true)
    (hkind : kind ≠ .classEntity) : Silent v := by
  have hc := isEntity_constructor hv
  refine silent_of_refers (by rw [hc]; decide) (class_of_kind hv hkind) fun u hu => ?_
  obtain ⟨_, iri, -, -, hiri, hsort, hfields⟩ := entity_eq pre h hc
  obtain ⟨c, hcmem, hhas⟩ := hu
  rw [hfields, List.mem_cons, List.mem_singleton] at hcmem
  rcases hcmem with rfl | rfl
  · cases hhas
  · cases hhas
    exact iri_silent pre hiri hsort

theorem property_silent (h : Holds nodes id v) (hv : (namedProperty? v).isSome = true) :
    Silent v := by
  unfold namedProperty? at hv
  split at hv
  · rename_i hnamed
    exact entity_silent pre h hnamed (by decide)
  · split at hv
    · rename_i hinverse
      have hc := isOf_iff.mp hinverse
      obtain ⟨start, property, ho, -, hfield, hproperty, hnamed⟩ := inverse_shape pre h hc
      refine silent_of_refers (by rw [hc]; decide) (not_class (by rw [hc]; decide)) fun u hu => ?_
      obtain ⟨c, hcmem, hhas⟩ := hu
      obtain ⟨d, hfields⟩ := List.length_eq_one_iff.mp ho.length
      simp only [Node.field, hfields] at hfield
      rw [hfields, List.mem_singleton] at hcmem
      have hd : d = .node (v.child 0) := hfield
      rw [hcmem, hd] at hhas
      cases hhas
      exact entity_silent pre hproperty hnamed (by decide)
    · cases hv

theorem variable_silent (h : Holds nodes id v) (hc : v.constructor = .swrlVariable) :
    Silent v := by
  refine silent_of_refers (by rw [hc]; decide) (not_class (by rw [hc]; decide)) fun u hu => ?_
  obtain ⟨start, hstart, hr⟩ := bind_ok (inspected_as pre h hc)
  obtain ⟨_, hiri, -⟩ := bind_ok hr
  have ho := opened pre.toEncodesNodes h hstart
  obtain ⟨j, -, hfield, hholds, htag⟩ := demandField_ok pre ho (i := 0) (by omega) hiri
  rw [tagIs_eq pre.toEncodesNodes hholds] at htag
  obtain ⟨c, hcmem, hhas⟩ := hu
  obtain ⟨d, hfields⟩ := List.length_eq_one_iff.mp ho.length
  simp only [Node.field, hfields] at hfield
  rw [hfields, List.mem_singleton] at hcmem
  have hd : d = .node (v.child 0) := hfield
  rw [hcmem, hd] at hhas
  cases hhas
  exact iri_silent pre hholds (isOf_iff.mp (Except.ok.inj htag))

theorem literal_silent (h : Holds nodes id v) (hc : v.constructor = .literal) : Silent v := by
  refine silent_of_refers (by rw [hc]; decide) (not_class (by rw [hc]; decide)) fun u hu => ?_
  obtain ⟨_, hr, -⟩ := bind_ok (inspected_as pre h hc)
  obtain ⟨_, -, hr⟩ := bind_ok hr
  obtain ⟨_, -, hr⟩ := bind_ok hr
  obtain ⟨start, hstart, hr⟩ := bind_ok hr
  have ho := opened pre.toEncodesNodes h hstart
  obtain ⟨text, htext, hr⟩ := bind_ok hr
  have hlexical := boundedText_ok (ho.cell 0 (by omega)) htext
  obtain ⟨j, hj, hr⟩ := bind_ok hr
  obtain ⟨hdatatypeField, hdatatype⟩ := ho.node pre.toEncodesNodes 1 (by omega) hj
  obtain ⟨named, hnamed, hr⟩ := bind_ok hr
  rw [Columns.namedDatatypeIri, namedIri_eq pre hdatatype] at hnamed
  cases hnamed
  cases hd : (v.child 1).isEntity .datatype with
  | false =>
    simp only [hd, Bool.false_eq_true, if_false] at hr
    cases hr
  | true =>
    simp only [hd, if_true] at hr
    have hlanguage : v.field 2 = .none ∨ ∃ language, v.field 2 = .text language := by
      obtain ⟨kind, hkind, hr⟩ := bind_ok hr
      obtain ⟨kind', value, length, hrow, hsame⟩ := (ho.cell 2 (by omega)).row
      rw [(read_field hrow).1] at hkind
      split at hr
      · rename_i hnone
        left
        rw [← Except.ok.inj hkind] at hnone
        rw [hnone] at hsame
        cases hfield : v.field 2 <;> rw [hfield] at hsame <;>
          first | rfl | exact absurd hsame (by simp [COMPONENT_NONE, Component.kind])
      · split at hr
        · right
          obtain ⟨language, hlanguage, -⟩ := bind_ok hr
          exact ⟨language, boundedText_ok (ho.cell 2 (by omega)) hlanguage⟩
        · cases hr
    obtain ⟨i, hi⟩ := refers_iff.mp hu
    obtain rfl | rfl | rfl | hbeyond : i = 0 ∨ i = 1 ∨ i = 2 ∨ 3 ≤ i := by omega
    · rw [hlexical] at hi
      cases hi
    · rw [hdatatypeField] at hi
      cases hi
      exact entity_silent pre hdatatype hd (by decide)
    · rcases hlanguage with hnone | ⟨language, htext⟩
      · rw [hnone] at hi
        cases hi
      · rw [htext] at hi
        cases hi
    · rw [field_beyond (by rw [ho.length]; omega)] at hi
      cases hi

/-- The members of a sequence are nodes of the table, and silent. -/
theorem sequence_silent (h : Holds nodes id v) {i : Nat} {items : List Component}
    (hfield : v.field i = .sequence items) {c : Component} (hc : c ∈ items) :
    ∃ w j, c = .node w ∧ Holds nodes j w ∧ Silent w := by
  have table := pre.toEncodesNodes
  by_cases hchain : v.constructor = .objectPropertyChain
  · obtain ⟨start, hstart, hr⟩ := bind_ok (inspected_as pre h hchain)
    obtain ⟨ids, hids, hr⟩ := bind_ok hr
    obtain ⟨_, hall, -⟩ := bind_ok hr
    have ho := opened table h hstart
    obtain ⟨items', hfield', hread⟩ := nodeSequence_ok table (ho.cell 0 (by omega)) hids
    have hi : i = 0 := by
      by_contra hne
      rw [field_beyond (by rw [ho.length]; omega)] at hfield
      cases hfield
    rw [hi, hfield'] at hfield
    cases hfield
    obtain ⟨j, hj, w, rfl, hw⟩ := partner_of_right hread hc
    have htest := demandAll_ok hall j hj
    rw [isSupportedObjectPropertyExpression_eq pre hw] at htest
    exact ⟨w, j, rfl, hw, property_silent pre hw (Except.ok.inj htest)⟩
  · by_cases hatom : v.constructor = .builtInAtom
    · obtain ⟨start, hstart, hr⟩ := bind_ok (inspected_as pre h hatom)
      have ho := opened table h hstart
      obtain ⟨_, hpredicate, hr⟩ := bind_ok hr
      obtain ⟨k, -, hpredicateField, -, -⟩ :=
        demandField_ok pre ho (i := 0) (by omega) hpredicate
      obtain ⟨ids, hids, hr⟩ := bind_ok hr
      obtain ⟨_, hall, -⟩ := bind_ok hr
      obtain ⟨items', hfield', hread⟩ := nodeSequence_ok table (ho.cell 1 (by omega)) hids
      have hi : i = 1 := by
        match i with
        | 0 =>
          rw [hpredicateField] at hfield
          cases hfield
        | 1 => rfl
        | i + 2 =>
          rw [field_beyond (by rw [ho.length]; omega)] at hfield
          cases hfield
      rw [hi, hfield'] at hfield
      cases hfield
      obtain ⟨j, hj, w, rfl, hw⟩ := partner_of_right hread hc
      have htest := demandAll_ok hall j hj
      rw [Columns.isSwrlDataArgument, tagIn_eq table hw] at htest
      have hargument := List.contains_iff_mem.mp (Except.ok.inj htest)
      simp only [List.mem_cons, List.not_mem_nil, or_false] at hargument
      refine ⟨w, j, rfl, hw, ?_⟩
      rcases hargument with hliteral | hvariable
      · exact literal_silent pre hw hliteral
      · exact variable_silent pre hw hvariable
    · exact absurd hfield (plain_of_inspected pre h hchain hatom i items)

/-- An individual without a name refers to nothing. -/
theorem anonymous_refers (h : Holds nodes id v) (hc : v.constructor = .anonymousIndividual) :
    ¬ v.Refers u := by
  rintro ⟨c, hcmem, hhas⟩
  obtain ⟨_, -, -, -, hfields⟩ := anonymous_shape pre h hc
  rw [hfields, List.mem_cons, List.mem_singleton] at hcmem
  rcases hcmem with rfl | rfl <;> cases hhas

end Leaves

section Cells
variable {cols : Columns} {nodes : List Node} (table : EncodesNodes cols nodes) {id index : Nat}
  {v w : Node}
include table

/-- The nodes that a readable field refers to. -/
theorem fieldChildren_holds {c : Component} {kids : List Nat} (hcell : FieldCell cols nodes index c)
    (hr : cols.fieldChildren index = .ok kids) (w : Node) :
    (c = .node w ∨ ∃ items, c = .set items ∧ w ∈ items) ↔ ∃ j ∈ kids, Holds nodes j w := by
  obtain ⟨kind, value, length, hrow, hkind⟩ := hcell.row
  have hk := (read_field hrow).1
  unfold Columns.fieldChildren at hr
  rw [ok_bind _ hk] at hr
  split at hr
  · obtain ⟨j, hj, hr⟩ := bind_ok hr
    cases hr
    obtain ⟨u, rfl, hu⟩ := fieldNode_ok table hcell hj
    constructor
    · rintro (hw | ⟨items, hitems, -⟩)
      · cases hw
        exact ⟨j, List.mem_singleton.mpr rfl, hu⟩
      · cases hitems
    · rintro ⟨j', hj', hw⟩
      rw [List.mem_singleton.mp hj'] at hw
      exact .inl (congrArg Component.node (hu.value hw))
  · rename_i hnotNode
    split at hr
    · obtain ⟨items, rfl, -, hids, -⟩ := nodeSet_ok table hcell hr
      constructor
      · rintro (hw | ⟨items', hitems, hw⟩)
        · cases hw
        · cases hitems
          obtain ⟨j, hj, hholds⟩ := partner_of_right hids hw
          exact ⟨j, hj, hholds⟩
      · rintro ⟨j, hj, hw⟩
        obtain ⟨u, hu, hholds⟩ := partner_of_right hids.flip hj
        exact .inr ⟨items, rfl, hholds.value hw ▸ hu⟩
    · rename_i hnotSet
      cases hr
      constructor
      · rintro (rfl | ⟨items, rfl, -⟩)
        · exact absurd hkind hnotNode
        · exact absurd hkind hnotSet
      · rintro ⟨j, hj, -⟩
        cases hj

omit table in
theorem fieldsAt_cell {start i : Nat} (h : FieldsAt cols nodes start v.fields)
    (hi : i < v.fields.length) : FieldCell cols nodes (start + i) (v.field i) := by
  apply h i
  unfold Node.field
  rw [List.getD_eq_getElem?_getD, List.getElem?_eq_getElem hi]
  rfl

/-- What a node follows is in the table. -/
theorem follows_holds (h : Holds nodes id v) (hw : Follows v w) : ∃ j, Holds nodes j w := by
  obtain ⟨start, -, hfields⟩ := fieldRange_eq table h
  obtain ⟨i, hi⟩ := hw
  have hlt : i < v.fields.length := by
    by_contra hge
    rw [field_beyond (by omega)] at hi
    rcases hi with hi | ⟨_, hi, -⟩ <;> cases hi
  have hcell := fieldsAt_cell hfields hlt
  rcases hi with hi | ⟨items, hi, hmem⟩
  · rw [hi] at hcell
    obtain ⟨j, -, hj⟩ := fieldNode_eq table hcell
    exact ⟨j, hj⟩
  · rw [hi] at hcell
    obtain ⟨ids, -, hids⟩ := nodeSet_eq table hcell (Nat.zero_le _)
    obtain ⟨j, -, hj⟩ := partner_of_right hids hmem
    exact ⟨j, hj⟩

/-- The children of a node are what it follows. -/
theorem nodeChildren_holds {next : List Nat} (h : Holds nodes id v)
    (hr : cols.nodeChildren id = .ok next) (w : Node) :
    Follows v w ↔ ∃ j ∈ next, Holds nodes j w := by
  obtain ⟨start, hrange, hfields⟩ := fieldRange_eq table h
  unfold Columns.nodeChildren at hr
  rw [ok_bind _ hrange] at hr
  obtain ⟨children, hchildren, hr⟩ := bind_ok hr
  cases hr
  have hread := forall₂_of_mapM hchildren
  rw [Nat.add_sub_cancel_left] at hread
  have hcell := fun i hi => fieldsAt_cell hfields (i := i) hi
  constructor
  · rintro ⟨i, hi⟩
    have hlt : i < v.fields.length := by
      by_contra hge
      rw [field_beyond (by omega)] at hi
      rcases hi with hi | ⟨_, hi, -⟩ <;> cases hi
    obtain ⟨kids, hkids, hfield⟩ := partner_of_right hread.flip
      (List.mem_range'_1.mpr ⟨by omega, by omega⟩ : start + i ∈ List.range' start v.fields.length)
    obtain ⟨j, hj, hw⟩ := (fieldChildren_holds table (hcell i hlt) hfield w).mp hi
    exact ⟨j, List.mem_flatten.mpr ⟨kids, hkids, hj⟩, hw⟩
  · rintro ⟨j, hj, hw⟩
    obtain ⟨kids, hkids, hj⟩ := List.mem_flatten.mp hj
    obtain ⟨index, hindex, hfield⟩ := partner_of_right hread hkids
    obtain ⟨hlow, hhigh⟩ := List.mem_range'_1.mp hindex
    obtain ⟨i, rfl⟩ := Nat.exists_eq_add_of_le hlow
    exact ⟨i, (fieldChildren_holds table (hcell i (by omega)) hfield w).mpr ⟨j, hj, hw⟩⟩

/-- The nodes in reach of some roots are what the roots lead to. -/
theorem reachable_holds {ids found : List Nat} {roots : List Node}
    (hroots : List.Forall₂ (Holds nodes) ids roots) (hfew : ids.length ≤ cols.rootCount)
    (hr : cols.reachableNodeIds ids = .ok found) {j : Nat} (hw : Holds nodes j w) :
    j ∈ found ↔ ∃ r ∈ roots, Relation.ReflTransGen Follows r w := by
  have hin : ∀ i u, Holds nodes i u → i ∈ cols.nodeIds := by
    intro i u hu
    have hpositive := hu.positive
    have hle := hu.le
    refine List.mem_range'_1.mpr ⟨hpositive, ?_⟩
    rw [table.nodeCount]
    omega
  have hstack : ∀ a ∈ ids.reverse, a ∈ cols.nodeIds := by
    intro a ha
    obtain ⟨r, -, hholds⟩ := partner_of_right hroots.flip (List.mem_reverse.mp ha)
    exact hin a r hholds
  have hfuel : ids.reverse.length +
      cols.nodeIds.length * (cols.fieldCount * (cols.itemCount + 1)) ≤ cols.exploreFuel := by
    unfold Columns.exploreFuel Columns.nodeIds
    rw [List.length_reverse, List.length_range']
    exact Nat.add_le_add_right hfew _
  have hchildren := fun a (_ : a ∈ cols.nodeIds) next (h : cols.nodeChildren a = .ok next) =>
    nodeChildren_few h
  constructor
  · intro hj
    obtain ⟨a, ha, hpath⟩ := (explore_found hchildren hstack hfuel hr j).mp hj
    obtain ⟨r, hrmem, hholds⟩ := partner_of_right hroots.flip (List.mem_reverse.mp ha)
    refine ⟨r, hrmem, ?_⟩
    clear hrmem ha hj
    induction hpath using Relation.ReflTransGen.head_induction_on generalizing r with
    | refl => rw [hholds.value hw]
    | @head x y hedge _ ih =>
      cases hnext : cols.nodeChildren x with
      | error e =>
        unfold listed at hedge
        rw [hnext] at hedge
        cases hedge
      | ok next =>
        rw [listed_eq hnext] at hedge
        obtain ⟨u, hu⟩ : ∃ u, Holds nodes y u := by
          obtain ⟨hlow, hhigh⟩ := List.mem_range'_1.mp ((nodeChildren_few hnext).1 y hedge)
          rw [table.nodeCount] at hhigh
          exact ⟨nodes[y - 1], hlow, List.getElem?_eq_getElem (by omega)⟩
        exact .head ((nodeChildren_holds table hholds hnext u).mpr ⟨y, hedge, hu⟩) (ih u hu)
  · rintro ⟨r, hrmem, hpath⟩
    obtain ⟨hroot, hclosed⟩ := explore_closed hchildren hstack hfuel hr
    obtain ⟨a, ha, hholds⟩ := partner_of_right hroots hrmem
    have hstart := hroot a (List.mem_reverse.mpr ha)
    clear hrmem ha
    induction hpath using Relation.ReflTransGen.head_induction_on generalizing a with
    | refl => rwa [hw.id_eq table.canonical hholds]
    | @head v u hedge _ ih =>
      obtain ⟨next, hnext, hsub⟩ := hclosed a hstart
      obtain ⟨k, hk, hu⟩ := (nodeChildren_holds table hholds hnext u).mp hedge
      exact ih k hu (hsub k hk)

end Cells

section Reach
variable {cols : Columns} {nodes : List Node} (pre : Preflighted cols nodes)
include pre

/-- What a node refers to is followed, unless it is silent. -/
theorem refers_cases {id : Nat} {v u : Node} (h : Holds nodes id v) (hu : v.Refers u) :
    Follows v u ∨ Silent u := by
  obtain ⟨i, hi⟩ := refers_iff.mp hu
  cases hfield : v.field i <;> rw [hfield] at hi
  case node w =>
    cases hi
    exact .inl ⟨i, .inl hfield⟩
  case set items =>
    cases hi with
    | set hmem => exact .inl ⟨i, .inr ⟨items, hfield, hmem⟩⟩
  case sequence items =>
    cases hi with
    | sequence hc hhas =>
      obtain ⟨w, j, rfl, -, hsilent⟩ := sequence_silent pre h hfield hc
      cases hhas
      exact .inr hsilent
  all_goals cases hi

/-- What is numbered, and the classes, are reached by following. -/
theorem occurs_follows {id : Nat} {v w : Node} (h : Holds nodes id v) (hw : v.Occurs w)
    (hloud : w.constructor = .anonymousIndividual ∨ w.isEntity .classEntity = true) :
    Relation.ReflTransGen Follows v w := by
  induction hw using Relation.ReflTransGen.head_induction_on generalizing id with
  | refl => exact .refl
  | @head v u hedge hrest ih =>
    rcases refers_cases pre h hedge with hfollows | hsilent
    · obtain ⟨j, hj⟩ := follows_holds pre.toEncodesNodes h hfollows
      exact .head hfollows (ih hj)
    · obtain ⟨hnumbered, hclass⟩ := hsilent w hrest
      rcases hloud with hc | hc
      · exact absurd hc hnumbered
      · rw [hclass] at hc
        cases hc

omit pre in
theorem occurs_of_follows {v w : Node} (h : Relation.ReflTransGen Follows v w) : v.Occurs w :=
  Relation.ReflTransGen.mono (fun _ _ hstep => hstep.refers) v w h

omit pre in
theorem follows_path_holds (table : EncodesNodes cols nodes) {id : Nat} {v w : Node}
    (h : Holds nodes id v) (hw : Relation.ReflTransGen Follows v w) : ∃ j, Holds nodes j w := by
  induction hw with
  | refl => exact ⟨id, h⟩
  | tail _ hstep ih =>
    obtain ⟨j, hj⟩ := ih
    exact follows_holds table hj hstep

/-- The individuals without a name that a root lists are those it leads to. -/
theorem mem_anonymousValues_iff {id : Nat} {v w : Node} (h : Holds nodes id v) :
    w ∈ v.anonymousValues ↔
      Relation.ReflTransGen Follows v w ∧ w.constructor = .anonymousIndividual := by
  have hleaf : ∀ u, v.Occurs u → u.constructor = .anonymousIndividual → ∀ x, ¬ u.Refers x := by
    intro u hu hc x
    obtain ⟨j, hj⟩ := follows_path_holds pre.toEncodesNodes h (occurs_follows pre h hu (.inl hc))
    exact anonymous_refers pre hj hc
  rw [Node.mem_anonymousValues hleaf]
  constructor
  · rintro ⟨hoccurs, hc⟩
    exact ⟨occurs_follows pre h hoccurs (.inl hc), hc⟩
  · rintro ⟨hpath, hc⟩
    exact ⟨occurs_of_follows hpath, hc⟩

/-- The reached individuals without a name are those of the roots. -/
theorem reachable_anonymous {ids found : List Nat} {roots : List Node}
    (hroots : List.Forall₂ (Holds nodes) ids roots) (hfew : ids.length ≤ cols.rootCount)
    (hr : cols.reachableNodeIds ids = .ok found) {j : Nat} {w : Node} (hw : Holds nodes j w)
    (hc : w.constructor = .anonymousIndividual) :
    j ∈ found ↔ w ∈ roots.flatMap Node.anonymousValues := by
  rw [reachable_holds pre.toEncodesNodes hroots hfew hr hw, List.mem_flatMap]
  constructor
  · rintro ⟨r, hrmem, hpath⟩
    obtain ⟨i, -, hi⟩ := partner_of_right hroots hrmem
    exact ⟨r, hrmem, (mem_anonymousValues_iff pre hi).mpr ⟨hpath, hc⟩⟩
  · rintro ⟨r, hrmem, hlisted⟩
    obtain ⟨i, -, hi⟩ := partner_of_right hroots hrmem
    exact ⟨r, hrmem, ((mem_anonymousValues_iff pre hi).mp hlisted).1⟩

/-- The reached classes are those that occur in the roots. -/
theorem reachable_class {ids found : List Nat} {roots : List Node}
    (hroots : List.Forall₂ (Holds nodes) ids roots) (hfew : ids.length ≤ cols.rootCount)
    (hr : cols.reachableNodeIds ids = .ok found) {j : Nat} {w : Node} (hw : Holds nodes j w)
    (hc : w.isEntity .classEntity = true) :
    j ∈ found ↔ ∃ r ∈ roots, r.Occurs w := by
  rw [reachable_holds pre.toEncodesNodes hroots hfew hr hw]
  constructor
  · rintro ⟨r, hrmem, hpath⟩
    exact ⟨r, hrmem, occurs_of_follows hpath⟩
  · rintro ⟨r, hrmem, hoccurs⟩
    obtain ⟨i, -, hi⟩ := partner_of_right hroots hrmem
    exact ⟨r, hrmem, occurs_follows pre hi hoccurs (.inr hc)⟩

end Reach

end Projector.Encoded
