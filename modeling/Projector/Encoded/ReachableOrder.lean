import Mathlib.Algebra.Order.BigOperators.Group.List
import Projector.Encoded.RootProofs
import Projector.Encoded.ScopeOrder

namespace Projector.Encoded
open Lib Projector.Core Compiler

section Targets
variable {scopeMap : Bytes → Option Bytes} {scopes : List Bytes}

/-- Accepted targets ascend over the scopes. -/
theorem targetsAscend_spec {previous : Option Bytes}
    (h : targetsAscend scopeMap previous scopes = true) :
    StrictOn (remapped scopeMap) scopes ∧
      ∀ p, previous = some p → ∀ q ∈ scopes, p < remapped scopeMap q := by
  induction scopes generalizing previous with
  | nil => exact ⟨List.Pairwise.nil, fun _ _ _ hq => absurd hq List.not_mem_nil⟩
  | cons scope rest ih =>
    unfold targetsAscend at h
    dsimp only at h
    split at h
    · cases h
    · rename_i hbelow
      obtain ⟨hstrict, habove⟩ := ih h
      refine ⟨List.pairwise_cons.mpr ⟨habove _ rfl, hstrict⟩, fun p hp q hq => ?_⟩
      have hlt : p < remapped scopeMap scope := by
        rw [hp, Option.any_some, decide_eq_true_eq, not_le] at hbelow
        exact hbelow
      rcases List.mem_cons.mp hq with rfl | hq
      · exact hlt
      · exact lt_trans hlt (habove _ rfl q hq)

variable {cols : Columns} {arity : Nat → Nat} {reachable : List Nat}

/-- An accepted map with targets of the width of a scope ascends over the scopes in reach. -/
theorem ascends_of_accepted (table : InspectedTable arity cols)
    (hwidth : ∀ source target, scopeMap source = some target → target.length = 32)
    (haccept : scopeRemapPreservesOrder cols reachable scopeMap = .ok true) :
    Lib.Ascends (ScopeOf cols reachable) 32 (remapped scopeMap) := by
  obtain ⟨scopes, hscopes, haccept⟩ := bind_ok haccept
  obtain ⟨hstrict, -, hall⟩ := scopesFrom_spec table hscopes (sortOn_sorted id reachable)
    fun p hp => by cases hp
  obtain ⟨htargets, -⟩ := targetsAscend_spec (Except.ok.inj haccept)
  have hlisted : ∀ p, ScopeOf cols reachable p → p ∈ scopes := by
    rintro p ⟨i, hi, hp⟩
    rcases hall i (mem_sortOn.mpr hi) p hp with hin | hnone
    · exact hin
    · cases hnone
  constructor
  · rintro p ⟨i, -, hp⟩
    exact scope_width table hp
  · rintro p ⟨i, -, hp⟩
    unfold remapped
    cases htarget : scopeMap p with
    | none => exact scope_width table hp
    | some target => exact hwidth p target htarget
  · intro p q hp hq hlt
    exact hstrict.lt_of_lt htargets (hlisted p hp) (hlisted q hq) hlt

end Targets

section Children
variable {cols : Columns} {id index : Nat} {kids : List Nat}

theorem kind_of_cell {cell : ComponentRow} (h : cols.cellAt index false = some cell) :
    cols.read .fieldKinds index = .ok cell.kind := by
  unfold Columns.cellAt at h
  obtain ⟨kind, hkind, h⟩ := Option.bind_eq_some_iff.mp h
  obtain ⟨value, -, h⟩ := Option.bind_eq_some_iff.mp h
  obtain ⟨length, -, h⟩ := Option.bind_eq_some_iff.mp h
  cases h
  have hbuffer : (cols.buffer .fieldKinds)[index]? = some kind := hkind
  unfold Columns.read
  rw [hbuffer]

theorem child_of_cell {i length : Nat}
    (hcell : cols.cellAt index false = some ⟨COMPONENT_NODE, i, length⟩)
    (h : cols.fieldChildren index = .ok kids) : i ∈ kids := by
  unfold Columns.fieldChildren at h
  rw [ok_bind _ (kind_of_cell hcell), if_pos rfl] at h
  obtain ⟨child, hchild, h⟩ := bind_ok h
  cases h
  have hread := cell_of_fieldNode hchild
  rw [hcell] at hread
  cases hread
  exact List.mem_singleton_self i

theorem members_of_cell {start length : Nat}
    (hcell : cols.cellAt index false = some ⟨COMPONENT_SET, start, length⟩)
    (h : cols.fieldChildren index = .ok kids) {j : Nat} (hlow : start ≤ j)
    (hhigh : j < start + length) : ∃ i ∈ kids, cols.itemNode j = .ok i := by
  unfold Columns.fieldChildren at h
  have hne : COMPONENT_SET ≠ COMPONENT_NODE := by decide
  rw [ok_bind _ (kind_of_cell hcell), if_neg hne, if_pos rfl] at h
  obtain ⟨first, hset, -, hitems⟩ := items_of_nodeSet h
  rw [hcell] at hset
  obtain ⟨-, rfl, rfl⟩ := ComponentRow.mk.inj (Option.some.inj hset)
  obtain ⟨i, hi, hread⟩ := hitems (j - start) (by omega)
  exact ⟨i, hi, by rw [← hread]; congr 1; omega⟩

/-- The children in a set field are the members of the set. -/
theorem children_of_nodeSet {minimum : Nat} {ids : List Nat}
    (h : cols.nodeSet index minimum = .ok ids) (hkids : cols.fieldChildren index = .ok kids) :
    kids = ids := by
  obtain ⟨kind, hkind, h⟩ := bind_ok h
  obtain ⟨_, hset, h⟩ := bind_ok h
  obtain ⟨start, hstart, h⟩ := bind_ok h
  obtain ⟨length, hlength, h⟩ := bind_ok h
  obtain ⟨_, hinside, h⟩ := bind_ok h
  split at h
  · cases h
  · have hkindSet : kind = COMPONENT_SET := eq_of_beq (demand_ok hset)
    have hne : kind ≠ COMPONENT_NODE := by
      rw [hkindSet]
      decide
    unfold Columns.fieldChildren at hkids
    rw [ok_bind _ hkind, if_neg hne, if_pos hkindSet] at hkids
    unfold Columns.nodeSet at hkids
    rw [ok_bind _ hkind, ok_bind _ hset, ok_bind _ hstart, ok_bind _ hlength, ok_bind _ hinside,
      if_neg (Nat.not_lt_zero length)] at hkids
    exact Except.ok.inj (hkids.symm.trans h)

theorem fieldNode_inRange {i : Nat} (h : cols.fieldNode index = .ok i) :
    1 ≤ i ∧ i ≤ cols.nodeCount := by
  obtain ⟨kind, -, h⟩ := bind_ok h
  obtain ⟨length, -, h⟩ := bind_ok h
  split at h
  · cases h
  · obtain ⟨value, -, h⟩ := bind_ok h
    obtain ⟨rfl, hin⟩ := nodeId_of_ok h
    exact hin

theorem itemNode_inRange {i : Nat} (h : cols.itemNode index = .ok i) :
    1 ≤ i ∧ i ≤ cols.nodeCount := by
  obtain ⟨kind, -, h⟩ := bind_ok h
  obtain ⟨length, -, h⟩ := bind_ok h
  split at h
  · cases h
  · obtain ⟨value, -, h⟩ := bind_ok h
    obtain ⟨rfl, hin⟩ := nodeId_of_ok h
    exact hin

/-- The members of a set ascend and are nodes. -/
theorem setItems_ascend {previous length : Nat} {ids : List Nat}
    (h : cols.setItems previous index length = .ok ids) :
    ids.Pairwise (· < ·) ∧ (∀ i ∈ ids, previous < i) ∧ ∀ i ∈ ids, 1 ≤ i ∧ i ≤ cols.nodeCount := by
  induction length generalizing previous index ids with
  | zero =>
    cases h
    exact ⟨List.Pairwise.nil, by simp, by simp⟩
  | succ length ih =>
    obtain ⟨i, hi, h⟩ := bind_ok h
    split at h
    · cases h
    · rename_i habove
      obtain ⟨rest, hrest, h⟩ := bind_ok h
      cases h
      obtain ⟨hpairs, hover, hin⟩ := ih hrest
      refine ⟨List.pairwise_cons.mpr ⟨hover, hpairs⟩, fun j hj => ?_, fun j hj => ?_⟩
      · rcases List.mem_cons.mp hj with rfl | hj
        · exact Nat.lt_of_not_le habove
        · exact lt_trans (Nat.lt_of_not_le habove) (hover j hj)
      · rcases List.mem_cons.mp hj with rfl | hj
        · exact itemNode_inRange hi
        · exact hin j hj

theorem nodeSet_ascends {minimum : Nat} {ids : List Nat}
    (h : cols.nodeSet index minimum = .ok ids) :
    ids.Pairwise (· < ·) ∧ ∀ i ∈ ids, 1 ≤ i ∧ i ≤ cols.nodeCount := by
  obtain ⟨kind, -, h⟩ := bind_ok h
  obtain ⟨_, -, h⟩ := bind_ok h
  obtain ⟨start, -, h⟩ := bind_ok h
  obtain ⟨length, -, h⟩ := bind_ok h
  obtain ⟨_, -, h⟩ := bind_ok h
  split at h
  · cases h
  · obtain ⟨hpairs, -, hin⟩ := setItems_ascend h
    exact ⟨hpairs, hin⟩

theorem fieldChildren_few (h : cols.fieldChildren index = .ok kids) :
    kids.length ≤ cols.itemCount + 1 ∧ ∀ i ∈ kids, 1 ≤ i ∧ i ≤ cols.nodeCount := by
  obtain ⟨kind, hkind, h⟩ := bind_ok h
  split at h
  · obtain ⟨child, hchild, h⟩ := bind_ok h
    cases h
    refine ⟨Nat.le_add_left 1 _, fun i hi => ?_⟩
    rw [List.mem_singleton.mp hi]
    exact fieldNode_inRange hchild
  · split at h
    · obtain ⟨-, -, hfew, -⟩ := items_of_nodeSet h
      exact ⟨Nat.le_succ_of_le hfew, (nodeSet_ascends h).2⟩
    · cases h
      exact ⟨Nat.zero_le _, by simp⟩

variable {next : List Nat}

/-- The fields of a node whose children could be listed. -/
theorem nodeChildren_ok (h : cols.nodeChildren id = .ok next) :
    ∃ start stop children, cols.rangeAt id = some (start, stop) ∧ next = children.flatten ∧
      List.Forall₂ (fun index kids => cols.fieldChildren index = .ok kids)
        (List.range' start (stop - start)) children := by
  obtain ⟨⟨start, stop⟩, hrange, h⟩ := bind_ok h
  obtain ⟨children, hchildren, h⟩ := bind_ok h
  cases h
  exact ⟨start, stop, children, range_of_fieldRange hrange, rfl, forall₂_of_mapM hchildren⟩

theorem fieldChildren_of_nodeChildren {start stop : Nat} (h : cols.nodeChildren id = .ok next)
    (hrange : cols.rangeAt id = some (start, stop)) (hlow : start ≤ index) (hhigh : index < stop) :
    ∃ kids, cols.fieldChildren index = .ok kids ∧ ∀ i ∈ kids, i ∈ next := by
  obtain ⟨start', stop', children, hrange', rfl, hchildren⟩ := nodeChildren_ok h
  rw [hrange] at hrange'
  obtain ⟨rfl, rfl⟩ := Prod.mk.inj (Option.some.inj hrange')
  obtain ⟨kids, hkids, hread⟩ := partner_of_right hchildren.flip
    (List.mem_range'_1.mpr ⟨hlow, by omega⟩)
  exact ⟨kids, hread, fun i hi => List.mem_flatten.mpr ⟨kids, hkids, hi⟩⟩

theorem rangeAt_le {start stop : Nat} (h : cols.rangeAt id = some (start, stop)) :
    stop ≤ cols.fieldCount := by
  unfold Columns.rangeAt at h
  split at h
  · split at h
    · split at h
      · rename_i hle
        obtain ⟨rfl, rfl⟩ := Prod.mk.inj (Option.some.inj h)
        exact hle.2
      · cases h
    · cases h
  · cases h

theorem flatten_length_le {α : Type} {bound : Nat} {xss : List (List α)}
    (h : ∀ xs ∈ xss, xs.length ≤ bound) : xss.flatten.length ≤ xss.length * bound := by
  rw [List.length_flatten]
  have hsum := List.sum_le_card_nsmul (xss.map List.length) bound fun n hn => by
    obtain ⟨xs, hxs, rfl⟩ := List.mem_map.mp hn
    exact h xs hxs
  simpa using hsum

theorem nodeChildren_few (h : cols.nodeChildren id = .ok next) :
    (∀ i ∈ next, i ∈ cols.nodeIds) ∧
      next.length ≤ cols.fieldCount * (cols.itemCount + 1) := by
  obtain ⟨start, stop, children, hrange, rfl, hchildren⟩ := nodeChildren_ok h
  have hfew : ∀ kids ∈ children, kids.length ≤ cols.itemCount + 1 ∧
      ∀ i ∈ kids, 1 ≤ i ∧ i ≤ cols.nodeCount := by
    intro kids hkids
    obtain ⟨index, -, hread⟩ := partner_of_right hchildren hkids
    exact fieldChildren_few hread
  constructor
  · intro i hi
    obtain ⟨kids, hkids, hi⟩ := List.mem_flatten.mp hi
    obtain ⟨hlow, hhigh⟩ := (hfew kids hkids).2 i hi
    exact List.mem_range'_1.mpr ⟨hlow, by omega⟩
  · have hcount : stop - start = children.length := by simpa using hchildren.length_eq
    have hstop := rangeAt_le hrange
    calc children.flatten.length
        ≤ children.length * (cols.itemCount + 1) := flatten_length_le fun xs hxs => (hfew xs hxs).1
      _ ≤ cols.fieldCount * (cols.itemCount + 1) := Nat.mul_le_mul_right _ (by omega)

end Children

/-- The children of the nodes of a list are in the list. -/
def Columns.Closed (cols : Columns) (ids : List Nat) : Prop :=
  ∀ a ∈ ids, ∃ next, cols.nodeChildren a = .ok next ∧ ∀ b ∈ next, b ∈ ids

section Labels
variable {cols : Columns} {arity : Nat → Nat} {reachable : List Nat}

theorem FieldView.labelsIn {S : Bytes → Prop} {fuel index : Nat} {kids : List Nat}
    {cell : ComponentRow} {p : Piece}
    (h : FieldView cols (cols.termAt noScopeMap fuel) id cell p)
    (hcell : cols.cellAt index false = some cell)
    (hkids : cols.fieldChildren index = .ok kids)
    (hterm : ∀ i ∈ kids, ∀ t, cols.termAt noScopeMap fuel i = some t → t.LabelsIn scopeTag S)
    (hplain : cell.kind = COMPONENT_SEQUENCE → ∀ j, cell.value ≤ j →
      j < cell.value + cell.length →
        ∃ child, cols.itemNode j = .ok child ∧ PlainNode cols child) :
    p.LabelsIn scopeTag S := by
  cases h with
  | leaf hleaf =>
    refine hleaf.labelsIn fun hnode t ht => ?_
    obtain ⟨kind, value, length⟩ := cell
    obtain rfl : kind = COMPONENT_NODE := hnode
    exact hterm value (child_of_cell hcell hkids) t ht
  | @set start length items _ hitems =>
    apply Term.labelsInAll_of_forall
    intro t ht
    obtain ⟨j, hj, hmember⟩ := partner_of_right (mapM_some.mp hitems) ht
    obtain ⟨hlow, hhigh⟩ := List.mem_range'_1.mp hj
    obtain ⟨i, hitem, hterm'⟩ := memberTerm_some hmember
    obtain ⟨i', hi', hread⟩ := members_of_cell hcell hkids hlow hhigh
    rw [cell_of_itemNode hread] at hitem
    obtain ⟨-, rfl, -⟩ := ComponentRow.mk.inj (Option.some.inj hitem)
    exact hterm _ hi' t hterm'
  | @sequence start length items _ hitems =>
    apply Piece.labelsInAll_of_forall
    intro p hp
    obtain ⟨j, hj, hpiece⟩ := partner_of_right (mapM_some.mp hitems) hp
    obtain ⟨hlow, hhigh⟩ := List.mem_range'_1.mp hj
    obtain ⟨child, hread, hchild⟩ := hplain rfl j hlow hhigh
    obtain ⟨item, hitem, hleaf⟩ := itemPiece_some hpiece
    rw [cell_of_itemNode hread] at hitem
    obtain rfl := Option.some.inj hitem
    exact hleaf.labelsIn fun _ t ht =>
      Term.LabelsIn.mono (fun _ hfalse => hfalse.elim) t (hchild fuel t ht)

variable (table : InspectedTable arity cols)
include table

/-- The scopes under the nodes of a closed list are those of the individuals in it. -/
theorem closed_labels (hclosed : cols.Closed reachable) (fuel : Nat) :
    ∀ a ∈ reachable, ∀ t, cols.termAt noScopeMap fuel a = some t →
      t.LabelsIn scopeTag (ScopeOf cols reachable) := by
  induction fuel with
  | zero =>
    intro a _ t ht
    cases ht
  | succ fuel ih =>
    intro a ha t ht
    obtain ⟨next, hnext, hin⟩ := hclosed a ha
    obtain ⟨previous, start, stop, tag, fields, hfuel, rfl, hview⟩ := termAt_some ht
    obtain rfl := Nat.succ.inj hfuel
    obtain ⟨_, _, _, hrange, -, -⟩ := nodeChildren_ok hnext
    have htagged : cols.nodeTag a = .ok tag := nodeTag_of_range hrange hview.tagged
    refine ⟨fun hmark => ?_, Piece.labelsInAll_of_forall fun p hp => ?_⟩
    · rw [hmark] at htagged
      obtain ⟨scope, hscope⟩ := scope_exists table htagged
      obtain ⟨rest, hterm⟩ := hscope.term ht
      cases hterm
      exact ⟨a, ha, hscope⟩
    · obtain ⟨index, hindex, hpiece⟩ := partner_of_right hview.fields hp
      rw [rescopeOf_none] at hpiece
      obtain ⟨cell, hcell, hfield⟩ := fieldPiece_some hpiece
      obtain ⟨hlow, hhigh⟩ := List.mem_range'_1.mp hindex
      have hstop : index < stop := by omega
      obtain ⟨kids, hkids, hsub⟩ :=
        fieldChildren_of_nodeChildren hnext hview.range hlow hstop
      refine hfield.labelsIn hcell hkids (fun i hi => ih i (hin i (hsub i hi))) ?_
      intro hkind j hj hj'
      obtain ⟨kind, value, length⟩ := cell
      obtain rfl : kind = COMPONENT_SEQUENCE := hkind
      exact sequence_plain table ⟨htagged, ⟨start, stop, hview.range, hlow, hstop⟩, hcell⟩ hj hj'

end Labels

section Roots
variable {cols : Columns} {arity : Nat → Nat} {selection : List Nat} {roots : List Columns.Root}

/-- The kind and the node in a row of roots. -/
structure RootRow (cols : Columns) (index : Nat) (root : Columns.Root) : Prop where
  kind : cols.rootKind index = .ok root.1
  id : cols.rootId index = .ok root.2

theorem selectedRoots_rows (h : cols.selectedRoots selection = .ok roots) :
    List.Forall₂ (RootRow cols) selection roots :=
  (forall₂_of_mapM h).imp fun _ _ hroot => by
    obtain ⟨kind, hkind, hroot⟩ := bind_ok hroot
    obtain ⟨id, hid, hroot⟩ := bind_ok hroot
    cases hroot
    exact ⟨hkind, hid⟩

theorem RootRow.index_lt {index : Nat} {root : Columns.Root} (h : RootRow cols index root) :
    index < cols.rootCount := by
  obtain ⟨hlt, -⟩ := List.getElem?_eq_some_iff.mp (some_of_read h.kind)
  exact hlt

theorem RootRow.inRange {index : Nat} {root : Columns.Root} (h : RootRow cols index root) :
    1 ≤ root.2 ∧ root.2 ≤ cols.nodeCount := by
  obtain ⟨value, -, hid⟩ := bind_ok h.id
  obtain ⟨hsame, hin⟩ := nodeId_of_ok hid
  exact hsame ▸ hin

theorem selection_length (h : cols.selectedRoots selection = .ok roots)
    (hselection : selection.Pairwise (· < ·)) : roots.length ≤ cols.rootCount := by
  have hrows := selectedRoots_rows h
  have hsubset : selection ⊆ List.range cols.rootCount := by
    intro index hindex
    obtain ⟨root, -, hrow⟩ := partner_of_right hrows.flip hindex
    exact List.mem_range.mpr hrow.index_lt
  have hnodup : selection.Nodup := hselection.imp fun hlt => ne_of_lt hlt
  have hle := (List.subperm_of_subset hnodup hsubset).length_le
  rw [List.length_range] at hle
  rw [← hrows.length_eq]
  exact hle

/-- The nodes in reach of a selection are closed under their references. -/
theorem reachable_closed {reachable : List Nat} (h : cols.selectedRoots selection = .ok roots)
    (hselection : selection.Pairwise (· < ·))
    (hreachable : cols.reachableNodeIds (roots.map Prod.snd) = .ok reachable) :
    (∀ r ∈ roots, r.2 ∈ reachable) ∧ cols.Closed reachable := by
  have hstack : ∀ a ∈ (roots.map Prod.snd).reverse, a ∈ cols.nodeIds := by
    intro a ha
    obtain ⟨r, hr, rfl⟩ := List.mem_map.mp (List.mem_reverse.mp ha)
    obtain ⟨index, -, hrow⟩ := partner_of_right (selectedRoots_rows h) hr
    obtain ⟨hlow, hhigh⟩ := hrow.inRange
    exact List.mem_range'_1.mpr ⟨hlow, by omega⟩
  have hfuel : (roots.map Prod.snd).reverse.length +
      cols.nodeIds.length * (cols.fieldCount * (cols.itemCount + 1)) ≤ cols.exploreFuel := by
    have hcount := selection_length h hselection
    unfold Columns.exploreFuel Columns.nodeIds
    rw [List.length_reverse, List.length_map, List.length_range']
    exact Nat.add_le_add_right hcount _
  obtain ⟨hroots, hclosed⟩ := explore_closed (fun a _ next hnext => nodeChildren_few hnext)
    hstack hfuel hreachable
  exact ⟨fun r hr => hroots r.2 (List.mem_reverse.mpr (List.mem_map_of_mem hr)), hclosed⟩

/-- The rows of the roots of a table that has been inspected. -/
theorem rootsFrom_rows {count : Nat} {previous : Option Columns.Root} {index : Nat}
    {roots : List Columns.Root} (h : cols.rootsFrom previous index count = .ok roots) :
    roots.Pairwise Ascends ∧ (∀ p, previous = some p → ∀ r ∈ roots, Ascends p r) ∧
      List.Forall₂ (RootRow cols) (List.range' index count) roots := by
  induction count generalizing previous index roots with
  | zero =>
    cases h
    exact ⟨List.Pairwise.nil, by simp, .nil⟩
  | succ count ih =>
    obtain ⟨kind, hkind, h⟩ := bind_ok h
    obtain ⟨id, hid, h⟩ := bind_ok h
    split at h
    · cases h
    rename_i hfollows
    obtain ⟨rest, hrest, h⟩ := bind_ok h
    cases h
    obtain ⟨hpairs, hover, hrows⟩ := ih hrest
    refine ⟨List.pairwise_cons.mpr ⟨hover _ rfl, hpairs⟩, fun p hp r hr => ?_, ?_⟩
    · have hfirst : Ascends p (kind, id) := by
        subst hp
        simp only [Columns.follows, Bool.not_eq_true', Bool.not_eq_false, decide_eq_true_eq]
          at hfollows
        exact hfollows
      rcases List.mem_cons.mp hr with rfl | hr
      · exact hfirst
      · exact hfirst.trans (hover _ rfl r hr)
    · rw [List.range'_succ]
      exact .cons ⟨hkind, hid⟩ hrows

/-- The roots of an ascending selection ascend. -/
theorem selectedRoots_ascend (table : InspectedTable arity cols)
    (h : cols.selectedRoots selection = .ok roots) (hselection : selection.Pairwise (· < ·)) :
    roots.Pairwise Ascends := by
  obtain ⟨all, hall⟩ := table.roots
  obtain ⟨hpairs, -, hrows⟩ := rootsFrom_rows hall
  refine pairwise_of_forall₂ (selectedRoots_rows h) hselection fun i j r r' hr hr' hij => ?_
  have hlength : cols.rootCount = all.length := by simpa using hrows.length_eq
  have hget : ∀ k root, RootRow cols k root → ∃ hk : k < all.length, all[k] = root := by
    intro k root hroot
    have hk := hroot.index_lt
    have hk' : k < (List.range' 0 cols.rootCount).length := by simpa using hk
    have hrow := hrows.get hk' (hlength ▸ hk)
    simp only [List.get_eq_getElem, List.getElem_range', Nat.zero_add, Nat.one_mul] at hrow
    refine ⟨hlength ▸ hk, Prod.ext ?_ ?_⟩
    · exact Except.ok.inj (hrow.kind.symm.trans hroot.kind)
    · exact Except.ok.inj (hrow.id.symm.trans hroot.id)
  obtain ⟨hi, rfl⟩ := hget i r hr
  obtain ⟨hj, rfl⟩ := hget j r' hr'
  exact List.pairwise_iff_getElem.mp hpairs i j hi hj hij

end Roots

end Projector.Encoded
