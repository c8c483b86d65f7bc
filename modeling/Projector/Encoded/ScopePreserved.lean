import Projector.Encoded.ReachableOrder

namespace Projector.Encoded
open Lib Projector.Core Compiler

/-- The canonical bytes of one node come before those of another. -/
def Columns.Precedes (cols : Columns) (scopeMap : Bytes → Option Bytes) (a b : Nat) : Prop :=
  ∃ s t, cols.Stands scopeMap a s ∧ cols.Stands scopeMap b t ∧ s.encode < t.encode

/-- Roots are ordered by their kinds, then by their canonical bytes. -/
def Columns.RootPrecedes (cols : Columns) (scopeMap : Bytes → Option Bytes)
    (a b : Columns.Root) : Prop :=
  a.1 < b.1 ∨ (a.1 = b.1 ∧ cols.Precedes scopeMap a.2 b.2)

/-- The cursors of a table, before and after its scopes are mapped, compare two nodes alike. -/
def Columns.ComparesAlike (cols : Columns) (scopeMap : Bytes → Option Bytes) (a b : Nat) : Prop :=
  ∀ plain mapped : Cursor, plain.columns = cols → plain.scopeMap = noScopeMap →
    mapped.columns = cols → mapped.scopeMap = scopeMap →
    ∃ order enough, ∀ fuel, enough ≤ fuel →
      (∃ session, compareNodes fuel Session.start plain a plain b = some (.ok (session, order))) ∧
        ∃ session, compareNodes fuel Session.start mapped a mapped b = some (.ok (session, order))

/-- What a scope map that is accepted leaves as it was. -/
structure PreservesOrder (cols : Columns) (scopeMap : Bytes → Option Bytes)
    (roots : List Columns.Root) (reachable : List Nat) : Prop where
  selected : ∀ r ∈ roots, r.2 ∈ reachable
  coded : ∀ a ∈ reachable, (∃ s, cols.Stands noScopeMap a s) ∧ ∃ t, cols.Stands scopeMap a t
  order : ∀ a ∈ reachable, ∀ b ∈ reachable,
    cols.Precedes noScopeMap a b ↔ cols.Precedes scopeMap a b
  compared : ∀ a ∈ reachable, ∀ b ∈ reachable, cols.ComparesAlike scopeMap a b
  sets : ∀ a ∈ reachable, ∀ start stop index minimum ids, cols.rangeAt a = some (start, stop) →
    start ≤ index → index < stop → cols.nodeSet index minimum = .ok ids →
      ids.Pairwise (cols.Precedes scopeMap)
  roots : roots.Pairwise (cols.RootPrecedes scopeMap)
  distinct : ∀ a ∈ reachable, ∀ b ∈ reachable, a ≠ b → ∀ s t, cols.Stands scopeMap a s →
    cols.Stands scopeMap b t → s.encode ≠ t.encode

section Preserved
variable {cols : Columns} {arity : Nat → Nat} {scopeMap : Bytes → Option Bytes} {a b : Nat}
  {reachable : List Nat}

theorem inRange_of_closed (hclosed : cols.Closed reachable) (ha : a ∈ reachable) :
    1 ≤ a ∧ a ≤ cols.nodeCount := by
  obtain ⟨next, hnext, -⟩ := hclosed a ha
  obtain ⟨_, hrange, -⟩ := bind_ok hnext
  obtain ⟨_, hid, -⟩ := bind_ok hrange
  exact (nodeId_of_ok hid).2

theorem byteOrder_eq_of_lt_iff {s t s' t' : Bytes} (h : s < t ↔ s' < t') (h' : t < s ↔ t' < s') :
    byteOrder s t = byteOrder s' t' := by
  rcases lt_trichotomy s t with hlt | rfl | hgt
  · rw [(byteOrder_lt_iff s t).mpr hlt, (byteOrder_lt_iff s' t').mpr (h.mp hlt)]
  · have heq : s' = t' := le_antisymm (not_lt.mp fun hc => lt_irrefl s (h'.mpr hc))
      (not_lt.mp fun hc => lt_irrefl s (h.mpr hc))
    rw [(byteOrder_eq_iff s s).mpr rfl, (byteOrder_eq_iff s' t').mpr heq]
  · rw [(byteOrder_gt_iff s t).mpr hgt, (byteOrder_gt_iff s' t').mpr (h'.mp hgt)]

theorem compareNodes_start {c : Cursor} {s t : Term} (hs : c.columns.Stands c.scopeMap a s)
    (ht : c.columns.Stands c.scopeMap b t) :
    ∃ enough, ∀ fuel, enough ≤ fuel → ∃ session,
      compareNodes fuel Session.start c a c b =
        some (.ok (session, byteOrder s.encode t.encode)) := by
  have hd : Distinct [c] := by
    intro d hd e he _
    rw [List.mem_singleton.mp hd, List.mem_singleton.mp he]
  have hc : c ∈ [c] := List.mem_singleton_self c
  obtain ⟨enough, hcompare⟩ := compareNodes_eq hd hc hc hs ht
  refine ⟨enough, fun fuel hfuel => ?_⟩
  obtain ⟨session, -, hresult⟩ := hcompare fuel hfuel Session.start remembers_start
  exact ⟨session, hresult⟩

variable (table : InspectedTable arity cols)
include table

/-- The numbers of nodes are in the order of their bytes. -/
theorem precedes_of_lt (hclosed : cols.Closed reachable) (ha : a ∈ reachable) (hb : b ∈ reachable)
    (hlt : a < b) : cols.Precedes noScopeMap a b := by
  have hina := inRange_of_closed hclosed ha
  have hinb := inRange_of_closed hclosed hb
  obtain ⟨s, hs⟩ := table.bytes a hina.1 hina.2
  obtain ⟨t, ht⟩ := table.bytes b hinb.1 hinb.2
  exact ⟨s, t, hs, ht, table.canonical a b s t hlt hs ht⟩

variable (hclosed : cols.Closed reachable)
  (hascends : Lib.Ascends (ScopeOf cols reachable) 32 (remapped scopeMap))
include hclosed hascends

/-- Two nodes in reach have terms that the map relabels, and their order is kept. -/
theorem relabelled_pair (ha : a ∈ reachable) (hb : b ∈ reachable) :
    ∃ s t, cols.Stands noScopeMap a s ∧ cols.Stands noScopeMap b t ∧
      cols.Stands scopeMap a (relabelled scopeMap s) ∧
      cols.Stands scopeMap b (relabelled scopeMap t) ∧
      (s.encode < t.encode ↔
        (relabelled scopeMap s).encode < (relabelled scopeMap t).encode) := by
  have hina := inRange_of_closed hclosed ha
  have hinb := inRange_of_closed hclosed hb
  obtain ⟨s, hs⟩ := table.bytes a hina.1 hina.2
  obtain ⟨t, ht⟩ := table.bytes b hinb.1 hinb.2
  refine ⟨s, t, hs, ht, hs.relabelled, ht.relabelled, ?_⟩
  obtain ⟨fuel, hs⟩ := hs
  obtain ⟨fuel', ht⟩ := ht
  exact Term.relabel_lt_iff hascends (termAt_fits table.arity fuel a s hs)
    (termAt_fits table.arity fuel' b t ht) (closed_labels table hclosed fuel a ha s hs)
    (closed_labels table hclosed fuel' b hb t ht)

theorem precedes_iff (ha : a ∈ reachable) (hb : b ∈ reachable) :
    cols.Precedes noScopeMap a b ↔ cols.Precedes scopeMap a b := by
  obtain ⟨s, t, hs, ht, hs', ht', hiff⟩ := relabelled_pair table hclosed hascends ha hb
  constructor
  · rintro ⟨u, v, hu, hv, hlt⟩
    rw [hu.unique hs, hv.unique ht] at hlt
    exact ⟨_, _, hs', ht', hiff.mp hlt⟩
  · rintro ⟨u, v, hu, hv, hlt⟩
    rw [hu.unique hs', hv.unique ht'] at hlt
    exact ⟨s, t, hs, ht, hiff.mpr hlt⟩

theorem precedes_mapped (ha : a ∈ reachable) (hb : b ∈ reachable) (hlt : a < b) :
    cols.Precedes scopeMap a b :=
  (precedes_iff table hclosed hascends ha hb).mp (precedes_of_lt table hclosed ha hb hlt)

theorem comparesAlike (ha : a ∈ reachable) (hb : b ∈ reachable) :
    cols.ComparesAlike scopeMap a b := by
  rintro plain mapped rfl hplain hcolumns hmapped
  obtain ⟨s, t, hs, ht, hs', ht', hiff⟩ := relabelled_pair table hclosed hascends ha hb
  obtain ⟨t₂, s₂, ht₂, hs₂, -, -, hiff'⟩ := relabelled_pair table hclosed hascends hb ha
  obtain rfl := ht₂.unique ht
  obtain rfl := hs₂.unique hs
  rw [← hplain] at hs ht
  rw [← hmapped, ← hcolumns] at hs' ht'
  obtain ⟨enough, hbefore⟩ := compareNodes_start hs ht
  obtain ⟨enough', hafter⟩ := compareNodes_start hs' ht'
  refine ⟨_, max enough enough', fun fuel hfuel => ⟨hbefore fuel ?_, ?_⟩⟩
  · exact le_trans (Nat.le_max_left _ _) hfuel
  · rw [byteOrder_eq_of_lt_iff hiff hiff', ← hmapped]
    exact hafter fuel (le_trans (Nat.le_max_right _ _) hfuel)

end Preserved

/-- A scope map that is accepted keeps every canonical order in reach of a selection. -/
theorem scope_remap_preserves_order {cols : Columns} {arity : Nat → Nat}
    {scopeMap : Bytes → Option Bytes} {selection : List Nat} {roots : List Columns.Root}
    {reachable : List Nat} (table : InspectedTable arity cols)
    (hselection : selection.Pairwise (· < ·)) (hroots : cols.selectedRoots selection = .ok roots)
    (hreachable : cols.reachableNodeIds (roots.map Prod.snd) = .ok reachable)
    (hwidth : ∀ source target, scopeMap source = some target → target.length = 32)
    (haccept : scopeRemapPreservesOrder cols reachable scopeMap = .ok true) :
    PreservesOrder cols scopeMap roots reachable := by
  obtain ⟨hselected, hclosed⟩ := reachable_closed hroots hselection hreachable
  have hascends := ascends_of_accepted table hwidth haccept
  refine ⟨hselected, ?_, ?_, ?_, ?_, ?_, ?_⟩
  · intro a ha
    obtain ⟨s, _, hs, -, hs', -⟩ := relabelled_pair table hclosed hascends ha ha
    exact ⟨⟨s, hs⟩, _, hs'⟩
  · exact fun a ha b hb => precedes_iff table hclosed hascends ha hb
  · exact fun a ha b hb => comparesAlike table hclosed hascends ha hb
  · intro a ha start stop index minimum ids hrange hlow hhigh hset
    obtain ⟨next, hnext, hin⟩ := hclosed a ha
    obtain ⟨kids, hkids, hsub⟩ := fieldChildren_of_nodeChildren hnext hrange hlow hhigh
    obtain rfl := children_of_nodeSet hset hkids
    have hmember : ∀ k ∈ kids, k ∈ reachable := fun k hk => hin k (hsub k hk)
    refine (nodeSet_ascends hset).1.imp_of_mem fun {i j} hi hj hlt => ?_
    exact precedes_mapped table hclosed hascends (hmember i hi) (hmember j hj) hlt
  · refine (selectedRoots_ascend table hroots hselection).imp_of_mem fun {r r'} hr hr' hascend => ?_
    rcases hascend with hkind | ⟨hkind, hlt⟩
    · exact .inl hkind
    · exact .inr ⟨hkind, precedes_mapped table hclosed hascends (hselected r hr)
        (hselected r' hr') hlt⟩
  · intro a ha b hb hne s t hs ht heq
    rcases Nat.lt_or_gt_of_ne hne with hlt | hgt
    · obtain ⟨u, v, hu, hv, hless⟩ := precedes_mapped table hclosed hascends ha hb hlt
      rw [hu.unique hs, hv.unique ht, heq] at hless
      exact lt_irrefl _ hless
    · obtain ⟨u, v, hu, hv, hless⟩ := precedes_mapped table hclosed hascends hb ha hgt
      rw [hu.unique ht, hv.unique hs, heq] at hless
      exact lt_irrefl _ hless

section Sample

/-- Two anonymous individuals of two documents, and the axiom that they are the same. -/
def sameColumns : Columns where
  rootKinds := [ROOT_AXIOM]
  rootIds := [3]
  nodeTags := [3, 3, 110]
  nodeFieldOffsets := [0, 2, 4, 6]
  fieldKinds := [3, 3, 3, 3, 6, 6]
  fieldValues := [0, 32, 33, 65, 0, 2]
  fieldLengths := [32, 1, 32, 1, 2, 0]
  itemKinds := [1, 1]
  itemValues := [1, 2]
  itemLengths := [0, 0]
  scalarBytes := List.replicate 32 0 ++ [97] ++ List.replicate 32 1 ++ [97]
  maxIriBytes := 64
  maxLiteralBytes := 64
  lowered := id

def sameScopes (scope : Bytes) : Option Bytes :=
  if scope = List.replicate 32 0 then some (List.replicate 32 5)
  else if scope = List.replicate 32 1 then some (List.replicate 32 7)
  else none

def sameIndividual (byte : UInt8) : Term :=
  .mk 3 [.scalar .bytes (List.replicate 32 byte), .scalar .bytes [97]]

def sameTerm (id : Nat) : Term :=
  if id = 1 then sameIndividual 0
  else if id = 2 then sameIndividual 1
  else .mk 110 [.set [sameIndividual 0, sameIndividual 1], .set []]

theorem same_cases {id : Nat} (hlow : 1 ≤ id) (hhigh : id ≤ sameColumns.nodeCount) :
    id = 1 ∨ id = 2 ∨ id = 3 := by
  have hcount : id ≤ 3 := hhigh
  omega

theorem same_stands {id : Nat} (hlow : 1 ≤ id) (hhigh : id ≤ sameColumns.nodeCount) :
    sameColumns.Stands noScopeMap id (sameTerm id) := by
  rcases same_cases hlow hhigh with rfl | rfl | rfl
  · exact ⟨2, rfl⟩
  · exact ⟨2, rfl⟩
  · exact ⟨2, rfl⟩

theorem same_inRange {id : Nat} {t : Term} (h : sameColumns.Stands noScopeMap id t) :
    1 ≤ id ∧ id ≤ sameColumns.nodeCount := by
  obtain ⟨fuel, ht⟩ := h
  obtain ⟨_, _, _, _, _, -, -, hview⟩ := termAt_some ht
  have hid := (rangeAt_some hview.range).1
  exact (nodeId_of_ok hid).2

theorem same_noSequence {id index tag start length : Nat} :
    ¬ SequenceField sameColumns id index tag start length := by
  intro h
  have hkind : COMPONENT_SEQUENCE ∈ sameColumns.fieldKinds :=
    List.mem_of_getElem? (some_of_read (kind_of_cell h.cell))
  revert hkind
  decide

theorem same_inspected : InspectedTable (fun _ => 2) sameColumns where
  arity := by
    intro id start stop tag hrange _
    obtain ⟨hlow, hhigh⟩ := (nodeId_of_ok (rangeAt_some hrange).1).2
    rcases same_cases hlow hhigh with rfl | rfl | rfl <;> cases hrange <;> rfl
  sequences _ _ _ _ _ h := absurd h same_noSequence
  dataProperties _ _ _ _ _ _ h := absurd h same_noSequence
  inspected := by
    intro id hlow hhigh
    rcases same_cases hlow hhigh with rfl | rfl | rfl
    · exact ⟨_, rfl⟩
    · exact ⟨_, rfl⟩
    · exact ⟨_, rfl⟩
  roots := ⟨_, rfl⟩
  bytes id hlow hhigh := ⟨sameTerm id, same_stands hlow hhigh⟩
  canonical := by
    intro i j s t hij hs ht
    have hi := same_inRange hs
    have hj := same_inRange ht
    rw [hs.unique (same_stands hi.1 hi.2), ht.unique (same_stands hj.1 hj.2)]
    have hcount : j ≤ 3 := hj.2
    have hcases : (i = 1 ∧ j = 2) ∨ (i = 1 ∧ j = 3) ∨ (i = 2 ∧ j = 3) := by omega
    rcases hcases with ⟨rfl, rfl⟩ | ⟨rfl, rfl⟩ | ⟨rfl, rfl⟩
    · decide +kernel
    · decide +kernel
    · decide +kernel

theorem scope_remap_preserves_order_sample :
    PreservesOrder sameColumns sameScopes [(ROOT_AXIOM, 3)] [1, 2, 3] := by
  have hroots : sameColumns.selectedRoots [0] = .ok [(ROOT_AXIOM, 3)] := rfl
  have hsorted : sortOn id [1, 2, 3] = [1, 2, 3] := sortOn_of_sorted (by unfold SortedOn; decide)
  refine scope_remap_preserves_order same_inspected (List.pairwise_singleton _ 0) hroots rfl ?_ ?_
  · intro source target h
    unfold sameScopes at h
    split at h
    · cases h
      rfl
    · split at h
      · cases h
        rfl
      · cases h
  · unfold scopeRemapPreservesOrder Columns.anonymousScopes
    rw [hsorted]
    rfl

end Sample

end Projector.Encoded
