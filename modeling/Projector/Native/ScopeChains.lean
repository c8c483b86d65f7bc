import Projector.Encoded.LeafRows
import Projector.Encoded.ReachableOrder
import Projector.Native.ScopeSearch

namespace Projector.Native
open Lib Projector.Core Projector.Encoded

section Chains
variable {maps : List Bytes} {value scope : Bytes}

@[simp] theorem substituted_nil : substituted [] scope = scope := rfl

@[simp] theorem substituted_append :
    substituted (maps ++ [value]) scope =
      Encoded.remapped (scopeMapOf value) (substituted maps scope) := by
  simp [substituted]

/-- The binary searches along a chain apply its maps one after another. -/
theorem remapAnonymousScope_chain (columns : Columns)
    (hvalid : ∀ map ∈ maps, AscendingSources map) :
    (DirectColumns.mk columns maps).remapAnonymousScope scope = substituted maps scope := by
  unfold DirectColumns.remapAnonymousScope substituted
  dsimp only
  induction maps generalizing scope with
  | nil => rfl
  | cons map rest ih =>
    have hsearch : DirectColumns.searchScope map scope (map.length / 64) 0 (map.length / 64) =
        (scopeMapOf map scope).getD scope :=
      searchScope_eq (hvalid map List.mem_cons_self) (by omega) (Nat.le_refl _)
        (fun i hi => by omega) (fun i hlow hhigh => by omega)
    rw [List.foldl_cons, List.foldl_cons, hsearch]
    exact ih fun map hmap => hvalid map (List.mem_cons_of_mem _ hmap)

/-- Maps only have scopes of 32 bytes. -/
theorem substituted_of_width (h : scope.length ≠ 32) : substituted maps scope = scope := by
  unfold substituted
  induction maps with
  | nil => rfl
  | cons map rest ih =>
    have hnone : scopeMapOf map scope = none := by
      cases hmap : scopeMapOf map scope with
      | none => rfl
      | some target => exact absurd (rows32_scopeMapOf map scope target hmap).1 h
    have hfirst : Encoded.remapped (scopeMapOf map) scope = scope := by
      unfold Encoded.remapped
      rw [hnone]
      rfl
    rw [List.foldl_cons, hfirst]
    exact ih

/-- The rows that Python collects are the mapping that the buffer spells out. -/
theorem scopeMapRows_lookup (hsorted : AscendingSources value) (scope : Bytes) :
    (scopeMapRows value).lookup scope = scopeMapOf value scope := by
  have hrows : ∀ count ≤ value.length / 64,
      ((List.range count).foldl
        (fun (rows : Dict Bytes Bytes) index =>
          rows.insert (scopeSource value index) (scopeTarget value index)) ∅).lookup scope =
        ((List.range count).find? fun i => scopeSource value i == scope).map (scopeTarget value) := by
    intro count hcount
    induction count with
    | zero => rfl
    | succ count ih =>
      rw [List.range_succ, List.foldl_append, List.foldl_cons, List.foldl_nil,
        Dict.lookup_insert_eq, List.find?_append, ih (by omega)]
      by_cases hsource : scope = scopeSource value count
      · have hnone : (List.range count).find? (fun i => scopeSource value i == scope) = none := by
          rw [List.find?_eq_none]
          intro i hi
          have hlt := hsorted i count (List.mem_range.mp hi) (by omega)
          simpa [hsource] using ne_of_lt hlt
        rw [if_pos hsource, hnone]
        simp [hsource]
      · have hother : ¬scopeSource value count = scope := fun h => hsource h.symm
        rw [if_neg hsource]
        simp [hother]
  exact hrows _ (Nat.le_refl _)

theorem scopeMapRows_empty (h : (scopeMapRows value).entries.isEmpty = true)
    (hsorted : AscendingSources value) (scope : Bytes) : scopeMapOf value scope = none := by
  rw [← scopeMapRows_lookup hsorted, AList.lookup_eq_none, AList.mem_keys, AList.keys,
    List.isEmpty_iff.mp h]
  simp

end Chains

section Leaf
variable {lease : EncodedStructuralLease} {cols : Columns} {maps : List Bytes}
  {row row' : RecursiveCompositeRow} {value scope : Bytes}

theorem offsets_of_range {id start stop : Nat} (h : cols.rangeAt id = some (start, stop)) :
    cols.nodeFieldOffsets[id - 1]? = some start ∧ cols.nodeFieldOffsets[id]? = some stop := by
  unfold Columns.rangeAt at h
  split at h
  · split at h
    · rename_i low high hlow hhigh
      split at h
      · cases h
        exact ⟨hlow, hhigh⟩
      · cases h
    · cases h
  · cases h

theorem columns_of_cell {index kind offset length : Nat}
    (h : cols.cellAt index false = some ⟨kind, offset, length⟩) :
    cols.fieldKinds[index]? = some kind ∧ cols.fieldValues[index]? = some offset ∧
      cols.fieldLengths[index]? = some length := by
  unfold Columns.cellAt at h
  obtain ⟨_, hkind, h⟩ := Option.bind_eq_some_iff.mp h
  obtain ⟨_, hvalue, h⟩ := Option.bind_eq_some_iff.mp h
  obtain ⟨_, hlength, h⟩ := Option.bind_eq_some_iff.mp h
  cases h
  exact ⟨hkind, hvalue, hlength⟩

theorem payloadAt_some {offset length : Nat} {payload : Bytes}
    (h : cols.payloadAt offset length = some payload) :
    offset + length ≤ cols.scalarBytes.length ∧
      (cols.scalarBytes.drop offset).take length = payload := by
  unfold Columns.payloadAt at h
  split at h
  · cases h
    exact ⟨by omega, rfl⟩
  · cases h

/-- The scope of an individual, where a map could have it for a source. -/
theorem leafScope_of_scopeAt {id : Nat} (h : ScopeAt cols id scope) (hwidth : scope.length = 32) :
    id - 1 < cols.nodeTags.length ∧ leafScope cols (id - 1) = some scope := by
  obtain ⟨start, offset, hrange, length, hcell, hpayload⟩ := h.cell
  obtain ⟨hlow, hhigh⟩ := (nodeId_of_ok (rangeAt_some hrange).1).2
  obtain ⟨hstart, hstop⟩ := offsets_of_range hrange
  obtain ⟨hkind, hvalue, hlength⟩ := columns_of_cell hcell
  obtain ⟨hinside, hsome⟩ := payloadAt_some hpayload
  have htag : cols.nodeTags[id - 1]? = some scopeTag := tag_of_nodeTag h.tagged
  have hfull : length = 32 := by
    rw [← hwidth, ← hsome, List.length_take, List.length_drop]
    omega
  have hnext : id - 1 + 1 = id := by omega
  subst hfull
  refine ⟨(List.getElem?_eq_some_iff.mp htag).1, ?_⟩
  unfold leafScope readAt
  simp only [htag, hnext, hstart, hstop, hkind, hvalue, hlength, Option.getD_some, hsome]
  rw [if_neg (fun h => h rfl), if_neg (by omega)]

/-- A map that is left out would have changed no scope of the table. -/
theorem unaffected {id : Nat} (hskip : recursiveScopeMapApplies cols value maps = false)
    (h : ScopeAt cols id scope) : Encoded.remapped (scopeMapOf value) (substituted maps scope) =
      substituted maps scope := by
  have hnone : scopeMapOf value (substituted maps scope) = none := by
    by_cases hwidth : scope.length = 32
    · obtain ⟨hin, hscope⟩ := leafScope_of_scopeAt h hwidth
      have hall := List.any_eq_false.mp hskip (id - 1) (List.mem_range.mpr hin)
      simpa [hscope] using hall
    · rw [substituted_of_width hwidth]
      cases hmap : scopeMapOf value scope with
      | none => rfl
      | some target => exact absurd (rows32_scopeMapOf value scope target hmap).1 hwidth
  unfold Encoded.remapped
  rw [hnone]
  rfl

/-- The rows that a segment path makes of a local table, with the scope maps along the path. -/
inductive LeafPath (lease : EncodedStructuralLease) :
    List Bytes → RecursiveCompositeRow → Prop
  | leaf (path : List Nat) : LeafPath lease [] ⟨lease, none, none, [], path⟩
  | selected {maps : List Bytes} {row row' : RecursiveCompositeRow}
      {source : EncodedStructuralLease} {mode : Int} {postings : Bytes}
      (h : LeafPath lease maps row)
      (happlied : applyRecursiveLeafPostings [row] source mode postings = .ok [row']) :
      LeafPath lease maps row'
  | mapped {maps : List Bytes} {row row' : RecursiveCompositeRow} {value : Bytes}
      (h : LeafPath lease maps row)
      (hvalid : validateScopeMap value = .ok ())
      (happlied : applyRecursiveLeafScopeMap [row] value = [row']) :
      LeafPath lease (maps ++ [value]) row'
  | prepended {maps : List Bytes} {row row' : RecursiveCompositeRow}
      (h : LeafPath lease maps row) (segmentIndex : Nat)
      (happlied : prependRecursiveLeafSegment [row] segmentIndex = [row']) :
      LeafPath lease maps row'

/-- A selector changes neither the table nor the chain of a row. -/
theorem selected_same {source : EncodedStructuralLease} {mode : Int} {postings : Bytes}
    (h : applyRecursiveLeafPostings [row] source mode postings = .ok [row']) :
    row'.lease = row.lease ∧ row'.scopeMaps = row.scopeMaps := by
  unfold applyRecursiveLeafPostings at h
  split at h
  · cases h
    exact ⟨rfl, rfl⟩
  · split at h
    · cases h
    · simp only [selectRows] at h
      split at h
      · cases h
      · split at h
        · cases h
          exact ⟨rfl, rfl⟩
        · split at h
          · cases h
          · cases h
            exact ⟨rfl, rfl⟩

theorem leafPath_retained (h : LeafPath lease maps row) :
    row.lease = lease ∧ (∀ map ∈ row.scopeMaps, AscendingSources map) ∧
      (∀ map ∈ maps, AscendingSources map) ∧
      ∀ id scope, ScopeAt lease.columns id scope →
        substituted row.scopeMaps scope = substituted maps scope := by
  induction h with
  | leaf path =>
    exact ⟨rfl, fun _ h => absurd h List.not_mem_nil, fun _ h => absurd h List.not_mem_nil,
      fun _ _ _ => rfl⟩
  | selected h happlied ih =>
    obtain ⟨hlease, hmaps⟩ := selected_same happlied
    rw [hlease, hmaps]
    exact ih
  | @mapped maps row row' value h hvalid happlied ih =>
    obtain ⟨hlease, hkept, hall, hsame⟩ := ih
    have hsorted := ascending_of_valid hvalid
    have hmore : ∀ map ∈ maps ++ [value], AscendingSources map := by
      intro map hmap
      rcases List.mem_append.mp hmap with hmap | hmap
      · exact hall map hmap
      · exact List.mem_singleton.mp hmap ▸ hsorted
    unfold applyRecursiveLeafScopeMap at happlied
    split at happlied
    · rename_i hempty
      obtain rfl : value = [] := List.length_eq_zero_iff.mp hempty
      cases happlied
      refine ⟨hlease, hkept, hmore, fun id scope hscope => ?_⟩
      rw [substituted_append, hsame id scope hscope]
      rfl
    · simp only [List.map_cons, List.map_nil, List.cons.injEq, and_true] at happlied
      split at happlied
      · rename_i hskip
        subst happlied
        rw [Bool.not_eq_true', hlease] at hskip
        refine ⟨hlease, hkept, hmore, fun id scope hscope => ?_⟩
        rw [substituted_append, ← hsame id scope hscope, unaffected hskip hscope]
      · subst happlied
        refine ⟨hlease, fun map hmap => ?_, hmore, fun id scope hscope => ?_⟩
        · rcases List.mem_append.mp hmap with hmap | hmap
          · exact hkept map hmap
          · exact List.mem_singleton.mp hmap ▸ hsorted
        · rw [substituted_append, substituted_append, hsame id scope hscope]
  | prepended h segmentIndex happlied ih =>
    cases happlied
    exact ih

end Leaf

section Groups
variable {lease : EncodedStructuralLease} {cols : Columns} {maps : List Bytes}
  {group group' : ResolvedColumnGroup} {known scopeMap composed : Dict Bytes Bytes}
  {value scope : Bytes}

/-- What a segment path makes of the group of a local table. -/
inductive GroupPath (lease : EncodedStructuralLease) : List Bytes → ResolvedColumnGroup → Prop
  | leaf : GroupPath lease [] (localResolvedGroup lease)
  | selected {maps : List Bytes} {group group' : ResolvedColumnGroup}
      {source : EncodedStructuralLease} {mode : Int} {postings : Bytes}
      (h : GroupPath lease maps group)
      (happlied : applyResolvedPostings [group] source mode postings = .ok [group']) :
      GroupPath lease maps group'
  | mapped {maps : List Bytes} {group group' : ResolvedColumnGroup} {value : Bytes}
      {reason : Option String} (h : GroupPath lease maps group)
      (hvalid : validateScopeMap value = .ok ())
      (happlied : composeGroupScopeMap group (scopeMapRows value) = .ok (group', reason)) :
      GroupPath lease (maps ++ [value]) group'

theorem narrowed_same {source : EncodedStructuralLease} {mode : Int} {postings : Bytes}
    (h : applyResolvedPostings [group] source mode postings = .ok [group']) :
    group'.lease = group.lease ∧ group'.scopeMap = group.scopeMap ∧
      group'.rootIndices.Sublist group.rootIndices := by
  obtain ⟨selected, -, h⟩ := bind_ok h
  split at h
  · cases h
    exact ⟨rfl, rfl, List.Sublist.refl _⟩
  · have h := Except.ok.inj h
    unfold narrowGroups at h
    dsimp only [narrowGroups] at h
    split at h
    · cases h
    · split at h
      · cases h
        exact ⟨rfl, rfl, List.Sublist.refl _⟩
      · have hsub : (if mode = POSTINGS_INCLUDE then group.rootIndices.filter (· ∈ selected)
            else group.rootIndices.filter (· ∉ selected)).Sublist group.rootIndices := by
          split
          · exact List.filter_sublist
          · exact List.filter_sublist
        generalize (if mode = POSTINGS_INCLUDE then group.rootIndices.filter (· ∈ selected)
          else group.rootIndices.filter (· ∉ selected)) = rootIndices at h hsub
        split at h
        · cases h
          exact ⟨rfl, rfl, hsub⟩
        · cases h

/-- The nodes that lie under a root of a selection. -/
def InReach (cols : Columns) (selection : List Nat) (id : Nat) : Prop :=
  ∃ index ∈ selection, ∃ root, cols.rootId index = .ok root ∧
    Relation.ReflTransGen (fun a b => b ∈ listed cols.nodeChildren a) root id

theorem InReach.mono {selection more : List Nat} {id : Nat} (h : InReach cols selection id)
    (hsub : selection ⊆ more) : InReach cols more id := by
  obtain ⟨index, hindex, root, hroot⟩ := h
  exact ⟨index, hsub hindex, root, hroot⟩

/-- The worklist finds the nodes under the roots. -/
theorem reachable_iff {reachable : List Nat} (h : group.reachable = .ok reachable)
    (hroots : group.rootIndices.Sublist (List.range group.lease.columns.rootKinds.length))
    (id : Nat) : id ∈ reachable ↔ InReach group.lease.columns group.rootIndices id := by
  obtain ⟨roots, hread, hfound⟩ := bind_ok h
  have hrows := forall₂_of_mapM hread
  have hstack : ∀ a ∈ roots.reverse, a ∈ group.lease.columns.nodeIds := by
    intro a ha
    obtain ⟨index, -, hindex⟩ := partner_of_right hrows (List.mem_reverse.mp ha)
    obtain ⟨value, -, hid⟩ := bind_ok hindex
    obtain ⟨hsame, hlow, hhigh⟩ := nodeId_of_ok hid
    exact List.mem_range'_1.mpr ⟨by omega, by omega⟩
  have hlength : roots.length ≤ group.lease.columns.rootCount := by
    rw [← hrows.length_eq]
    have hle := hroots.length_le
    rw [List.length_range] at hle
    exact hle
  have hfuel : roots.reverse.length + group.lease.columns.nodeIds.length *
      (group.lease.columns.fieldCount * (group.lease.columns.itemCount + 1)) ≤
        group.lease.columns.exploreFuel := by
    unfold Columns.exploreFuel Columns.nodeIds
    rw [List.length_reverse, List.length_range']
    exact Nat.add_le_add_right hlength _
  rw [explore_found (fun a _ next hnext => nodeChildren_few hnext) hstack hfuel hfound]
  constructor
  · rintro ⟨root, hroot, hpath⟩
    obtain ⟨index, hindex, hid⟩ := partner_of_right hrows (List.mem_reverse.mp hroot)
    exact ⟨index, hindex, root, hid, hpath⟩
  · rintro ⟨index, hindex, root, hid, hpath⟩
    obtain ⟨root', hroot, hid'⟩ := partner_of_right hrows.flip hindex
    obtain rfl : root = root' := Except.ok.inj (hid.symm.trans hid')
    exact ⟨root, List.mem_reverse.mpr hroot, hpath⟩

/-- No scope is left out of those that a group lists. -/
theorem scopesFrom_all {previous : Option Bytes} {ids : List Nat} {scopes : List Bytes}
    (h : cols.scopesFrom previous ids = .ok scopes) {id : Nat} (hid : id ∈ ids)
    (hscope : ScopeAt cols id scope) : scope ∈ scopes ∨ previous = some scope := by
  induction ids generalizing previous scopes with
  | nil => cases hid
  | cons first rest ih =>
    obtain ⟨anonymous, htag, h⟩ := bind_ok h
    cases anonymous with
    | false =>
      rcases List.mem_cons.mp hid with rfl | hid
      · have htrue : cols.tagIs id .anonymousIndividual = .ok true := by
          unfold Columns.tagIs
          rw [ok_bind _ hscope.tagged]
          rfl
        rw [htrue] at htag
        cases htag
      · exact ih h hid
    | true =>
      obtain ⟨own, hown, h⟩ := bind_ok h
      obtain ⟨others, hothers, h⟩ := bind_ok h
      cases h
      rcases List.mem_cons.mp hid with rfl | hid
      · obtain rfl : own = scope := Except.ok.inj (hown.symm.trans hscope.read)
        split
        · rename_i hsame
          exact .inr hsame
        · exact .inl List.mem_cons_self
      · rcases ih hothers hid with hlater | hsame
        · split
          · exact .inl hlater
          · exact .inl (List.mem_cons_of_mem _ hlater)
        · cases hsame
          split
          · rename_i hsame
            exact .inr hsame
          · exact .inl List.mem_cons_self

/-- A composed map holds what the known map and the next one make of a listed scope. -/
theorem composeScopes_lookup {scopes : List Bytes} :
    (composeScopes known scopeMap scopes composed).lookup scope =
      let target := scopeMap.getOr (known.getOr scope scope) (known.getOr scope scope)
      if scope ∈ scopes ∧ target ≠ scope then some target else composed.lookup scope := by
  induction scopes generalizing composed with
  | nil => simp [composeScopes]
  | cons first rest ih =>
    unfold composeScopes
    dsimp only at ih ⊢
    rw [ih]
    by_cases hsame : scope = first
    · subst hsame
      split
      · rename_i hin
        rw [if_pos ⟨List.mem_cons_of_mem _ hin.1, hin.2⟩]
      · split
        · rename_i htarget
          rw [Dict.lookup_insert_eq, if_pos rfl, if_pos ⟨List.mem_cons_self, htarget⟩]
        · rename_i htarget
          rw [if_neg fun h => htarget h.2]
    · have hlookup : ∀ target, (if target ≠ first then composed.insert first target
          else composed).lookup scope = composed.lookup scope := by
        intro target
        split
        · rw [Dict.lookup_insert_eq, if_neg hsame]
        · rfl
      rw [hlookup]
      simp [hsame]

theorem composed_getOr {scopes : List Bytes} (h : scope ∈ scopes) :
    (composeScopes known scopeMap scopes ∅).getOr scope scope =
      scopeMap.getOr (known.getOr scope scope) (known.getOr scope scope) := by
  unfold Dict.getOr
  rw [composeScopes_lookup]
  dsimp only
  unfold Dict.getOr
  split
  · rfl
  · rename_i hsame
    rw [AList.lookup_empty, Option.getD_none]
    by_contra hne
    exact hsame ⟨h, fun heq => hne heq.symm⟩

theorem groupPath_net (h : GroupPath lease maps group) :
    group.lease = lease ∧
      group.rootIndices.Sublist (List.range lease.columns.rootKinds.length) ∧
      ∀ id scope, InReach lease.columns group.rootIndices id → ScopeAt lease.columns id scope →
        group.scopeMap.getOr scope scope = substituted maps scope := by
  induction h with
  | leaf => exact ⟨rfl, List.Sublist.refl _, fun _ _ _ _ => rfl⟩
  | selected h happlied ih =>
    obtain ⟨hlease, hroots, hnet⟩ := ih
    obtain ⟨hsame, hmap, hsub⟩ := narrowed_same happlied
    refine ⟨hsame.trans hlease, hsub.trans hroots, fun id scope hreach hscope => ?_⟩
    rw [hmap]
    exact hnet id scope (hreach.mono hsub.subset) hscope
  | @mapped maps group group' value reason h hvalid happlied ih =>
    obtain ⟨hlease, hroots, hnet⟩ := ih
    have hsorted := ascending_of_valid hvalid
    unfold composeGroupScopeMap at happlied
    split at happlied
    · rename_i hempty
      cases happlied
      refine ⟨hlease, hroots, fun id scope hreach hscope => ?_⟩
      rw [substituted_append, hnet id scope hreach hscope]
      unfold Encoded.remapped
      rw [scopeMapRows_empty hempty hsorted]
      rfl
    · obtain ⟨reachable, hreachable, happlied⟩ := bind_ok happlied
      obtain ⟨scopes, hscopes, happlied⟩ := bind_ok happlied
      obtain ⟨preserved, -, happlied⟩ := bind_ok happlied
      cases happlied
      refine ⟨hlease, hroots, fun id scope hreach hscope => ?_⟩
      have hin : id ∈ reachable := (reachable_iff hreachable (hlease ▸ hroots) id).mpr (hlease ▸ hreach)
      have hlisted : scope ∈ scopes := by
        rcases scopesFrom_all hscopes (mem_sortOn.mpr hin) (hlease ▸ hscope) with hlisted | hnone
        · exact hlisted
        · cases hnone
      rw [substituted_append]
      dsimp only
      rw [composed_getOr hlisted, hnet id scope hreach hscope]
      unfold Dict.getOr Encoded.remapped
      rw [scopeMapRows_lookup hsorted]

end Groups

/-- The three ways to follow a chain of scope maps. -/
theorem scope_chains_agree {lease : EncodedStructuralLease} {maps : List Bytes}
    {row : RecursiveCompositeRow} {group : ResolvedColumnGroup} (hrow : LeafPath lease maps row)
    (hgroup : GroupPath lease maps group) :
    (∀ id scope, ScopeAt lease.columns id scope →
      (DirectColumns.mk lease.columns row.scopeMaps).remapAnonymousScope scope =
          substituted maps scope ∧
        (DirectColumns.mk lease.columns maps).remapAnonymousScope scope =
          substituted maps scope) ∧
    ∀ reachable, group.reachable = .ok reachable →
      ∀ scope, ScopeOf lease.columns reachable scope →
        group.scopeMap.getOr scope scope = substituted maps scope := by
  obtain ⟨-, hkept, hall, hsame⟩ := leafPath_retained hrow
  obtain ⟨hlease, hroots, hnet⟩ := groupPath_net hgroup
  refine ⟨fun id scope hscope => ?_, fun reachable hreachable scope hscope => ?_⟩
  · rw [remapAnonymousScope_chain _ hkept, remapAnonymousScope_chain _ hall]
    exact ⟨hsame id scope hscope, rfl⟩
  · obtain ⟨id, hid, hat⟩ := hscope
    exact hnet id scope (hlease ▸ (reachable_iff hreachable (hlease ▸ hroots) id).mp hid) hat

section Samples

/-- Two axioms that an individual is the same as two others, of three documents. -/
def joinedLease : EncodedStructuralLease where
  encodedView := 0
  columns :=
    { rootKinds := [ROOT_AXIOM, ROOT_AXIOM]
      rootIds := [4, 5]
      nodeTags := [3, 3, 3, 110, 110]
      nodeFieldOffsets := [0, 2, 4, 6, 8, 10]
      fieldKinds := [3, 3, 3, 3, 3, 3, 6, 6, 6, 6]
      fieldValues := [0, 32, 33, 65, 66, 98, 0, 2, 2, 4]
      fieldLengths := [32, 1, 32, 1, 32, 1, 2, 0, 2, 0]
      itemKinds := [1, 1, 1, 1]
      itemValues := [1, 2, 1, 3]
      itemLengths := [0, 0, 0, 0]
      scalarBytes := List.replicate 32 0 ++ [97] ++ List.replicate 32 1 ++ [97] ++
        List.replicate 32 2 ++ [97]
      maxIriBytes := 64
      maxLiteralBytes := 64
      lowered := id }

/-- The scope of the third document becomes another. -/
def thirdScopeMap : Bytes := List.replicate 32 2 ++ List.replicate 32 9

theorem thirdScopeMap_valid : validateScopeMap thirdScopeMap = .ok () := rfl

theorem third_scopeAt : ScopeAt joinedLease.columns 3 (List.replicate 32 2) := ⟨rfl, rfl⟩

theorem third_row : LeafPath joinedLease [thirdScopeMap]
    ⟨joinedLease, none, none, [thirdScopeMap], [0]⟩ :=
  .mapped (.leaf [0]) thirdScopeMap_valid rfl

theorem joined_reachable : (localResolvedGroup joinedLease).reachable = .ok [2, 4, 1, 3, 5] := rfl

theorem joined_scopes : joinedLease.columns.anonymousScopes [2, 4, 1, 3, 5] =
    .ok [List.replicate 32 0, List.replicate 32 1, List.replicate 32 2] := by
  have hsorted : sortOn id [2, 4, 1, 3, 5] = [1, 2, 3, 4, 5] := by
    have hperm : [2, 4, 1, 3, 5].Perm [1, 2, 3, 4, 5] := by decide
    exact (sortOn_eq_of_perm (fun _ _ _ _ h => h) hperm).trans
      (sortOn_of_sorted (by unfold SortedOn; decide))
  unfold Columns.anonymousScopes
  rw [hsorted]
  rfl

theorem first_reachable : (ResolvedColumnGroup.mk joinedLease [0] ∅).reachable = .ok [1, 2, 4] := rfl

theorem first_scopes : joinedLease.columns.anonymousScopes [1, 2, 4] =
    .ok [List.replicate 32 0, List.replicate 32 1] := by
  have hsorted : sortOn id [1, 2, 4] = [1, 2, 4] := sortOn_of_sorted (by unfold SortedOn; decide)
  unfold Columns.anonymousScopes
  rw [hsorted]
  rfl

/-- A group composes a map over the scopes that its roots reach. -/
theorem composed_of_scopes {group : ResolvedColumnGroup} (value : Bytes)
    {reachable : List Nat} {scopes : List Bytes} (hsome : (scopeMapRows value).entries.isEmpty = false)
    (hreachable : group.reachable = .ok reachable)
    (hscopes : group.lease.columns.anonymousScopes reachable = .ok scopes) :
    ∃ reason, composeGroupScopeMap group (scopeMapRows value) =
      .ok ({ group with
        scopeMap := composeScopes group.scopeMap (scopeMapRows value) scopes ∅ }, reason) := by
  unfold composeGroupScopeMap scopeRemapPreservesOrder
  rw [if_neg (Bool.eq_false_iff.mp hsome), ok_bind _ hreachable, ok_bind _ hscopes]
  dsimp only
  rw [hscopes]
  exact ⟨_, rfl⟩

theorem scope_chains_agree_sample :
    ∃ row group, LeafPath joinedLease [thirdScopeMap] row ∧
      GroupPath joinedLease [thirdScopeMap] group ∧
      (DirectColumns.mk joinedLease.columns row.scopeMaps).remapAnonymousScope
        (List.replicate 32 2) = List.replicate 32 9 ∧
      group.scopeMap.getOr (List.replicate 32 2) (List.replicate 32 2) = List.replicate 32 9 := by
  obtain ⟨reason, hcomposed⟩ := composed_of_scopes thirdScopeMap rfl joined_reachable
    joined_scopes
  have hgroup : GroupPath joinedLease [thirdScopeMap] _ :=
    .mapped .leaf thirdScopeMap_valid hcomposed
  obtain ⟨hrow, hnet⟩ := scope_chains_agree third_row hgroup
  have hthird : substituted [thirdScopeMap] (List.replicate 32 2) = List.replicate 32 9 := rfl
  refine ⟨_, _, third_row, hgroup, (hrow 3 _ third_scopeAt).1.trans hthird, ?_⟩
  exact (hnet _ joined_reachable _ ⟨3, by decide, third_scopeAt⟩).trans hthird

/-- A group that does not select the axiom about an individual forgets the scope. -/
theorem scope_chains_differ_outside :
    ¬∀ (lease : EncodedStructuralLease) (maps : List Bytes) (row : RecursiveCompositeRow)
      (group : ResolvedColumnGroup), LeafPath lease maps row → GroupPath lease maps group →
      ∀ id scope, ScopeAt lease.columns id scope →
        group.scopeMap.getOr scope scope =
          (DirectColumns.mk lease.columns row.scopeMaps).remapAnonymousScope scope := by
  intro h
  have hnarrowed : applyResolvedPostings [localResolvedGroup joinedLease] joinedLease
      POSTINGS_INCLUDE [1, 0, 0, 0] = .ok [⟨joinedLease, [0], ∅⟩] := rfl
  obtain ⟨reason, hcomposed⟩ := composed_of_scopes thirdScopeMap rfl first_reachable
    first_scopes
  have hsame := h joinedLease [thirdScopeMap] _ _ third_row
    (.mapped (.selected .leaf hnarrowed) thirdScopeMap_valid hcomposed) 3 _ third_scopeAt
  revert hsame
  decide

end Samples

end Projector.Native
