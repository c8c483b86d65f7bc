import Projector.Encoded.CanonicalCursor
import Projector.Encoded.ScopeRemap
import Projector.Encoded.Validation
import Projector.Lib.Dict

namespace Projector.Encoded
open Lib Projector.Core Compiler

/-- A validated view. Its identity tells it from other views with equal columns. -/
structure EncodedStructuralLease where
  encodedView : Nat
  columns : Columns

/-- `_ResolvedColumnGroup`: some roots of one table, and where its scopes are mapped. -/
structure ResolvedColumnGroup where
  lease : EncodedStructuralLease
  rootIndices : List Nat
  scopeMap : Dict Bytes Bytes

/-- `_local_resolved_group` -/
def localResolvedGroup (lease : EncodedStructuralLease) : ResolvedColumnGroup :=
  ⟨lease, List.range lease.columns.rootKinds.length, ∅⟩

section Postings

def unsortedPostings : String :=
  "encoded subset postings are not sorted unique source-local references"

/-- The loop of `_posting_indices` over offsets of the postings. -/
def postingIndicesFrom (postings : Bytes) (rootCount : Nat) :
    List Nat → Nat → Finset Nat → Read (Finset Nat)
  | [], _, selected => .ok selected
  | index :: rest, previousRootId, selected =>
    let rootId := readUint postings index 4
    if rootId ≤ previousRootId ∨ rootId > rootCount then reject unsortedPostings
    else postingIndicesFrom postings rootCount rest rootId (insert (rootId - 1) selected)

/-- `_posting_indices` -/
def postingIndices (postings : Bytes) (postingMode : Int) (rootCount : Nat) :
    Read (Finset Nat) :=
  if postingMode = POSTINGS_ALL then
    if postings.length ≠ 0 then reject "encoded subset ALL segment requires empty postings"
    else .ok ∅
  else if ¬(postingMode = POSTINGS_INCLUDE ∨ postingMode = POSTINGS_EXCLUDE) then
    reject "encoded subset posting mode is invalid"
  else if postings.length = 0 then
    reject "encoded subset INCLUDE/EXCLUDE segment requires postings"
  else postingIndicesFrom postings rootCount (List.range ((postings.length + 3) / 4)) 0 ∅

/-- The loop of `_apply_resolved_postings` over groups. -/
def narrowGroups (source : EncodedStructuralLease) (postingMode : Int) (selected : Finset Nat) :
    List ResolvedColumnGroup → List ResolvedColumnGroup
  | [] => []
  | group :: rest =>
    let isSourceLocal := group.lease.encodedView = source.encodedView
    if postingMode = POSTINGS_INCLUDE ∧ ¬isSourceLocal then
      narrowGroups source postingMode selected rest
    else if ¬isSourceLocal then group :: narrowGroups source postingMode selected rest
    else
      let rootIndices :=
        if postingMode = POSTINGS_INCLUDE then group.rootIndices.filter (· ∈ selected)
        else group.rootIndices.filter (· ∉ selected)
      if rootIndices ≠ [] then
        ⟨group.lease, rootIndices, group.scopeMap⟩ ::
          narrowGroups source postingMode selected rest
      else narrowGroups source postingMode selected rest

/-- `_apply_resolved_postings` -/
def applyResolvedPostings (groups : List ResolvedColumnGroup) (source : EncodedStructuralLease)
    (postingMode : Int) (postings : Bytes) : Read (List ResolvedColumnGroup) := do
  let selected ← postingIndices postings postingMode source.columns.rootKinds.length
  if postingMode = POSTINGS_ALL then .ok groups
  else .ok (narrowGroups source postingMode selected groups)

end Postings

section ScopeMaps

/-- The rows of a scope map as `_validated_segment` collects them. -/
def scopeMapRows (value : Bytes) : Dict Bytes Bytes :=
  (List.range (value.length / 64)).foldl
    (fun rows index => rows.insert (scopeSource value index) (scopeTarget value index)) ∅

/-- The loop of `_compose_group_scope_map` over scopes. -/
def composeScopes (known scopeMap : Dict Bytes Bytes) : List Bytes → Dict Bytes Bytes →
    Dict Bytes Bytes
  | [], composed => composed
  | originalScope :: rest, composed =>
    let currentScope := known.getOr originalScope originalScope
    let targetScope := scopeMap.getOr currentScope currentScope
    composeScopes known scopeMap rest
      (if targetScope ≠ originalScope then composed.insert originalScope targetScope else composed)

def remapFallback : String :=
  "encoded recursive segment anonymous scope remap does not preserve canonical order"

/-- The nodes in reach of the roots of a group. -/
def ResolvedColumnGroup.reachable (group : ResolvedColumnGroup) : Read (List Nat) := do
  let roots ← group.rootIndices.mapM group.lease.columns.rootId
  group.lease.columns.reachableNodeIds roots

/-- `_compose_group_scope_map`: the group with the reason for a fallback, if there is one. -/
def composeGroupScopeMap (group : ResolvedColumnGroup) (scopeMap : Dict Bytes Bytes) :
    Read (ResolvedColumnGroup × Option String) :=
  if scopeMap.entries.isEmpty then .ok (group, none)
  else do
    let reachable ← group.reachable
    let scopes ← group.lease.columns.anonymousScopes reachable
    let composed := composeScopes group.scopeMap scopeMap scopes ∅
    let preserved ←
      scopeRemapPreservesOrder group.lease.columns reachable fun scope => composed.lookup scope
    .ok ({ group with scopeMap := composed }, if preserved then none else some remapFallback)

end ScopeMaps

section Selection
variable {postings : Bytes} {mode : Int} {rootCount : Nat}

/-- The identifiers that postings hold. -/
def postingIds (postings : Bytes) : List Nat :=
  (List.range (postings.length / 4)).map (readUint postings · 4)

/-- Postings as a segment may hold them: sorted identifiers of roots, or none for all roots. -/
structure ValidPostings (mode : Int) (rootCount : Nat) (postings : Bytes) : Prop where
  whole : postings.length % 4 = 0
  mode : (mode = POSTINGS_ALL ∧ postings = []) ∨
    ((mode = POSTINGS_INCLUDE ∨ mode = POSTINGS_EXCLUDE) ∧ postings ≠ [])
  sorted : (postingIds postings).Pairwise (· < ·)
  inRange : ∀ id ∈ postingIds postings, 1 ≤ id ∧ id ≤ rootCount

/-- What a mode says of a root, given the identifiers that count from one. -/
def chosen (mode : Int) (ids : List Nat) (index : Nat) : Bool :=
  if mode = POSTINGS_ALL then true
  else if mode = POSTINGS_INCLUDE then decide (index + 1 ∈ ids)
  else decide (index + 1 ∉ ids)

@[simp] theorem chosen_all (ids : List Nat) : chosen POSTINGS_ALL ids = fun _ => true := rfl

@[simp] theorem chosen_include (ids : List Nat) :
    chosen POSTINGS_INCLUDE ids = fun index => decide (index + 1 ∈ ids) := rfl

@[simp] theorem chosen_exclude (ids : List Nat) :
    chosen POSTINGS_EXCLUDE ids = fun index => decide (index + 1 ∉ ids) := rfl

theorem postingIndicesFrom_eq {indices : List Nat} {previous : Nat} (selected : Finset Nat)
    (hsorted : (indices.map (readUint postings · 4)).Pairwise (· < ·))
    (hrange : ∀ id ∈ indices.map (readUint postings · 4), previous < id ∧ id ≤ rootCount) :
    ∃ result, postingIndicesFrom postings rootCount indices previous selected = .ok result ∧
      ∀ root, root ∈ result ↔ root ∈ selected ∨ root + 1 ∈ indices.map (readUint postings · 4) := by
  induction indices generalizing previous selected with
  | nil => exact ⟨selected, rfl, fun root => by simp⟩
  | cons index rest ih =>
    rw [List.map_cons] at hsorted hrange
    obtain ⟨hlt, hle⟩ := hrange _ List.mem_cons_self
    obtain ⟨hafter, hrest⟩ := List.pairwise_cons.mp hsorted
    have hlater : ∀ id ∈ rest.map (readUint postings · 4),
        readUint postings index 4 < id ∧ id ≤ rootCount :=
      fun id hid => ⟨hafter id hid, (hrange id (List.mem_cons_of_mem _ hid)).2⟩
    obtain ⟨result, hresult, hmem⟩ := ih (insert (readUint postings index 4 - 1) selected) hrest hlater
    refine ⟨result, ?_, fun root => ?_⟩
    · unfold postingIndicesFrom
      rw [if_neg (by omega)]
      exact hresult
    · have hshift : root = readUint postings index 4 - 1 ↔ root + 1 = readUint postings index 4 := by
        omega
      rw [hmem, Finset.mem_insert, hshift, List.map_cons, List.mem_cons]
      tauto

theorem postingIndices_eq (h : ValidPostings mode rootCount postings) :
    ∃ selected, postingIndices postings mode rootCount = .ok selected ∧
      ∀ root, root ∈ selected ↔ root + 1 ∈ postingIds postings := by
  unfold postingIndices
  rcases h.mode with ⟨rfl, rfl⟩ | ⟨hmode, hsome⟩
  · exact ⟨∅, rfl, fun root => by simp [postingIds]⟩
  · have hnotAll : mode ≠ POSTINGS_ALL := by
      rcases hmode with rfl | rfl <;> decide
    have hlength : postings.length ≠ 0 := fun he => hsome (List.length_eq_zero_iff.mp he)
    have hturns : (postings.length + 3) / 4 = postings.length / 4 := by
      have := h.whole
      omega
    obtain ⟨selected, hselected, hmem⟩ := postingIndicesFrom_eq ∅ h.sorted
      fun id hid => ⟨(h.inRange id hid).1, (h.inRange id hid).2⟩
    rw [if_neg hnotAll, if_neg (not_not.mpr hmode), if_neg hlength, hturns]
    exact ⟨selected, hselected, fun root => by simp [hmem, postingIds]⟩

/-- The roots that groups hold of one table. -/
def localRoots (source : EncodedStructuralLease) (groups : List ResolvedColumnGroup) : List Nat :=
  groups.flatMap fun group =>
    if group.lease.encodedView = source.encodedView then group.rootIndices else []

/-- The groups of the other tables. -/
def foreignGroups (source : EncodedStructuralLease) (groups : List ResolvedColumnGroup) :
    List ResolvedColumnGroup :=
  groups.filter fun group => decide (group.lease.encodedView ≠ source.encodedView)

theorem localRoots_local (lease : EncodedStructuralLease) :
    localRoots lease [localResolvedGroup lease] = List.range lease.columns.rootKinds.length := by
  simp [localRoots, localResolvedGroup]

theorem narrowGroups_local {source : EncodedStructuralLease} {selected : Finset Nat}
    (hmem : ∀ root, root ∈ selected ↔ root + 1 ∈ postingIds postings) (hmode : mode ≠ POSTINGS_ALL)
    (groups : List ResolvedColumnGroup) :
    localRoots source (narrowGroups source mode selected groups) =
      (localRoots source groups).filter (chosen mode (postingIds postings)) := by
  have hchosen : chosen mode (postingIds postings) = fun root =>
      if mode = POSTINGS_INCLUDE then decide (root ∈ selected) else decide (root ∉ selected) := by
    funext root
    unfold chosen
    rw [if_neg hmode]
    simp only [hmem]
  induction groups with
  | nil => rfl
  | cons group rest ih =>
    have hsplit : localRoots source (group :: rest) =
        (if group.lease.encodedView = source.encodedView then group.rootIndices else []) ++
          localRoots source rest := rfl
    unfold narrowGroups
    dsimp only
    by_cases hlocal : group.lease.encodedView = source.encodedView
    · have hroots : (if mode = POSTINGS_INCLUDE then group.rootIndices.filter (· ∈ selected)
            else group.rootIndices.filter (· ∉ selected)) =
          group.rootIndices.filter (chosen mode (postingIds postings)) := by
        rw [hchosen]
        split <;> rfl
      rw [if_neg fun h => h.2 hlocal, if_neg (not_not.mpr hlocal), hroots, hsplit, if_pos hlocal,
        List.filter_append]
      split
      · rw [← ih]
        simp [localRoots, hlocal]
      · rename_i hempty
        rw [not_not.mp hempty, ih, List.nil_append]
    · rw [hsplit, if_neg hlocal, List.nil_append]
      by_cases hinclude : mode = POSTINGS_INCLUDE
      · rw [if_pos ⟨hinclude, hlocal⟩]
        exact ih
      · rw [if_neg fun h => hinclude h.1, if_pos hlocal, ← ih]
        simp [localRoots, hlocal]

theorem narrowGroups_foreign {source : EncodedStructuralLease} {selected : Finset Nat}
    (groups : List ResolvedColumnGroup) :
    foreignGroups source (narrowGroups source mode selected groups) =
      if mode = POSTINGS_INCLUDE then [] else foreignGroups source groups := by
  induction groups with
  | nil => simp [narrowGroups, foreignGroups]
  | cons group rest ih =>
    unfold narrowGroups
    dsimp only
    by_cases hlocal : group.lease.encodedView = source.encodedView
    · have hdrop : foreignGroups source (group :: rest) = foreignGroups source rest := by
        simp [foreignGroups, hlocal]
      rw [if_neg fun h => h.2 hlocal, if_neg (not_not.mpr hlocal), hdrop, ← ih]
      generalize (if mode = POSTINGS_INCLUDE then group.rootIndices.filter (· ∈ selected)
        else group.rootIndices.filter (· ∉ selected)) = rootIndices
      by_cases hempty : rootIndices = []
      · rw [if_neg (not_not.mpr hempty)]
      · rw [if_pos hempty]
        simp [foreignGroups, hlocal]
    · have hkeep : ∀ groups, foreignGroups source (group :: groups) =
          group :: foreignGroups source groups := fun groups => by
        simp [foreignGroups, hlocal]
      by_cases hmode : mode = POSTINGS_INCLUDE
      · rw [if_pos ⟨hmode, hlocal⟩, ih, if_pos hmode, if_pos hmode]
      · rw [if_neg fun h => hmode h.1, if_pos hlocal, hkeep, hkeep, ih, if_neg hmode, if_neg hmode]

/-- Postings leave the chosen roots of their table; only INCLUDE drops the other tables. -/
theorem applyResolvedPostings_eq (source : EncodedStructuralLease)
    (h : ValidPostings mode source.columns.rootKinds.length postings)
    (groups : List ResolvedColumnGroup) :
    ∃ result, applyResolvedPostings groups source mode postings = .ok result ∧
      localRoots source result =
        (localRoots source groups).filter (chosen mode (postingIds postings)) ∧
      foreignGroups source result =
        if mode = POSTINGS_INCLUDE then [] else foreignGroups source groups := by
  obtain ⟨selected, hselected, hmem⟩ := postingIndices_eq h
  unfold applyResolvedPostings
  rw [ok_bind _ hselected]
  by_cases hmode : mode = POSTINGS_ALL
  · refine ⟨groups, if_pos hmode, ?_, ?_⟩
    · have hall : ∀ root ∈ localRoots source groups,
          chosen mode (postingIds postings) root = true := fun _ _ => if_pos hmode
      rw [List.filter_eq_self.mpr hall]
    · subst hmode
      rfl
  · exact ⟨_, if_neg hmode, narrowGroups_local hmem hmode groups, narrowGroups_foreign groups⟩

end Selection

end Projector.Encoded
