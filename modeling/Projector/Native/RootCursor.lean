import Projector.Encoded.ResolvedGroups
import Projector.Native.Metered
import Projector.Native.RootSelection

namespace Projector.Native
open Lib Projector.Core Projector.Encoded

structure CanonicalRootRef where
  index : Nat
  kind : Nat
  nodeId : Nat
  deriving DecidableEq, Repr

/-- Where a merge stands in the roots of a table and in its postings. -/
structure RootCursor where
  position : Nat
  postingPosition : Nat

def RootCursor.start : RootCursor := ⟨0, 0⟩

/-- The merge has used the root that it was given. -/
def RootCursor.next (cursor : RootCursor) : RootCursor :=
  { cursor with position := cursor.position + 1 }

namespace SelectedColumns
variable {β : Type} (m : Meter β) (d : SelectedColumns)

def rootRef (index : Nat) : Except KernelError CanonicalRootRef := do
  let kind ← d.rootKind index
  let nodeId ← d.rootId index
  .ok ⟨index, kind, nodeId⟩

/-- The loop over postings of `selected_root`: whether one of those left names the root. -/
def matchPosting (rootPosition : Nat) : Nat → Nat → Metered β (Bool × Nat)
  | 0, postingPosition => pure (false, postingPosition)
  | left + 1, postingPosition => do
    m.consumed 1
    let candidate ← lift (d.rootPosition postingPosition)
    if candidate < rootPosition then matchPosting rootPosition left (postingPosition + 1)
    else if candidate = rootPosition then
      pure (true, if d.included then postingPosition else postingPosition + 1)
    else pure (false, postingPosition)

/-- The loop over roots of `selected_root`. -/
def selectedRootFrom : Nat → RootCursor → Metered β (Option CanonicalRootRef × RootCursor)
  | 0, cursor => pure (none, cursor)
  | left + 1, cursor => do
    m.consumed 1
    let rootPosition ←
      lift (checkedAdd cursor.position 1 "encoded canonical root position overflow")
    let (matched, postingPosition) ← matchPosting m d rootPosition
      (d.postings.length - cursor.postingPosition) cursor.postingPosition
    if (if d.included then matched else !matched) = true then do
      let root ← lift (d.rootRef cursor.position)
      pure (some root, ⟨cursor.position, postingPosition⟩)
    else selectedRootFrom left ⟨cursor.position + 1, postingPosition⟩

/-- `selected_root` -/
def selectedRoot (cursor : RootCursor) : Metered β (Option CanonicalRootRef × RootCursor) :=
  selectedRootFrom m d (d.rootCount - cursor.position) cursor

/-- Requests of a merge that uses the root it is given, or leaves it for the next request. -/
def requestRoots : List Bool → RootCursor → Metered β (List (Option CanonicalRootRef))
  | [], _ => pure []
  | used :: rest, cursor => do
    let (root, cursor) ← selectedRoot m d cursor
    let roots ← requestRoots rest (if used && root.isSome then cursor.next else cursor)
    pure (root :: roots)

/-- What the columns hold of a root. -/
def refAt (index : Nat) : CanonicalRootRef :=
  ⟨index, (d.direct.columns.rootKinds[index]?).getD 0, (d.direct.columns.rootIds[index]?).getD 0⟩

/-- The selected roots from a position on. -/
def rest (position : Nat) : List CanonicalRootRef :=
  ((List.range' position (d.rootCount - position)).filter d.selects).map d.refAt

/-- Every root can be read, and there are no more than the machine can count. -/
structure ReadableRoots : Prop where
  fits : d.rootCount < usizeLimit
  read : ∀ index < d.rootCount, d.rootRef index = .ok (d.refAt index)

/-- The postings before a place name roots up to a position. -/
structure Passed (bound postingPosition : Nat) : Prop where
  inside : postingPosition ≤ d.postings.length
  upTo : ∀ p ∈ d.postings.take postingPosition, p ≤ bound

end SelectedColumns

section Cursor
variable {β : Type} {m : Meter β} {d : SelectedColumns} {bound postingPosition : Nat}

theorem passed_start : d.Passed 0 0 := ⟨Nat.zero_le _, fun _ hp => absurd hp List.not_mem_nil⟩

theorem SelectedColumns.Passed.mono (h : d.Passed bound postingPosition) {more : Nat}
    (hle : bound ≤ more) : d.Passed more postingPosition :=
  ⟨h.inside, fun p hp => le_trans (h.upTo p hp) hle⟩

theorem SelectedColumns.Passed.step (h : d.Passed bound postingPosition)
    (hin : postingPosition < d.postings.length) {more : Nat} (hle : bound ≤ more)
    (hnext : d.postings[postingPosition] ≤ more) : d.Passed more (postingPosition + 1) := by
  refine ⟨hin, fun p hp => ?_⟩
  rw [List.take_succ_eq_append_getElem hin] at hp
  rcases List.mem_append.mp hp with hp | hp
  · exact le_trans (h.upTo p hp) hle
  · rw [List.mem_singleton.mp hp]
    exact hnext

/-- What no posting that is left may name is not named at all. -/
theorem not_named (hsorted : d.postings.Pairwise (· < ·)) {rootPosition : Nat}
    (h : d.Passed bound postingPosition) (hbound : bound < rootPosition)
    (hnext : ∀ hin : postingPosition < d.postings.length,
      rootPosition < d.postings[postingPosition]) : rootPosition ∉ d.postings := by
  intro hmem
  rw [← List.take_append_drop postingPosition d.postings, List.mem_append] at hmem
  rcases hmem with hpassed | hleft
  · have := h.upTo rootPosition hpassed
    omega
  · obtain ⟨i, hi, hget⟩ := List.getElem_of_mem hleft
    rw [List.length_drop] at hi
    rw [List.getElem_drop] at hget
    have hin : postingPosition < d.postings.length := by omega
    have hfirst := hnext hin
    rcases Nat.eq_zero_or_pos i with rfl | hpos
    · simp only [Nat.add_zero] at hget
      omega
    · have := List.pairwise_iff_getElem.mp hsorted postingPosition (postingPosition + i) hin
        (by omega) (by omega)
      omega

/-- The postings tell whether they name a root, and those that are passed do not come again. -/
theorem matchPosting_gives (hsorted : d.postings.Pairwise (· < ·)) {rootPosition left : Nat}
    (hleft : postingPosition + left = d.postings.length)
    (h : d.Passed bound postingPosition) (hbound : bound < rootPosition) :
    ∃ reached, Gives m (d.matchPosting m rootPosition left postingPosition)
        (decide (rootPosition ∈ d.postings), reached) ∧ d.Passed rootPosition reached ∧
      (rootPosition ∈ d.postings → d.included = false ∨ d.Passed (rootPosition - 1) reached) ∧
      (rootPosition ∉ d.postings → d.Passed (rootPosition - 1) reached) := by
  induction left generalizing bound postingPosition with
  | zero =>
    have habsent : rootPosition ∉ d.postings :=
      not_named hsorted h hbound fun hin => absurd hin (by omega)
    rw [decide_eq_false habsent]
    exact ⟨postingPosition, .pure, h.mono (by omega), fun hmem => absurd hmem habsent,
      fun _ => h.mono (by omega)⟩
  | succ left ih =>
    have hin : postingPosition < d.postings.length := by omega
    unfold SelectedColumns.matchPosting
    rcases Nat.lt_trichotomy d.postings[postingPosition] rootPosition with hlt | heq | hgt
    · have hstep : d.Passed (rootPosition - 1) (postingPosition + 1) :=
        h.step hin (by omega) (by omega)
      obtain ⟨reached, hgives, hpassed⟩ := ih (by omega) hstep (by omega)
      refine ⟨reached, ?_, hpassed⟩
      refine (Gives.consumed 1).bind ((Gives.lift (rootPosition_ok hin)).bind ?_)
      rw [if_pos hlt]
      exact hgives
    · have hmem : rootPosition ∈ d.postings := heq ▸ List.getElem_mem hin
      rw [decide_eq_true hmem]
      refine ⟨if d.included then postingPosition else postingPosition + 1, ?_, ?_, ?_,
        fun habsent => absurd hmem habsent⟩
      · refine (Gives.consumed 1).bind ((Gives.lift (rootPosition_ok hin)).bind ?_)
        rw [if_neg (by omega), if_pos heq]
        exact .pure
      · split
        · exact h.mono (by omega)
        · exact h.step hin (by omega) (le_of_eq heq)
      · intro _
        cases hincluded : d.included with
        | false => exact .inl rfl
        | true =>
          rw [if_pos rfl]
          exact .inr (h.mono (by omega))
    · have habsent : rootPosition ∉ d.postings := not_named hsorted h hbound fun _ => hgt
      rw [decide_eq_false habsent]
      refine ⟨postingPosition, ?_, h.mono (by omega), fun hmem => absurd hmem habsent,
        fun _ => h.mono (by omega)⟩
      refine (Gives.consumed 1).bind ((Gives.lift (rootPosition_ok hin)).bind ?_)
      rw [if_neg (by omega), if_neg (by omega)]
      exact .pure

theorem rest_end (position : Nat) (h : d.rootCount ≤ position) : d.rest position = [] := by
  unfold SelectedColumns.rest
  rw [Nat.sub_eq_zero_of_le h]
  rfl

theorem rest_step {position : Nat} (h : position < d.rootCount) :
    d.rest position =
      if d.selects position then d.refAt position :: d.rest (position + 1)
      else d.rest (position + 1) := by
  have hcount : d.rootCount - position = (d.rootCount - (position + 1)) + 1 := by omega
  unfold SelectedColumns.rest
  rw [hcount, List.range'_succ, List.filter_cons]
  split
  · rw [List.map_cons]
  · rfl

/-- A cursor that has passed only postings of roots before its own. -/
def SelectedColumns.Stands (d : SelectedColumns) (cursor : RootCursor) : Prop :=
  d.Passed cursor.position cursor.postingPosition

theorem stands_start : d.Stands .start := passed_start

theorem SelectedColumns.Stands.next {cursor : RootCursor} (h : d.Stands cursor) :
    d.Stands cursor.next := h.mono (Nat.le_succ _)

/-- The next selected root, and a cursor that stands on it. -/
theorem selectedRoot_gives (hsorted : d.postings.Pairwise (· < ·)) (hroots : d.ReadableRoots)
    {cursor : RootCursor} (h : d.Stands cursor) :
    ∃ cursor', Gives m (d.selectedRoot m cursor) ((d.rest cursor.position).head?, cursor') ∧
      d.Stands cursor' ∧ d.rest cursor'.position = d.rest cursor.position ∧
      ((d.rest cursor.position).head?.isSome → d.rest cursor'.next.position =
        (d.rest cursor.position).tail) := by
  unfold SelectedColumns.selectedRoot
  generalize hleft : d.rootCount - cursor.position = left
  induction left generalizing cursor with
  | zero =>
    rw [rest_end cursor.position (by omega)]
    exact ⟨cursor, .pure, h, rest_end cursor.position (by omega), fun hsome => (by cases hsome)⟩
  | succ left ih =>
    have hin : cursor.position < d.rootCount := by omega
    have hfits := hroots.fits
    have hadd : checkedAdd cursor.position 1 "encoded canonical root position overflow" =
        .ok (cursor.position + 1) := if_pos (by omega)
    have hcount : cursor.postingPosition + (d.postings.length - cursor.postingPosition) =
        d.postings.length := Nat.add_sub_cancel' h.inside
    obtain ⟨reached, hmatch, hpassed, hnamed, hunnamed⟩ :=
      matchPosting_gives (m := m) hsorted hcount h (Nat.lt_succ_self _)
    have hselects : (if d.included then decide (cursor.position + 1 ∈ d.postings)
        else !decide (cursor.position + 1 ∈ d.postings)) = d.selects cursor.position := by
      unfold SelectedColumns.selects
      split
      · rfl
      · rw [decide_not]
    unfold SelectedColumns.selectedRootFrom
    rw [rest_step hin]
    by_cases hselected : d.selects cursor.position = true
    · rw [if_pos hselected]
      refine ⟨⟨cursor.position, reached⟩, ?_, ?_, ?_, fun _ => rfl⟩
      · refine (Gives.consumed 1).bind ((Gives.lift hadd).bind (hmatch.bind ?_))
        dsimp only
        rw [hselects, if_pos hselected]
        exact (Gives.lift (hroots.read _ hin)).bind .pure
      · change d.Passed cursor.position reached
        by_cases hmem : cursor.position + 1 ∈ d.postings
        · rcases hnamed hmem with hexcluded | hbefore
          · unfold SelectedColumns.selects at hselected
            rw [hexcluded] at hselected
            simp [hmem] at hselected
          · exact hbefore
        · exact hunnamed hmem
      · rw [rest_step hin, if_pos hselected]
    · rw [if_neg hselected]
      have hstands : d.Stands ⟨cursor.position + 1, reached⟩ := hpassed
      obtain ⟨cursor', hgives, hrest⟩ := ih hstands (by dsimp only; omega)
      refine ⟨cursor', ?_, hrest⟩
      refine (Gives.consumed 1).bind ((Gives.lift hadd).bind (hmatch.bind ?_))
      dsimp only
      rw [hselects, if_neg hselected]
      exact hgives

/-- What a list answers to requests that use up its head or leave it. -/
def answers {α : Type} : List Bool → List α → List (Option α)
  | [], _ => []
  | used :: rest, values => values.head? :: answers rest (if used then values.tail else values)

theorem answers_all {α : Type} (values : List α) :
    answers (List.replicate (values.length + 1) true) values = values.map some ++ [none] := by
  induction values with
  | nil => rfl
  | cons value values ih => exact congrArg (some value :: ·) ih

/-- Whatever a merge uses, it is given the selected roots in their order. -/
theorem requestRoots_gives (hsorted : d.postings.Pairwise (· < ·)) (hroots : d.ReadableRoots)
    (moves : List Bool) {cursor : RootCursor} (h : d.Stands cursor) :
    Gives m (d.requestRoots m moves cursor) (answers moves (d.rest cursor.position)) := by
  induction moves generalizing cursor with
  | nil => exact .pure
  | cons used moves ih =>
    obtain ⟨cursor', hgives, hstands, hsame, htail⟩ := selectedRoot_gives (m := m) hsorted hroots h
    unfold SelectedColumns.requestRoots answers
    refine hgives.bind ?_
    dsimp only
    cases hhead : (d.rest cursor.position).head? with
    | none =>
      have hnil : d.rest cursor.position = [] := List.head?_eq_none_iff.mp hhead
      have hrest := ih hstands
      rw [hsame, hnil] at hrest
      rw [hnil]
      simp only [Option.isSome_none, Bool.and_false, Bool.false_eq_true, if_false, List.tail_nil,
        ite_self]
      exact hrest.bind .pure
    | some root =>
      cases used with
      | true =>
        have hrest := ih hstands.next
        rw [htail (by rw [hhead]; rfl)] at hrest
        exact hrest.bind .pure
      | false =>
        have hrest := ih hstands
        rw [hsame] at hrest
        exact hrest.bind .pure

end Cursor

section Agreement
variable {β : Type} {d : SelectedColumns} {columns : DirectColumns} {mode : Int} {postings : Bytes}

/-- What `validate_generic` checks of the root columns. -/
structure SoundRoots (cols : Columns) : Prop where
  paired : cols.rootIds.length = cols.rootKinds.length
  inRange : ∀ id ∈ cols.rootIds, 1 ≤ id ∧ id ≤ cols.nodeCount

theorem SoundRoots.readable (h : SoundRoots d.direct.columns) (hfits : d.rootCount < usizeLimit) :
    d.ReadableRoots where
  fits := hfits
  read index hindex := by
    have hkinds : index < d.direct.columns.rootKinds.length := hindex
    have hids : index < d.direct.columns.rootIds.length := h.paired ▸ hkinds
    have hkind : d.rootKind index = .ok d.direct.columns.rootKinds[index] := by
      unfold SelectedColumns.rootKind
      rw [List.getElem?_eq_getElem hkinds]
    have hid : d.rootId index = .ok d.direct.columns.rootIds[index] := by
      unfold SelectedColumns.rootId readUsize
      rw [List.getElem?_eq_getElem hids]
      exact if_pos (h.inRange _ (List.getElem_mem hids))
    unfold SelectedColumns.rootRef SelectedColumns.refAt
    rw [ok_bind _ hkind, ok_bind _ hid, List.getElem?_eq_getElem hkinds,
      List.getElem?_eq_getElem hids]
    rfl

/-- The postings of a segment, where its mode puts them. -/
def selectedBy (columns : DirectColumns) (mode : Int) (postings : Bytes) : SelectedColumns :=
  ⟨columns, if mode = POSTINGS_INCLUDE then postingIds postings else [],
    if mode = POSTINGS_EXCLUDE then postingIds postings else []⟩

theorem postingIds_ne_nil (hwhole : postings.length % 4 = 0) (hsome : postings ≠ []) :
    postingIds postings ≠ [] := by
  intro he
  have hlength := congrArg List.length he
  have hpos := List.length_pos_of_ne_nil hsome
  simp [postingIds] at hlength
  omega

theorem checkPostings_of_sorted {message : String} {previous : Nat} {positions : List Nat}
    (hsorted : positions.Pairwise (· < ·))
    (hrange : ∀ p ∈ positions, previous < p ∧ p ≤ d.rootCount) :
    d.checkPostings message previous positions = .ok () := by
  induction positions generalizing previous with
  | nil => rfl
  | cons position rest ih =>
    obtain ⟨hlt, hle⟩ := hrange position List.mem_cons_self
    obtain ⟨hafter, hrest⟩ := List.pairwise_cons.mp hsorted
    unfold SelectedColumns.checkPostings
    rw [if_neg (by omega)]
    exact ih hrest fun p hp => ⟨hafter p hp, (hrange p (List.mem_cons_of_mem _ hp)).2⟩

theorem selectedBy_valid (h : ValidPostings mode columns.columns.rootCount postings) :
    (selectedBy columns mode postings).validatePostings = .ok () := by
  have hcheck : ∀ {message : String}, (selectedBy columns mode postings).checkPostings message 0
      (postingIds postings) = .ok () :=
    checkPostings_of_sorted h.sorted fun p hp => ⟨(h.inRange p hp).1, (h.inRange p hp).2⟩
  unfold SelectedColumns.validatePostings
  by_cases hinclude : mode = POSTINGS_INCLUDE
  · have hexclude : mode ≠ POSTINGS_EXCLUDE := by
      rw [hinclude]
      decide
    simp only [selectedBy, if_pos hinclude, if_neg hexclude] at hcheck ⊢
    rw [if_neg fun h => h.2 rfl, ok_bind _ hcheck]
    rfl
  · by_cases hexclude : mode = POSTINGS_EXCLUDE
    · simp only [selectedBy, if_neg hinclude, if_pos hexclude] at hcheck ⊢
      rw [if_neg fun h => h.1 rfl]
      exact hcheck
    · simp only [selectedBy, if_neg hinclude, if_neg hexclude]
      rfl

theorem selectedBy_selects (h : ValidPostings mode columns.columns.rootCount postings) :
    (selectedBy columns mode postings).selects = chosen mode (postingIds postings) := by
  funext index
  unfold SelectedColumns.selects SelectedColumns.postings SelectedColumns.included chosen
  rcases h.mode with ⟨rfl, rfl⟩ | ⟨rfl | rfl, hsome⟩
  · rfl
  · have hne := postingIds_ne_nil h.whole hsome
    simp [selectedBy, hne, POSTINGS_ALL, POSTINGS_INCLUDE]
  · simp [selectedBy, POSTINGS_ALL, POSTINGS_INCLUDE, POSTINGS_EXCLUDE]

/-- Sorted identifiers from one to a count name as many positions as they are. -/
theorem count_named {ids : List Nat} {count : Nat} (hsorted : ids.Pairwise (· < ·))
    (hrange : ∀ id ∈ ids, 1 ≤ id ∧ id ≤ count) :
    ((List.range count).filter fun index => decide (index + 1 ∈ ids)).length = ids.length := by
  have hperm : (((List.range count).filter fun index => decide (index + 1 ∈ ids)).map
      Nat.succ).Perm ids := by
    have hleft : (((List.range count).filter fun index => decide (index + 1 ∈ ids)).map
        Nat.succ).Nodup := (List.nodup_range.filter _).map Nat.succ_injective
    have hright : ids.Nodup := hsorted.imp fun h => Nat.ne_of_lt h
    refine (List.perm_ext_iff_of_nodup hleft hright).mpr fun id => ?_
    constructor
    · intro hid
      obtain ⟨index, hindex, rfl⟩ := List.mem_map.mp hid
      exact of_decide_eq_true (List.mem_filter.mp hindex).2
    · intro hid
      obtain ⟨hpos, hle⟩ := hrange id hid
      have hshift : id - 1 + 1 = id := by omega
      refine List.mem_map.mpr ⟨id - 1, List.mem_filter.mpr ⟨?_, ?_⟩, hshift⟩
      · exact List.mem_range.mpr (by omega)
      · rw [hshift]
        exact decide_eq_true hid
  rw [← hperm.length_eq, List.length_map]

theorem selectedBy_count (h : ValidPostings mode columns.columns.rootCount postings) :
    (selectedBy columns mode postings).selectedRootCount =
      .ok ((List.range columns.columns.rootCount).filter
        (chosen mode (postingIds postings))).length := by
  have hcount := count_named h.sorted h.inRange
  have hroots : (selectedBy columns mode postings).rootCount = columns.columns.rootCount := rfl
  unfold SelectedColumns.selectedRootCount SelectedColumns.included
  rw [hroots]
  rcases h.mode with ⟨rfl, rfl⟩ | ⟨rfl | rfl, hsome⟩
  · rw [chosen_all]
    simp [selectedBy, POSTINGS_ALL, POSTINGS_INCLUDE, POSTINGS_EXCLUDE]
  · have hne := postingIds_ne_nil h.whole hsome
    rw [chosen_include, hcount]
    simp [selectedBy, hne]
  · have hsplit := List.length_eq_length_filter_add (l := List.range columns.columns.rootCount)
      fun index => decide (index + 1 ∈ postingIds postings)
    rw [List.length_range, hcount] at hsplit
    have hle : (postingIds postings).length ≤ columns.columns.rootCount := by omega
    have hleft : columns.columns.rootCount - (postingIds postings).length =
        ((List.range columns.columns.rootCount).filter fun index =>
          decide (index + 1 ∉ postingIds postings)).length := by
      simp only [decide_not]
      omega
    rw [chosen_exclude, ← hleft]
    simp [selectedBy, POSTINGS_INCLUDE, POSTINGS_EXCLUDE, hle]

theorem selectedBy_rest (h : ValidPostings mode columns.columns.rootCount postings) :
    (selectedBy columns mode postings).rest 0 =
      ((List.range columns.columns.rootCount).filter (chosen mode (postingIds postings))).map
        (selectedBy columns mode postings).refAt := by
  unfold SelectedColumns.rest
  rw [selectedBy_selects h, List.range_eq_range']
  rfl

theorem root_selection_agrees (m : Meter β)
    (h : ValidPostings mode columns.columns.rootCount postings)
    (hsound : SoundRoots columns.columns) (hfits : columns.columns.rootCount < usizeLimit) :
    let d := selectedBy columns mode postings
    let isChosen := chosen mode (postingIds postings)
    let roots := (List.range columns.columns.rootCount).filter isChosen
    d.validatePostings = .ok () ∧
    (∀ index < columns.columns.rootCount, d.rootIsSelected index = .ok (isChosen index)) ∧
    d.selectedRootCount = .ok roots.length ∧
    (∀ moves, Gives m (d.requestRoots m moves .start) (answers moves (roots.map d.refAt))) ∧
    Gives m (d.requestRoots m (List.replicate (roots.length + 1) true) .start)
      (roots.map (some ∘ d.refAt) ++ [none]) ∧
    roots.Pairwise (· < ·) ∧
    (∃ selected, postingIndices postings mode columns.columns.rootCount = .ok selected ∧
      ∀ index, index ∈ selected ↔ index + 1 ∈ postingIds postings) ∧
    ∀ lease, lease.columns = columns.columns →
      (∃ result, applyResolvedPostings [localResolvedGroup lease] lease mode postings =
        .ok result ∧ localRoots lease result = roots) ∧
      ∀ groups, ∃ result, applyResolvedPostings groups lease mode postings = .ok result ∧
        localRoots lease result = (localRoots lease groups).filter isChosen ∧
        foreignGroups lease result =
          if mode = POSTINGS_INCLUDE then [] else foreignGroups lease groups := by
  intro d isChosen roots
  have hvalid : d.validatePostings = .ok () := selectedBy_valid h
  have hreadable : d.ReadableRoots := hsound.readable hfits
  have hrequests : ∀ moves, Gives m (d.requestRoots m moves .start)
      (answers moves (roots.map d.refAt)) := fun moves => by
    rw [← selectedBy_rest h]
    exact requestRoots_gives (validatePostings_ok hvalid) hreadable moves stands_start
  refine ⟨hvalid, fun index hindex => ?_, selectedBy_count h, hrequests, ?_,
    List.pairwise_lt_range.filter _, postingIndices_eq h, fun lease hlease => ?_⟩
  · rw [rootIsSelected_eq hvalid (by omega)]
    exact congrArg (fun selects => Except.ok (selects index)) (selectedBy_selects h)
  · have hall := hrequests (List.replicate ((roots.map d.refAt).length + 1) true)
    rw [answers_all, List.map_map, List.length_map] at hall
    exact hall
  · have hcolumns : ValidPostings mode lease.columns.rootKinds.length postings := by
      rw [hlease]
      exact h
    have hresult := applyResolvedPostings_eq lease hcolumns
    refine ⟨?_, hresult⟩
    obtain ⟨result, happlied, hlocal, -⟩ := hresult [localResolvedGroup lease]
    refine ⟨result, happlied, hlocal.trans ?_⟩
    rw [localRoots_local, hlease]
    rfl

end Agreement

section Samples

/-- Three roots that are one node. -/
def threeRoots : Columns :=
  ⟨[2, 2, 2], [1, 1, 1], [1], [0, 0], [], [], [], [], [], [], [], 0, 0, id⟩

theorem root_selection_agrees_sample :
    (selectedBy ⟨threeRoots, []⟩ POSTINGS_EXCLUDE [2, 0, 0, 0]).selectedRootCount = .ok 2 := by
  have hvalid : ValidPostings POSTINGS_EXCLUDE (DirectColumns.mk threeRoots []).columns.rootCount
      [2, 0, 0, 0] := ⟨rfl, .inr ⟨.inr rfl, List.cons_ne_nil _ _⟩, by decide, by decide⟩
  exact (root_selection_agrees freeMeter hvalid ⟨rfl, by decide⟩
    (by decide)).2.2.1

end Samples

end Projector.Native
