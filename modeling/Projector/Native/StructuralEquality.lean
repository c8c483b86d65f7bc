import Projector.Native.Sorting
import Projector.Native.Components
import Projector.Native.ReadProofs
import Projector.Encoded.StoredPieces

namespace Projector.Native
open Lib Projector.Core Projector.Encoded

abbrev NodePair := Nat × Nat

section Walk
variable {β : Type} (m : Meter β) (left right : DirectColumns)

/-- A pair that is neither compared nor waiting is left for later. -/
def pushPair (visited : List NodePair) (pair : NodePair) (waiting : List NodePair) :
    Metered β (List NodePair) :=
  if pair ∉ visited ∧ pair ∉ waiting then do
    m.grown waiting.length
    pure (pair :: waiting)
  else pure waiting

/-- Two components of one kind and one length that are no collections: nothing if they differ,
or else the pairs that are left to compare. -/
def compareLeaves (message : String) (visited : List NodePair)
    (kind leftValue rightValue length : Nat) (waiting : List NodePair) :
    Metered β (Option (List NodePair)) :=
  if kind = COMPONENT_NONE then
    pure (if leftValue ≠ 0 ∨ rightValue ≠ 0 then none else some waiting)
  else if kind = COMPONENT_NODE then do
    let leftNode ← lift (left.checkedNodeId leftValue)
    let rightNode ← lift (right.checkedNodeId rightValue)
    let waiting ← pushPair m visited (leftNode, rightNode) waiting
    pure (some waiting)
  else if kind = COMPONENT_TEXT ∨ kind = COMPONENT_BYTES ∨ kind = COMPONENT_INTEGER ∨
      kind = COMPONENT_ENUM then do
    let leftPayload ← lift (left.scalarRange leftValue length)
    let rightPayload ← lift (right.scalarRange rightValue length)
    pure (if leftPayload ≠ rightPayload then none else some waiting)
  else malformed message

def provenanceItemKind (d : DirectColumns) (index : Nat) : Except KernelError Nat :=
  match d.columns.itemKinds[index]? with
  | some kind => .ok kind
  | none => .error (.malformed "encoded provenance collection item is out of range")

def compareItem (visited : List NodePair) (leftItem rightItem : Nat) (waiting : List NodePair) :
    Metered β (Option (List NodePair)) := do
  let kind ← lift (provenanceItemKind left leftItem)
  let otherKind ← lift (provenanceItemKind right rightItem)
  if kind ≠ otherKind then pure none
  else do
    let leftValue ← lift (readUsize left.columns.itemValues leftItem "item_values")
    let rightValue ← lift (readUsize right.columns.itemValues rightItem "item_values")
    let leftLength ← lift (readUsize left.columns.itemLengths leftItem "item_lengths")
    let rightLength ← lift (readUsize right.columns.itemLengths rightItem "item_lengths")
    if leftLength ≠ rightLength then pure none
    else
      compareLeaves m left right "encoded provenance collection item kind is invalid" visited kind
        leftValue rightValue leftLength waiting

/-- A loop over offsets that ends at the first difference. -/
def untilDiffers (turn : Nat → List NodePair → Metered β (Option (List NodePair))) :
    List Nat → List NodePair → Metered β (Option (List NodePair))
  | [], waiting => pure (some waiting)
  | offset :: rest, waiting => do
    match ← turn offset waiting with
    | none => pure none
    | some waiting => untilDiffers turn rest waiting

/-- The rows of two fields, once their kinds and their lengths are seen to be equal. -/
def compareFieldRows (visited : List NodePair) (cell cell' : ComponentRow) (waiting : List NodePair) :
    Metered β (Option (List NodePair)) :=
  if cell.kind = COMPONENT_SET ∨ cell.kind = COMPONENT_SEQUENCE then
    untilDiffers
      (fun offset => compareItem m left right visited (cell.value + offset) (cell'.value + offset))
      (List.range cell.length) waiting
  else
    compareLeaves m left right "encoded provenance component kind is invalid" visited cell.kind
      cell.value cell'.value cell.length waiting

def compareField (visited : List NodePair) (leftField rightField : Nat)
    (waiting : List NodePair) : Metered β (Option (List NodePair)) := do
  let kind ← lift (left.fieldKind leftField)
  let otherKind ← lift (right.fieldKind rightField)
  if kind ≠ otherKind then pure none
  else do
    let leftValue ← lift (left.fieldValue leftField)
    let rightValue ← lift (right.fieldValue rightField)
    let leftLength ← lift (left.fieldLength leftField)
    let rightLength ← lift (right.fieldLength rightField)
    if leftLength ≠ rightLength then pure none
    else
      compareFieldRows m left right visited ⟨kind, leftValue, leftLength⟩
        ⟨otherKind, rightValue, rightLength⟩ waiting

/-- The body of the loop for a pair that has not been compared. -/
def comparePair (visited : List NodePair) (pair : NodePair) (waiting : List NodePair) :
    Metered β (Option (List NodePair)) := do
  let leftTag ← lift (left.nodeTag pair.1)
  let rightTag ← lift (right.nodeTag pair.2)
  if leftTag ≠ rightTag then pure none
  else do
    let (leftStart, leftEnd) ← lift (left.fieldRange pair.1)
    let (rightStart, rightEnd) ← lift (right.fieldRange pair.2)
    if leftEnd - leftStart ≠ rightEnd - rightStart then pure none
    else
      untilDiffers
        (fun offset =>
          compareField m left right visited (leftStart + offset) (rightStart + offset))
        (List.range (leftEnd - leftStart)) waiting

def unfinishedWalk : String := "encoded provenance walk did not end"

/-- `while let Some((left, right)) = pending.pop()`. -/
def equalityLoop : Nat → List NodePair → List NodePair → Metered β Bool
  | _, _, [] => pure true
  | 0, _, _ :: _ => malformed unfinishedWalk
  | fuel + 1, visited, pair :: waiting => do
    checkCancel m visited.length
    if pair ∈ visited then equalityLoop fuel visited waiting
    else do
      m.grown visited.length
      match ← comparePair m left right (pair :: visited) pair waiting with
      | none => pure false
      | some waiting => equalityLoop fuel (pair :: visited) waiting

/-- `structurally_equal_node`. There are no more turns than pairs of nodes. -/
def structurallyEqualNode (leftNode rightNode : Nat) : Metered β Bool := do
  m.grown 0
  equalityLoop m left right (left.columns.nodeCount * right.columns.nodeCount) []
    [(leftNode, rightNode)]

end Walk

section Alike
variable (left right : DirectColumns)

/-- As far as the fuel reaches, two nodes stand for one term. -/
def Alike (fuel : Nat) (pair : NodePair) : Prop :=
  ∀ s t, left.columns.termAt noScopeMap fuel pair.1 = some s →
    right.columns.termAt noScopeMap fuel pair.2 = some t → s = t

/-- The nodes of a pair stand for terms, which are equal if `same`. -/
def Standing (same : Prop) (pair : NodePair) : Prop :=
  ∃ s t, left.columns.Stands noScopeMap pair.1 s ∧ right.columns.Stands noScopeMap pair.2 t ∧
    (same → s = t)

/-- What a comparison of `same` values leaves to compare. -/
structure Extended (same : Prop) (visited waiting waiting' : List NodePair) : Prop where
  keeps : waiting ⊆ waiting'
  fresh : (visited ++ waiting).Nodup → (visited ++ waiting').Nodup
  stands : ∀ pair ∈ waiting', pair ∈ waiting ∨ Standing left right same pair

/-- The result of a comparison: without a difference the values agree as far as the pairs that
are left do. -/
def Decides (same : Prop) (visited waiting : List NodePair) (agrees : Nat → Prop) :
    Option (List NodePair) → Prop
  | none => ¬same
  | some waiting' => Extended left right same visited waiting waiting' ∧
    ∀ fuel, (∀ pair ∈ visited ++ waiting', Alike left right fuel pair) → agrees fuel

end Alike

section Comparisons
variable {β : Type} {m : Meter β} {left right : DirectColumns} {visited waiting : List NodePair}
  {same same₀ : Prop} {agrees agrees₀ : Nat → Prop}

theorem Standing.mono {pair : NodePair} (h : Standing left right same₀ pair) (hs : same → same₀) :
    Standing left right same pair := by
  obtain ⟨s, t, hs', ht, heq⟩ := h
  exact ⟨s, t, hs', ht, fun h => heq (hs h)⟩

theorem Extended.refl : Extended left right same visited waiting waiting :=
  ⟨List.Subset.refl _, id, fun _ h => .inl h⟩

theorem Extended.trans {waiting₁ waiting₂ : List NodePair}
    (h : Extended left right same visited waiting waiting₁)
    (h' : Extended left right same visited waiting₁ waiting₂) :
    Extended left right same visited waiting waiting₂ := by
  refine ⟨List.Subset.trans h.keeps h'.keeps, h'.fresh ∘ h.fresh, fun pair hpair => ?_⟩
  rcases h'.stands pair hpair with hold | hstands
  · exact h.stands pair hold
  · exact .inr hstands

theorem Extended.mono {waiting' : List NodePair}
    (h : Extended left right same₀ visited waiting waiting') (hs : same → same₀) :
    Extended left right same visited waiting waiting' :=
  ⟨h.keeps, h.fresh, fun pair hpair => (h.stands pair hpair).imp_right fun h => h.mono hs⟩

theorem Decides.mono {r : Option (List NodePair)}
    (h : Decides left right same₀ visited waiting agrees₀ r) (hs : same → same₀)
    (ha : ∀ fuel, agrees₀ fuel → agrees fuel) :
    Decides left right same visited waiting agrees r := by
  cases r with
  | none => exact fun hsame => h (hs hsame)
  | some waiting' => exact ⟨h.1.mono hs, fun fuel hall => ha fuel (h.2 fuel hall)⟩

theorem Decides.differs (h : ¬same) :
    Meets m (pure none : Metered β _) (Decides left right same visited waiting agrees) :=
  Meets.pure h

/-- Nothing is left to compare. -/
theorem Decides.agreed (h : ∀ fuel, agrees fuel) :
    Meets m (pure (some waiting) : Metered β _) (Decides left right same visited waiting agrees) :=
  Meets.pure ⟨.refl, fun fuel _ => h fuel⟩

theorem pushPair_meets {pair : NodePair} (h : Standing left right same pair) :
    Meets m (pushPair m visited pair waiting)
      (fun waiting' => Extended left right same visited waiting waiting' ∧
        pair ∈ visited ++ waiting') := by
  unfold pushPair
  split
  · rename_i hnew
    refine (Gives.grown _).bindMeets (Meets.pure ⟨⟨?_, ?_, ?_⟩, ?_⟩)
    · exact List.subset_cons_self _ _
    · intro hnodup
      refine (List.perm_middle.nodup_iff).mpr (List.nodup_cons.mpr ⟨?_, hnodup⟩)
      exact fun hin => (List.mem_append.mp hin).elim hnew.1 hnew.2
    · intro other hother
      rcases List.mem_cons.mp hother with rfl | hold
      · exact .inr h
      · exact .inl hold
    · exact List.mem_append_right _ List.mem_cons_self
  · rename_i hold
    refine Meets.pure ⟨.refl, ?_⟩
    rw [List.mem_append]
    exact or_iff_not_and_not.mpr hold

theorem untilDiffers_meets {turn : Nat → List NodePair → Metered β (Option (List NodePair))}
    {agrees : Nat → Nat → Prop} {offsets : List Nat}
    (hturn : ∀ offset ∈ offsets, ∀ waiting,
      Meets m (turn offset waiting) (Decides left right same visited waiting (agrees offset))) :
    Meets m (untilDiffers turn offsets waiting)
      (Decides left right same visited waiting fun fuel =>
        ∀ offset ∈ offsets, agrees offset fuel) := by
  induction offsets generalizing waiting with
  | nil => exact Decides.agreed fun _ _ h => absurd h List.not_mem_nil
  | cons offset offsets ih =>
    unfold untilDiffers
    refine (hturn offset List.mem_cons_self waiting).bind fun r hr => ?_
    cases r with
    | none => exact Decides.differs hr
    | some waiting₁ =>
      refine (ih fun o ho => hturn o (List.mem_cons_of_mem _ ho)).mono fun r' hr' => ?_
      cases r' with
      | none => exact hr'
      | some waiting₂ =>
        refine ⟨hr.1.trans hr'.1, fun fuel hall o ho => ?_⟩
        rcases List.mem_cons.mp ho with rfl | ho
        · refine hr.2 fuel fun pair hpair => hall pair ?_
          rcases List.mem_append.mp hpair with hin | hin
          · exact List.mem_append_left _ hin
          · exact List.mem_append_right _ (hr'.1.keeps hin)
        · exact hr'.2 fuel hall o ho

end Comparisons

section Rows
variable {β : Type} {m : Meter β} {left right : DirectColumns} {visited waiting : List NodePair}
  {depth : Nat}

/-- A piece of a table as far as the fuel reaches. -/
def leafAt (d : DirectColumns) (fuel : Nat) (cell : ComponentRow) : Option Piece :=
  d.columns.leafPiece (d.columns.termAt noScopeMap fuel) id cell

theorem leafAt_unique {d : DirectColumns} {fuel : Nat} {cell : ComponentRow} {p q : Piece}
    (h : leafAt d fuel cell = some p) (h' : leafAt d depth cell = some q) : p = q := by
  have hp := leafPiece_extends (termAt_more (Nat.le_max_left fuel depth)) h
  have hq := leafPiece_extends (termAt_more (Nat.le_max_right fuel depth)) h'
  exact Option.some.inj (hp.symm.trans hq)

/-- The scalar arenas can be addressed. -/
structure Addressed (left right : DirectColumns) : Prop where
  left : left.columns.scalarBytes.length < usizeLimit
  right : right.columns.scalarBytes.length < usizeLimit

theorem scalarRange_of {d : DirectColumns} (haddressed : d.columns.scalarBytes.length < usizeLimit)
    {offset length : Nat} {payload : Bytes} (h : d.columns.payloadAt offset length = some payload) :
    d.scalarRange offset length = .ok payload := by
  refine scalarRange_ok.mpr ⟨?_, h⟩
  unfold Columns.payloadAt at h
  split at h
  · omega
  · cases h

theorem checkedNodeId_of_term {d : DirectColumns} {fuel id : Nat} {t : Term}
    (h : d.columns.termAt noScopeMap fuel id = some t) : d.checkedNodeId id = .ok id := by
  obtain ⟨previous, start, stop, tag, fields, -, -, hview⟩ := termAt_some h
  exact checkedNodeId_ok.mpr ⟨rfl, Columns.rangeAt_inside hview.range⟩

variable (haddressed : Addressed left right)

include haddressed in
theorem comparePayloads_meets {kind leftValue rightValue length : Nat} {message : String}
    {s t : Bytes} {p q : Piece} {agrees : Nat → Prop}
    (hkind : kind = COMPONENT_TEXT ∨ kind = COMPONENT_BYTES ∨ kind = COMPONENT_INTEGER ∨
      kind = COMPONENT_ENUM)
    (hs : left.columns.payloadAt leftValue length = some s)
    (ht : right.columns.payloadAt rightValue length = some t) (hsame : p = q → s = t)
    (hagrees : s = t → ∀ fuel, agrees fuel) :
    Meets m (compareLeaves m left right message visited kind leftValue rightValue length waiting)
      (Decides left right (p = q) visited waiting agrees) := by
  have hnone : kind ≠ COMPONENT_NONE := by
    rcases hkind with rfl | rfl | rfl | rfl <;> decide
  have hnode : kind ≠ COMPONENT_NODE := by
    rcases hkind with rfl | rfl | rfl | rfl <;> decide
  unfold compareLeaves
  rw [if_neg hnone, if_neg hnode, if_pos hkind]
  refine (Gives.lift (scalarRange_of haddressed.left hs)).bindMeets
    ((Gives.lift (scalarRange_of haddressed.right ht)).bindMeets ?_)
  by_cases heq : s = t
  · rw [if_neg (not_not.mpr heq)]
    exact Decides.agreed (hagrees heq)
  · rw [if_pos heq]
    exact Decides.differs fun hpq => heq (hsame hpq)

/-- Two components of one kind and one length, as far as they are read at any depth. -/
def LeavesAgree (left right : DirectColumns) (cell cell' : ComponentRow) (fuel : Nat) : Prop :=
  ∀ p q, leafAt left fuel cell = some p → leafAt right fuel cell' = some q → p = q

include haddressed in
theorem compareLeaves_meets {cell cell' : ComponentRow} {p q : Piece} {message : String}
    (hp : leafAt left depth cell = some p) (hq : leafAt right depth cell' = some q)
    (hkind : cell.kind = cell'.kind) (hlength : cell.length = cell'.length) :
    Meets m (compareLeaves m left right message visited cell.kind cell.value cell'.value
        cell.length waiting)
      (Decides left right (p = q) visited waiting (LeavesAgree left right cell cell')) := by
  have hl := leafPiece_some hp
  have hr := leafPiece_some hq
  -- What is read at one depth is what is read at any other.
  have hagrees : p = q → ∀ fuel, LeavesAgree left right cell cell' fuel := by
    intro heq fuel p' q' hp' hq'
    rw [leafAt_unique hp' hp, leafAt_unique hq' hq, heq]
  cases hl with
  | none =>
    obtain ⟨rfl, rfl⟩ := hr.of_none hkind.symm
    unfold compareLeaves
    exact Decides.agreed (hagrees rfl)
  | @node i s hs =>
    obtain ⟨j, t, rfl, rfl, ht⟩ := hr.of_node hkind.symm
    have hstanding : Standing left right (Piece.node s = Piece.node t) (i, j) :=
      ⟨s, t, ⟨depth, hs⟩, ⟨depth, ht⟩, Piece.node.inj⟩
    unfold compareLeaves
    rw [if_neg Nat.noConfusion, if_pos rfl]
    refine (Gives.lift (checkedNodeId_of_term hs)).bindMeets
      ((Gives.lift (checkedNodeId_of_term ht)).bindMeets
        ((pushPair_meets hstanding).bind fun waiting' hpushed =>
          Meets.pure ⟨hpushed.1, fun fuel hall p' q' hp' hq' => ?_⟩))
    obtain ⟨i', s', hcell, rfl, hs'⟩ := LeafView.of_node (leafPiece_some hp') rfl
    obtain ⟨j', t', hcell', rfl, ht'⟩ := LeafView.of_node (leafPiece_some hq') rfl
    cases hcell
    cases hcell'
    rw [hall (i, j) hpushed.2 s' t' hs' ht']
  | @scalar offset length payload k hpayload =>
    obtain ⟨payload', hpayload', rfl⟩ := hr.of_scalar hkind.symm
    rw [← hlength] at hpayload'
    refine comparePayloads_meets haddressed ?_ hpayload hpayload' ?_ ?_
    · cases k
      · exact .inl rfl
      · exact .inr (.inl rfl)
      · exact .inr (.inr (.inr rfl))
    · intro heq
      simpa using heq
    · intro heq
      exact hagrees (by rw [heq]; simp)
  | @integer offset length payload hpayload hminimal =>
    obtain ⟨payload', hpayload', hminimal', rfl⟩ := hr.of_integer hkind.symm
    rw [← hlength] at hpayload'
    refine comparePayloads_meets haddressed (.inr (.inr (.inl rfl))) hpayload hpayload' ?_ ?_
    · exact fun heq => fromLittleEndian_inj hminimal hminimal' (Piece.integer.inj heq)
    · exact fun heq => hagrees (by rw [heq])

theorem cell_reads {d : DirectColumns} {index : Nat} {cell : ComponentRow}
    (h : d.columns.cellAt index false = some cell) :
    d.fieldKind index = .ok cell.kind ∧ d.fieldValue index = .ok cell.value ∧
      d.fieldLength index = .ok cell.length := by
  obtain ⟨hkind, hvalue, hlength⟩ := cellAt_some h
  exact ⟨fieldKind_of hkind, fieldValue_of hvalue, fieldLength_of hlength⟩

theorem cell_itemReads {d : DirectColumns} {index : Nat} {cell : ComponentRow}
    (h : d.columns.cellAt index true = some cell) :
    provenanceItemKind d index = .ok cell.kind ∧
      readUsize d.columns.itemValues index "item_values" = .ok cell.value ∧
      readUsize d.columns.itemLengths index "item_lengths" = .ok cell.length := by
  obtain ⟨hkind, hvalue, hlength⟩ := cellAt_some h
  refine ⟨?_, readUsize_of hvalue, readUsize_of hlength⟩
  have hread : d.columns.itemKinds[index]? = some cell.kind := read_ok hkind
  rw [provenanceItemKind, hread]

/-- An item of a table as far as the fuel reaches. -/
def itemAt (d : DirectColumns) (fuel index : Nat) : Option Piece :=
  d.columns.itemPiece (d.columns.termAt noScopeMap fuel) index

theorem itemAt_some {d : DirectColumns} {fuel index : Nat} {p : Piece} :
    itemAt d fuel index = some p ↔
      ∃ cell, d.columns.cellAt index true = some cell ∧ leafAt d fuel cell = some p := by
  unfold itemAt Columns.itemPiece
  cases d.columns.cellAt index true with
  | none => simp
  | some cell => simp [leafAt]

/-- Two rows stand for one piece as far as the fuel reaches. -/
def PiecesAgree (read read' : Nat → Nat → Option Piece) (i j fuel : Nat) : Prop :=
  ∀ p q, read fuel i = some p → read' fuel j = some q → p = q

include haddressed in
theorem compareItem_meets {i j : Nat} {p q : Piece} (hp : itemAt left depth i = some p)
    (hq : itemAt right depth j = some q) :
    Meets m (compareItem m left right visited i j waiting)
      (Decides left right (p = q) visited waiting
        (PiecesAgree (itemAt left) (itemAt right) i j)) := by
  obtain ⟨cell, hcell, hp⟩ := itemAt_some.mp hp
  obtain ⟨cell', hcell', hq⟩ := itemAt_some.mp hq
  obtain ⟨hkind, hvalue, hlength⟩ := cell_itemReads hcell
  obtain ⟨hkind', hvalue', hlength'⟩ := cell_itemReads hcell'
  have hsame : p = q → cell.kind = cell'.kind ∧ cell.length = cell'.length := by
    rintro rfl
    exact (leafPiece_some hp).same (leafPiece_some hq)
  unfold compareItem
  refine (Gives.lift hkind).bindMeets ((Gives.lift hkind').bindMeets ?_)
  by_cases hk : cell.kind = cell'.kind
  · rw [if_neg (not_not.mpr hk)]
    refine (Gives.lift hvalue).bindMeets ((Gives.lift hvalue').bindMeets
      ((Gives.lift hlength).bindMeets ((Gives.lift hlength').bindMeets ?_)))
    by_cases hl : cell.length = cell'.length
    · rw [if_neg (not_not.mpr hl)]
      refine (compareLeaves_meets haddressed hp hq hk hl).mono fun r hr =>
        hr.mono id fun fuel hagree p' q' hp' hq' => ?_
      obtain ⟨c, hc, hp'⟩ := itemAt_some.mp hp'
      obtain ⟨c', hc', hq'⟩ := itemAt_some.mp hq'
      rw [hcell] at hc
      rw [hcell'] at hc'
      cases hc
      cases hc'
      exact hagree p' q' hp' hq'
    · rw [if_pos hl]
      exact Decides.differs fun h => hl (hsame h).2
  · rw [if_pos hk]
    exact Decides.differs fun h => hk (hsame h).1

/-- The pieces that are read from a range of rows. -/
structure Stored (read : Nat → Option Piece) (start length : Nat) (pieces : List Piece) :
    Prop where
  counted : pieces.length = length
  read : ∀ k < length, read (start + k) = pieces[k]?

theorem stored_of_forall₂ {read : Nat → Option Piece} {start length : Nat} {pieces : List Piece}
    (h : List.Forall₂ (fun i p => read i = some p) (List.range' start length) pieces) :
    Stored read start length pieces := by
  obtain ⟨hlength, hread⟩ := List.forall₂_iff_get.mp h
  rw [List.length_range'] at hlength
  refine ⟨hlength.symm, fun k hk => ?_⟩
  have hat := hread k (by rwa [List.length_range']) (hlength ▸ hk)
  rw [List.get_eq_getElem, List.getElem_range', Nat.one_mul] at hat
  rw [hat, List.getElem?_eq_getElem (hlength ▸ hk), List.get_eq_getElem]

/-- A loop over two ranges of rows that are compared one by one. -/
theorem compareRange_meets {turn : Nat → List NodePair → Metered β (Option (List NodePair))}
    {read read' : Nat → Nat → Option Piece} {start start' length : Nat} {ps qs : List Piece}
    (hp : Stored (read depth) start length ps) (hq : Stored (read' depth) start' length qs)
    (hturn : ∀ offset p q, read depth (start + offset) = some p →
      read' depth (start' + offset) = some q → ∀ waiting, Meets m (turn offset waiting)
        (Decides left right (p = q) visited waiting
          (PiecesAgree read read' (start + offset) (start' + offset)))) :
    Meets m (untilDiffers turn (List.range length) waiting)
      (Decides left right (ps = qs) visited waiting fun fuel => ∀ ps' qs',
        Stored (read fuel) start length ps' → Stored (read' fuel) start' length qs' →
          ps' = qs') := by
  have hall : ∀ offset ∈ List.range length, ∀ waiting, Meets m (turn offset waiting)
      (Decides left right (ps = qs) visited waiting
        (PiecesAgree read read' (start + offset) (start' + offset))) := by
    intro offset hoffset waiting
    have hlt := List.mem_range.mp hoffset
    have hi := (hp.read offset hlt).trans (List.getElem?_eq_getElem (hp.counted ▸ hlt))
    have hj := (hq.read offset hlt).trans (List.getElem?_eq_getElem (hq.counted ▸ hlt))
    refine (hturn offset _ _ hi hj waiting).mono fun r hr => hr.mono ?_ fun _ h => h
    rintro rfl
    rfl
  refine (untilDiffers_meets hall).mono fun r hr => hr.mono id fun fuel hall ps' qs' hp' hq' => ?_
  refine List.ext_getElem (hp'.counted.trans hq'.counted.symm) fun k hk hk' => ?_
  have hlt : k < length := hp'.counted ▸ hk
  exact hall k (List.mem_range.mpr hlt) _ _
    ((hp'.read k hlt).trans (List.getElem?_eq_getElem hk))
    ((hq'.read k hlt).trans (List.getElem?_eq_getElem hk'))

/-- A field of a table as far as the fuel reaches. -/
def fieldAt (d : DirectColumns) (fuel index : Nat) : Option Piece :=
  d.columns.fieldPiece (d.columns.termAt noScopeMap fuel) id index

/-- How the row of a field stores a piece. -/
inductive FieldRow (d : DirectColumns) (fuel : Nat) (cell : ComponentRow) : Piece → Prop where
  | leaf {p : Piece} (hset : cell.kind ≠ COMPONENT_SET) (hsequence : cell.kind ≠ COMPONENT_SEQUENCE)
      (h : leafAt d fuel cell = some p) : FieldRow d fuel cell p
  | set {items : List Term} (hkind : cell.kind = COMPONENT_SET)
      (h : Stored (itemAt d fuel) cell.value cell.length (items.map .node)) :
      FieldRow d fuel cell (.set items)
  | sequence {items : List Piece} (hkind : cell.kind = COMPONENT_SEQUENCE)
      (h : Stored (itemAt d fuel) cell.value cell.length items) :
      FieldRow d fuel cell (.sequence items)

theorem itemAt_of_member {d : DirectColumns} {fuel index : Nat} {t : Term}
    (h : d.columns.memberTerm (d.columns.termAt noScopeMap fuel) index = some t) :
    itemAt d fuel index = some (.node t) := by
  obtain ⟨i, hcell, ht⟩ := memberTerm_some h
  refine itemAt_some.mpr ⟨_, hcell, ?_⟩
  unfold leafAt Columns.leafPiece
  rw [if_neg Nat.noConfusion, if_pos rfl, if_pos rfl, ht]
  rfl

theorem fieldAt_some {d : DirectColumns} {fuel index : Nat} {p : Piece}
    (h : fieldAt d fuel index = some p) :
    ∃ cell, d.columns.cellAt index false = some cell ∧ FieldRow d fuel cell p := by
  unfold fieldAt Columns.fieldPiece at h
  split at h
  · cases h
  · rename_i cell hcell
    refine ⟨cell, hcell, ?_⟩
    split at h
    · rename_i hkind
      split at h
      · dsimp only at h
        split at h
        · rename_i hset
          obtain ⟨items, hitems, rfl⟩ := Option.map_eq_some_iff.mp h
          refine .set hset (stored_of_forall₂ ?_)
          rw [List.forall₂_map_right_iff]
          exact (mapM_some.mp hitems).imp fun _ _ => itemAt_of_member
        · rename_i hset
          obtain ⟨items, hitems, rfl⟩ := Option.map_eq_some_iff.mp h
          exact .sequence (hkind.resolve_left hset) (stored_of_forall₂ (mapM_some.mp hitems))
      · cases h
    · rename_i hkind
      rw [not_or] at hkind
      exact .leaf hkind.1 hkind.2 h

theorem FieldRow.code {d : DirectColumns} {fuel : Nat} {cell : ComponentRow} {p : Piece}
    (h : FieldRow d fuel cell p) : p.code.toNat = cell.kind := by
  cases h with
  | leaf _ _ hleaf => exact (leafPiece_some hleaf).code
  | set hkind => exact hkind.symm
  | sequence hkind => exact hkind.symm

theorem FieldRow.same {cell cell' : ComponentRow} {p : Piece}
    (hl : FieldRow left depth cell p) (hr : FieldRow right depth cell' p) :
    cell.kind = cell'.kind ∧ cell.length = cell'.length := by
  have hkind := hl.code.symm.trans hr.code
  refine ⟨hkind, ?_⟩
  cases hl with
  | leaf hset hsequence hleaf =>
    cases hr with
    | leaf _ _ hleaf' => exact ((leafPiece_some hleaf).same (leafPiece_some hleaf')).2
    | set hkind' => exact absurd (hkind.trans hkind') hset
    | sequence hkind' => exact absurd (hkind.trans hkind') hsequence
  | set hset hitems =>
    cases hr with
    | leaf hset' => exact absurd (hkind.symm.trans hset) hset'
    | set _ hitems' => exact hitems.counted.symm.trans hitems'.counted
  | sequence hsequence hitems =>
    cases hr with
    | leaf _ hsequence' => exact absurd (hkind.symm.trans hsequence) hsequence'
    | sequence _ hitems' => exact hitems.counted.symm.trans hitems'.counted

theorem map_node_inj {ss ts : List Term} :
    ss.map Piece.node = ts.map Piece.node ↔ ss = ts :=
  (List.map_injective_iff.mpr fun _ _ => Piece.node.inj).eq_iff

include haddressed in
/-- Two collections are compared item by item. -/
theorem compareItems_meets {cell cell' : ComponentRow} {ps qs : List Piece}
    (hlength : cell.length = cell'.length)
    (hp : Stored (itemAt left depth) cell.value cell.length ps)
    (hq : Stored (itemAt right depth) cell'.value cell'.length qs) :
    Meets m (untilDiffers
        (fun offset => compareItem m left right visited (cell.value + offset) (cell'.value + offset))
        (List.range cell.length) waiting)
      (Decides left right (ps = qs) visited waiting fun fuel => ∀ ps' qs',
        Stored (itemAt left fuel) cell.value cell.length ps' →
        Stored (itemAt right fuel) cell'.value cell'.length qs' → ps' = qs') := by
  rw [← hlength] at hq ⊢
  exact compareRange_meets hp hq fun _ _ _ hi hj _ => compareItem_meets haddressed hi hj

theorem FieldRow.leaf_of {d : DirectColumns} {fuel : Nat} {cell : ComponentRow} {p : Piece}
    (h : FieldRow d fuel cell p) (hset : cell.kind ≠ COMPONENT_SET)
    (hsequence : cell.kind ≠ COMPONENT_SEQUENCE) : leafAt d fuel cell = some p := by
  cases h with
  | leaf _ _ hleaf => exact hleaf
  | set hkind => exact absurd hkind hset
  | sequence hkind => exact absurd hkind hsequence

theorem FieldRow.set_of {d : DirectColumns} {fuel : Nat} {cell : ComponentRow} {p : Piece}
    (h : FieldRow d fuel cell p) (hkind : cell.kind = COMPONENT_SET) :
    ∃ items, p = .set items ∧ Stored (itemAt d fuel) cell.value cell.length (items.map .node) := by
  cases h with
  | leaf hset => exact absurd hkind hset
  | set _ hitems => exact ⟨_, rfl, hitems⟩
  | sequence hsequence => exact absurd (hkind.symm.trans hsequence) (by decide)

theorem FieldRow.sequence_of {d : DirectColumns} {fuel : Nat} {cell : ComponentRow} {p : Piece}
    (h : FieldRow d fuel cell p) (hkind : cell.kind = COMPONENT_SEQUENCE) :
    ∃ items, p = .sequence items ∧ Stored (itemAt d fuel) cell.value cell.length items := by
  cases h with
  | leaf _ hsequence => exact absurd hkind hsequence
  | set hset => exact absurd (hset.symm.trans hkind) (by decide)
  | sequence _ hitems => exact ⟨_, rfl, hitems⟩

include haddressed in
theorem compareFieldRows_meets {cell cell' : ComponentRow} {p q : Piece}
    (hp : FieldRow left depth cell p) (hq : FieldRow right depth cell' q)
    (hkind : cell.kind = cell'.kind) (hlength : cell.length = cell'.length) :
    Meets m (compareFieldRows m left right visited cell cell' waiting)
      (Decides left right (p = q) visited waiting fun fuel => ∀ p' q',
        FieldRow left fuel cell p' → FieldRow right fuel cell' q' → p' = q') := by
  unfold compareFieldRows
  cases hp with
  | leaf hset hsequence hleaf =>
    rw [if_neg (not_or.mpr ⟨hset, hsequence⟩)]
    have hset' := hkind ▸ hset
    have hsequence' := hkind ▸ hsequence
    refine (compareLeaves_meets haddressed hleaf (hq.leaf_of hset' hsequence') hkind hlength).mono
      fun r hr => hr.mono id fun fuel hagree p' q' hp' hq' => ?_
    exact hagree p' q' (hp'.leaf_of hset hsequence) (hq'.leaf_of hset' hsequence')
  | set hset hitems =>
    rw [if_pos (.inl hset)]
    have hset' := hkind.symm.trans hset
    obtain ⟨ts, rfl, hitems'⟩ := hq.set_of hset'
    refine (compareItems_meets haddressed hlength hitems hitems').mono
      fun r hr => hr.mono ?_ fun fuel hagree p' q' hp' hq' => ?_
    · exact fun heq => map_node_inj.mpr (Piece.set.inj heq)
    · obtain ⟨ss', rfl, hss'⟩ := hp'.set_of hset
      obtain ⟨ts', rfl, hts'⟩ := hq'.set_of hset'
      rw [map_node_inj.mp (hagree _ _ hss' hts')]
  | sequence hsequence hitems =>
    rw [if_pos (.inr hsequence)]
    have hsequence' := hkind.symm.trans hsequence
    obtain ⟨qs, rfl, hitems'⟩ := hq.sequence_of hsequence'
    refine (compareItems_meets haddressed hlength hitems hitems').mono
      fun r hr => hr.mono Piece.sequence.inj fun fuel hagree p' q' hp' hq' => ?_
    obtain ⟨ps', rfl, hps'⟩ := hp'.sequence_of hsequence
    obtain ⟨qs', rfl, hqs'⟩ := hq'.sequence_of hsequence'
    rw [hagree _ _ hps' hqs']

include haddressed in
theorem compareField_meets {i j : Nat} {p q : Piece} (hp : fieldAt left depth i = some p)
    (hq : fieldAt right depth j = some q) :
    Meets m (compareField m left right visited i j waiting)
      (Decides left right (p = q) visited waiting
        (PiecesAgree (fieldAt left) (fieldAt right) i j)) := by
  obtain ⟨cell, hcell, hrow⟩ := fieldAt_some hp
  obtain ⟨cell', hcell', hrow'⟩ := fieldAt_some hq
  obtain ⟨hkind, hvalue, hlength⟩ := cell_reads hcell
  obtain ⟨hkind', hvalue', hlength'⟩ := cell_reads hcell'
  have hsame : p = q → cell.kind = cell'.kind ∧ cell.length = cell'.length := by
    rintro rfl
    exact hrow.same hrow'
  unfold compareField
  refine (Gives.lift hkind).bindMeets ((Gives.lift hkind').bindMeets ?_)
  by_cases hk : cell.kind = cell'.kind
  · rw [if_neg (not_not.mpr hk)]
    refine (Gives.lift hvalue).bindMeets ((Gives.lift hvalue').bindMeets
      ((Gives.lift hlength).bindMeets ((Gives.lift hlength').bindMeets ?_)))
    by_cases hl : cell.length = cell'.length
    · rw [if_neg (not_not.mpr hl)]
      refine (compareFieldRows_meets haddressed hrow hrow' hk hl).mono fun r hr =>
        hr.mono id fun fuel hagree p' q' hp' hq' => ?_
      obtain ⟨c, hc, hp'⟩ := fieldAt_some hp'
      obtain ⟨c', hc', hq'⟩ := fieldAt_some hq'
      rw [hcell] at hc
      rw [hcell'] at hc'
      cases hc
      cases hc'
      exact hagree p' q' hp' hq'
    · rw [if_pos hl]
      exact Decides.differs fun h => hl (hsame h).2
  · rw [if_pos hk]
    exact Decides.differs fun h => hk (hsame h).1

end Rows

section Nodes
variable {β : Type} {m : Meter β} {left right : DirectColumns} {visited waiting : List NodePair}
  {depth : Nat}

theorem stored_fields {d : DirectColumns} {fuel id start stop tag : Nat} {fields : List Piece}
    (h : NodeView d.columns noScopeMap fuel id start stop tag fields) :
    Stored (fieldAt d fuel) start (stop - start) fields := by
  refine stored_of_forall₂ (h.fields.imp fun i p hp => ?_)
  rw [rescopeOf_none] at hp
  exact hp

variable (haddressed : Addressed left right)
include haddressed

theorem comparePair_meets {pair : NodePair} {s t : Term}
    (hs : left.columns.termAt noScopeMap (depth + 1) pair.1 = some s)
    (ht : right.columns.termAt noScopeMap (depth + 1) pair.2 = some t) :
    Meets m (comparePair m left right visited pair waiting)
      (Decides left right (s = t) visited waiting fun fuel => Alike left right (fuel + 1) pair) := by
  obtain ⟨previous, start, stop, tag, ps, hdepth, rfl, hview⟩ := termAt_some hs
  obtain rfl := Nat.succ.inj hdepth
  obtain ⟨previous', start', stop', tag', qs, hdepth', rfl, hview'⟩ := termAt_some ht
  obtain rfl := Nat.succ.inj hdepth'
  have hfields := stored_fields hview
  have hfields' := stored_fields hview'
  unfold comparePair
  refine (Gives.lift ((nodeTag_ok hview.range).mpr hview.tagged)).bindMeets
    ((Gives.lift ((nodeTag_ok hview'.range).mpr hview'.tagged)).bindMeets ?_)
  by_cases htag : tag = tag'
  · rw [if_neg (not_not.mpr htag)]
    refine (Gives.lift (fieldRange_ok.mpr hview.range)).bindMeets
      ((Gives.lift (fieldRange_ok.mpr hview'.range)).bindMeets ?_)
    dsimp only
    by_cases hlength : stop - start = stop' - start'
    · rw [if_neg (not_not.mpr hlength)]
      rw [← hlength] at hfields'
      refine (compareRange_meets hfields hfields' fun _ _ _ hi hj _ =>
        compareField_meets haddressed hi hj).mono fun r hr => hr.mono ?_ fun fuel hagree s t hs ht => ?_
      · exact fun heq => (Term.mk.inj heq).2
      · obtain ⟨_, start₁, stop₁, tag₁, fields₁, hfuel, rfl, hview₁⟩ := termAt_some hs
        obtain rfl := Nat.succ.inj hfuel
        obtain ⟨_, start₂, stop₂, tag₂, fields₂, hfuel', rfl, hview₂⟩ := termAt_some ht
        obtain rfl := Nat.succ.inj hfuel'
        obtain ⟨rfl, rfl⟩ := Prod.mk.inj (Option.some.inj (hview.range.symm.trans hview₁.range))
        obtain ⟨rfl, rfl⟩ := Prod.mk.inj (Option.some.inj (hview'.range.symm.trans hview₂.range))
        have htag₁ := Option.some.inj (hview.tagged.symm.trans hview₁.tagged)
        have htag₂ := Option.some.inj (hview'.tagged.symm.trans hview₂.tagged)
        have hsame := hagree _ _ (stored_fields hview₁) (hlength ▸ stored_fields hview₂)
        rw [← htag₁, ← htag₂, htag, hsame]
    · rw [if_pos hlength]
      refine Decides.differs fun heq => hlength ?_
      rw [← hfields.counted, ← hfields'.counted, (Term.mk.inj heq).2]
  · rw [if_pos htag]
    exact Decides.differs fun heq => htag (Term.mk.inj heq).1

end Nodes

section Loop
variable {β : Type} {m : Meter β} {left right : DirectColumns} {same : Prop}

/-- The state of the walk: what is compared already agrees as far as all pairs do. -/
structure Walking (left right : DirectColumns) (same : Prop) (visited waiting : List NodePair) :
    Prop where
  fresh : (visited ++ waiting).Nodup
  stands : ∀ pair ∈ visited ++ waiting, Standing left right same pair
  closed : ∀ pair ∈ visited, ∀ fuel, (∀ p ∈ visited ++ waiting, Alike left right fuel p) →
    Alike left right (fuel + 1) pair

/-- When no pair waits, every pair that was compared stands for one term. -/
theorem Walking.alike {visited : List NodePair} (h : Walking left right same visited [])
    (fuel : Nat) : ∀ pair ∈ visited, Alike left right fuel pair := by
  induction fuel with
  | zero => exact fun _ _ _ _ hs => (by cases hs)
  | succ fuel ih =>
    refine fun pair hpair => h.closed pair hpair fuel fun p hp => ih p ?_
    rwa [List.append_nil] at hp

theorem Walking.same_root {visited : List NodePair} {s t : Term} {root : NodePair}
    (h : Walking left right same visited []) (hs : left.columns.Stands noScopeMap root.1 s)
    (ht : right.columns.Stands noScopeMap root.2 t) (hroot : root ∈ visited ++ []) : s = t := by
  obtain ⟨f, hs⟩ := hs
  obtain ⟨g, ht⟩ := ht
  rw [List.append_nil] at hroot
  exact h.alike (max f g) root hroot s t (termAt_more (Nat.le_max_left f g) _ _ hs)
    (termAt_more (Nat.le_max_right f g) _ _ ht)

theorem Standing.inside {pair : NodePair} (h : Standing left right same pair) :
    pair ∈ Finset.Icc 1 left.columns.nodeCount ×ˢ Finset.Icc 1 right.columns.nodeCount := by
  obtain ⟨s, t, ⟨depth, hs⟩, ⟨depth', ht⟩, -⟩ := h
  have hl := (checkedNodeId_ok.mp (checkedNodeId_of_term hs)).2
  have hr := (checkedNodeId_ok.mp (checkedNodeId_of_term ht)).2
  exact Finset.mem_product.mpr ⟨Finset.mem_Icc.mpr hl, Finset.mem_Icc.mpr hr⟩

/-- There are no more pairs than pairs of nodes. -/
theorem Walking.bounded {visited waiting : List NodePair}
    (h : Walking left right same visited waiting) :
    visited.length + waiting.length ≤ left.columns.nodeCount * right.columns.nodeCount := by
  have hsub : (visited ++ waiting).toFinset ⊆
      Finset.Icc 1 left.columns.nodeCount ×ˢ Finset.Icc 1 right.columns.nodeCount :=
    fun pair hpair => (h.stands pair (List.mem_toFinset.mp hpair)).inside
  have hcard := Finset.card_le_card hsub
  rw [List.toFinset_card_of_nodup h.fresh, List.length_append, Finset.card_product, Nat.card_Icc,
    Nat.card_Icc, Nat.add_sub_cancel, Nat.add_sub_cancel] at hcard
  exact hcard

/-- The pair that is compared next, with the pairs that its comparison leaves. -/
theorem Walking.step {visited waiting waiting' : List NodePair} {pair : NodePair}
    (h : Walking left right same visited (pair :: waiting))
    (hextended : Extended left right same (pair :: visited) waiting waiting')
    (hagrees : ∀ fuel, (∀ p ∈ (pair :: visited) ++ waiting', Alike left right fuel p) →
      Alike left right (fuel + 1) pair) :
    Walking left right same (pair :: visited) waiting' := by
  have hkept : ∀ p ∈ visited ++ pair :: waiting, p ∈ (pair :: visited) ++ waiting' := by
    intro p hp
    rcases List.mem_append.mp hp with hin | hin
    · exact List.mem_append_left _ (List.mem_cons_of_mem _ hin)
    · rcases List.mem_cons.mp hin with rfl | hin
      · exact List.mem_append_left _ List.mem_cons_self
      · exact List.mem_append_right _ (hextended.keeps hin)
  refine ⟨hextended.fresh (List.perm_middle.nodup_iff.mp h.fresh), fun p hp => ?_,
    fun p hp fuel hall => ?_⟩
  · rcases List.mem_append.mp hp with hin | hin
    · rcases List.mem_cons.mp hin with rfl | hin
      · exact h.stands p (List.mem_append_right _ List.mem_cons_self)
      · exact h.stands p (List.mem_append_left _ hin)
    · rcases hextended.stands p hin with hold | hnew
      · exact h.stands p (List.mem_append_right _ (List.mem_cons_of_mem _ hold))
      · exact hnew
  · rcases List.mem_cons.mp hp with rfl | hin
    · exact hagrees fuel hall
    · exact h.closed p hin fuel fun q hq => hall q (hkept q hq)

variable (haddressed : Addressed left right)
include haddressed

theorem equalityLoop_meets {s t : Term} {root : NodePair} {fuel : Nat}
    {visited waiting : List NodePair} (h : Walking left right (s = t) visited waiting)
    (hs : left.columns.Stands noScopeMap root.1 s) (ht : right.columns.Stands noScopeMap root.2 t)
    (hroot : root ∈ visited ++ waiting)
    (hfuel : visited.length + fuel = left.columns.nodeCount * right.columns.nodeCount) :
    Meets m (equalityLoop m left right fuel visited waiting) (fun b => b = true ↔ s = t) := by
  induction fuel generalizing visited waiting with
  | zero =>
    cases waiting with
    | nil =>
      unfold equalityLoop
      exact Meets.pure ⟨fun _ => h.same_root hs ht hroot, fun _ => rfl⟩
    | cons pair waiting =>
      have := h.bounded
      rw [List.length_cons] at this
      omega
  | succ fuel ih =>
    cases waiting with
    | nil =>
      unfold equalityLoop
      exact Meets.pure ⟨fun _ => h.same_root hs ht hroot, fun _ => rfl⟩
    | cons pair waiting =>
      have hnodup := List.nodup_cons.mp (List.perm_middle.nodup_iff.mp h.fresh)
      have hnew : pair ∉ visited := fun hin => hnodup.1 (List.mem_append_left _ hin)
      obtain ⟨s', t', ⟨f, hs'⟩, ⟨g, ht'⟩, heq⟩ :=
        h.stands pair (List.mem_append_right _ List.mem_cons_self)
      have hs' := termAt_more (show f ≤ max f g + 1 by omega) _ _ hs'
      have ht' := termAt_more (show g ≤ max f g + 1 by omega) _ _ ht'
      unfold equalityLoop
      refine (Gives.checkCancel _).bindMeets ?_
      rw [if_neg hnew]
      refine (Gives.grown _).bindMeets ((comparePair_meets haddressed hs' ht').bind fun r hr => ?_)
      have hr : Decides left right (s = t) (pair :: visited) waiting
          (fun fuel => Alike left right (fuel + 1) pair) r := hr.mono heq fun _ h => h
      cases r with
      | none => exact Meets.pure ⟨fun h => (by cases h), fun h => absurd h hr⟩
      | some waiting' =>
        refine ih (h.step hr.1 hr.2) ?_ (by rw [List.length_cons]; omega)
        rcases List.mem_append.mp hroot with hin | hin
        · exact List.mem_append_left _ (List.mem_cons_of_mem _ hin)
        · rcases List.mem_cons.mp hin with heq | hin
          · exact List.mem_append_left _ (heq ▸ List.mem_cons_self)
          · exact List.mem_append_right _ (hr.1.keeps hin)

/-- The walk decides whether two nodes of two tables stand for one term. -/
theorem structurallyEqualNode_meets {i j : Nat} {s t : Term}
    (hs : left.columns.Stands noScopeMap i s) (ht : right.columns.Stands noScopeMap j t) :
    Meets m (structurallyEqualNode m left right i j) (fun b => b = true ↔ s = t) := by
  have hstart : Walking left right (s = t) [] [(i, j)] := by
    refine ⟨List.nodup_singleton _, fun pair hpair => ?_, fun _ h => absurd h List.not_mem_nil⟩
    rw [List.nil_append, List.mem_singleton] at hpair
    exact hpair ▸ ⟨s, t, hs, ht, id⟩
  unfold structurallyEqualNode
  exact (Gives.grown 0).bindMeets
    (equalityLoop_meets haddressed hstart hs ht List.mem_cons_self (Nat.zero_add _))

end Loop

end Projector.Native
