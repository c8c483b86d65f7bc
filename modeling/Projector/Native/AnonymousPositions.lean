import Projector.Encoded.NodeMerge
import Projector.Native.LengthBuilder
import Projector.Native.Reads

namespace Projector.Native
open Lib Projector.Core Projector.Encoded Compiler

section Code

/-- `usize::MAX`: a position that is not assigned yet. -/
def UNASSIGNED : Nat := usizeLimit - 1

structure CompositeNodeCoordinate where
  table : Nat
  nodeId : Nat
  canonicalOrder : Nat
  deriving DecidableEq, Repr

/-- `compare_canonical_varints` -/
def compareCanonicalVarints (left right : Nat) : Ordering :=
  byteOrder (varint left) (varint right)

/-- `anonymous_parts`: the scope as the scope maps leave it, and the local key. -/
def DirectColumns.anonymousParts (d : DirectColumns) (id : Nat) :
    Except KernelError (Bytes × Bytes) := do
  d.validateAnonymousIndividual id
  let start ← d.exactFields id 2
  let scope ← d.scalarPayload start COMPONENT_BYTES
  let localKey ← d.scalarPayload (start + 1) COMPONENT_BYTES
  .ok (d.remapAnonymousScope scope, localKey)

variable {β : Type} (m : Meter β) (tables : List DirectColumns)

def coordinateColumns (c : CompositeNodeCoordinate) : Except KernelError DirectColumns :=
  match tables[c.table]? with
  | some d => .ok d
  | none => .error (.malformed "encoded anonymous coordinate references an unknown table")

def comparisonOverflow : String := "encoded anonymous comparison work counter overflow"

/-- `compare_effective_anonymous_nodes` -/
def compareEffectiveAnonymousNodes (left right : CompositeNodeCoordinate) :
    Metered β Ordering := do
  m.consumed 1
  let leftColumns ← lift (coordinateColumns tables left)
  let rightColumns ← lift (coordinateColumns tables right)
  let (leftScope, leftKey) ← lift (leftColumns.anonymousParts left.nodeId)
  let (rightScope, rightKey) ← lift (rightColumns.anonymousParts right.nodeId)
  let work ← lift (checkedAdd leftScope.length rightScope.length comparisonOverflow)
  let work ← lift (checkedAdd work leftKey.length comparisonOverflow)
  let work ← lift (checkedAdd work rightKey.length comparisonOverflow)
  m.consumed work
  if byteOrder leftScope rightScope ≠ .eq then pure (byteOrder leftScope rightScope)
  else if compareCanonicalVarints leftKey.length rightKey.length ≠ .eq then
    pure (compareCanonicalVarints leftKey.length rightKey.length)
  else pure (byteOrder leftKey rightKey)

/-- The first loop of a round: the least coordinate without a position. -/
def findMinimum : Option CompositeNodeCoordinate → List CompositeNodeCoordinate →
    Metered β (Option CompositeNodeCoordinate)
  | minimum, [] => pure minimum
  | minimum, coordinate :: rest =>
    if coordinate.canonicalOrder ≠ UNASSIGNED then findMinimum minimum rest
    else
      match minimum with
      | none => findMinimum (some coordinate) rest
      | some current => do
        let order ← compareEffectiveAnonymousNodes m tables coordinate current
        findMinimum (some (if order = .lt then coordinate else current)) rest

/-- The second loop of a round: the coordinates that equal the least one. -/
def assignEqual (minimum : CompositeNodeCoordinate) (position : Nat) :
    List CompositeNodeCoordinate → Metered β (List CompositeNodeCoordinate)
  | [] => pure []
  | coordinate :: rest =>
    if coordinate.canonicalOrder ≠ UNASSIGNED then do
      let others ← assignEqual minimum position rest
      pure (coordinate :: others)
    else do
      let order ← compareEffectiveAnonymousNodes m tables coordinate minimum
      let others ← assignEqual minimum position rest
      pure ((if order = .eq then { coordinate with canonicalOrder := position } else coordinate) ::
        others)

def assignRounds : Nat → Nat → List CompositeNodeCoordinate →
    Metered β (Option (List CompositeNodeCoordinate × Nat))
  | 0, _, _ => pure none
  | rounds + 1, nextPosition, coordinates => do
    let minimum ← findMinimum m tables none coordinates
    match minimum with
    | none => pure (some (coordinates, nextPosition))
    | some minimum => do
      let coordinates ← assignEqual m tables minimum nextPosition coordinates
      let nextPosition ←
        lift (checkedAdd nextPosition 1 "encoded anonymous position counter overflow")
      assignRounds rounds nextPosition coordinates

/-- `assign_anonymous_positions` -/
def assignAnonymousPositions (rounds : Nat) (coordinates : List CompositeNodeCoordinate) :
    Metered β (Option (List CompositeNodeCoordinate × Nat)) :=
  assignRounds m tables rounds 0 coordinates

def renderAnonymousIdentifier (position : Nat) : Except KernelError String := do
  let identifier ← checkedAdd 2147483648 position "encoded anonymous identifier overflow"
  .ok ("_:genid" ++ toString identifier)

end Code

section Identity

/-- The term of an anonymous individual. -/
def anonymousTerm (scope localKey : Bytes) : Term :=
  .mk Constructor.anonymousIndividual.tag [.scalar .bytes scope, .scalar .bytes localKey]

/-- Canonical bytes order individuals by their scopes, then by the code of the length of the
local key, then by the key. -/
theorem byteOrder_anonymous {scope scope' : Bytes} (hscope : scope.length = 32)
    (hscope' : scope'.length = 32) (key key' : Bytes) :
    byteOrder (anonymousTerm scope key).encode (anonymousTerm scope' key').encode =
      (byteOrder scope scope').then
        ((compareCanonicalVarints key.length key'.length).then (byteOrder key key')) := by
  have hcode : ∀ {s k : Bytes}, s.length = 32 → (anonymousTerm s k).encode =
      (varint Constructor.anonymousIndividual.tag ++ (ScalarKind.bytes.code :: varint 32)) ++
        (s ++ ([ScalarKind.bytes.code] ++ (varint k.length ++ (k ++ [])))) := by
    intro s k hs
    simp only [anonymousTerm, Term.encode, Piece.encodeAll, Piece.encode, sized, hs,
      List.append_assoc, List.cons_append, List.nil_append]
  rw [hcode hscope, hcode hscope', byteOrder_append_left,
    byteOrder_append_width (hscope.trans hscope'.symm), byteOrder_append_left,
    byteOrder_append_varint, List.append_nil, List.append_nil]
  rfl

variable {d : DirectColumns} {id : Nat} {scope localKey : Bytes}

theorem scalarPayload_cell {index kind : Nat} {payload : Bytes}
    (h : d.scalarPayload index kind = .ok payload) :
    ∃ value length, d.columns.cellAt index false = some ⟨kind, value, length⟩ ∧
      d.columns.payloadAt value length = some payload := by
  obtain ⟨actual, hactual, hread⟩ := bind_ok h
  split at hread
  · cases hread
  rename_i hkind
  rw [not_ne_iff.mp hkind] at hactual
  obtain ⟨value, hvalue, hread⟩ := bind_ok hread
  obtain ⟨length, hlength, hread⟩ := bind_ok hread
  have hvalue : readUsize d.columns.fieldValues index "field_values" = .ok value := hvalue
  have hlength : readUsize d.columns.fieldLengths index "field_lengths" = .ok length := hlength
  refine ⟨value, length, componentRow_ok.mp ?_, (scalarRange_ok.mp hread).2⟩
  unfold componentRow
  simp only [Bool.false_eq_true, if_false]
  rw [ok_bind _ hactual, ok_bind _ hvalue, ok_bind _ hlength]

/-- What the parts of an individual are read from. -/
theorem anonymousParts_ok (h : d.anonymousParts id = .ok (scope, localKey)) :
    ∃ start original, d.columns.rangeAt id = some (start, start + 2) ∧
      d.columns.nodeTags[id - 1]? = some Constructor.anonymousIndividual.tag ∧
      (∃ value length, d.columns.cellAt start false = some ⟨COMPONENT_BYTES, value, length⟩ ∧
        d.columns.payloadAt value length = some original) ∧
      (∃ value length, d.columns.cellAt (start + 1) false = some ⟨COMPONENT_BYTES, value, length⟩ ∧
        d.columns.payloadAt value length = some localKey) ∧
      original.length = 32 ∧ scope = d.remapAnonymousScope original := by
  obtain ⟨_, hvalid, h⟩ := bind_ok h
  obtain ⟨start, hstart, h⟩ := bind_ok h
  obtain ⟨original, hscope, h⟩ := bind_ok h
  obtain ⟨key, hkey, h⟩ := bind_ok h
  cases h
  obtain ⟨tag, htag, hvalid⟩ := bind_ok hvalid
  split at hvalid
  · cases hvalid
  rename_i hanonymous
  obtain rfl := not_ne_iff.mp hanonymous
  rw [ok_bind _ hstart, ok_bind _ hscope, ok_bind _ hkey] at hvalid
  split at hvalid
  · cases hvalid
  rename_i hwidth
  obtain ⟨⟨first, stop⟩, hrange, hopen⟩ := bind_ok hstart
  dsimp only at hopen
  split at hopen
  · rename_i harity
    cases hopen
    have hrange := fieldRange_ok.mp hrange
    refine ⟨start, original, ?_, (nodeTag_ok hrange).mp htag, scalarPayload_cell hscope,
      scalarPayload_cell hkey, not_ne_iff.mp hwidth, rfl⟩
    rw [hrange]
    congr 2
    omega
  · cases hopen

/-- An individual that a cursor streams is the one that the native parts name. -/
theorem stands_anonymous {scopeMap : Bytes → Option Bytes} {t : Term}
    (hscope : ∀ scope, d.remapAnonymousScope scope = (scopeMap scope).getD scope)
    (h : d.anonymousParts id = .ok (scope, localKey)) (ht : d.columns.Stands scopeMap id t) :
    t = anonymousTerm scope localKey := by
  obtain ⟨start, original, hrange, htag, ⟨v, l, hcell, hpayload⟩, ⟨v', l', hcell', hpayload'⟩, -,
    rfl⟩ := anonymousParts_ok h
  obtain ⟨fuel, ht⟩ := ht
  obtain ⟨previous, first, stop, tag, fields, -, rfl, hview⟩ := termAt_some ht
  obtain ⟨rfl, rfl⟩ : start = first ∧ start + 2 = stop := by
    have hsame := Option.some.inj (hrange.symm.trans hview.range)
    exact ⟨congrArg Prod.fst hsame, congrArg Prod.snd hsame⟩
  obtain rfl := Option.some.inj (htag.symm.trans hview.tagged)
  have hfields := hview.fields
  rw [Nat.add_sub_cancel_left] at hfields
  obtain ⟨p, rest, hp, hrest, rfl⟩ := List.forall₂_cons_left_iff.mp hfields
  obtain ⟨q, last, hq, hnil, rfl⟩ := List.forall₂_cons_left_iff.mp hrest
  cases hnil
  have hbytes : ∀ {index v l : Nat} {payload : Bytes} {rescope : Bytes → Bytes} {piece : Piece}
      {term : Nat → Option Term}, d.columns.cellAt index false = some ⟨COMPONENT_BYTES, v, l⟩ →
      d.columns.payloadAt v l = some payload →
      d.columns.fieldPiece term rescope index = some piece →
      piece = .scalar .bytes (rescope payload) := by
    intro index v l payload rescope piece term hcell hpayload hpiece
    unfold Columns.fieldPiece at hpiece
    rw [hcell] at hpiece
    have hleaf : d.columns.leafPiece term rescope ⟨COMPONENT_BYTES, v, l⟩ = some piece := hpiece
    unfold Columns.leafPiece at hleaf
    rw [hpayload] at hleaf
    exact (Option.some.inj hleaf).symm
  rw [hbytes hcell hpayload hp, hbytes hcell' hpayload' hq, hscope]
  unfold anonymousTerm Columns.rescopeOf
  rw [if_pos ⟨rfl, rfl⟩, if_neg (by omega)]
  rfl

end Identity

section Assignment
variable {β : Type} {m : Meter β} {tables : List DirectColumns}

/-- A coordinate whose individual can be read, with its canonical bytes. -/
structure Reads32 (tables : List DirectColumns) (c : CompositeNodeCoordinate) (scope key : Bytes) :
    Prop where
  columns : ∃ d, coordinateColumns tables c = .ok d ∧ d.anonymousParts c.nodeId = .ok (scope, key)
  width : scope.length = 32

/-- The canonical bytes of the individual at a coordinate. -/
def codeAt (tables : List DirectColumns) (c : CompositeNodeCoordinate) : Bytes :=
  match coordinateColumns tables c with
  | .error _ => []
  | .ok d =>
    match d.anonymousParts c.nodeId with
    | .error _ => []
    | .ok (scope, key) => (anonymousTerm scope key).encode

def Identified (tables : List DirectColumns) (c : CompositeNodeCoordinate) : Prop :=
  ∃ scope key, Reads32 tables c scope key

theorem Reads32.code {c : CompositeNodeCoordinate} {scope key : Bytes}
    (h : Reads32 tables c scope key) : codeAt tables c = (anonymousTerm scope key).encode := by
  obtain ⟨d, hcolumns, hparts⟩ := h.columns
  unfold codeAt
  rw [hcolumns]
  dsimp only
  rw [hparts]

/-- Coordinates compare as the canonical bytes of their individuals do. -/
theorem compare_meets {l r : CompositeNodeCoordinate} (hl : Identified tables l)
    (hr : Identified tables r) :
    Meets m (compareEffectiveAnonymousNodes m tables l r)
      (fun order => order = byteOrder (codeAt tables l) (codeAt tables r)) := by
  obtain ⟨ls, lk, hl⟩ := hl
  obtain ⟨rs, rk, hr⟩ := hr
  rw [hl.code, hr.code, byteOrder_anonymous hl.width hr.width]
  obtain ⟨ld, hlcolumns, hlparts⟩ := hl.columns
  obtain ⟨rd, hrcolumns, hrparts⟩ := hr.columns
  unfold compareEffectiveAnonymousNodes
  refine (Gives.consumed 1).bindMeets ((Gives.lift hlcolumns).bindMeets
    ((Gives.lift hrcolumns).bindMeets ((Gives.lift hlparts).bindMeets
      ((Gives.lift hrparts).bindMeets ?_))))
  refine Meets.checkedAdd.bind fun work _ => Meets.checkedAdd.bind fun work _ =>
    Meets.checkedAdd.bind fun work _ => (Gives.consumed work).bindMeets ?_
  cases hscope : byteOrder ls rs with
  | lt => exact Meets.pure rfl
  | gt => exact Meets.pure rfl
  | eq =>
    cases hlength : compareCanonicalVarints lk.length rk.length with
    | lt => exact Meets.pure rfl
    | gt => exact Meets.pure rfl
    | eq => exact Meets.pure rfl

def Waits (c : CompositeNodeCoordinate) : Prop := c.canonicalOrder = UNASSIGNED

/-- What the search for the least coordinate finds. -/
structure LeastWaiting (tables : List DirectColumns) (minimum : Option CompositeNodeCoordinate)
    (cs : List CompositeNodeCoordinate) (found : Option CompositeNodeCoordinate) : Prop where
  none : found = none → minimum = none ∧ ∀ c ∈ cs, ¬Waits c
  member : ∀ least ∈ found, least ∈ minimum ∨ least ∈ cs ∧ Waits least
  before : ∀ least ∈ found, ∀ current ∈ minimum, codeAt tables least ≤ codeAt tables current
  least : ∀ least ∈ found, ∀ c ∈ cs, Waits c → codeAt tables least ≤ codeAt tables c

namespace LeastWaiting
variable {minimum found : Option CompositeNodeCoordinate} {c : CompositeNodeCoordinate}
  {cs : List CompositeNodeCoordinate}

theorem nil : LeastWaiting tables minimum [] minimum := by
  refine ⟨fun h => ⟨h, fun c hc => absurd hc List.not_mem_nil⟩, fun least h => .inl h,
    fun least h current hc => ?_, fun _ _ c hc => absurd hc List.not_mem_nil⟩
  rw [Option.mem_def] at h hc
  rw [h] at hc
  cases hc
  exact le_refl _

/-- A coordinate with a position changes nothing. -/
theorem skip (hclosed : ¬Waits c) (h : LeastWaiting tables minimum cs found) :
    LeastWaiting tables minimum (c :: cs) found := by
  refine ⟨fun hnone => ⟨(h.none hnone).1, fun c' hc' => ?_⟩, fun least hleast => ?_, h.before,
    fun least hleast c' hc' hw => ?_⟩
  · rcases List.mem_cons.mp hc' with rfl | hc'
    · exact hclosed
    · exact (h.none hnone).2 c' hc'
  · rcases h.member least hleast with hm | ⟨hm, hw⟩
    · exact .inl hm
    · exact .inr ⟨List.mem_cons_of_mem _ hm, hw⟩
  · rcases List.mem_cons.mp hc' with rfl | hc'
    · exact absurd hw hclosed
    · exact h.least least hleast c' hc' hw

/-- The search goes on with a coordinate that waits or with the least one before it. -/
theorem take {chosen : CompositeNodeCoordinate} (hwaits : Waits c)
    (hchosen : chosen = c ∨ chosen ∈ minimum)
    (hbefore : ∀ current ∈ minimum, codeAt tables chosen ≤ codeAt tables current)
    (hc : codeAt tables chosen ≤ codeAt tables c)
    (h : LeastWaiting tables (some chosen) cs found) :
    LeastWaiting tables minimum (c :: cs) found := by
  refine ⟨fun hnone => ?_, fun least hleast => ?_, fun least hleast current hcurrent => ?_,
    fun least hleast c' hc' hw => ?_⟩
  · cases (h.none hnone).1
  · rcases h.member least hleast with hm | ⟨hm, hw⟩
    · cases hm
      rcases hchosen with rfl | hm
      · exact .inr ⟨List.mem_cons_self, hwaits⟩
      · exact .inl hm
    · exact .inr ⟨List.mem_cons_of_mem _ hm, hw⟩
  · exact le_trans (h.before least hleast chosen rfl) (hbefore current hcurrent)
  · rcases List.mem_cons.mp hc' with rfl | hc'
    · exact le_trans (h.before least hleast chosen rfl) hc
    · exact h.least least hleast c' hc' hw

end LeastWaiting

theorem findMinimum_meets {cs : List CompositeNodeCoordinate}
    (hcs : ∀ c ∈ cs, Identified tables c) {minimum : Option CompositeNodeCoordinate}
    (hminimum : ∀ c ∈ minimum, Identified tables c) :
    Meets m (findMinimum m tables minimum cs) (LeastWaiting tables minimum cs) := by
  induction cs generalizing minimum with
  | nil => exact Meets.pure .nil
  | cons c cs ih =>
    have hc := hcs c List.mem_cons_self
    have hrest := fun c' hc' => hcs c' (List.mem_cons_of_mem c hc')
    unfold findMinimum
    by_cases hwaits : Waits c
    · have hopen : c.canonicalOrder = UNASSIGNED := hwaits
      rw [if_neg (not_not_intro hopen)]
      cases minimum with
      | none =>
        have hfirst : ∀ c' ∈ some c, Identified tables c' := by
          intro c' hc'
          cases hc'
          exact hc
        refine (ih hrest hfirst).mono fun found h =>
          h.take hwaits (.inl rfl) (fun current hcurrent => ?_) (le_refl _)
        cases hcurrent
      | some current =>
        have hcurrent := hminimum current rfl
        refine (compare_meets hc hcurrent).bind fun order horder => ?_
        by_cases hlt : order = .lt
        · have hless := (byteOrder_lt_iff _ _).mp (horder.symm.trans hlt)
          rw [if_pos hlt]
          have hchosen : ∀ c' ∈ some c, Identified tables c' := by
            intro c' hc'
            cases hc'
            exact hc
          refine (ih hrest hchosen).mono fun found h =>
            h.take hwaits (.inl rfl) (fun other hother => ?_) (le_refl _)
          cases hother
          exact le_of_lt hless
        · have hge : ¬codeAt tables c < codeAt tables current := fun hless =>
            hlt (horder.trans ((byteOrder_lt_iff _ _).mpr hless))
          rw [if_neg hlt]
          refine (ih hrest hminimum).mono fun found h =>
            h.take hwaits (.inr rfl) (fun other hother => ?_) (not_lt.mp hge)
          cases hother
          exact le_refl _
    · have hclosed : c.canonicalOrder ≠ UNASSIGNED := hwaits
      rw [if_pos hclosed]
      exact (ih hrest hminimum).mono fun found h => h.skip hwaits

/-- A waiting coordinate takes the position if it has the code. -/
def assigned (tables : List DirectColumns) (code : Bytes) (position : Nat)
    (c : CompositeNodeCoordinate) : CompositeNodeCoordinate :=
  if c.canonicalOrder = UNASSIGNED ∧ codeAt tables c = code then
    { c with canonicalOrder := position }
  else c

theorem assignEqual_meets {cs : List CompositeNodeCoordinate}
    (hcs : ∀ c ∈ cs, Identified tables c) {least : CompositeNodeCoordinate}
    (hleast : Identified tables least) (position : Nat) :
    Meets m (assignEqual m tables least position cs)
      (fun result => result = cs.map (assigned tables (codeAt tables least) position)) := by
  induction cs with
  | nil => exact Meets.pure rfl
  | cons c cs ih =>
    have hrest := ih fun c' hc' => hcs c' (List.mem_cons_of_mem c hc')
    unfold assignEqual
    by_cases hwaits : c.canonicalOrder = UNASSIGNED
    · rw [if_neg (not_not_intro hwaits)]
      refine (compare_meets (hcs c List.mem_cons_self) hleast).bind fun order horder => ?_
      refine hrest.bind fun others hothers => Meets.pure ?_
      have hequal : order = .eq ↔ codeAt tables c = codeAt tables least := by
        rw [horder]
        exact byteOrder_eq_iff _ _
      rw [hothers, List.map_cons]
      unfold assigned
      by_cases hcode : codeAt tables c = codeAt tables least
      · rw [if_pos (hequal.mpr hcode), if_pos ⟨hwaits, hcode⟩]
      · rw [if_neg (mt hequal.mp hcode), if_neg fun h => hcode h.2]
    · rw [if_pos hwaits]
      refine hrest.bind fun others hothers => Meets.pure ?_
      rw [hothers, List.map_cons]
      unfold assigned
      rw [if_neg fun h => hwaits h.1]

/-- A coordinate as it stands when the positions before `next` are given out. -/
def rankedTo (tables : List DirectColumns) (codes : List Bytes) (next : Nat)
    (c : CompositeNodeCoordinate) : CompositeNodeCoordinate :=
  { c with canonicalOrder :=
      if rank codes (codeAt tables c) < next then rank codes (codeAt tables c) else UNASSIGNED }

section Rounds
variable {cs : List CompositeNodeCoordinate} {next : Nat} (hcs : ∀ c ∈ cs, Identified tables c)
  (hfits : cs.length < UNASSIGNED)

theorem identified_ranked {codes : List Bytes} {c : CompositeNodeCoordinate}
    (h : Identified tables c) : Identified tables (rankedTo tables codes next c) := by
  obtain ⟨scope, key, h⟩ := h
  exact ⟨scope, key, ⟨h.columns, h.width⟩⟩

theorem codeAt_ranked (codes : List Bytes) (c : CompositeNodeCoordinate) :
    codeAt tables (rankedTo tables codes next c) = codeAt tables c := rfl

variable (tables) in
theorem mem_codes {c : CompositeNodeCoordinate} (hc : c ∈ cs) :
    codeAt tables c ∈ cs.map (codeAt tables) := List.mem_map_of_mem hc

variable (tables) in
include hfits in
theorem rank_fits {c : CompositeNodeCoordinate} (hc : c ∈ cs) :
    rank (cs.map (codeAt tables)) (codeAt tables c) < UNASSIGNED := by
  have hlt := rank_lt (mem_codes tables hc)
  have hle := length_distinct_le (cs.map (codeAt tables))
  rw [List.length_map] at hle
  omega

variable (tables next) in
include hfits in
/-- The coordinates that wait are those with later ranks. -/
theorem waits_iff {c : CompositeNodeCoordinate} (hc : c ∈ cs) :
    Waits (rankedTo tables (cs.map (codeAt tables)) next c) ↔
      next ≤ rank (cs.map (codeAt tables)) (codeAt tables c) := by
  have hlt := rank_fits tables hfits hc
  unfold Waits rankedTo
  dsimp only
  split
  · omega
  · constructor
    · omega
    · exact fun _ => rfl

include hfits in
theorem assigned_ranked {code : Bytes} (hcode : code ∈ cs.map (codeAt tables))
    (hrank : rank (cs.map (codeAt tables)) code = next) {c : CompositeNodeCoordinate} (hc : c ∈ cs) :
    assigned tables code next (rankedTo tables (cs.map (codeAt tables)) next c) =
      rankedTo tables (cs.map (codeAt tables)) (next + 1) c := by
  have hwaits := waits_iff tables next hfits hc
  have hsame : codeAt tables c = code ↔ rank (cs.map (codeAt tables)) (codeAt tables c) = next :=
    ⟨fun h => h ▸ hrank, fun h => rank_inj (mem_codes tables hc) hcode (h.trans hrank.symm)⟩
  unfold assigned
  by_cases hequal : codeAt tables c = code
  · have hplace := hsame.mp hequal
    have hopen : (rankedTo tables (cs.map (codeAt tables)) next c).canonicalOrder = UNASSIGNED :=
      hwaits.mpr (le_of_eq hplace.symm)
    rw [if_pos ⟨hopen, hequal⟩]
    unfold rankedTo
    dsimp only
    rw [if_pos (by omega), hplace]
  · rw [if_neg fun h => hequal h.2]
    have hplace := mt hsame.mpr hequal
    unfold rankedTo
    by_cases hlt : rank (cs.map (codeAt tables)) (codeAt tables c) < next
    · rw [if_pos hlt, if_pos (by omega)]
    · rw [if_neg hlt, if_neg (by omega)]

theorem mem_ranked {c : CompositeNodeCoordinate} (hc : c ∈ cs) :
    rankedTo tables (cs.map (codeAt tables)) next c ∈
      cs.map (rankedTo tables (cs.map (codeAt tables)) next) := List.mem_map_of_mem hc

include hfits in
/-- Once no coordinate waits, every rank is given out. -/
theorem all_ranked (hnext : next ≤ (distinctKeys (cs.map (codeAt tables))).length)
    (hnone : ∀ c ∈ cs.map (rankedTo tables (cs.map (codeAt tables)) next), ¬Waits c) :
    next = (distinctKeys (cs.map (codeAt tables))).length := by
  by_contra hne
  have hin : next < (distinctKeys (cs.map (codeAt tables))).length := by omega
  obtain ⟨c, hc, hcode⟩ := List.mem_map.mp (mem_distinct.mp (List.getElem_mem hin))
  have hplace := rank_getElem hin
  rw [← hcode] at hplace
  exact hnone _ (mem_ranked hc) ((waits_iff tables next hfits hc).mpr (le_of_eq hplace.symm))

include hfits in
/-- The least coordinate that waits has the next rank. -/
theorem rank_of_leastWaiting {least : CompositeNodeCoordinate}
    (hfound : LeastWaiting tables none (cs.map (rankedTo tables (cs.map (codeAt tables)) next))
      (some least)) :
    ∃ c ∈ cs, least = rankedTo tables (cs.map (codeAt tables)) next c ∧
      rank (cs.map (codeAt tables)) (codeAt tables c) = next := by
  obtain ⟨hmem, hwaits⟩ := (hfound.member least rfl).resolve_left (by rintro ⟨⟩)
  obtain ⟨c, hc, rfl⟩ := List.mem_map.mp hmem
  refine ⟨c, hc, rfl, ?_⟩
  refine rank_of_least (mem_codes tables hc) ((waits_iff tables next hfits hc).mp hwaits)
    fun j hj hle => ?_
  obtain ⟨c', hc', rfl⟩ := List.mem_map.mp hj
  have hleast := hfound.least _ rfl _ (mem_ranked hc') ((waits_iff tables next hfits hc').mpr hle)
  rw [codeAt_ranked, codeAt_ranked] at hleast
  exact hleast

include hcs hfits in
/-- The rounds give every coordinate the rank of its individual. -/
theorem assignRounds_meets {rounds : Nat}
    (hnext : next ≤ (distinctKeys (cs.map (codeAt tables))).length)
    (hrounds : (distinctKeys (cs.map (codeAt tables))).length < next + rounds) :
    Meets m (assignRounds m tables rounds next
        (cs.map (rankedTo tables (cs.map (codeAt tables)) next)))
      (fun result => result = some
        (cs.map (rankedTo tables (cs.map (codeAt tables)) (distinctKeys (cs.map (codeAt tables))).length),
          (distinctKeys (cs.map (codeAt tables))).length)) := by
  induction rounds generalizing next with
  | zero => omega
  | succ rounds ih =>
    have hidentified : ∀ c ∈ cs.map (rankedTo tables (cs.map (codeAt tables)) next),
        Identified tables c := by
      intro c hc
      obtain ⟨original, horiginal, rfl⟩ := List.mem_map.mp hc
      exact identified_ranked (hcs original horiginal)
    unfold assignRounds
    have hnone : ∀ c ∈ (none : Option CompositeNodeCoordinate), Identified tables c := by
      rintro _ ⟨⟩
    refine (findMinimum_meets hidentified hnone).bind fun found hfound => ?_
    cases found with
    | none =>
      rw [← all_ranked hfits hnext (hfound.none rfl).2]
      exact Meets.pure rfl
    | some least =>
      obtain ⟨c, hc, rfl, hplace⟩ := rank_of_leastWaiting hfits hfound
      have hlt := rank_lt (mem_codes tables hc)
      refine (assignEqual_meets hidentified (hidentified _ (mem_ranked hc)) next).bind fun moved hmoved => ?_
      refine Meets.checkedAdd.bind fun following hfollowing => ?_
      have hstep : (cs.map (rankedTo tables (cs.map (codeAt tables)) next)).map
          (assigned tables (codeAt tables c) next) =
          cs.map (rankedTo tables (cs.map (codeAt tables)) (next + 1)) := by
        rw [List.map_map]
        exact List.map_congr_left fun c' hc' =>
          assigned_ranked hfits (mem_codes tables hc) hplace hc'
      rw [hmoved, hfollowing]
      change Meets m (assignRounds m tables rounds (next + 1)
        ((cs.map (rankedTo tables (cs.map (codeAt tables)) next)).map
          (assigned tables (codeAt tables c) next))) _
      rw [hstep]
      exact ih (by omega) (by omega)

include hcs hfits in
/-- Coordinates without positions get the ranks of their individuals. -/
theorem assignAnonymousPositions_meets {rounds : Nat} (hrounds : cs.length < rounds)
    (hwait : ∀ c ∈ cs, Waits c) :
    Meets m (assignAnonymousPositions m tables rounds cs) (fun result => result = some
      (cs.map (rankedTo tables (cs.map (codeAt tables))
        (distinctKeys (cs.map (codeAt tables))).length),
        (distinctKeys (cs.map (codeAt tables))).length)) := by
  have hfew := length_distinct_le (cs.map (codeAt tables))
  rw [List.length_map] at hfew
  have hstart : cs.map (rankedTo tables (cs.map (codeAt tables)) 0) = cs := by
    conv_rhs => rw [← List.map_id cs]
    refine List.map_congr_left fun c hc => ?_
    have hopen : c.canonicalOrder = UNASSIGNED := hwait c hc
    unfold rankedTo
    rw [if_neg (Nat.not_lt_zero _), ← hopen]
    rfl
  have hrun := assignRounds_meets (m := m) hcs hfits (Nat.zero_le _)
    (show (distinctKeys (cs.map (codeAt tables))).length < 0 + rounds by omega)
  rw [hstart] at hrun
  exact hrun

end Rounds

end Assignment

section Agreement
variable {β : Type} {m : Meter β} {tables : List DirectColumns}

/-- A coordinate without a position and the node that it is, in a table that a cursor reads too. -/
structure SameNode (tables : List DirectColumns) (n : KeyedNode) (c : CompositeNodeCoordinate) :
    Prop where
  waits : Waits c
  node : c.nodeId = n.ref.nodeId
  table : ∃ d, tables[c.table]? = some d ∧ d.columns = n.ref.cursor.columns ∧
    (∀ scope, d.remapAnonymousScope scope = (n.ref.cursor.scopeMap scope).getD scope) ∧
    d.validateAnonymousIndividual c.nodeId = .ok ()

theorem anonymousParts_of_valid {d : DirectColumns} {id : Nat}
    (h : d.validateAnonymousIndividual id = .ok ()) :
    ∃ scope localKey, d.anonymousParts id = .ok (scope, localKey) := by
  have hvalid := h
  obtain ⟨tag, -, h⟩ := bind_ok h
  split at h
  · cases h
  obtain ⟨start, hstart, h⟩ := bind_ok h
  obtain ⟨scope, hscope, h⟩ := bind_ok h
  obtain ⟨localKey, hkey, -⟩ := bind_ok h
  refine ⟨d.remapAnonymousScope scope, localKey, ?_⟩
  unfold DirectColumns.anonymousParts
  rw [ok_bind _ hvalid, ok_bind _ hstart, ok_bind _ hscope, ok_bind _ hkey]

/-- A coordinate can be read, and its code is that of its node. -/
theorem SameNode.identified (hsorted : ∀ d ∈ tables, ∀ scopeMap ∈ d.scopeMaps,
    AscendingSources scopeMap) {n : KeyedNode} {c : CompositeNodeCoordinate}
    (h : SameNode tables n c) : Identified tables c ∧ codeAt tables c = n.key := by
  obtain ⟨d, htable, hcolumns, hscopes, hvalid⟩ := h.table
  obtain ⟨scope, localKey, hparts⟩ := anonymousParts_of_valid hvalid
  have hcoordinate : coordinateColumns tables c = .ok d := by
    unfold coordinateColumns
    rw [htable]
  have hwidth : scope.length = 32 := by
    obtain ⟨_, original, -, -, -, -, horiginal, rfl⟩ := anonymousParts_ok hparts
    rcases remapped_width d.scopeMaps (hsorted d (List.mem_of_getElem? htable)) original with
      hsame | ⟨-, hwide⟩
    · exact (congrArg List.length hsame).trans horiginal
    · exact hwide
  have hreads : Reads32 tables c scope localKey := ⟨⟨d, hcoordinate, hparts⟩, hwidth⟩
  have hstands := n.stands
  rw [← hcolumns, ← h.node] at hstands
  have hterm := stands_anonymous hscopes hparts hstands
  refine ⟨⟨scope, localKey, hreads⟩, ?_⟩
  rw [hreads.code, KeyedNode.key, hterm]

/-- The coordinates of some nodes have the codes of the nodes. -/
theorem codes_of_same (hsorted : ∀ d ∈ tables, ∀ scopeMap ∈ d.scopeMaps,
    AscendingSources scopeMap) {nodes : List KeyedNode} {coordinates : List CompositeNodeCoordinate}
    (h : List.Forall₂ (SameNode tables) nodes coordinates) :
    (∀ c ∈ coordinates, Identified tables c ∧ Waits c) ∧
      coordinates.map (codeAt tables) = nodes.map KeyedNode.key := by
  induction h with
  | nil => exact ⟨fun _ hc => absurd hc List.not_mem_nil, rfl⟩
  | cons hfirst _ ih =>
    obtain ⟨hidentified, hcode⟩ := hfirst.identified hsorted
    constructor
    · intro c hc
      rcases List.mem_cons.mp hc with rfl | hc
      · exact ⟨hidentified, hfirst.waits⟩
      · exact ih.1 c hc
    · rw [List.map_cons, List.map_cons, hcode, ih.2]

theorem render_genid {position : Nat} (hfits : 2147483648 + position < usizeLimit) :
    renderAnonymousIdentifier position = .ok (genid position) := by
  unfold renderAnonymousIdentifier checkedAdd
  rw [if_pos hfits]
  rfl

def sharedTables : List DirectColumns :=
  [⟨anonymousTable 97, []⟩, ⟨anonymousTable 98, []⟩, ⟨anonymousTable 97, []⟩]

def sharedCoordinates : List CompositeNodeCoordinate :=
  [⟨0, 1, UNASSIGNED⟩, ⟨1, 1, UNASSIGNED⟩, ⟨2, 1, UNASSIGNED⟩]

end Agreement

end Projector.Native
