import Projector.Native.RoleRows
import Projector.Native.Sorting

namespace Projector.Native
open Lib Projector.Core Projector.Encoded Compiler

/-- The role maps of the native compiler. Whether a text is borrowed or owned is left out, so
`OwnedRoleState` is the same. -/
structure NativeRoleState where
  subroles : List (String × List String)
  inverses : List (String × String)
  deriving DecidableEq

section Capacity

/-- The doubling of the table capacity, until three quarters of it hold the axioms. -/
def growRoleCapacity (count : Nat) : Nat → Nat → Except KernelError Nat
  | 0, capacity => .ok capacity
  | fuel + 1, capacity =>
    if count > capacity / 4 * 3 then
      if capacity * 2 < usizeLimit then growRoleCapacity count fuel (capacity * 2)
      else .error (.resource "encoded role-table capacity overflow")
    else .ok capacity

/-- Sixty doublings of 16 leave the numbers of the machine. -/
def roleCapacity (count : Nat) : Except KernelError Nat := growRoleCapacity count 60 16

/-- Both doublings stop at the first power of two that holds the axioms. -/
theorem growRoleCapacity_eq {count : Nat} (steps : Nat) :
    ∀ fuel bound n, steps ≤ fuel → n + steps ≤ 59 → count ≤ 12 * 2 ^ (n + steps) →
      count ≤ bound + 12 * 2 ^ n →
      growRoleCapacity count fuel (16 * 2 ^ n) = .ok (growCapacity count bound (16 * 2 ^ n)) := by
  induction steps with
  | zero =>
    intro fuel bound n _ _ hcount _
    rw [Nat.add_zero] at hcount
    have hnative : ¬count > 16 * 2 ^ n / 4 * 3 := by omega
    have hscalar : ¬count > 16 * 2 ^ n * 3 / 4 := by omega
    cases fuel <;> cases bound <;> simp [growRoleCapacity, growCapacity, hnative, hscalar]
  | succ steps ih =>
    intro fuel bound n hfuel hn hcount hbound
    obtain ⟨fuel, rfl⟩ : ∃ k, fuel = k + 1 := ⟨fuel - 1, by omega⟩
    have hpositive : 0 < 2 ^ n := Nat.two_pow_pos n
    have hdouble : 16 * 2 ^ n * 2 = 16 * 2 ^ (n + 1) := by rw [pow_succ]; omega
    have hpower : 2 ^ (n + 1) ≤ 2 ^ 59 := Nat.pow_le_pow_right (by omega) (by omega)
    unfold growRoleCapacity
    by_cases hmore : count > 16 * 2 ^ n / 4 * 3
    · obtain ⟨bound, rfl⟩ : ∃ k, bound = k + 1 := ⟨bound - 1, by omega⟩
      have hscalar : count > 16 * 2 ^ n * 3 / 4 := by omega
      have hfits : 16 * 2 ^ n * 2 < usizeLimit := by
        rw [hdouble, usizeLimit]
        omega
      unfold growCapacity
      rw [if_pos hmore, if_pos hfits, if_pos hscalar, hdouble]
      apply ih fuel bound (n + 1) (by omega) (by omega)
      · rw [Nat.add_right_comm]
        exact hcount
      · rw [pow_succ]
        omega
    · have hscalar : ¬count > 16 * 2 ^ n * 3 / 4 := by omega
      rw [if_neg hmore]
      cases bound <;> simp [growCapacity, hscalar]

theorem roleCapacity_eq {count : Nat} (h : count < 2 ^ 62) :
    roleCapacity count = .ok (hashsetCapacity count) :=
  growRoleCapacity_eq 59 60 count 0 (by omega) (by omega) (by omega) (by omega)

end Capacity

namespace NativeRoleState
variable {β : Type} (m : Meter β) (s : NativeRoleState)

def empty : NativeRoleState := ⟨[], []⟩

def subrolesFor (property : String) : List String := (s.subroles.lookup property).getD []

def inverseFor (property : String) : Option String := s.inverses.lookup property

def cloneRetainedRoleIri (maximum : Nat) (value : String) : Metered β String :=
  if value.utf8ByteSize > maximum then
    fail (.resource ("encoded retained role IRI contains " ++ toString value.utf8ByteSize ++
      " bytes; limit is " ++ toString maximum))
  else do
    m.grown value.utf8ByteSize
    pure value

def retainSubroles (maximum : Nat) (entry : String × List String) :
    Metered β (String × List String) := do
  m.grown entry.2.length
  let values ← entry.2.mapM (cloneRetainedRoleIri m maximum)
  let property ← cloneRetainedRoleIri m maximum entry.1
  pure (property, values)

def retainInverse (maximum : Nat) (entry : String × String) : Metered β (String × String) := do
  let property ← cloneRetainedRoleIri m maximum entry.1
  let inverse ← cloneRetainedRoleIri m maximum entry.2
  pure (property, inverse)

def withCapacity (retained : Option NativeRoleState) (subroleAxioms inverseAxioms maximum : Nat) :
    Metered β NativeRoleState := do
  let start := retained.getD empty
  let inverseCapacity ← lift (checkedAdd inverseAxioms inverseAxioms
    "encoded inverse-role capacity overflow")
  let subroleTotal ← lift (checkedAdd start.subroles.length subroleAxioms
    "encoded subrole capacity overflow")
  m.grown subroleTotal
  let inverseTotal ← lift (checkedAdd start.inverses.length inverseCapacity
    "encoded inverse-role capacity overflow")
  m.grown inverseTotal
  let subroles ← start.subroles.mapM (retainSubroles m maximum)
  let inverses ← start.inverses.mapM (retainInverse m maximum)
  pure ⟨subroles, inverses⟩

/-- Only a new key makes the vector grow. -/
def reserveFor (isNew : Bool) : Metered β Unit := if isNew then m.grown 1 else pure ()

def setSubroles (property : String) (values : List String) : Metered β NativeRoleState := do
  reserveFor m (s.subroles.lookup property).isNone
  pure { s with subroles := Pairs.assign property values s.subroles }

def setInverse (property inverse : String) : Metered β NativeRoleState := do
  reserveFor m (s.inverses.lookup property).isNone
  pure { s with inverses := Pairs.assign property inverse s.inverses }

def apply (row : RoleAxiom) : Metered β NativeRoleState :=
  if row.tag = Constructor.subObjectPropertyOf.tag then do
    let previous := s.subrolesFor row.first
    let capacity ← lift (checkedAdd previous.length 1 "encoded subrole list overflow")
    m.grown capacity
    s.setSubroles m row.second (row.first :: previous)
  else if row.tag = Constructor.inverseObjectProperties.tag then do
    let s ← s.setInverse m row.first row.second
    s.setInverse m row.second row.first
  else malformed "encoded role-state row has the wrong constructor tag"

def edgeCount (property : String) : Except KernelError Nat := do
  let count ← checkedAdd 1 (s.subrolesFor property).length
    "encoded role-expansion edge-count overflow"
  checkedAdd count (if (s.inverseFor property).isSome then 1 else 0)
    "encoded role-expansion edge-count overflow"

end NativeRoleState

section Building
variable {β : Type} (m : Meter β)

/-- What the rows are sorted by. -/
def RoleAxiom.tableKey (capacity : Nat) (row : RoleAxiom) : Nat ×ₗ Nat ×ₗ Nat ×ₗ Nat :=
  toLex (row.spread.toNat &&& (capacity - 1),
    toLex (row.spread.toNat, toLex (row.canonicalOrder, row.sourceOrder)))

def compareRows (capacity : Nat) (left right : RoleAxiom) : Ordering :=
  compare (left.tableKey capacity) (right.tableKey capacity)

def applyRow (s : NativeRoleState) (indexed : RoleAxiom × Nat) : Metered β NativeRoleState := do
  checkCancel m indexed.2
  s.apply m indexed.1

def buildRoleStateFromRows (rows : List RoleAxiom) (roleAxiomCount subroleAxioms inverseAxioms : Nat)
    (retained : Option NativeRoleState) (maximum : Nat) : Metered β NativeRoleState := do
  let capacity ← lift (roleCapacity roleAxiomCount)
  let rows ← cancellableSort m (compareRows capacity) rows
  let s ← NativeRoleState.withCapacity m retained subroleAxioms inverseAxioms maximum
  rows.zipIdx.foldlM (applyRow m) s

end Building

section Denotation
variable {β : Type} {m : Meter β}

/-- The pairs denote the finite maps of the scalar compiler, and no key occurs twice. -/
structure NativeRoleState.Denotes (s : NativeRoleState) (roles : RoleState) : Prop where
  subroles : ∀ property, s.subroles.lookup property = roles.subroles.lookup property
  inverses : ∀ property, s.inverses.lookup property = roles.inverseRoles.lookup property
  subroleKeys : (s.subroles.map Prod.fst).Nodup
  inverseKeys : (s.inverses.map Prod.fst).Nodup

namespace NativeRoleState
variable {s : NativeRoleState} {roles : RoleState}

theorem empty_denotes : empty.Denotes RoleState.empty where
  subroles _ := rfl
  inverses _ := rfl
  subroleKeys := List.nodup_nil
  inverseKeys := List.nodup_nil

theorem Denotes.subrolesFor (h : s.Denotes roles) (property : String) :
    s.subrolesFor property = roles.subroles.getOr property [] := by
  unfold NativeRoleState.subrolesFor Dict.getOr
  rw [h.subroles]

theorem reserveFor_gives (isNew : Bool) : Gives m (reserveFor m isNew) () := by
  unfold reserveFor
  split
  · exact Gives.grown 1
  · exact Gives.pure

theorem Denotes.setSubroles (h : s.Denotes roles) (property : String) (values : List String) :
    Meets m (s.setSubroles m property values)
      (fun s' => s'.Denotes { roles with subroles := roles.subroles.insert property values }) := by
  apply (reserveFor_gives _).bindMeets
  apply Meets.pure
  refine ⟨fun key => ?_, h.inverses, Pairs.keys_assign_nodup h.subroleKeys property values,
    h.inverseKeys⟩
  rw [Pairs.lookup_assign, Dict.lookup_insert_eq, h.subroles]

theorem Denotes.setInverse (h : s.Denotes roles) (property inverse : String) :
    Meets m (s.setInverse m property inverse)
      (fun s' => s'.Denotes
        { roles with inverseRoles := roles.inverseRoles.insert property inverse }) := by
  apply (reserveFor_gives _).bindMeets
  apply Meets.pure
  refine ⟨h.subroles, fun key => ?_, h.subroleKeys,
    Pairs.keys_assign_nodup h.inverseKeys property inverse⟩
  rw [Pairs.lookup_assign, Dict.lookup_insert_eq, h.inverses]

/-- The native count is that of the edges a relation expands to. -/
theorem Denotes.edgeCount (h : s.Denotes roles) (source property destination : String) :
    s.edgeCount property =
      if (roleEdges roles source property destination).length < usizeLimit then
        .ok (roleEdges roles source property destination).length
      else .error (.resource "encoded role-expansion edge-count overflow") := by
  have hinverse : s.inverseFor property = roles.inverseRoles.lookup property :=
    h.inverses property
  have hlength : (roleEdges roles source property destination).length =
      1 + (roles.subroles.getOr property []).length +
        (if (s.inverseFor property).isSome then 1 else 0) := by
    rw [hinverse]
    unfold roleEdges
    rw [List.length_cons, List.length_append, List.length_map]
    cases roles.inverseRoles.lookup property <;> simp <;> omega
  rw [hlength]
  unfold NativeRoleState.edgeCount
  rw [h.subrolesFor]
  generalize (if (s.inverseFor property).isSome then 1 else 0) = inverse
  unfold checkedAdd
  by_cases hfirst : 1 + (roles.subroles.getOr property []).length < usizeLimit
  · rw [if_pos hfirst]
    rfl
  · rw [if_neg hfirst, if_neg (by omega)]
    rfl

end NativeRoleState

/-- The row of a role axiom, with its rank among the axioms. -/
structure RowFor (rank : Node → Nat ×ₗ Nat) (v : Node) (row : RoleAxiom) : Prop where
  constructor : v.constructor = .subObjectPropertyOf ∨ v.constructor = .inverseObjectProperties
  tag : row.tag = v.constructor.tag
  first : namedProperty? (v.child 0) = some row.first
  second : namedProperty? (v.child 1) = some row.second
  spread : (owlapiHash v).map spreadOf = some row.spread.toNat
  rank : toLex (row.canonicalOrder, row.sourceOrder) = rank v

theorem RowFor.unique {rank : Node → Nat ×ₗ Nat} {v : Node} {row row' : RoleAxiom}
    (h : RowFor rank v row) (h' : RowFor rank v row') : row = row' := by
  have hspread : row.spread = row'.spread :=
    UInt32.toNat_inj.mp (Option.some.inj (h.spread.symm.trans h'.spread))
  have hrank := toLex_inj.mp (h.rank.trans h'.rank.symm)
  rw [Prod.mk.injEq] at hrank
  cases row
  cases row'
  simp only [RoleAxiom.mk.injEq]
  exact ⟨h.tag.trans h'.tag.symm, Option.some.inj (h.first.symm.trans h'.first),
    Option.some.inj (h.second.symm.trans h'.second), hspread, hrank.1, hrank.2⟩

/-- Ranks in the canonical order of the axioms. -/
def Ranked (rank : Node → Nat ×ₗ Nat) (rbox : List Node) : Prop :=
  ∀ a ∈ rbox, ∀ b ∈ rbox, a.canonicalBytes ≤ b.canonicalBytes ↔ rank a ≤ rank b

/-- One row for every axiom that is no chain, in any order. -/
def RowsOf (rank : Node → Nat ×ₗ Nat) (rbox : List Node) (rows : List RoleAxiom) : Prop :=
  ∃ listed, listed.Perm (rbox.filter fun v => !isChainAxiom v) ∧
    List.Forall₂ (RowFor rank) listed rows

/-- A row does to the pairs what its axiom does to the maps. -/
theorem apply_meets {rank : Node → Nat ×ₗ Nat} {v : Node} {row : RoleAxiom}
    (h : RowFor rank v row) {s : NativeRoleState} {roles : RoleState} (hs : s.Denotes roles)
    (statistics : CompileStatistics) :
    Meets m (s.apply m row) (fun s' => s'.Denotes (roleStep (roles, statistics) v).1) := by
  rw [roleStep_named h.first h.second]
  unfold NativeRoleState.apply
  rw [h.tag]
  rcases h.constructor with hc | hc
  · have hsub : v.isOf .subObjectPropertyOf = true := isOf_iff.mpr hc
    rw [hc, if_pos rfl, hsub, hs.subrolesFor]
    apply Meets.checkedAdd.bind
    intro capacity _
    apply (Gives.grown capacity).bindMeets
    exact hs.setSubroles row.second _
  · have hsub : v.isOf .subObjectPropertyOf = false := by
      rw [Node.isOf, hc]
      rfl
    rw [hc, if_neg (by decide), if_pos rfl, hsub]
    apply (hs.setInverse row.first row.second).bind
    intro s' hs'
    exact hs'.setInverse row.second row.first

theorem applyRows_meets {rank : Node → Nat ×ₗ Nat} {axioms : List Node} {rows : List RoleAxiom}
    (h : List.Forall₂ (RowFor rank) axioms rows) {s : NativeRoleState} {roles : RoleState}
    (hs : s.Denotes roles) (statistics : CompileStatistics) (index : Nat) :
    Meets m ((rows.zipIdx index).foldlM (applyRow m) s)
      (fun s' => s'.Denotes (axioms.foldl roleStep (roles, statistics)).1) := by
  induction h generalizing s roles statistics index with
  | nil => exact Meets.pure hs
  | @cons v row axioms rows hrow _ ih =>
    rw [List.zipIdx_cons, List.foldlM_cons, List.foldl_cons]
    have hone : Meets m (applyRow m s (row, index))
        (fun s' => s'.Denotes (roleStep (roles, statistics) v).1) := by
      apply (Gives.checkCancel index).bindMeets
      exact apply_meets hrow hs statistics
    apply hone.bind
    intro s' hs'
    exact ih hs' _ (index + 1)

theorem cloneRetainedRoleIri_meets (maximum : Nat) (value : String) :
    Meets m (NativeRoleState.cloneRetainedRoleIri m maximum value) (fun text => text = value) := by
  unfold NativeRoleState.cloneRetainedRoleIri
  split
  · exact fun b => .inr ⟨_, .inr ⟨_, rfl⟩, rfl⟩
  · exact (Gives.grown _).bindMeets (Meets.pure rfl)

theorem retainSubroles_meets (maximum : Nat) (entry : String × List String) :
    Meets m (NativeRoleState.retainSubroles m maximum entry) (fun e => e = id entry) := by
  apply (Gives.grown entry.2.length).bindMeets
  have hvalues := @Meets.mapM _ _ _ m entry.2 _ id
    fun value _ => cloneRetainedRoleIri_meets maximum value
  apply hvalues.bind
  intro values hvalues
  apply (cloneRetainedRoleIri_meets maximum entry.1).bind
  intro property hproperty
  rw [hvalues, hproperty, List.map_id]
  exact Meets.pure rfl

theorem retainInverse_meets (maximum : Nat) (entry : String × String) :
    Meets m (NativeRoleState.retainInverse m maximum entry) (fun e => e = id entry) := by
  apply (cloneRetainedRoleIri_meets maximum entry.1).bind
  intro property hproperty
  apply (cloneRetainedRoleIri_meets maximum entry.2).bind
  intro inverse hinverse
  rw [hproperty, hinverse]
  exact Meets.pure rfl

/-- The maps start from what was retained. -/
theorem withCapacity_meets (retained : Option NativeRoleState)
    (subroleAxioms inverseAxioms maximum : Nat) :
    Meets m (NativeRoleState.withCapacity m retained subroleAxioms inverseAxioms maximum)
      (fun s => s = retained.getD .empty) := by
  apply Meets.checkedAdd.bind
  intro inverseCapacity _
  apply Meets.checkedAdd.bind
  intro subroleTotal _
  apply (Gives.grown subroleTotal).bindMeets
  apply Meets.checkedAdd.bind
  intro inverseTotal _
  apply (Gives.grown inverseTotal).bindMeets
  apply (Meets.mapM fun entry _ => retainSubroles_meets maximum entry).bind
  intro subroles hsubroles
  apply (Meets.mapM fun entry _ => retainInverse_meets maximum entry).bind
  intro inverses hinverses
  rw [hsubroles, hinverses, List.map_id, List.map_id]
  exact Meets.pure rfl

end Denotation

section Order
variable {rank : Node → Nat ×ₗ Nat} {rbox : List Node}

theorem compareRows_lt (capacity : Nat) (a b : RoleAxiom) :
    compareRows capacity a b = .lt ↔ a.tableKey capacity < b.tableKey capacity :=
  compare_lt_iff_lt

/-- The rows and the axioms are sorted alike. -/
theorem tableKey_le_iff (hranked : Ranked rank rbox) (capacity : Nat) {a b : Node}
    {row row' : RoleAxiom} (ha : a ∈ rbox) (hb : b ∈ rbox) (h : RowFor rank a row)
    (h' : RowFor rank b row') :
    nodeHashKey capacity a ≤ nodeHashKey capacity b ↔
      row.tableKey capacity ≤ row'.tableKey capacity := by
  obtain ⟨hash, hhash, hspread⟩ := Option.map_eq_some_iff.mp h.spread
  obtain ⟨hash', hhash', hspread'⟩ := Option.map_eq_some_iff.mp h'.spread
  have horder := hranked a ha b hb
  unfold nodeHashKey hashKey RoleAxiom.tableKey
  rw [hhash, hhash', Option.getD_some, Option.getD_some, hspread, hspread', h.rank, h'.rank]
  simp only [Prod.Lex.toLex_le_toLex, horder]

theorem tableKey_inj (hranked : Ranked rank rbox) (capacity : Nat) {a b : Node}
    {row row' : RoleAxiom} (ha : a ∈ rbox) (hb : b ∈ rbox) (h : RowFor rank a row)
    (h' : RowFor rank b row') (hkey : row.tableKey capacity = row'.tableKey capacity) :
    row = row' := by
  have hle := (tableKey_le_iff hranked capacity ha hb h h').mpr (le_of_eq hkey)
  have hge := (tableKey_le_iff hranked capacity hb ha h' h).mpr (ge_of_eq hkey)
  obtain rfl : a = b := nodeHashKey_inj (le_antisymm hle hge)
  exact h.unique h'

/-- Positions that ascend with the canonical bytes are ranks, as those of the selected roots of
one table are. -/
theorem ranked_of_positions {position : Node → Nat} {source : Nat}
    (h : ∀ a ∈ rbox, ∀ b ∈ rbox, a.canonicalBytes < b.canonicalBytes → position a < position b) :
    Ranked (fun v => toLex (position v, source)) rbox := by
  intro a ha b hb
  simp only [Prod.Lex.toLex_le_toLex, le_refl, and_true]
  constructor
  · intro hle
    rcases lt_or_eq_of_le hle with hlt | heq
    · exact .inl (h a ha b hb hlt)
    · exact .inr (congrArg position (Node.canonicalBytes_inj a b heq))
  · intro hle
    by_contra hlt
    have hposition := h b hb a ha (not_le.mp hlt)
    omega

/-- The rows that are read from a table are rows of their axioms. -/
theorem rowFor_of_table {d : DirectColumns} {nodes : List Node} {toLowercase : Char → List Char}
    {maximum id : Nat} {v : Node} (table : EncodesNodes d.columns nodes)
    (compat : Compatible d toLowercase maximum) (h : Holds nodes id v)
    (hv : CoreRoleAxiom d.columns.textRules v) (hchain : isChainAxiom v = false) {hash : Int}
    (hhash : owlapiHash v = some hash) {canonicalOrder sourceOrder : Nat}
    (hrank : toLex (canonicalOrder, sourceOrder) = rank v) :
    ∃ row, d.roleAxiomRow toLowercase id v.constructor.tag maximum canonicalOrder sourceOrder =
      .ok row ∧ RowFor rank v row := by
  obtain ⟨first, second, annotations, -, hfirst, hsecond, hsame, hread⟩ :=
    roleAxiomRow_native table compat h hv hchain hhash canonicalOrder sourceOrder
  refine ⟨_, hread, (roleParts hv).constructor, rfl, hfirst, hsecond, ?_, hrank⟩
  rw [hhash, Option.map_some, spreadHash_toNat, hsame]

end Order

section Agreement
variable {β : Type} {m : Meter β}

/-- The native maps denote those of the scalar compiler, whatever order the rows are in. -/
theorem buildRoleState_meets {rank : Node → Nat ×ₗ Nat} {rbox : List Node}
    {rows : List RoleAxiom} (hranked : Ranked rank rbox) (hrows : RowsOf rank rbox rows)
    (hcount : rbox.length < 2 ^ 62) {roles roles' : RoleState}
    {statistics statistics' : CompileStatistics}
    (hupdate : updateRoleState rbox roles statistics = some (roles', statistics'))
    {retained : Option NativeRoleState} (hretained : (retained.getD .empty).Denotes roles)
    (subroleAxioms inverseAxioms maximum : Nat) :
    Meets m (buildRoleStateFromRows m rows rbox.length subroleAxioms inverseAxioms retained maximum)
      (fun s => s.Denotes roles') := by
  obtain ⟨listed, hperm, hrows⟩ := hrows
  have hmem : ∀ v ∈ listed, v ∈ rbox := fun v hv =>
    List.mem_of_mem_filter (hperm.mem_iff.mp hv)
  have hkept : List.Forall₂ (fun v row => v ∈ rbox ∧ RowFor rank v row) listed rows :=
    (List.forall₂_and_left _ _).mpr ⟨hmem, hrows⟩
  -- the traversal order of the scalar compiler, without the chains
  have hscalar : ((sortOn (nodeHashKey (hashsetCapacity rbox.length)) listed).foldl roleStep
      (roles, statistics)).1 = roles' := by
    have hinj : ∀ a ∈ rbox, ∀ b ∈ rbox, nodeHashKey (hashsetCapacity rbox.length) a =
        nodeHashKey (hashsetCapacity rbox.length) b → a = b :=
      fun a _ b _ hab => nodeHashKey_inj hab
    unfold updateRoleState at hupdate
    rw [hashsetOrder_eq] at hupdate
    split at hupdate
    · have hresult := Option.some.inj hupdate
      rw [sortOn_eq_of_perm (fun a _ b _ hab => nodeHashKey_inj hab) hperm,
        ← filter_sortOn hinj, ← foldl_roleStep_rows _ roles statistics statistics, hresult]
    · cases hupdate
  unfold buildRoleStateFromRows
  rw [roleCapacity_eq hcount]
  have hgives : Gives m (lift (.ok (hashsetCapacity rbox.length)))
      (hashsetCapacity rbox.length) := Gives.lift rfl
  apply hgives.bindMeets
  have hsort : Meets m (cancellableSort m (compareRows (hashsetCapacity rbox.length)) rows)
      (fun sorted => sorted = sortOn (RoleAxiom.tableKey (hashsetCapacity rbox.length)) rows) := by
    apply Meets.cancellableSort (compareRows_lt _)
    intro row hrow row' hrow' hkey
    obtain ⟨a, -, ha, hfor⟩ := partner_of_right hkept hrow
    obtain ⟨b, -, hb, hfor'⟩ := partner_of_right hkept hrow'
    exact tableKey_inj hranked _ ha hb hfor hfor' hkey
  apply hsort.bind
  intro sorted hsorted
  apply (withCapacity_meets retained subroleAxioms inverseAxioms maximum).bind
  intro s hs
  have hstep : List.Forall₂ (fun v row => v ∈ rbox ∧ RowFor rank v row)
      (sortOn (nodeHashKey (hashsetCapacity rbox.length)) listed) sorted := by
    rw [hsorted]
    apply forall₂_sortOn _ _ hkept
    intro a row b row' ha hb
    exact tableKey_le_iff hranked _ ha.1 hb.1 ha.2 hb.2
  have hrun := applyRows_meets (m := m) (hstep.imp fun _ _ h => h.2) (hs ▸ hretained) statistics 0
  rw [hscalar] at hrun
  exact hrun

end Agreement

section Samples

def firstRank (_ : Node) : Nat ×ₗ Nat := toLex (0, 1)

theorem noted_hash : ∃ hash, owlapiHash notedAxiom = some hash :=
  Option.isSome_iff_exists.mp (noted_core.hashable_iff.mpr (by decide +kernel))

end Samples

end Projector.Native
