import Projector.Encoded.Compilation
import Projector.Encoded.RolePreparation
import Projector.Encoded.IndexProofs

namespace Projector.Encoded
open Lib Projector.Core Compiler

section Shape
variable {cols : Columns} {nodes : List Node} (pre : Preflighted cols nodes) {id : Nat} {v : Node}

/-- The parts of a role axiom that passed the inspection. -/
structure RoleShape (cols : Columns) (nodes : List Node) (id : Nat) (v : Node)
    (start first second : Nat) (annotations : Int) : Prop where
  opened : Opened cols nodes id v 3 start
  readFirst : cols.fieldNode start = .ok first
  firstField : v.field 0 = .node (v.child 0)
  holdsFirst : Holds nodes first (v.child 0)
  readSecond : cols.fieldNode (start + 1) = .ok second
  secondField : v.field 1 = .node (v.child 1)
  holdsSecond : Holds nodes second (v.child 1)
  readHash : cols.annotationSetHash (start + 2) = .ok annotations
  hash : fieldHash (v.field 2) = some annotations
  first : (namedProperty? (v.child 0)).isSome = true ∨
    (v.constructor = .subObjectPropertyOf ∧ isChainAxiom v = true)
  second : (namedProperty? (v.child 1)).isSome = true

theorem isRoleAxiom_iff :
    isRoleAxiom v = true ↔
      v.constructor = .subObjectPropertyOf ∨ v.constructor = .inverseObjectProperties := by
  unfold isRoleAxiom
  rw [Bool.or_eq_true, isOf_iff, isOf_iff]

include pre in
theorem roleShape (h : Holds nodes id v) (hrole : isRoleAxiom v = true) :
    ∃ start first second annotations,
      RoleShape cols nodes id v start first second annotations := by
  have table := pre.toEncodesNodes
  have hinspected : cols.inspectRoleAxiom id (v.isOf .subObjectPropertyOf) = .ok none := by
    rcases isRoleAxiom_iff.mp hrole with hc | hc
    · rw [isOf_iff.mpr hc]
      exact inspected_as pre h hc
    · have hsub : v.isOf .subObjectPropertyOf = false := by
        rw [Node.isOf, hc]
        rfl
      rw [hsub]
      exact inspected_as pre h hc
  obtain ⟨start, hstart, hr⟩ := bind_ok hinspected
  have ho := opened table h hstart
  obtain ⟨first, hfirst, hr⟩ := bind_ok hr
  obtain ⟨hfirstField, hfirstHolds⟩ := ho.node table 0 (by omega) hfirst
  rw [ok_bind _ (isSupportedObjectPropertyExpression_eq pre hfirstHolds),
    ok_bind _ (tagIs_eq table hfirstHolds _)] at hr
  obtain ⟨second, hsecond, hr⟩ := bind_ok hr
  obtain ⟨hsecondField, hsecondHolds⟩ := ho.node table 1 (by omega) hsecond
  rw [ok_bind _ (isSupportedObjectPropertyExpression_eq pre hsecondHolds)] at hr
  cases hhash : cols.annotationSetHash (start + 2) with
  | error e =>
    rw [hhash] at hr
    cases e with
    | unicodeEncode =>
      have hnone := Except.ok.inj hr
      rw [(orElse_none hnone).1] at hnone
      cases hnone
    | unsupportedAxiomShape _ _ => cases hr
    | snapshotCompatibility _ _ => cases hr
    | builtin _ => cases hr
  | ok annotations =>
    rw [hhash] at hr
    have hpass := fallbackUnless_none hr
    rw [Bool.and_eq_true, Bool.or_eq_true, Bool.and_eq_true] at hpass
    obtain ⟨ids, hids, -⟩ := bind_ok hhash
    have hread := annotationSetHash_eq pre ho (i := 2) (by omega) hids
    rw [hhash] at hread
    have hfield : fieldHash (v.field 2) = some annotations := by
      cases hannotated : fieldHash (v.field 2) with
      | none =>
        rw [hannotated] at hread
        cases hread
      | some hash =>
        rw [hannotated] at hread
        exact congrArg some (Except.ok.inj hread).symm
    refine ⟨start, first, second, annotations, ho, hfirst, hfirstField, hfirstHolds, hsecond,
      hsecondField, hsecondHolds, hhash, hfield, ?_, hpass.2⟩
    rcases hpass.1 with hnamed | ⟨hsub, hchain⟩
    · exact .inl hnamed
    · exact .inr ⟨isOf_iff.mp hsub, hchain⟩

/-- The hash of a role axiom from those of its properties. -/
theorem RoleShape.owlapiHash_eq {start first second : Nat} {annotations : Int}
    (shape : RoleShape cols nodes id v start first second annotations)
    (hrole : isRoleAxiom v = true) {a b : Int} (ha : owlapiHash (v.child 0) = some a)
    (hb : owlapiHash (v.child 1) = some b) :
    owlapiHash v = some
      (if v.constructor = .subObjectPropertyOf then combine 1823 [a, b, annotations]
      else combine 1229 [int32 (a + b), annotations]) := by
  have hfirst : fieldHash (v.field 0) = some a := by
    rw [shape.firstField]
    exact ha
  have hsecond : fieldHash (v.field 1) = some b := by
    rw [shape.secondField]
    exact hb
  rw [Compiler.owlapiHash_eq]
  unfold hashFrom
  rcases isRoleAxiom_iff.mp hrole with hc | hc
  · simp only [hc, hfirst, hsecond, shape.hash]
    rfl
  · simp only [hc, hfirst, hsecond, shape.hash]
    rfl

include pre in
theorem property_hash (h : Holds nodes id v) (hv : (namedProperty? v).isSome = true) :
    ∃ iri hash, propertyParts? v = some (iri, hash) ∧ namedProperty? v = some iri ∧
      owlapiHash v = some hash := by
  rw [← propertyParts?_fst, Option.isSome_map] at hv
  obtain ⟨⟨iri, hash⟩, hparts⟩ := Option.isSome_iff_exists.mp hv
  refine ⟨iri, hash, hparts, ?_, propertyParts?_hash pre h hparts⟩
  rw [← propertyParts?_fst, hparts]
  rfl

theorem chain_hash (h : v.constructor = .objectPropertyChain) : (owlapiHash v).isSome = true := by
  rw [Compiler.owlapiHash_eq]
  unfold hashFrom
  simp only [h]
  rfl

theorem chain_unnamed (h : isChainAxiom v = true) : namedProperty? (v.child 0) = none := by
  have hchain : (v.child 0).constructor = .objectPropertyChain := isOf_iff.mp h
  simp [namedProperty?, Node.isEntity, Node.isOf, Node.entityKind?, hchain]

include pre in
theorem roleAxiom_hashable (h : Holds nodes id v) (hrole : isRoleAxiom v = true) :
    (owlapiHash v).isSome = true := by
  obtain ⟨start, first, second, annotations, shape⟩ := roleShape pre h hrole
  obtain ⟨_, b, -, -, hb⟩ := property_hash pre shape.holdsSecond shape.second
  have hfirst : (owlapiHash (v.child 0)).isSome = true := by
    rcases shape.first with hnamed | ⟨-, hchain⟩
    · obtain ⟨_, a, -, -, ha⟩ := property_hash pre shape.holdsFirst hnamed
      rw [ha]
      rfl
    · exact chain_hash (isOf_iff.mp hchain)
  obtain ⟨a, ha⟩ := Option.isSome_iff_exists.mp hfirst
  rw [shape.owlapiHash_eq hrole ha hb]
  rfl

include pre in
theorem isChainAxiom_read (h : Holds nodes id v) (hrole : isRoleAxiom v = true) :
    cols.isChainAxiom id = .ok (isChainAxiom v) := by
  obtain ⟨start, first, second, annotations, shape⟩ := roleShape pre h hrole
  unfold Columns.isChainAxiom
  rw [ok_bind _ shape.opened.read, ok_bind _ shape.readFirst]
  exact tagIs_eq pre.toEncodesNodes shape.holdsFirst _

include pre in
/-- The row of a role axiom that is no chain. -/
theorem roleAxiomRow_eq (h : Holds nodes id v) (hrole : isRoleAxiom v = true)
    (hchain : isChainAxiom v = false) (order : Nat) :
    ∃ row, cols.roleAxiomRow v.constructor id order = .ok row ∧ RowOf id order v row := by
  obtain ⟨start, i, j, annotations, shape⟩ := roleShape pre h hrole
  have hnamed : (namedProperty? (v.child 0)).isSome = true := by
    rcases shape.first with hnamed | ⟨-, hisChain⟩
    · exact hnamed
    · rw [hchain] at hisChain
      cases hisChain
  obtain ⟨first, a, hfirst, hfirstNamed, ha⟩ := property_hash pre shape.holdsFirst hnamed
  obtain ⟨second, b, hsecond, hsecondNamed, hb⟩ :=
    property_hash pre shape.holdsSecond shape.second
  have hhash := shape.owlapiHash_eq hrole ha hb
  unfold Columns.roleAxiomRow
  rw [ok_bind _ shape.opened.read, ok_bind _ shape.readFirst,
    ok_bind _ (projectedObjectPropertyParts_eq pre shape.holdsFirst), ok_bind _ shape.readSecond,
    ok_bind _ (projectedObjectPropertyParts_eq pre shape.holdsSecond), hfirst, hsecond]
  simp only
  rw [ok_bind _ shape.readHash]
  exact ⟨_, rfl, rfl, rfl, hfirstNamed, hsecondNamed, hhash, rfl⟩

end Shape

section Rows
variable {cols : Columns} {nodes : List Node} (pre : Preflighted cols nodes)

/-- The role axioms that have a row. -/
def hasRow (v : Node) : Bool := isRoleAxiom v && !isChainAxiom v

/-- The rows of some role axioms, each with the place of its root, and what is counted. -/
structure RowsFrom (order : Nat) (values : List Node) (found : Columns.RoleRows) : Prop where
  rows : List.Forall₂ (fun row v => ∃ id place, RowOf id place v row) found.rows
    (values.filter hasRow)
  ascend : StrictOn EncodedRoleAxiom.canonicalOrder found.rows
  after : ∀ row ∈ found.rows, order ≤ row.canonicalOrder
  chains : found.ignoredChains = ((values.filter isRoleAxiom).filter isChainAxiom).length
  count : found.count = (values.filter isRoleAxiom).length

section Turns
variable {v : Node} {values : List Node} {order : Nat} {found : Columns.RoleRows}

theorem RowsFrom.skip (h : RowsFrom (order + 1) values found) (hrole : isRoleAxiom v = false) :
    RowsFrom order (v :: values) found where
  rows := by
    rw [List.filter_cons_of_neg (by simp [hasRow, hrole])]
    exact h.rows
  ascend := h.ascend
  after row hrow := Nat.le_of_succ_le (h.after row hrow)
  chains := by
    rw [List.filter_cons_of_neg (by simp [hrole])]
    exact h.chains
  count := by
    rw [List.filter_cons_of_neg (by simp [hrole])]
    exact h.count

theorem RowsFrom.chain (h : RowsFrom (order + 1) values found) (hrole : isRoleAxiom v = true)
    (hchain : isChainAxiom v = true) :
    RowsFrom order (v :: values) ⟨found.rows, found.ignoredChains + 1, found.count + 1⟩ where
  rows := by
    rw [List.filter_cons_of_neg (by simp [hasRow, hchain])]
    exact h.rows
  ascend := h.ascend
  after row hrow := Nat.le_of_succ_le (h.after row hrow)
  chains := by
    rw [List.filter_cons_of_pos hrole, List.filter_cons_of_pos hchain, List.length_cons, h.chains]
  count := by
    rw [List.filter_cons_of_pos hrole, List.length_cons, h.count]

theorem RowsFrom.row (h : RowsFrom (order + 1) values found) (hrole : isRoleAxiom v = true)
    (hchain : isChainAxiom v = false) {id : Nat} {row : EncodedRoleAxiom}
    (hrow : RowOf id order v row) :
    RowsFrom order (v :: values) ⟨row :: found.rows, found.ignoredChains, found.count + 1⟩ where
  rows := by
    rw [List.filter_cons_of_pos (by simp [hasRow, hrole, hchain])]
    exact .cons ⟨id, order, hrow⟩ h.rows
  ascend := by
    refine List.pairwise_cons.mpr ⟨fun other hother => ?_, h.ascend⟩
    have hafter := h.after other hother
    rw [hrow.canonicalOrder]
    omega
  after other hother := by
    rcases List.mem_cons.mp hother with rfl | hrest
    · exact le_of_eq hrow.canonicalOrder.symm
    · exact Nat.le_of_succ_le (h.after other hrest)
  chains := by
    rw [List.filter_cons_of_pos hrole, List.filter_cons_of_neg (by simp [hchain])]
    exact h.chains
  count := by
    rw [List.filter_cons_of_pos hrole, List.length_cons, h.count]

end Turns

include pre in
theorem roleRows_eq {roots : List Columns.Root} {values : List Node}
    (h : List.Forall₂ (RootHolds nodes) roots values) (order : Nat) :
    ∃ found, cols.roleRows roots order = .ok found ∧ RowsFrom order values found := by
  have table := pre.toEncodesNodes
  induction h generalizing order with
  | nil => exact ⟨_, rfl, .nil, .nil, fun _ hrow => absurd hrow List.not_mem_nil, rfl, rfl⟩
  | @cons root v roots values hroot _ ih =>
    obtain ⟨kind, id⟩ := root
    have hholds : Holds nodes id v := hroot
    obtain ⟨found, hfound, hrows⟩ := ih (order + 1)
    cases hrole : isRoleAxiom v with
    | false =>
      rw [roleRows_skip table hholds hrole]
      exact ⟨found, hfound, hrows.skip hrole⟩
    | true =>
      have hread := isChainAxiom_read pre hholds hrole
      change ∃ _, (cols.tagIs id .subObjectPropertyOf >>= fun _ => _) = _ ∧ _
      rw [ok_bind _ (tagIs_eq table hholds _), ok_bind _ (tagIs_eq table hholds _)]
      cases hsub : v.isOf .subObjectPropertyOf with
      | true =>
        simp only [Bool.not_true, Bool.false_and, Bool.false_eq_true, if_false, if_true]
        rw [ok_bind _ hread]
        cases hchain : isChainAxiom v with
        | true =>
          simp only [if_true]
          rw [ok_bind _ hfound]
          exact ⟨_, rfl, hrows.chain hrole hchain⟩
        | false =>
          obtain ⟨row, hrow, hof⟩ := roleAxiomRow_eq pre hholds hrole hchain order
          rw [isOf_iff.mp hsub] at hrow
          simp only [Bool.false_eq_true, if_false]
          rw [ok_bind _ hrow, ok_bind _ hfound]
          exact ⟨_, rfl, hrows.row hrole hchain hof⟩
      | false =>
        have hinverse : v.isOf .inverseObjectProperties = true := by
          simpa [isRoleAxiom, hsub] using hrole
        have hchain : isChainAxiom v = false := by
          obtain ⟨_, _, _, _, shape⟩ := roleShape pre hholds hrole
          rcases shape.first with hnamed | ⟨hc, -⟩
          · by_contra hne
            rw [chain_unnamed (Bool.not_eq_false _ ▸ hne)] at hnamed
            cases hnamed
          · rw [isOf_iff.mpr hc] at hsub
            cases hsub
        obtain ⟨row, hrow, hof⟩ := roleAxiomRow_eq pre hholds hrole hchain order
        rw [isOf_iff.mp hinverse] at hrow
        simp only [hinverse, Bool.not_false, Bool.not_true, Bool.and_false, Bool.false_eq_true,
          if_false]
        change ∃ _, (cols.roleAxiomRow _ id order >>= fun _ => _) = _ ∧ _
        rw [ok_bind _ hrow, ok_bind _ hfound]
        exact ⟨_, rfl, hrows.row hrole hchain hof⟩

end Rows

section Replay

/-- A row does to the maps what its axiom does. -/
theorem applyRoleAxiom_eq {id place : Nat} {v : Node} {row : EncodedRoleAxiom}
    (h : RowOf id place v row) (hrole : isRoleAxiom v = true) (roles : RoleState)
    (statistics : CompileStatistics) :
    applyRoleAxiom roles row = (roleStep (roles, statistics) v).1 := by
  rw [roleStep_named h.first h.second]
  unfold applyRoleAxiom
  rw [h.tag]
  rcases isRoleAxiom_iff.mp hrole with hc | hc
  · rw [hc, if_pos rfl, isOf_iff.mpr hc, if_pos rfl]
  · have hsub : v.isOf .subObjectPropertyOf = false := by
      rw [Node.isOf, hc]
      rfl
    rw [hc, if_neg (by decide), hsub, if_neg Bool.false_ne_true]

theorem foldl_applyRoleAxiom {rows : List EncodedRoleAxiom} {axioms : List Node}
    (h : List.Forall₂ (fun row v => ∃ id place, RowOf id place v row) rows axioms)
    (hroles : ∀ v ∈ axioms, isRoleAxiom v = true) (roles : RoleState)
    (statistics : CompileStatistics) :
    rows.foldl applyRoleAxiom roles = (axioms.foldl roleStep (roles, statistics)).1 := by
  induction h generalizing roles statistics with
  | nil => rfl
  | @cons row v rows axioms hrow _ ih =>
    obtain ⟨id, place, hof⟩ := hrow
    rw [List.foldl_cons, List.foldl_cons,
      applyRoleAxiom_eq hof (hroles v List.mem_cons_self) roles statistics]
    exact ih (fun w hw => hroles w (List.mem_cons_of_mem v hw)) _ _

/-- Among role axioms the chains alone are ignored. -/
theorem foldl_roleStep_ignored {axioms : List Node}
    (h : ∀ v ∈ axioms, isChainAxiom v = false → (namedProperty? (v.child 0)).isSome = true ∧
      (namedProperty? (v.child 1)).isSome = true) (roles : RoleState)
    (statistics : CompileStatistics) :
    (axioms.foldl roleStep (roles, statistics)).2.ignoredShapes =
      statistics.ignoredShapes + (axioms.filter isChainAxiom).length := by
  induction axioms generalizing roles statistics with
  | nil => rfl
  | cons v rest ih =>
    have hrest := ih fun w hw => h w (List.mem_cons_of_mem v hw)
    rw [List.foldl_cons]
    cases hchain : isChainAxiom v with
    | true =>
      rw [roleStep_chain hchain, hrest, List.filter_cons_of_pos hchain, List.length_cons]
      simp only [CompileStatistics.ignore]
      omega
    | false =>
      obtain ⟨hfirst, hsecond⟩ := h v List.mem_cons_self hchain
      obtain ⟨first, hfirst⟩ := Option.isSome_iff_exists.mp hfirst
      obtain ⟨second, hsecond⟩ := Option.isSome_iff_exists.mp hsecond
      rw [roleStep_named hfirst hsecond, hrest, List.filter_cons_of_neg (by simp [hchain])]

variable {cols : Columns} {nodes : List Node} (pre : Preflighted cols nodes)

theorem rowKey_le_iff {capacity : Nat} {row row' : EncodedRoleAxiom} {v v' : Node}
    (h : owlapiHash v = some row.owlapiHash) (h' : owlapiHash v' = some row'.owlapiHash)
    (horder : row.canonicalOrder ≤ row'.canonicalOrder ↔ v.canonicalBytes ≤ v'.canonicalBytes) :
    Columns.rowKey capacity row ≤ Columns.rowKey capacity row' ↔
      nodeHashKey capacity v ≤ nodeHashKey capacity v' := by
  unfold Columns.rowKey nodeHashKey hashKey
  rw [h, h']
  simp only [Option.getD_some, Prod.Lex.toLex_le_toLex, horder]

include pre in
/-- The role axioms of some roots hash, and those without a chain relate named properties. -/
theorem roleAxioms_readable {roots : List Columns.Root} {values : List Node}
    (h : List.Forall₂ (RootHolds nodes) roots values) :
    Hashable (values.filter isRoleAxiom) ∧
      ∀ v ∈ values.filter isRoleAxiom, isChainAxiom v = false →
        (namedProperty? (v.child 0)).isSome = true ∧
          (namedProperty? (v.child 1)).isSome = true := by
  have hin : ∀ v ∈ values.filter isRoleAxiom, isRoleAxiom v = true ∧ ∃ j, Holds nodes j v := by
    intro v hv
    obtain ⟨hmem, hrole⟩ := List.mem_filter.mp hv
    obtain ⟨root, -, hholds⟩ := partner_of_right h hmem
    exact ⟨hrole, root.2, hholds⟩
  constructor
  · intro v hv
    obtain ⟨hrole, j, hj⟩ := hin v hv
    exact roleAxiom_hashable pre hj hrole
  · intro v hv hchain
    obtain ⟨hrole, j, hj⟩ := hin v hv
    obtain ⟨_, _, _, _, shape⟩ := roleShape pre hj hrole
    refine ⟨?_, shape.second⟩
    rcases shape.first with hfirst | ⟨-, hisChain⟩
    · exact hfirst
    · rw [hchain] at hisChain
      cases hisChain

include pre in
/-- The rows, replayed from any maps, leave the maps of the scalar compiler. -/
theorem roleAxioms_agree {roots : List Columns.Root} {values : List Node}
    (h : List.Forall₂ (RootHolds nodes) roots values)
    (hstrict : StrictOn Node.canonicalBytes (values.filter isRoleAxiom)) :
    ∃ rows ignored, cols.roleAxioms roots = .ok (rows, ignored) ∧
      ∀ roles, roleUpdate? (values.filter isRoleAxiom) roles =
        some ⟨rows.foldl applyRoleAxiom roles, ignored⟩ := by
  obtain ⟨found, hfound, hrows⟩ := roleRows_eq pre h 0
  obtain ⟨hhashable, hnamed⟩ := roleAxioms_readable pre h
  have hrow : values.filter hasRow =
      (values.filter isRoleAxiom).filter fun v => !isChainAxiom v := by
    rw [List.filter_filter]
    apply List.filter_congr
    intro v _
    exact Bool.and_comm _ _
  have hinj : ∀ a ∈ values.filter isRoleAxiom, ∀ b ∈ values.filter isRoleAxiom,
      nodeHashKey (hashsetCapacity found.count) a = nodeHashKey (hashsetCapacity found.count) b →
        a = b :=
    fun a _ b _ hab => nodeHashKey_inj hab
  have hstrictRows : StrictOn Node.canonicalBytes (values.filter hasRow) := by
    rw [hrow]
    exact List.Pairwise.filter _ hstrict
  obtain ⟨ranked, hranked, hpartners, horder⟩ :=
    forall₂_ranked hrows.rows hrows.ascend hstrictRows
  -- Both sides sort by the table of Java, the rows with the places of their roots at the end.
  have hsorted := forall₂_sortOn (Columns.rowKey (hashsetCapacity found.count))
    (nodeHashKey (hashsetCapacity found.count)) hpartners (by
      intro row v row' v' hr hr'
      obtain ⟨_, _, hof⟩ := hranked row v hr
      obtain ⟨_, _, hof'⟩ := hranked row' v' hr'
      exact rowKey_le_iff hof.hash hof'.hash (horder row v row' v' hr hr'))
  refine ⟨sortOn (Columns.rowKey (hashsetCapacity found.count)) found.rows, found.ignoredChains,
    ?_, fun roles => ?_⟩
  · unfold Columns.roleAxioms
    rw [ok_bind _ hfound]
    rfl
  · unfold roleUpdate?
    rw [hashsetOrder_eq, if_pos hhashable, ← hrows.count]
    have hkept : ∀ v ∈ sortOn (nodeHashKey (hashsetCapacity found.count))
        (values.filter isRoleAxiom), isChainAxiom v = false →
        (namedProperty? (v.child 0)).isSome = true ∧ (namedProperty? (v.child 1)).isSome = true :=
      fun v hv => hnamed v (mem_sortOn.mp hv)
    have hchains : ((sortOn (nodeHashKey (hashsetCapacity found.count))
        (values.filter isRoleAxiom)).filter isChainAxiom).length = found.ignoredChains := by
      rw [((sortOn_perm _ (values.filter isRoleAxiom)).filter _).length_eq, hrows.chains]
    have hreplay := foldl_applyRoleAxiom (hsorted.imp fun row v hr => hranked row v hr) (by
      intro v hv
      exact (Bool.and_eq_true_iff.mp (List.mem_filter.mp (mem_sortOn.mp hv)).2).1) roles ⟨0, 0⟩
    rw [hrow, ← filter_sortOn hinj, ← foldl_roleStep_rows _ roles ⟨0, 0⟩] at hreplay
    simp only [Option.bind_eq_bind, Option.bind_some, Option.some.injEq, RoleUpdate.mk.injEq]
    refine ⟨hreplay.symm, ?_⟩
    rw [foldl_roleStep_ignored hkept, hchains]
    exact Nat.zero_add _

end Replay

end Projector.Encoded
