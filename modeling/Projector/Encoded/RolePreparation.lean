import Projector.Compiler.OrderIndependence
import Projector.Encoded.Projection
import Projector.Encoded.RoleReads

namespace Projector.Encoded
open Lib Projector.Core Compiler

section Parts
variable {rules : TextRules} {v : Node}

/-- What a role axiom is made of. -/
structure RoleParts (rules : TextRules) (v : Node) : Prop where
  fields : v.fields = [.node (v.child 0), .node (v.child 1), .set (v.items 2)]
  constructor : v.constructor = .subObjectPropertyOf ∨ v.constructor = .inverseObjectProperties
  first : (isChainAxiom v = false ∧ CoreProperty rules (v.child 0)) ∨
    (v.constructor = .subObjectPropertyOf ∧ (v.child 0).constructor = .objectPropertyChain)
  second : CoreProperty rules (v.child 1)
  annotations : ∀ a ∈ v.items 2, CoreAnnotation rules a

theorem CoreProperty.isNotChain (h : CoreProperty rules v) : v.isOf .objectPropertyChain = false := by
  cases h <;> rfl

theorem roleParts (h : CoreRoleAxiom rules v) : RoleParts rules v := by
  cases h with
  | subProperty hsub hsup hannotations =>
    exact ⟨rfl, .inl rfl, .inl ⟨CoreProperty.isNotChain hsub, hsub⟩, hsup, hannotations⟩
  | chain hlength hitems hsup hannotations =>
    exact ⟨rfl, .inl rfl, .inr ⟨rfl, rfl⟩, hsup, hannotations⟩
  | inverse hfirst hsecond hannotations =>
    exact ⟨rfl, .inr rfl, .inl ⟨CoreProperty.isNotChain hfirst, hfirst⟩, hsecond, hannotations⟩

/-- The hash of a role axiom, from those of its properties and of its annotations. -/
theorem RoleParts.hash (parts : RoleParts rules v) {first second : Int}
    (hfirst : owlapiHash (v.child 0) = some first)
    (hsecond : owlapiHash (v.child 1) = some second) :
    owlapiHash v = (setHashFrom 0 (v.items 2)).map fun annotations =>
      if v.constructor = .subObjectPropertyOf then combine 1823 [first, second, annotations]
      else combine 1229 [int32 (first + second), annotations] := by
  have hmk : v = .mk v.constructor [.node (v.child 0), .node (v.child 1), .set (v.items 2)] := by
    rw [← parts.fields]
    cases v
    rfl
  have hconstructor := parts.constructor
  generalize v.child 0 = sub at *
  generalize v.child 1 = sup at *
  generalize v.items 2 = annotations at *
  rcases hconstructor with hc | hc
  · rw [hc] at hmk
    rw [hmk, subProperty_hash, hfirst, hsecond]
    cases setHashFrom 0 annotations <;> rfl
  · rw [hc] at hmk
    rw [hmk, inverse_hash, hfirst, hsecond]
    cases setHashFrom 0 annotations <;> rfl

end Parts

section Rows
variable {cols : Columns} {nodes : List Node} (table : EncodesNodes cols nodes)
  {id : Nat} {v : Node}

/-- The fields of a role axiom, as the table holds them. -/
structure RoleFields (cols : Columns) (nodes : List Node) (id : Nat) (v : Node)
    (start first second : Nat) : Prop where
  opened : cols.exactFields id 3 = .ok start
  readFirst : cols.fieldNode start = .ok first
  holdsFirst : Holds nodes first (v.child 0)
  readSecond : cols.fieldNode (start + 1) = .ok second
  holdsSecond : Holds nodes second (v.child 1)
  annotations : FieldCell cols nodes (start + 2) (.set (v.items 2))

include table in
theorem roleFields (h : Holds nodes id v) (hv : CoreRoleAxiom cols.textRules v) :
    ∃ start first second, RoleFields cols nodes id v start first second := by
  have hshape := (roleParts hv).fields
  obtain ⟨start, hstart, hfields⟩ := exactFields_eq table 3 h (by rw [hshape]; rfl)
  rw [hshape] at hfields
  obtain ⟨first, hfirst, hfirstHolds⟩ := fieldNode_eq table hfields.first
  obtain ⟨second, hsecond, hsecondHolds⟩ := fieldNode_eq table (hfields 1 _ rfl)
  exact ⟨start, first, second, hstart, hfirst, hfirstHolds, hsecond, hsecondHolds,
    hfields 2 _ rfl⟩

include table in
theorem isChainAxiom_eq (h : Holds nodes id v) (hv : CoreRoleAxiom cols.textRules v) :
    cols.isChainAxiom id = .ok (isChainAxiom v) := by
  obtain ⟨start, first, second, shape⟩ := roleFields table h hv
  unfold Columns.isChainAxiom
  rw [ok_bind _ shape.opened, ok_bind _ shape.readFirst]
  exact tagIs_eq table shape.holdsFirst _

/-- The row of a role axiom that is no chain. -/
structure RowOf (id order : Nat) (v : Node) (row : EncodedRoleAxiom) : Prop where
  tag : row.tag = v.constructor.tag
  nodeId : row.nodeId = id
  first : namedProperty? (v.child 0) = some row.first
  second : namedProperty? (v.child 1) = some row.second
  hash : owlapiHash v = some row.owlapiHash
  canonicalOrder : row.canonicalOrder = order

include table in
/-- A role axiom that is no chain has its row, or raises where its hash does. -/
theorem roleAxiomRow_of (h : Holds nodes id v) (hv : CoreRoleAxiom cols.textRules v)
    (hchain : isChainAxiom v = false) (order : Nat) :
    (opaquelyAnnotated v = false ∧
      ∃ row, cols.roleAxiomRow v.constructor id order = .ok row ∧ RowOf id order v row) ∨
    (opaquelyAnnotated v = true ∧
      cols.roleAxiomRow v.constructor id order = .error .unicodeEncode) := by
  obtain ⟨start, i, j, shape⟩ := roleFields table h hv
  have parts := roleParts hv
  have hproperty : CoreProperty cols.textRules (v.child 0) := by
    rcases parts.first with ⟨-, hfirst⟩ | ⟨-, hfirst⟩
    · exact hfirst
    · exact absurd (isOf_iff.mpr hfirst) (by simpa [isChainAxiom] using hchain)
  obtain ⟨first, firstHash, hfirst, hfirstNamed, hfirstHash⟩ :=
    propertyParts_of table shape.holdsFirst hproperty
  obtain ⟨second, secondHash, hsecond, hsecondNamed, hsecondHash⟩ :=
    propertyParts_of table shape.holdsSecond parts.second
  have hset := annotationSetHash_of table shape.annotations parts.annotations
  have hhashable := annotations_hashable_iff parts.annotations
  have hhash := parts.hash hfirstHash hsecondHash
  unfold Columns.roleAxiomRow
  rw [ok_bind _ shape.opened, ok_bind _ shape.readFirst, ok_bind _ hfirst,
    ok_bind _ shape.readSecond, ok_bind _ hsecond, hset]
  cases hannotations : setHashFrom 0 (v.items 2) with
  | none =>
    refine .inr ⟨?_, rfl⟩
    by_contra hblocked
    have hsome := hhashable.mpr (Bool.eq_false_of_not_eq_true hblocked)
    rw [hannotations] at hsome
    exact Bool.false_ne_true hsome
  | some annotations =>
    refine .inl ⟨hhashable.mp (by rw [hannotations]; rfl), _, rfl, ?_⟩
    rw [hannotations] at hhash
    exact ⟨rfl, rfl, hfirstNamed, hsecondNamed, hhash, rfl⟩

include table in
theorem supportedProperty_of (h : Holds nodes id v) (hv : CoreProperty cols.textRules v) :
    cols.isSupportedObjectPropertyExpression id = .ok true := by
  obtain ⟨name, hash, hread, -, -⟩ := propertyParts_of table h hv
  unfold Columns.isSupportedObjectPropertyExpression Columns.projectedObjectPropertyIri
  rw [hread]
  rfl

include table in
/-- The inspection passes a role axiom unless its hash would raise. -/
theorem inspectRoleAxiom_of (h : Holds nodes id v) (hv : CoreRoleAxiom cols.textRules v) :
    cols.inspectRoleAxiom id (v.isOf .subObjectPropertyOf) = .ok
      (if opaquelyAnnotated v then
        some "encoded subset role annotation value cannot reproduce scalar hashing"
      else none) := by
  obtain ⟨start, i, j, shape⟩ := roleFields table h hv
  have parts := roleParts hv
  have hsecond := supportedProperty_of table shape.holdsSecond parts.second
  have hsupported : ∃ expression, cols.isSupportedObjectPropertyExpression i = .ok expression ∧
      (expression || (v.isOf .subObjectPropertyOf && (v.child 0).isOf .objectPropertyChain)) =
        true := by
    rcases parts.first with ⟨-, hfirst⟩ | ⟨hsub, hchain⟩
    · exact ⟨true, supportedProperty_of table shape.holdsFirst hfirst, rfl⟩
    · refine ⟨false, ?_, ?_⟩
      · unfold Columns.isSupportedObjectPropertyExpression Columns.projectedObjectPropertyIri
          Columns.projectedObjectPropertyParts Columns.namedObjectPropertyIri
        rw [namedIri_none table shape.holdsFirst (by rw [hchain]; decide), ok_bind _ rfl]
        have hinverse : (v.child 0).isOf .objectInverseOf = false := by
          rw [Node.isOf, hchain]
          rfl
        rw [tagIs_eq table shape.holdsFirst .objectInverseOf, hinverse]
        rfl
      · rw [isOf_iff.mpr hsub, isOf_iff.mpr hchain]
        rfl
  obtain ⟨expression, hexpression, hpass⟩ := hsupported
  have hset := annotationSetHash_of table shape.annotations parts.annotations
  have hhashable := annotations_hashable_iff parts.annotations
  unfold Columns.inspectRoleAxiom
  rw [ok_bind _ shape.opened, ok_bind _ shape.readFirst, ok_bind _ hexpression,
    ok_bind _ (tagIs_eq table shape.holdsFirst .objectPropertyChain), ok_bind _ shape.readSecond]
  rw [ok_bind _ hsecond, hset]
  simp only [hpass, Bool.and_self, fallbackUnless, if_true]
  unfold opaquelyAnnotated
  cases hannotations : setHashFrom 0 (v.items 2) with
  | none =>
    have hblocked : (v.items 2).any isOpaque = true := by
      by_contra hne
      have hsome := hhashable.mpr (Bool.eq_false_of_not_eq_true hne)
      rw [hannotations] at hsome
      exact Bool.false_ne_true hsome
    rw [hblocked]
    rfl
  | some annotations =>
    rw [hhashable.mp (by rw [hannotations]; rfl)]
    rfl

include table in
theorem inspectNode_role (h : Holds nodes id v) (hv : CoreRoleAxiom cols.textRules v) :
    cols.inspectNode id = .ok
      (if opaquelyAnnotated v then
        some "encoded subset role annotation value cannot reproduce scalar hashing"
      else none) := by
  unfold Columns.inspectNode
  rw [ok_bind _ (nodeTag_eq table h), Constructor.ofTag_tag]
  have hinspect := inspectRoleAxiom_of table h hv
  rcases (roleParts hv).constructor with hc | hc
  · rw [isOf_iff.mpr hc] at hinspect
    simp only [hc]
    exact hinspect
  · have hsub : v.isOf .subObjectPropertyOf = false := by
      rw [Node.isOf, hc]
      rfl
    rw [hsub] at hinspect
    simp only [hc]
    exact hinspect

end Rows

section Preparation
variable {cols : Columns} {nodes : List Node} (table : EncodesNodes cols nodes)

def isRoleAxiom (v : Node) : Bool := v.isOf .subObjectPropertyOf || v.isOf .inverseObjectProperties

/-- A root whose role axiom, if it is one, was built by the core model. -/
def CoreRoot (cols : Columns) (nodes : List Node) (root : Columns.Root) (v : Node) : Prop :=
  Holds nodes root.2 v ∧ (isRoleAxiom v = true → CoreRoleAxiom cols.textRules v)

/-- Chains have no row, so only the annotations of the other role axioms are hashed. -/
def rowOpaque (v : Node) : Bool := isRoleAxiom v && !isChainAxiom v && opaquelyAnnotated v

section Turns
variable {kind id : Nat} {v : Node} {rest : List Columns.Root} {order : Nat}

include table in
theorem roleRows_skip (h : Holds nodes id v) (hrole : isRoleAxiom v = false) :
    cols.roleRows ((kind, id) :: rest) order = cols.roleRows rest (order + 1) := by
  simp only [isRoleAxiom, Bool.or_eq_false_iff] at hrole
  change (cols.tagIs id .subObjectPropertyOf >>= fun _ => _) = _
  rw [ok_bind _ (tagIs_eq table h _), ok_bind _ (tagIs_eq table h _), hrole.1, hrole.2]
  rfl

include table in
theorem roleRows_chain (h : Holds nodes id v) (hv : CoreRoleAxiom cols.textRules v)
    (hchain : isChainAxiom v = true) :
    cols.roleRows ((kind, id) :: rest) order = (do
      let found ← cols.roleRows rest (order + 1)
      pure ⟨found.rows, found.ignoredChains + 1, found.count + 1⟩) := by
  have hsub : v.isOf .subObjectPropertyOf = true := by
    rcases (roleParts hv).first with ⟨hnone, -⟩ | ⟨hc, -⟩
    · rw [hchain] at hnone
      cases hnone
    · exact isOf_iff.mpr hc
  change (cols.tagIs id .subObjectPropertyOf >>= fun _ => _) = _
  rw [ok_bind _ (tagIs_eq table h _), ok_bind _ (tagIs_eq table h _), hsub]
  simp only [Bool.not_true, Bool.false_and, Bool.false_eq_true, if_false, if_true]
  rw [ok_bind _ (isChainAxiom_eq table h hv), hchain]
  rfl

include table in
theorem roleRows_row (h : Holds nodes id v) (hv : CoreRoleAxiom cols.textRules v)
    (hchain : isChainAxiom v = false) :
    cols.roleRows ((kind, id) :: rest) order = (do
      let row ← cols.roleAxiomRow v.constructor id order
      let found ← cols.roleRows rest (order + 1)
      pure ⟨row :: found.rows, found.ignoredChains, found.count + 1⟩) := by
  change (cols.tagIs id .subObjectPropertyOf >>= fun _ => _) = _
  rw [ok_bind _ (tagIs_eq table h _), ok_bind _ (tagIs_eq table h _)]
  rcases (roleParts hv).constructor with hc | hc
  · have hsub : v.isOf .subObjectPropertyOf = true := isOf_iff.mpr hc
    simp only [hsub, Bool.not_true, Bool.false_and, Bool.false_eq_true, if_false, if_true, hc]
    rw [ok_bind _ (isChainAxiom_eq table h hv), hchain]
    rfl
  · have hsub : v.isOf .subObjectPropertyOf = false := by
      rw [Node.isOf, hc]
      rfl
    have hinverse : v.isOf .inverseObjectProperties = true := isOf_iff.mpr hc
    simp only [hsub, hinverse, Bool.not_true, Bool.and_false, Bool.false_eq_true, if_false, hc]
    rfl

end Turns

include table in
/-- The rows of the role axioms are read, or the first opaque one raises. -/
theorem roleRows_of {roots : List Columns.Root} {values : List Node}
    (h : List.Forall₂ (CoreRoot cols nodes) roots values) (order : Nat) :
    (values.any rowOpaque = false ∧ ∃ found, cols.roleRows roots order = .ok found) ∨
      (values.any rowOpaque = true ∧ cols.roleRows roots order = .error .unicodeEncode) := by
  induction h generalizing order with
  | nil => exact .inl ⟨rfl, _, rfl⟩
  | @cons root v roots values hroot _ ih =>
    obtain ⟨hholds, hcore⟩ := hroot
    rw [List.any_cons]
    cases hrole : isRoleAxiom v with
    | false =>
      have hpass : rowOpaque v = false := by simp [rowOpaque, hrole]
      rw [roleRows_skip table hholds hrole, hpass, Bool.false_or]
      exact ih (order + 1)
    | true =>
      have hv := hcore hrole
      cases hchain : isChainAxiom v with
      | true =>
        have hpass : rowOpaque v = false := by simp [rowOpaque, hchain]
        rw [roleRows_chain table hholds hv hchain, hpass, Bool.false_or]
        rcases ih (order + 1) with ⟨hnone, found, hfound⟩ | ⟨hsome, hraise⟩
        · exact .inl ⟨hnone, _, by rw [hfound]; rfl⟩
        · exact .inr ⟨hsome, by rw [hraise]; rfl⟩
      | false =>
        have hrow : rowOpaque v = opaquelyAnnotated v := by simp [rowOpaque, hrole, hchain]
        rw [roleRows_row table hholds hv hchain, hrow]
        rcases roleAxiomRow_of table hholds hv hchain order with
          ⟨hclear, row, hread, -⟩ | ⟨hblocked, hraise⟩
        · rw [hclear, Bool.false_or, ok_bind _ hread]
          rcases ih (order + 1) with ⟨hnone, found, hfound⟩ | ⟨hsome, hraise⟩
          · exact .inl ⟨hnone, _, by rw [hfound]; rfl⟩
          · exact .inr ⟨hsome, by rw [hraise]; rfl⟩
        · rw [hblocked, hraise]
          exact .inr ⟨rfl, rfl⟩

/-- How a preparation of role axioms ends: with a result, or where a hash raises. -/
inductive RoleOutcome {α : Type} (rbox : List Node) (result : Except CompileError α) : Prop
  | returned (a : α) (h : result = .ok a) (hclear : ∀ v ∈ rbox, opaquelyAnnotated v = false)
  | raised (v : Node) (hv : v ∈ rbox) (hblocked : opaquelyAnnotated v = true)
      (h : result = .error .unicodeEncode)

theorem clear_or_opaque (rbox : List Node) :
    (∀ v ∈ rbox, opaquelyAnnotated v = false) ∨ ∃ v ∈ rbox, opaquelyAnnotated v = true := by
  by_cases h : ∃ v ∈ rbox, opaquelyAnnotated v = true
  · exact .inr h
  · refine .inl fun v hv => ?_
    by_contra hne
    exact h ⟨v, hv, Bool.not_eq_false _ ▸ hne⟩

theorem not_hashable {rules : TextRules} {rbox : List Node}
    (hcore : ∀ a ∈ rbox, CoreRoleAxiom rules a) {v : Node} (hv : v ∈ rbox)
    (hblocked : opaquelyAnnotated v = true) : ¬Hashable rbox := by
  intro hall
  have hclear := (hashable_rbox_iff hcore).mp hall v hv
  rw [hblocked] at hclear
  cases hclear

/-- The maps are brought up to date, or nothing changes and a hash raises. -/
theorem roleUpdate_outcome {rules : TextRules} {rbox : List Node}
    (hcore : ∀ a ∈ rbox, CoreRoleAxiom rules a) (roles : RoleState) :
    ((∀ v ∈ rbox, opaquelyAnnotated v = false) ∧ ∃ u, roleUpdate? rbox roles = some u) ∨
      ∃ v ∈ rbox, opaquelyAnnotated v = true ∧ roleUpdate? rbox roles = none := by
  rcases clear_or_opaque rbox with hclear | ⟨v, hv, hblocked⟩
  · exact .inl ⟨hclear, update_of_hashable ((hashable_rbox_iff hcore).mpr hclear) roles⟩
  · refine .inr ⟨v, hv, hblocked, ?_⟩
    simp [roleUpdate?, hashsetOrder_eq, not_hashable hcore hv hblocked]

theorem ensureRoles_outcome {rules : TextRules} {c : Compilation} (hroles : c.rolesPrepared = false)
    (hcore : ∀ a ∈ fetchedRbox c.view, CoreRoleAxiom rules a) :
    RoleOutcome (fetchedRbox c.view) (ensureRoles c).outcome := by
  rcases roleUpdate_outcome hcore c.roleState with ⟨hclear, u, hu⟩ | ⟨v, hv, hblocked, hu⟩
  · exact .returned () (by rw [ensureRoles_run hroles hu]) hclear
  · exact .raised v hv hblocked (by rw [ensureRoles_raises hroles hu])

theorem prepareCompilation_outcome {rules : TextRules} {view : OntologyView}
    (haxioms : AllCore view.closure)
    (hcore : ∀ a ∈ scannedRbox view.closure, CoreRoleAxiom rules a)
    (options : ProjectionOptions) (roles : RoleState) :
    RoleOutcome (scannedRbox view.closure) (prepareCompilation view options roles) := by
  have hscan := foldlM_scanAxiom haxioms ⟨0, ∅⟩
  rcases roleUpdate_outcome hcore roles with ⟨hclear, u, hu⟩ | ⟨v, hv, hblocked, hu⟩
  · have hreturned : ∃ c, prepareCompilation view options roles = .ok c := by
      unfold prepareCompilation
      rw [ok_bind _ hscan, updateRoleState_eq, hu]
      exact ⟨_, rfl⟩
    obtain ⟨c, hc⟩ := hreturned
    exact .returned c hc hclear
  · refine .raised v hv hblocked ?_
    unfold prepareCompilation
    rw [ok_bind _ hscan, updateRoleState_eq, hu]
    rfl

include table in
/-- `_role_axioms` on roots that the core model built. -/
theorem roleAxioms_of {roots : List Columns.Root} {values : List Node}
    (h : List.Forall₂ (CoreRoot cols nodes) roots values) :
    (values.any rowOpaque = false ∧ ∃ rows, cols.roleAxioms roots = .ok rows) ∨
      (values.any rowOpaque = true ∧ cols.roleAxioms roots = .error .unicodeEncode) := by
  unfold Columns.roleAxioms
  rcases roleRows_of table h 0 with ⟨hclear, found, hfound⟩ | ⟨hblocked, hraise⟩
  · exact .inl ⟨hclear, _, by rw [hfound]; rfl⟩
  · exact .inr ⟨hblocked, by rw [hraise]; rfl⟩

include table in
theorem inspected_iff {id : Nat} {v : Node} (h : Holds nodes id v)
    (hv : CoreRoleAxiom cols.textRules v) :
    cols.inspectNode id = .ok none ↔ opaquelyAnnotated v = false := by
  rw [inspectNode_role table h hv]
  cases opaquelyAnnotated v <;> simp

include table in
/-- The role axioms that pass the inspection have no row that raises. -/
theorem rowOpaque_of_inspected {roots : List Columns.Root} {values : List Node}
    (h : List.Forall₂ (CoreRoot cols nodes) roots values)
    (hinspected : ∀ root ∈ roots, cols.inspectNode root.2 = .ok none) :
    values.any rowOpaque = false := by
  induction h with
  | nil => rfl
  | @cons root v roots values hroot _ ih =>
    have hrest := ih (fun r hr => hinspected r (List.mem_cons_of_mem root hr))
    have hfirst : rowOpaque v = false := by
      cases hrole : isRoleAxiom v with
      | false => simp [rowOpaque, hrole]
      | true =>
        have hclear := (inspected_iff table hroot.1 (hroot.2 hrole)).mp
          (hinspected root List.mem_cons_self)
        simp [rowOpaque, hclear]
    rw [List.any_cons, hfirst, hrest]
    rfl

end Preparation

section Totality

/-- Role axioms are prepared without raising exactly when none of their own annotations
is by an anonymous individual with a key that is not UTF-8. The encoded compiler
inspects for it, so that no accepted root raises. -/
theorem role_preparation_returns (rules : TextRules) :
    (∀ rbox : List Node, (∀ a ∈ rbox, CoreRoleAxiom rules a) →
      ((hashsetOrder rbox).isSome ↔ ∀ a ∈ rbox, opaquelyAnnotated a = false)) ∧
    (∀ c : Compilation, c.rolesPrepared = false →
      (∀ a ∈ fetchedRbox c.view, CoreRoleAxiom rules a) →
      RoleOutcome (fetchedRbox c.view) (ensureRoles c).outcome) ∧
    (∀ (view : OntologyView) (options : ProjectionOptions) (roles : RoleState),
      AllCore view.closure → (∀ a ∈ scannedRbox view.closure, CoreRoleAxiom rules a) →
      RoleOutcome (scannedRbox view.closure) (prepareCompilation view options roles)) ∧
    ∀ (cols : Columns) (nodes : List Node), EncodesNodes cols nodes →
      (∀ id v, Holds nodes id v → CoreRoleAxiom cols.textRules v →
        (cols.inspectNode id = .ok none ↔ opaquelyAnnotated v = false)) ∧
      ∀ roots values, List.Forall₂ (CoreRoot cols nodes) roots values →
        ((∃ rows, cols.roleAxioms roots = .ok rows) ↔ values.any rowOpaque = false) ∧
        ((∀ root ∈ roots, cols.inspectNode root.2 = .ok none) →
          ∃ rows, cols.roleAxioms roots = .ok rows) := by
  refine ⟨?_, fun c => ensureRoles_outcome, ?_, ?_⟩
  · intro rbox hcore
    rw [← hashable_rbox_iff hcore, hashsetOrder_eq]
    split <;> simp [*]
  · intro view options roles haxioms hcore
    exact prepareCompilation_outcome haxioms hcore options roles
  · intro cols nodes table
    refine ⟨fun id v => inspected_iff table, ?_⟩
    intro roots values h
    have hreturns : (∃ rows, cols.roleAxioms roots = .ok rows) ↔ values.any rowOpaque = false := by
      rcases roleAxioms_of table h with ⟨hclear, hrows⟩ | ⟨hblocked, hraise⟩
      · exact ⟨fun _ => hclear, fun _ => hrows⟩
      · simp [hblocked, hraise]
    exact ⟨hreturns, fun hinspected => hreturns.mpr (rowOpaque_of_inspected table h hinspected)⟩

/-- A sub-property axiom annotated by a blank node whose key is the byte 255. -/
def opaqueRoleAxiom : Node :=
  .mk .subObjectPropertyOf [.node (objectProperty "urn:p"), .node (objectProperty "urn:q"),
    .set [.mk .annotationTerm [.node (entity .annotationProperty "urn:note"),
      .node (anonymousIndividual (List.replicate 32 0) [255]), .set []]]]

def opaqueView : OntologyView :=
  ⟨[opaqueRoleAxiom], fun _ => [opaqueRoleAxiom], fun _ => [], []⟩

/-- It is well formed, and nothing that prepares role axioms returns on it. -/
theorem opaque_role_axiom_raises :
    CoreRoleAxiom ⟨fun _ => True, fun _ => True, fun _ => True⟩ opaqueRoleAxiom ∧
      hashsetOrder [opaqueRoleAxiom] = none ∧
      prepareCompilation opaqueView ⟨false, false, false, .isolated⟩ .empty =
        .error .unicodeEncode ∧
      (ensureRoles (prepareStreamingCompilation opaqueView ⟨false, false, false, .isolated⟩
        .empty)).outcome = .error .unicodeEncode := by
  have hcore : CoreRoleAxiom ⟨fun _ => True, fun _ => True, fun _ => True⟩ opaqueRoleAxiom := by
    refine .subProperty (.named trivial) (.named trivial) ?_
    intro a ha
    rw [List.mem_singleton.mp ha]
    exact .mk trivial (.anonymous rfl (List.cons_ne_nil _ _)) (fun b hb => by cases hb)
  have hblocked : opaquelyAnnotated opaqueRoleAxiom = true := rfl
  have hall : ∀ a ∈ [opaqueRoleAxiom], CoreRoleAxiom ⟨fun _ => True, fun _ => True, fun _ => True⟩ a := by
    intro a ha
    rwa [List.mem_singleton.mp ha]
  have hraised : ∀ {α : Type} {result : Except CompileError α},
      RoleOutcome [opaqueRoleAxiom] result → result = .error .unicodeEncode := by
    intro α result h
    cases h with
    | returned a ha hclear =>
      rw [hclear _ (List.mem_singleton.mpr rfl)] at hblocked
      cases hblocked
    | raised v hv hv' h => exact h
  refine ⟨hcore, ?_, ?_, ?_⟩
  · rw [hashsetOrder_eq, if_neg (not_hashable hall (List.mem_singleton.mpr rfl) hblocked)]
  · have hscanned : scannedRbox opaqueView.closure = [opaqueRoleAxiom] := rfl
    have haxioms : AllCore opaqueView.closure := by
      intro a ha
      rw [List.mem_singleton.mp ha]
      rfl
    have hprepared := prepareCompilation_outcome haxioms (hscanned ▸ hall)
      ⟨false, false, false, .isolated⟩ .empty
    rw [hscanned] at hprepared
    exact hraised hprepared
  · have hfetched : fetchedRbox opaqueView = [opaqueRoleAxiom] := rfl
    have hprepared := ensureRoles_outcome (c := prepareStreamingCompilation opaqueView
      ⟨false, false, false, .isolated⟩ .empty) rfl (hfetched ▸ hall)
    exact hraised hprepared

end Totality

end Projector.Encoded
