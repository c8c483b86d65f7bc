import Projector.Encoded.RoleAgreement
import Projector.Encoded.TableCheck

namespace Projector.Encoded
open Lib Projector.Core Compiler

section Preparation
variable {cols : Columns} {nodes : List Node} {rootValues : List (Nat × Node)}
  {options : ProjectionOptions} {batchEdges : Nat} {roles : RoleState} {e : EncodedCompilation}

/-- What a full preparation leaves, in terms of the values of the roots. -/
structure PreparedFor (cols : Columns) (nodes : List Node) (rootValues : List (Nat × Node))
    (options : ProjectionOptions) (roles : RoleState) (e : EncodedCompilation) : Prop where
  accepted : Accepted cols nodes rootValues e.roots
  columns : e.columns = cols
  sameOptions : e.options = options
  full : e.assertedTaxonomyOnly = false
  roles : e.roleState = roles
  unprepared : e.rolesPrepared = false
  domains : e.domains = indexedBy ((rootValues.map Prod.snd).filter (·.isOf .objectPropertyDomain)) ∅
  ranges : e.ranges = indexedBy ((rootValues.map Prod.snd).filter (·.isOf .objectPropertyRange)) ∅
  ignoredShapes :
    e.ignoredShapes = Dict.tally (unindexed ((rootValues.map Prod.snd).filter isPropertyAxiom))
  skippedAxioms : e.skippedAxioms = Dict.tally ((rootValues.map Prod.snd).filterMap skippedName?)
  renderings : e.nonStringLiteralRenderings = 0
  update : ∃ ignored, e.statistics = ⟨e.skippedAxioms.total, e.ignoredShapes.total + ignored⟩ ∧
    ∀ roles, roleUpdate? ((rootValues.map Prod.snd).filter isRoleAxiom) roles =
      some ⟨e.roleAxioms.foldl applyRoleAxiom roles, ignored⟩
  anonymousIds : cols.anonymousIdMap (axiomRootIds e.roots) = .ok e.anonymousIds
  annotations : options.includeLiterals = true →
    annotationAssertionRoots cols e.roots = .ok e.annotationRoots
  classIris : e.annotationRoots ≠ [] → ∃ ids reachable,
    (List.range cols.rootCount).mapM cols.rootId = .ok ids ∧
      cols.reachableNodeIds ids = .ok reachable ∧ cols.classIris reachable = .ok e.classIris

theorem rootHolds_of_accepted {roots : List Columns.Root} (acc : Accepted cols nodes rootValues roots) :
    List.Forall₂ (RootHolds nodes) roots (rootValues.map Prod.snd) := by
  rw [List.forall₂_map_right_iff]
  exact acc.rooted.imp fun _ _ h => h.holds

theorem roleAxiom_ofAxioms : OfAxioms isRoleAxiom := by
  intro v hv
  rcases isRoleAxiom_iff.mp hv with hc | hc <;> rw [hc] <;> rfl

theorem roleAxioms_strict {roots : List Columns.Root} (acc : Accepted cols nodes rootValues roots) :
    StrictOn Node.canonicalBytes ((rootValues.map Prod.snd).filter isRoleAxiom) := by
  rw [← filter_axiomsOf acc roleAxiom_ofAxioms]
  exact List.Pairwise.filter _ (axiomsOf_strict acc)

theorem preparedIndexes {roots : List Columns.Root} (acc : Accepted cols nodes rootValues roots)
    {indexes : PreparedIndexes} (hr : prepareIndexes cols false roots = .ok indexes) :
    indexes.index = ⟨indexedBy ((rootValues.map Prod.snd).filter (·.isOf .objectPropertyDomain)) ∅,
        indexedBy ((rootValues.map Prod.snd).filter (·.isOf .objectPropertyRange)) ∅,
        Dict.tally (unindexed ((rootValues.map Prod.snd).filter isPropertyAxiom))⟩ ∧
      indexes.skippedAxioms = Dict.tally ((rootValues.map Prod.snd).filterMap skippedName?) ∧
      (∀ roles, roleUpdate? ((rootValues.map Prod.snd).filter isRoleAxiom) roles =
        some ⟨indexes.roleAxioms.foldl applyRoleAxiom roles, indexes.ignoredChains⟩) ∧
      cols.anonymousIdMap (axiomRootIds roots) = .ok indexes.anonymousIds := by
  have hrooted := rootHolds_of_accepted acc
  obtain ⟨rows, ignored, hrows, hupdate⟩ :=
    roleAxioms_agree acc.toPreflighted hrooted (roleAxioms_strict acc)
  unfold prepareIndexes at hr
  rw [if_neg Bool.false_ne_true, ok_bind _ (domainRangeIndex_eq acc.toPreflighted hrooted _),
    ok_bind _ (skippedAxiomIndex_eq acc.toEncodesNodes hrooted _), ok_bind _ hrows] at hr
  obtain ⟨ids, hids, hr⟩ := bind_ok hr
  cases hr
  exact ⟨rfl, rfl, hupdate, hids⟩

/-- The compilation that a preparation puts together. -/
def assembled (cols : Columns) (options : ProjectionOptions) (batchEdges : Nat) (taxonomy : Bool)
    (roles : RoleState) (roots : List Columns.Root) (indexes : PreparedIndexes)
    (classIris : List String) (annotationRoots : List Columns.Root) : EncodedCompilation where
  columns := cols
  options := options
  batchEdges := batchEdges
  assertedTaxonomyOnly := taxonomy
  roleState := roles
  roots := roots
  domains := indexes.index.domains
  ranges := indexes.index.ranges
  roleAxioms := indexes.roleAxioms
  anonymousIds := indexes.anonymousIds
  classIris := classIris
  annotationRoots := annotationRoots
  ignoredShapes := indexes.index.ignoredShapes
  skippedAxioms := indexes.skippedAxioms
  nonStringLiteralRenderings := 0
  rolesPrepared := false
  statistics := ⟨indexes.skippedAxioms.total, indexes.index.ignoredShapes.total + indexes.ignoredChains⟩

theorem assembled_prepared {roots annotationRoots : List Columns.Root} {indexes : PreparedIndexes}
    {classIris : List String} (acc : Accepted cols nodes rootValues roots)
    (hindexes : prepareIndexes cols false roots = .ok indexes)
    (hannotations : options.includeLiterals = true →
      annotationAssertionRoots cols roots = .ok annotationRoots)
    (hclasses : annotationRoots ≠ [] → ∃ ids reachable,
      (List.range cols.rootCount).mapM cols.rootId = .ok ids ∧
        cols.reachableNodeIds ids = .ok reachable ∧ cols.classIris reachable = .ok classIris) :
    PreparedFor cols nodes rootValues options roles
      (assembled cols options batchEdges false roles roots indexes classIris annotationRoots) := by
  obtain ⟨hindex, hskipped, hupdate, hids⟩ := preparedIndexes acc hindexes
  exact {
    accepted := acc
    columns := rfl
    sameOptions := rfl
    full := rfl
    roles := rfl
    unprepared := rfl
    domains := congrArg Columns.PropertyIndex.domains hindex
    ranges := congrArg Columns.PropertyIndex.ranges hindex
    ignoredShapes := congrArg Columns.PropertyIndex.ignoredShapes hindex
    skippedAxioms := hskipped
    renderings := rfl
    update := ⟨indexes.ignoredChains, rfl, hupdate⟩
    anonymousIds := hids
    annotations := hannotations
    classIris := hclasses }

theorem assembled_of_prepare (table : Encodes cols nodes rootValues) {taxonomy : Bool}
    (hprepare : prepareEncodedSubsetCompilation cols options batchEdges taxonomy roles =
      .ok (.compilation e)) :
    ∃ roots indexes classIris annotationRoots, Accepted cols nodes rootValues roots ∧
      prepareIndexes cols taxonomy roots = .ok indexes ∧
      (taxonomy = false → options.includeLiterals = true →
        annotationAssertionRoots cols roots = .ok annotationRoots) ∧
      (annotationRoots ≠ [] → ∃ ids reachable,
        (List.range cols.rootCount).mapM cols.rootId = .ok ids ∧
          cols.reachableNodeIds ids = .ok reachable ∧ cols.classIris reachable = .ok classIris) ∧
      e = assembled cols options batchEdges taxonomy roles roots indexes classIris annotationRoots := by
  unfold prepareEncodedSubsetCompilation at hprepare
  by_cases hgate : batchEdges < 1
  · rw [if_pos hgate] at hprepare
    cases hprepare
  rw [if_neg hgate] at hprepare
  obtain ⟨ids, hids, hr⟩ := bind_ok hprepare
  obtain ⟨reachable, hreachable, hr⟩ := bind_ok hr
  obtain ⟨⟨nodeReason, roots⟩, hinspect, hr⟩ := bind_ok hr
  obtain ⟨rootReason, hroots, hr⟩ := bind_ok hr
  split at hr
  · cases hr
  rename_i hnone
  have acc := accepted_of_inspect table hinspect hroots hnone
  obtain ⟨assertions, hassertions, hr⟩ := bind_ok hr
  obtain ⟨indexes, hindexes, hr⟩ := bind_ok hr
  dsimp only at hr
  split at hr
  · obtain ⟨classIris, hclasses, hr⟩ := bind_ok hr
    cases hr
    exact ⟨roots, indexes, classIris, assertions, acc, hindexes, fun _ _ => hassertions,
      fun _ => ⟨ids, reachable, hids, hreachable, hclasses⟩, rfl⟩
  · rename_i hannotated
    cases hr
    refine ⟨roots, indexes, [], [], acc, hindexes, ?_, fun hne => absurd rfl hne, rfl⟩
    intro hfull hliterals
    rw [hfull, hliterals, Bool.and_true, Bool.not_false, Bool.and_true, Bool.not_eq_true',
      Bool.not_eq_false, List.isEmpty_iff] at hannotated
    rw [hassertions, hannotated]

theorem preparedFor (table : Encodes cols nodes rootValues)
    (hprepare : prepareEncodedSubsetCompilation cols options batchEdges false roles =
      .ok (.compilation e)) : PreparedFor cols nodes rootValues options roles e := by
  obtain ⟨roots, indexes, classIris, annotationRoots, acc, hindexes, hannotations, hclasses, rfl⟩ :=
    assembled_of_prepare table hprepare
  exact assembled_prepared acc hindexes (hannotations rfl) hclasses

end Preparation

section Roots
variable {cols : Columns} {nodes : List Node} {rootValues : List (Nat × Node)}

theorem axiomRootIds_hold {roots : List Columns.Root} (h : List.Forall₂ (RootOf nodes) roots rootValues) :
    List.Forall₂ (Holds nodes) (axiomRootIds roots) (axiomsOf rootValues) := by
  induction h with
  | nil => exact List.Forall₂.nil
  | @cons root value roots rootValues hroot _ ih =>
    unfold axiomRootIds axiomsOf at ih ⊢
    rw [List.filter_cons, List.filter_cons, hroot.kind]
    cases value.1 == ROOT_AXIOM with
    | true => exact List.Forall₂.cons hroot.holds ih
    | false => exact ih

theorem annotationAssertionRoots_hold (table : EncodesNodes cols nodes) {roots : List Columns.Root}
    (h : List.Forall₂ (RootOf nodes) roots rootValues) {found : List Columns.Root}
    (hr : annotationAssertionRoots cols roots = .ok found) :
    List.Forall₂ (RootHolds nodes) found
      ((axiomsOf rootValues).filter (·.isOf .annotationAssertion)) := by
  induction h generalizing found with
  | nil =>
    cases hr
    exact List.Forall₂.nil
  | @cons root value roots rootValues hroot _ ih =>
    unfold annotationAssertionRoots at hr
    rw [ok_bind _ (tagIs_eq table hroot.holds _)] at hr
    obtain ⟨others, hothers, hr⟩ := bind_ok hr
    cases hr
    have hrest := ih hothers
    unfold axiomsOf at hrest ⊢
    rw [List.filter_cons, hroot.kind]
    cases value.1 == ROOT_AXIOM with
    | false =>
      rw [Bool.and_false]
      exact hrest
    | true =>
      simp only [Bool.and_true, if_true, List.map_cons, List.filter_cons]
      cases value.2.isOf .annotationAssertion with
      | true => exact List.Forall₂.cons hroot.holds hrest
      | false => exact hrest

theorem rootCount_eq (table : Encodes cols nodes rootValues) : cols.rootCount = rootValues.length := by
  rw [Columns.rootCount, table.rootKinds, List.length_map]

theorem rootIds_hold (table : Encodes cols nodes rootValues) {ids : List Nat}
    (hids : (List.range cols.rootCount).mapM cols.rootId = .ok ids) :
    List.Forall₂ (Holds nodes) ids (rootValues.map Prod.snd) := by
  have hread := forall₂_of_mapM hids
  rw [rootCount_eq table] at hread
  apply List.forall₂_of_length_eq_of_get
  · rw [← hread.length_eq, List.length_range, List.length_map]
  · intro i hi hi'
    have hlt : i < rootValues.length := by simpa using hi'
    have hturn := hread.get (i := i) (by simpa using hlt) hi
    simp only [List.get_eq_getElem, List.getElem_range] at hturn
    have hholds := rootId_ok table (List.getElem?_eq_getElem hlt) hturn
    simpa using hholds

theorem axiomRootIds_few (table : Encodes cols nodes rootValues) {roots : List Columns.Root}
    (acc : Accepted cols nodes rootValues roots) : (axiomRootIds roots).length ≤ cols.rootCount := by
  unfold axiomRootIds
  rw [List.length_map, rootCount_eq table, ← acc.rooted.length_eq]
  exact List.length_filter_le _ _

theorem rootIds_few (table : Encodes cols nodes rootValues) {ids : List Nat}
    (hids : List.Forall₂ (Holds nodes) ids (rootValues.map Prod.snd)) : ids.length ≤ cols.rootCount := by
  rw [hids.length_eq, List.length_map, rootCount_eq table]

end Roots

section Reads
variable {cols : Columns} {nodes : List Node} (table : EncodesNodes cols nodes) {id : Nat} {v : Node}
include table

theorem fieldChildren_total {index : Nat} {c : Component} (h : FieldCell cols nodes index c) :
    ∃ kids, cols.fieldChildren index = .ok kids := by
  obtain ⟨kind, value, length, hrow, hkind⟩ := h.row
  unfold Columns.fieldChildren
  rw [ok_bind _ (read_field hrow).1, hkind]
  cases c with
  | node w =>
    obtain ⟨j, hj, -⟩ := fieldNode_eq table h
    have hnode : (Component.node w).kind.toNat = COMPONENT_NODE := rfl
    rw [if_pos hnode, ok_bind _ hj]
    exact ⟨[j], rfl⟩
  | set items =>
    obtain ⟨ids, hids, -⟩ := nodeSet_eq table h (Nat.zero_le _)
    exact ⟨ids, hids⟩
  | none => exact ⟨[], rfl⟩
  | text _ => exact ⟨[], rfl⟩
  | bytes _ => exact ⟨[], rfl⟩
  | integer _ => exact ⟨[], rfl⟩
  | enum _ => exact ⟨[], rfl⟩
  | sequence _ => exact ⟨[], rfl⟩

theorem nodeChildren_total (h : Holds nodes id v) : ∃ next, cols.nodeChildren id = .ok next := by
  obtain ⟨start, hrange, hfields⟩ := fieldRange_eq table h
  have hchildren : ∃ children,
      (List.range' start (start + v.fields.length - start)).mapM cols.fieldChildren = .ok children := by
    apply mapM_total
    intro index hindex
    obtain ⟨hlow, hhigh⟩ := List.mem_range'_1.mp hindex
    obtain ⟨i, rfl⟩ := Nat.exists_eq_add_of_le hlow
    exact fieldChildren_total table (fieldsAt_cell hfields (by omega))
  obtain ⟨children, hchildren⟩ := hchildren
  refine ⟨children.flatten, ?_⟩
  unfold Columns.nodeChildren
  rw [ok_bind _ hrange]
  change (List.mapM _ _ >>= fun _ => _) = _
  rw [ok_bind _ hchildren]
  rfl

theorem holds_of_nodeIds (h : id ∈ cols.nodeIds) : ∃ w, Holds nodes id w := by
  obtain ⟨hlow, hhigh⟩ := List.mem_range'_1.mp h
  rw [table.nodeCount] at hhigh
  exact ⟨nodes[id - 1], hlow, List.getElem?_eq_getElem (by omega)⟩

theorem nodeIds_of_holds (h : Holds nodes id v) : id ∈ cols.nodeIds := by
  have hpositive := h.positive
  have hle := h.le
  refine List.mem_range'_1.mpr ⟨hpositive, ?_⟩
  rw [table.nodeCount]
  omega

/-- The walk from some roots of a table ends. -/
theorem reachable_total {ids : List Nat} {roots : List Node}
    (hroots : List.Forall₂ (Holds nodes) ids roots) (hfew : ids.length ≤ cols.rootCount) :
    ∃ found, cols.reachableNodeIds ids = .ok found := by
  have hexpands : Expands cols.nodeChildren (listed cols.nodeChildren) cols.nodeIds
      (cols.fieldCount * (cols.itemCount + 1)) := by
    have hlists : ∀ a ∈ cols.nodeIds, ∃ next, cols.nodeChildren a = .ok next := by
      intro a ha
      obtain ⟨w, hw⟩ := holds_of_nodeIds table ha
      exact nodeChildren_total table hw
    constructor
    · intro a ha
      obtain ⟨next, hnext⟩ := hlists a ha
      rw [listed_eq hnext]
      exact hnext
    · intro a ha b hb
      obtain ⟨next, hnext⟩ := hlists a ha
      rw [listed_eq hnext] at hb
      exact (nodeChildren_few hnext).1 b hb
    · intro a ha
      obtain ⟨next, hnext⟩ := hlists a ha
      rw [listed_eq hnext]
      exact (nodeChildren_few hnext).2
  have hstart : Exploring (listed cols.nodeChildren) cols.nodeIds ids.reverse [] := by
    refine ⟨List.nodup_nil, by simp, ?_, by simp⟩
    intro a ha
    obtain ⟨r, -, hholds⟩ := partner_of_right hroots.flip (List.mem_reverse.mp ha)
    exact nodeIds_of_holds table hholds
  have hfuel : ids.reverse.length + (cols.nodeIds.length - ([] : List Nat).length) *
      (cols.fieldCount * (cols.itemCount + 1)) ≤ cols.exploreFuel := by
    unfold Columns.exploreFuel Columns.nodeIds
    rw [List.length_reverse, List.length_range', List.length_nil, Nat.sub_zero]
    exact Nat.add_le_add_right hfew _
  obtain ⟨found, hrun, -⟩ := explore_run hexpands _ _ _ hstart hfuel
  exact ⟨found, hrun⟩

end Reads

section Names
variable {cols : Columns} {nodes : List Node} (pre : Preflighted cols nodes) {j : Nat} {v : Node}
  {ids : List Nat}
include pre

/-- The check of a group compares the canonical bytes. -/
theorem anonymousBytes_eq (h : Holds nodes j v) (hc : v.constructor = .anonymousIndividual) :
    cols.anonymousBytes j = .ok v.canonicalBytes := by
  have table := pre.toEncodesNodes
  obtain ⟨_, -, -, -, hfields⟩ := anonymous_shape pre h hc
  obtain ⟨start, hrange, hcells⟩ := fieldRange_eq table h
  have hpart : ∀ index payload, FieldCell cols nodes index (.bytes payload) →
      cols.scalarPart index COMPONENT_BYTES = .ok (3 :: sized payload) := by
    intro index payload hcell
    unfold Columns.scalarPart
    rw [ok_bind _ (bytesField_eq hcell)]
    rfl
  have hscope := hpart start _ (hcells 0 (.bytes (v.payload 0)) (by rw [hfields]; rfl))
  have hkey := hpart (start + 1) _ (hcells 1 (.bytes (v.payload 1)) (by rw [hfields]; rfl))
  have hindices : List.range' start (start + v.fields.length - start) = [start, start + 1] := by
    rw [Nat.add_sub_cancel_left, hfields]
    rfl
  have hbytes : v.canonicalBytes = varint v.constructor.tag ++
      (3 :: sized (v.payload 0) ++ (3 :: sized (v.payload 1) ++ [])) := by
    have hv : v = .mk v.constructor v.fields := by
      cases v
      rfl
    rw [hfields] at hv
    exact congrArg Node.canonicalBytes hv
  unfold Columns.anonymousBytes
  rw [ok_bind _ (nodeTag_eq table h), ok_bind _ hrange]
  change (List.mapM _ _ >>= fun _ => _) = _
  rw [hindices, List.mapM_cons, List.mapM_cons, List.mapM_nil, ok_bind _ hscope, ok_bind _ hkey,
    hbytes]
  rfl

/-- Anonymous nodes that ascend are strictly sorted. -/
theorem demandStrictNodes_total (hids : StrictOn id ids)
    (hall : ∀ i ∈ ids, ∃ u, Holds nodes i u ∧ u.constructor = .anonymousIndividual) :
    cols.demandStrictNodes ids = .ok () := by
  induction ids with
  | nil => rfl
  | cons first rest ih =>
    cases rest with
    | nil => rfl
    | cons second rest =>
      obtain ⟨hless, hrest⟩ := List.pairwise_cons.mp hids
      obtain ⟨u, hu, hcu⟩ := hall first List.mem_cons_self
      obtain ⟨w, hw, hcw⟩ := hall second (List.mem_cons_of_mem _ List.mem_cons_self)
      have hlt := (hu.lt_iff pre.canonical hw).mp (hless second List.mem_cons_self)
      unfold Columns.demandStrictNodes
      rw [ok_bind _ (anonymousBytes_eq pre hu hcu), ok_bind _ (anonymousBytes_eq pre hw hcw),
        decide_eq_true hlt, demand_true, ok_bind _ rfl]
      exact ih hrest fun i hi => hall i (List.mem_cons_of_mem _ hi)

omit pre in
theorem anonymousNodes_total (table : EncodesNodes cols nodes)
    (hall : ∀ i ∈ ids, ∃ u, Holds nodes i u) : ∃ found, cols.anonymousNodes ids = .ok found := by
  have htagged : ∃ tagged, (ids.mapM fun i => do
      let anonymous ← cols.tagIs i .anonymousIndividual
      pure (i, anonymous) : Read (List (Nat × Bool))) = .ok tagged := by
    apply mapM_total
    intro i hi
    obtain ⟨u, hu⟩ := hall i hi
    rw [ok_bind _ (tagIs_eq table hu _)]
    exact ⟨_, rfl⟩
  obtain ⟨tagged, htagged⟩ := htagged
  unfold Columns.anonymousNodes
  rw [ok_bind _ htagged]
  exact ⟨_, rfl⟩

theorem anonymousIdMap_total {roots : List Node} (hroots : List.Forall₂ (Holds nodes) ids roots)
    (hfew : ids.length ≤ cols.rootCount) : ∃ map, cols.anonymousIdMap ids = .ok map := by
  have table := pre.toEncodesNodes
  obtain ⟨reachable, hreachable⟩ := reachable_total table hroots hfew
  have hheld := reachable_holds_some table hreachable
  have hsorted : ∀ i ∈ sortOn id reachable, ∃ u, Holds nodes i u := by
    intro i hi
    exact hheld i (mem_sortOn.mp hi)
  obtain ⟨found, hfound⟩ := anonymousNodes_total table hsorted
  have hsublist := anonymousNodes_sublist hfound
  have hascending := ascending_of_sorted (explore_nodup List.nodup_nil hreachable)
  have hstrict : cols.demandStrictNodes found = .ok () := by
    apply demandStrictNodes_total pre (List.Pairwise.sublist hsublist hascending)
    intro i hi
    obtain ⟨u, hu⟩ := hsorted i (hsublist.subset hi)
    exact ⟨u, hu, ((anonymousNodes_eq table hfound hu).mp hi).2⟩
  unfold Columns.anonymousIdMap
  rw [ok_bind _ hreachable, ok_bind _ hfound, ok_bind _ hstrict]
  exact ⟨_, rfl⟩

theorem classIris_total (hall : ∀ i ∈ ids, ∃ u, Holds nodes i u) :
    ∃ iris, cols.classIris ids = .ok iris := by
  have hnamed : ∃ named, (sortOn id ids).mapM cols.namedClassIri = .ok named := by
    apply mapM_total
    intro i hi
    obtain ⟨u, hu⟩ := hall i (mem_sortOn.mp hi)
    exact ⟨_, namedIri_eq pre hu _⟩
  obtain ⟨named, hnamed⟩ := hnamed
  unfold Columns.classIris
  rw [ok_bind _ hnamed]
  exact ⟨_, rfl⟩

end Names

section Totality
variable {cols : Columns} {nodes : List Node} {rootValues : List (Nat × Node)}
  {options : ProjectionOptions} {batchEdges : Nat} {taxonomy : Bool} {roles : RoleState}

theorem rootIds_total (table : Encodes cols nodes rootValues) :
    ∃ ids, (List.range cols.rootCount).mapM cols.rootId = .ok ids := by
  apply mapM_total
  intro index hindex
  have hcount : cols.rootCount = cols.rootIds.length := by
    rw [table.rootIds.length_eq, Columns.rootCount, table.rootKinds, List.length_map]
  have hlt : index < cols.rootIds.length := by
    rw [← hcount]
    exact List.mem_range.mp hindex
  obtain ⟨value, -, hvalue⟩ := partner_of_right table.rootIds.flip (List.getElem_mem hlt)
  refine ⟨cols.rootIds[index], ?_⟩
  have hread : cols.read .rootIds index = .ok cols.rootIds[index] := by
    simp only [Columns.read, Columns.buffer, List.getElem?_eq_getElem hlt]
  unfold Columns.rootId
  rw [ok_bind _ hread]
  exact nodeId_eq table.toEncodesNodes hvalue

theorem annotationAssertionRoots_total (table : EncodesNodes cols nodes) {roots : List Columns.Root}
    (h : List.Forall₂ (RootOf nodes) roots rootValues) :
    ∃ found, annotationAssertionRoots cols roots = .ok found := by
  induction h with
  | nil => exact ⟨[], rfl⟩
  | @cons root value roots rootValues hroot _ ih =>
    obtain ⟨others, hothers⟩ := ih
    unfold annotationAssertionRoots
    rw [ok_bind _ (tagIs_eq table hroot.holds _), ok_bind _ hothers]
    exact ⟨_, rfl⟩

theorem prepareIndexes_total (taxonomy : Bool) (table : Encodes cols nodes rootValues) {roots : List Columns.Root}
    (acc : Accepted cols nodes rootValues roots) :
    ∃ indexes, prepareIndexes cols taxonomy roots = .ok indexes := by
  cases taxonomy with
  | true => exact ⟨_, rfl⟩
  | false =>
    have hrooted := rootHolds_of_accepted acc
    obtain ⟨rows, ignored, hrows, -⟩ :=
      roleAxioms_agree acc.toPreflighted hrooted (roleAxioms_strict acc)
    obtain ⟨ids, hids⟩ := anonymousIdMap_total acc.toPreflighted (axiomRootIds_hold acc.rooted)
      (axiomRootIds_few table acc)
    unfold prepareIndexes
    rw [if_neg Bool.false_ne_true, ok_bind _ (domainRangeIndex_eq acc.toPreflighted hrooted _),
      ok_bind _ (skippedAxiomIndex_eq acc.toEncodesNodes hrooted _), ok_bind _ hrows]
    dsimp only
    rw [ok_bind _ hids]
    exact ⟨_, rfl⟩

/-- What the preparation goes by: a reason for the scalar compiler, if there is one, and the roots. -/
def inspection (cols : Columns) : Read (Option String × List Columns.Root) := do
  let (nodeReason, roots) ← cols.inspect
  let rootReason ← cols.inspectRoots roots
  pure (nodeReason <|> rootReason, roots)

/-- A table without a reason to fall back is compiled. -/
theorem prepared_of_inspection (table : Encodes cols nodes rootValues) (hbatch : 1 ≤ batchEdges)
    {roots : List Columns.Root} (h : inspection cols = .ok (none, roots)) :
    ∃ e, prepareEncodedSubsetCompilation cols options batchEdges taxonomy roles =
      .ok (.compilation e) := by
  obtain ⟨ids, hids⟩ := rootIds_total table
  have hheld := rootIds_hold table hids
  obtain ⟨reachable, hreachable⟩ := reachable_total table.toEncodesNodes hheld
    (rootIds_few table hheld)
  obtain ⟨⟨nodeReason, roots⟩, hinspect, hr⟩ := bind_ok h
  obtain ⟨rootReason, hroots, hr⟩ := bind_ok hr
  have hnone : (nodeReason <|> rootReason) = none := (Prod.mk.inj (Except.ok.inj hr)).1
  have acc := accepted_of_inspect table hinspect hroots hnone
  obtain ⟨assertions, hassertions⟩ := annotationAssertionRoots_total acc.toEncodesNodes acc.rooted
  obtain ⟨indexes, hindexes⟩ := prepareIndexes_total taxonomy table acc
  obtain ⟨iris, hiris⟩ :=
    classIris_total acc.toPreflighted (reachable_holds_some acc.toEncodesNodes hreachable)
  have hgate : ¬batchEdges < 1 := by omega
  unfold prepareEncodedSubsetCompilation
  rw [if_neg hgate, ok_bind _ hids, ok_bind _ hreachable, ok_bind _ hinspect]
  dsimp only
  rw [ok_bind _ hroots, hnone]
  dsimp only
  rw [ok_bind _ hassertions, ok_bind _ hindexes]
  split
  · rw [ok_bind _ hiris]
    exact ⟨_, rfl⟩
  · exact ⟨_, rfl⟩

end Totality

section Sample

/-- Two subclass axioms, one of them with a restriction, and a domain and a range. -/
def linkedNodes : List Node :=
  let restriction : Node :=
    .mk .objectSomeValuesFrom [.node (objectProperty "p"), .node (owlClass "b")]
  [iri "a", iri "b", iri "p", owlClass "a", owlClass "b", objectProperty "p", restriction,
   .mk .subClassOf [.node (owlClass "a"), .node (owlClass "b"), .set []],
   .mk .subClassOf [.node (owlClass "a"), .node restriction, .set []],
   .mk .objectPropertyDomain [.node (objectProperty "p"), .node (owlClass "a"), .set []],
   .mk .objectPropertyRange [.node (objectProperty "p"), .node (owlClass "b"), .set []]]

def linkedRoots : List (Nat × Node) := (linkedNodes.drop 7).map fun v => (ROOT_AXIOM, v)

def linkedColumns : Columns where
  rootKinds := [2, 2, 2, 2]
  rootIds := [8, 9, 10, 11]
  nodeTags := [1, 1, 1, 2, 2, 2, 34, 61, 61, 74, 75]
  nodeFieldOffsets := [0, 1, 2, 3, 5, 7, 9, 11, 14, 17, 20, 23]
  fieldKinds := [2, 2, 2, 5, 1, 5, 1, 5, 1, 1, 1, 1, 1, 6, 1, 1, 6, 1, 1, 6, 1, 1, 6]
  fieldValues := [0, 1, 2, 3, 1, 3, 2, 8, 3, 6, 5, 4, 5, 0, 4, 7, 0, 6, 4, 0, 6, 5, 0]
  fieldLengths := [1, 1, 1, 5, 0, 5, 0, 15, 0, 0, 0, 0, 0, 0, 0, 0, 0, 0, 0, 0, 0, 0, 0]
  itemKinds := []
  itemValues := []
  itemLengths := []
  scalarBytes := utf8 "abpclassobject_property"
  maxIriBytes := 64
  maxLiteralBytes := 64
  lowered := id

theorem linked_encodes : Encodes linkedColumns linkedNodes linkedRoots where
  toEncodesNodes := encodes_sound (by decide +kernel)
  rootKinds := rfl
  rootIds := .cons ⟨by decide, rfl⟩ (.cons ⟨by decide, rfl⟩
    (.cons ⟨by decide, rfl⟩ (.cons ⟨by decide, rfl⟩ .nil)))

theorem linked_inspected :
    inspection linkedColumns = .ok (none, [(2, 8), (2, 9), (2, 10), (2, 11)]) := by
  decide +kernel

end Sample

end Projector.Encoded
