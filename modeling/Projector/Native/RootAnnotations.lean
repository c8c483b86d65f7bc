import Projector.Encoded.RootMerge
import Projector.Native.CanonicalCode
import Projector.Native.RootSelection
import Projector.Native.StructuralEquality

namespace Projector.Native
open Lib Projector.Core Projector.Encoded Compiler

section Selection
variable {β : Type} (m : Meter β) (closure : SelectedColumns) (closureRuleIndexes : List Nat)
  (root : SelectedColumns) (rootRuleIndexes : List Nat)

/-- `while closure_index < self.root_count()`, over the indexes that are left: the node that
is found with the indexes after it. -/
def nextMatch (rootNode : Nat) : List Nat → Metered β (Option (Nat × List Nat))
  | [] => pure none
  | candidateIndex :: rest => do
    if !(← lift (closure.rootIsSelected candidateIndex)) then nextMatch rootNode rest
    else do
      let candidate ← lift (closure.rootId candidateIndex)
      let rule ← lift (resolvedRootRuleAt closureRuleIndexes candidateIndex)
      if rule.handler = .annotationAssertion then do
        if ← structurallyEqualNode m closure.direct root.direct candidate rootNode then
          pure (some (candidate, rest))
        else nextMatch rootNode rest
      else nextMatch rootNode rest

def absentFromClosure : String :=
  "encoded root annotation assertion is absent from the closure selection"

def selectFrom : List Nat → List Nat → List Nat → Metered β (List Nat)
  | [], _, selected => pure selected
  | rootIndex :: rest, closures, selected => do
    checkCancel m rootIndex
    if !(← lift (root.rootIsSelected rootIndex)) then selectFrom rest closures selected
    else do
      let rule ← lift (resolvedRootRuleAt rootRuleIndexes rootIndex)
      let rootNode ← lift (root.rootId rootIndex)
      if rule.handler ≠ .annotationAssertion then selectFrom rest closures selected
      else do
        match ← nextMatch m closure closureRuleIndexes root rootNode closures with
        | none => malformed absentFromClosure
        | some (candidate, closures) => do
          m.grown selected.length
          selectFrom rest closures (selected ++ [candidate])

/-- `select_root_annotation_nodes` -/
def selectRootAnnotationNodes : Metered β (List Nat) :=
  selectFrom m closure closureRuleIndexes root rootRuleIndexes (List.range root.rootCount)
    (List.range closure.rootCount) []

end Selection

section Spec
variable {β : Type} {m : Meter β} {arity : Nat → Nat}

/-- The selected roots of a table with resolved rules, as the cursor over the same columns sees
them. A table that is combined with root annotations has no scope map. -/
structure SelectionOf (d : SelectedColumns) (ruleIndexes : List Nat)
    (roots : List (KeyedRoot arity)) : Prop where
  valid : d.validatePostings = .ok ()
  rules : d.resolveRuleIndexes = .ok ruleIndexes
  addressed : d.direct.columns.scalarBytes.length < usizeLimit
  counted : d.rootCount < usizeLimit
  columns : ∀ r ∈ roots, r.root.cursor.columns = d.direct.columns
  plain : ∀ r ∈ roots, r.root.cursor.scopeMap = noScopeMap
  listed : (List.range d.rootCount).filter d.selects = roots.map fun r => r.root.rootIndex

/-- What the loops read of a selected root. -/
structure ReadsAs (d : SelectedColumns) (ruleIndexes : List Nat) (r : KeyedRoot arity) : Prop where
  rule : ∃ rule, resolvedRootRuleAt ruleIndexes r.root.rootIndex = .ok rule ∧
    (rule.handler = .annotationAssertion ↔ r.isAnnotationAssertion = true)
  node : d.rootId r.root.rootIndex = .ok r.id
  stands : d.direct.columns.Stands noScopeMap r.id r.term

variable {d : SelectedColumns} {ruleIndexes : List Nat} {roots : List (KeyedRoot arity)}

theorem SelectionOf.selected (h : SelectionOf d ruleIndexes roots) {index : Nat}
    (hindex : index < d.rootCount) : d.rootIsSelected index = .ok (d.selects index) := by
  have := h.counted
  exact rootIsSelected_eq h.valid (by omega)

theorem SelectionOf.readsAs (h : SelectionOf d ruleIndexes roots) {r : KeyedRoot arity}
    (hr : r ∈ roots) : ReadsAs d ruleIndexes r := by
  have hin : r.root.rootIndex ∈ (List.range d.rootCount).filter d.selects := by
    rw [h.listed]
    exact List.mem_map.mpr ⟨r, hr, rfl⟩
  obtain ⟨hrange, hselects⟩ := List.mem_filter.mp hin
  have hindex := List.mem_range.mp hrange
  have hcolumns := h.columns r hr
  have hnode : d.rootId r.root.rootIndex = .ok r.id := by
    have hread := r.idRead
    unfold RootRef.nodeId Columns.rootId at hread
    rw [hcolumns] at hread
    obtain ⟨value, hvalue, hid⟩ := bind_ok hread
    unfold SelectedColumns.rootId
    have hcell : readUsize d.direct.columns.rootIds r.root.rootIndex "root_ids" = .ok value :=
      readUsize_of hvalue
    rw [ok_bind _ hcell]
    exact checkedNodeId_of hid
  have hkind : d.rootKind r.root.rootIndex = .ok r.kind := by
    have hread := r.kindRead
    unfold RootRef.rootKind Columns.rootKind at hread
    rw [hcolumns] at hread
    have hcell : d.direct.columns.rootKinds[r.root.rootIndex]? = some r.kind := read_ok hread
    rw [SelectedColumns.rootKind, hcell]
  have htag : d.direct.nodeTag r.id = .ok r.term.tag := nodeTag_of (hcolumns ▸ r.tagRead)
  refine ⟨?_, hnode, ?_⟩
  · obtain ⟨hlength, hall⟩ := List.forall₂_iff_get.mp (forall₂_of_mapM h.rules)
    have hat : r.root.rootIndex < ruleIndexes.length := by
      rw [← hlength, List.length_range]
      exact hindex
    have hresolve := hall r.root.rootIndex (by rwa [List.length_range]) hat
    rw [List.get_eq_getElem, List.getElem_range, ok_bind _ (h.selected hindex), hselects,
      if_pos rfl, ok_bind _ hnode, ok_bind _ hkind, ok_bind _ htag] at hresolve
    obtain ⟨rule, hrule, hread, hruleKind, hruleTag⟩ :=
      resolvedRootRuleAt_ok (List.getElem?_eq_getElem hat) hresolve
    refine ⟨rule, hread, ?_⟩
    rw [annotationAssertion_handler rule hrule, hruleKind, hruleTag]
    unfold KeyedRoot.isAnnotationAssertion
    rw [Bool.and_eq_true, beq_iff_eq, beq_iff_eq]
  · have hstands := r.stands
    rw [hcolumns, h.plain r hr] at hstands
    exact hstands

/-- Some indexes of a table with the selected roots among them. -/
structure Remaining (d : SelectedColumns) (all : List (KeyedRoot arity)) (indexes : List Nat)
    (roots : List (KeyedRoot arity)) : Prop where
  inside : ∀ i ∈ indexes, i < d.rootCount
  listed : indexes.filter d.selects = roots.map fun r => r.root.rootIndex
  among : ∀ r ∈ roots, r ∈ all

theorem Remaining.skip {all : List (KeyedRoot arity)} {index : Nat} {indexes : List Nat}
    (h : Remaining d all (index :: indexes) roots) (hnot : d.selects index = false) :
    Remaining d all indexes roots := by
  refine ⟨fun i hi => h.inside i (List.mem_cons_of_mem _ hi), ?_, h.among⟩
  rw [← h.listed, List.filter_cons_of_neg (by simp [hnot])]

theorem Remaining.take {all : List (KeyedRoot arity)} {index : Nat} {indexes : List Nat}
    (h : Remaining d all (index :: indexes) roots) (hselects : d.selects index = true) :
    ∃ r rest, roots = r :: rest ∧ r.root.rootIndex = index ∧ Remaining d all indexes rest := by
  have hlisted := h.listed
  rw [List.filter_cons_of_pos hselects] at hlisted
  cases roots with
  | nil => cases hlisted
  | cons r rest =>
    obtain ⟨hindex, hrest⟩ := List.cons.inj hlisted
    exact ⟨r, rest, rfl, hindex.symm, fun i hi => h.inside i (List.mem_cons_of_mem _ hi), hrest,
      fun s hs => h.among s (List.mem_cons_of_mem _ hs)⟩

theorem Remaining.none {all : List (KeyedRoot arity)} (h : Remaining d all [] roots) :
    roots = [] :=
  List.map_eq_nil_iff.mp h.listed.symm

variable {closure root : SelectedColumns} {closureRuleIndexes rootRuleIndexes : List Nat}
  {closures wanted : List (KeyedRoot arity)}

/-- The assertions among some roots. -/
def assertions (roots : List (KeyedRoot arity)) : List (KeyedRoot arity) :=
  roots.filter KeyedRoot.isAnnotationAssertion

theorem assertion_key_eq {c r : KeyedRoot arity} (hc : c.isAnnotationAssertion = true)
    (hr : r.isAnnotationAssertion = true) : c.key = r.key ↔ c.term = r.term := by
  unfold KeyedRoot.isAnnotationAssertion at hc hr
  rw [Bool.and_eq_true, beq_iff_eq, beq_iff_eq] at hc hr
  rw [KeyedRoot.key_eq_iff, hc.1, hr.1]
  exact and_iff_right rfl

/-- What the search for a root finds is where the forward scan goes on. -/
def Finds (all cs : List (KeyedRoot arity)) (d : SelectedColumns) (r : KeyedRoot arity) :
    Option (Nat × List Nat) → Prop
  | none => ∀ rest, forwardScan KeyedRoot.key KeyedRoot.key (assertions cs) (r :: rest) = none
  | some (node, indexes) => ∃ c cs', c.id = node ∧ Remaining d all indexes cs' ∧
    ∀ rest, forwardScan KeyedRoot.key KeyedRoot.key (assertions cs) (r :: rest) =
      (forwardScan KeyedRoot.key KeyedRoot.key (assertions cs') rest).map (c :: ·)

variable (hc : SelectionOf closure closureRuleIndexes closures)
  (hr : SelectionOf root rootRuleIndexes wanted)
include hc hr

theorem nextMatch_meets {r : KeyedRoot arity} (hwanted : r ∈ wanted)
    (hassertion : r.isAnnotationAssertion = true) {indexes : List Nat}
    {cs : List (KeyedRoot arity)} (h : Remaining closure closures indexes cs) :
    Meets m (nextMatch m closure closureRuleIndexes root r.id indexes)
      (Finds closures cs closure r) := by
  induction indexes generalizing cs with
  | nil =>
    rw [h.none]
    exact Meets.pure fun _ => rfl
  | cons index indexes ih =>
    unfold nextMatch
    refine (Gives.lift (hc.selected (h.inside index List.mem_cons_self))).bindMeets ?_
    cases hselects : closure.selects index with
    | false => exact ih (h.skip hselects)
    | true =>
      obtain ⟨c, cs', rfl, rfl, hrest⟩ := h.take hselects
      obtain ⟨⟨rule, hrule, hhandler⟩, hnode, hstands⟩ := hc.readsAs (h.among c List.mem_cons_self)
      simp only [Bool.not_true, Bool.false_eq_true, if_false]
      refine (Gives.lift hnode).bindMeets ((Gives.lift hrule).bindMeets ?_)
      by_cases hassert : c.isAnnotationAssertion = true
      · rw [if_pos (hhandler.mpr hassert)]
        have hequal := structurallyEqualNode_meets (m := m) ⟨hc.addressed, hr.addressed⟩ hstands
          (hr.readsAs hwanted).stands
        have hfirst : assertions (c :: cs') = c :: assertions cs' := List.filter_cons_of_pos hassert
        refine hequal.bind fun equal hsame => ?_
        rw [← assertion_key_eq hassert hassertion] at hsame
        cases equal with
        | true =>
          refine Meets.pure ⟨c, cs', rfl, hrest, fun rest => ?_⟩
          rw [hfirst, forwardScan_take (hsame.mp rfl)]
        | false =>
          refine (ih hrest).mono fun found hfound => ?_
          have hpassed : ∀ rest, forwardScan KeyedRoot.key KeyedRoot.key (assertions (c :: cs'))
              (r :: rest) = forwardScan KeyedRoot.key KeyedRoot.key (assertions cs') (r :: rest) := by
            intro rest
            rw [hfirst, forwardScan_pass fun h => Bool.noConfusion (hsame.mpr h)]
          unfold Finds
          simp only [hpassed]
          exact hfound
      · rw [if_neg (fun h => hassert (hhandler.mp h))]
        have hskipped : assertions (c :: cs') = assertions cs' := List.filter_cons_of_neg hassert
        unfold Finds
        rw [hskipped]
        exact ih hrest

/-- What the selection gives back, after the nodes that are selected already. -/
def nativeSelection (selected : List Nat) :
    Option (List (KeyedRoot arity)) → Except KernelError (List Nat)
  | some roots => .ok (selected ++ roots.map KeyedRoot.id)
  | none => .error (.malformed absentFromClosure)

omit hc hr in
theorem nativeSelection_cons (selected : List Nat) (c : KeyedRoot arity)
    (found : Option (List (KeyedRoot arity))) :
    nativeSelection selected (found.map (c :: ·)) = nativeSelection (selected ++ [c.id]) found := by
  cases found with
  | none => rfl
  | some roots => simp [nativeSelection]

theorem selectFrom_ends {rootIndexes closureIndexes selected : List Nat}
    {rs cs : List (KeyedRoot arity)} (hroots : Remaining root wanted rootIndexes rs)
    (hclosures : Remaining closure closures closureIndexes cs) :
    Ends m (selectFrom m closure closureRuleIndexes root rootRuleIndexes rootIndexes closureIndexes
        selected)
      (nativeSelection selected
        (forwardScan KeyedRoot.key KeyedRoot.key (assertions cs) (assertions rs))) := by
  induction rootIndexes generalizing closureIndexes selected rs cs with
  | nil =>
    rw [hroots.none]
    have hdone : nativeSelection selected (some ([] : List (KeyedRoot arity))) = .ok selected :=
      congrArg Except.ok (List.append_nil selected)
    have hnone : assertions ([] : List (KeyedRoot arity)) = [] := rfl
    rw [hnone, forwardScan_nil, hdone]
    exact Ends.pure
  | cons index rootIndexes ih =>
    unfold selectFrom
    refine (Gives.checkCancel index).bindEnds
      ((Gives.lift (hr.selected (hroots.inside index List.mem_cons_self))).bindEnds ?_)
    cases hselects : root.selects index with
    | false => exact ih (hroots.skip hselects) hclosures
    | true =>
      obtain ⟨r, rs', rfl, rfl, hrest⟩ := hroots.take hselects
      have hwanted := hroots.among r List.mem_cons_self
      obtain ⟨⟨rule, hrule, hhandler⟩, hnode, -⟩ := hr.readsAs hwanted
      simp only [Bool.not_true, Bool.false_eq_true, if_false]
      refine (Gives.lift hrule).bindEnds ((Gives.lift hnode).bindEnds ?_)
      by_cases hassert : r.isAnnotationAssertion = true
      · rw [if_neg (not_not.mpr (hhandler.mpr hassert))]
        have hfirst : assertions (r :: rs') = r :: assertions rs' := List.filter_cons_of_pos hassert
        rw [hfirst]
        refine (nextMatch_meets hc hr hwanted hassert hclosures).bindEnds fun found hfound => ?_
        cases found with
        | none =>
          rw [hfound]
          exact Ends.malformed _
        | some found =>
          obtain ⟨c, cs', hid, hremaining, hscan⟩ := hfound
          rw [hscan, nativeSelection_cons, hid]
          exact (Gives.grown _).bindEnds (ih hrest hremaining)
      · rw [if_pos (fun h => hassert (hhandler.mp h))]
        have hskipped : assertions (r :: rs') = assertions rs' := List.filter_cons_of_neg hassert
        rw [hskipped]
        exact ih hrest hclosures

theorem selectRootAnnotationNodes_ends (hstrict : StrictOn KeyedRoot.key closures)
    (hstrict' : StrictOn KeyedRoot.key wanted) :
    Ends m (selectRootAnnotationNodes m closure closureRuleIndexes root rootRuleIndexes)
      (nativeSelection []
        (subsetOf KeyedRoot.key KeyedRoot.key (assertions closures) (assertions wanted))) := by
  have hroots : Remaining root wanted (List.range root.rootCount) wanted :=
    ⟨fun _ hi => List.mem_range.mp hi, hr.listed, fun _ h => h⟩
  have hclosures : Remaining closure closures (List.range closure.rootCount) closures :=
    ⟨fun _ hi => List.mem_range.mp hi, hc.listed, fun _ h => h⟩
  have hscan : forwardScan KeyedRoot.key KeyedRoot.key (assertions closures) (assertions wanted) =
      subsetOf KeyedRoot.key KeyedRoot.key (assertions closures) (assertions wanted) :=
    forwardScan_eq (hstrict.filter _) (hstrict'.filter _)
  rw [← hscan]
  exact selectFrom_ends hc hr hroots hclosures

end Spec

section Agreement
variable {arity : Nat → Nat} {closures roots : List (KeyedRoot arity)}

/-- Every annotation assertion of the roots is structurally equal to one of the closure. -/
def Covered (closures roots : List (KeyedRoot arity)) : Prop :=
  ∀ r ∈ roots, r.isAnnotationAssertion = true →
    ∃ c ∈ closures, c.isAnnotationAssertion = true ∧ c.term = r.term

/-- The annotation assertions of the closure that are among the roots, in the order of the
closure. -/
structure IsIntersection (closures roots selected : List (KeyedRoot arity)) : Prop where
  ordered : selected.Sublist closures
  strict : StrictOn KeyedRoot.key selected
  members : ∀ c, c ∈ selected ↔ c ∈ closures ∧ c.isAnnotationAssertion = true ∧
    ∃ r ∈ roots, r.isAnnotationAssertion = true ∧ r.term = c.term

/-- What the native selection ends with, on any tables with these selections. -/
def NativeSelects (closures roots : List (KeyedRoot arity))
    (result : Except KernelError (List Nat)) : Prop :=
  ∀ (β : Type) (m : Meter β) (closure root : SelectedColumns)
    (closureRuleIndexes rootRuleIndexes : List Nat),
    SelectionOf closure closureRuleIndexes closures → SelectionOf root rootRuleIndexes roots →
      Ends m (selectRootAnnotationNodes m closure closureRuleIndexes root rootRuleIndexes) result

theorem mem_assertions {r : KeyedRoot arity} :
    r ∈ assertions roots ↔ r ∈ roots ∧ r.isAnnotationAssertion = true :=
  List.mem_filter

theorem covered_iff : Covered closures roots ↔
    ∀ r ∈ assertions roots, r.key ∈ (assertions closures).map KeyedRoot.key := by
  constructor
  · intro h r hr
    obtain ⟨hmem, hassertion⟩ := mem_assertions.mp hr
    obtain ⟨c, hc, hcassertion, hterm⟩ := h r hmem hassertion
    exact List.mem_map.mpr ⟨c, mem_assertions.mpr ⟨hc, hcassertion⟩,
      (assertion_key_eq hcassertion hassertion).mpr hterm⟩
  · intro h r hmem hassertion
    obtain ⟨c, hc, hkey⟩ := List.mem_map.mp (h r (mem_assertions.mpr ⟨hmem, hassertion⟩))
    obtain ⟨hc, hcassertion⟩ := mem_assertions.mp hc
    exact ⟨c, hc, hcassertion, (assertion_key_eq hcassertion hassertion).mp hkey⟩

theorem subsetOf_covered (hstrict : StrictOn KeyedRoot.key closures) (h : Covered closures roots) :
    ∃ selected, IsIntersection closures roots selected ∧
      subsetOf KeyedRoot.key KeyedRoot.key (assertions closures) (assertions roots) =
        some selected := by
  obtain ⟨selected, hsubset, hsub, hmembers⟩ := subsetOf_some (covered_iff.mp h)
  have hordered : selected.Sublist closures := hsub.trans List.filter_sublist
  refine ⟨selected, ⟨hordered, List.Pairwise.sublist hordered hstrict, fun c => ?_⟩, hsubset⟩
  rw [hmembers, mem_assertions, and_assoc]
  refine and_congr_right fun _ => and_congr_right fun hassertion => ?_
  rw [List.mem_map]
  constructor
  · rintro ⟨r, hr, hkey⟩
    obtain ⟨hmem, hrassertion⟩ := mem_assertions.mp hr
    exact ⟨r, hmem, hrassertion, (assertion_key_eq hrassertion hassertion).mp hkey⟩
  · rintro ⟨r, hmem, hrassertion, hterm⟩
    exact ⟨r, mem_assertions.mpr ⟨hmem, hrassertion⟩,
      (assertion_key_eq hrassertion hassertion).mpr hterm⟩

end Agreement

section Sample

/-- Annotation assertions that differ in one text, one for each byte. -/
def assertionColumns (texts : Bytes) : Columns where
  rootKinds := texts.map fun _ => ROOT_AXIOM
  rootIds := List.range' 1 texts.length
  nodeTags := texts.map fun _ => 120
  nodeFieldOffsets := List.range (texts.length + 1)
  fieldKinds := texts.map fun _ => COMPONENT_TEXT
  fieldValues := List.range texts.length
  fieldLengths := texts.map fun _ => 1
  itemKinds := []
  itemValues := []
  itemLengths := []
  scalarBytes := texts
  maxIriBytes := 64
  maxLiteralBytes := 64
  lowered := id

def closureTable : SelectedColumns := ⟨⟨assertionColumns [97, 98], []⟩, [], []⟩
def rootTable : SelectedColumns := ⟨⟨assertionColumns [98], []⟩, [], []⟩
def closureCursor : Cursor := ⟨0, assertionColumns [97, 98], noScopeMap⟩
def rootCursor : Cursor := ⟨1, assertionColumns [98], noScopeMap⟩

def assertionTerm (text : UInt8) : Term := .mk 120 [.scalar .text [text]]

theorem assertion_fits (text : UInt8) : (assertionTerm text).Fits fun _ => 1 :=
  ⟨rfl, trivial, trivial⟩

def closureRoots : List (KeyedRoot fun _ => 1) :=
  [⟨⟨closureCursor, 0⟩, ROOT_AXIOM, 1, assertionTerm 97, rfl, rfl, ⟨1, rfl⟩, assertion_fits 97⟩,
   ⟨⟨closureCursor, 1⟩, ROOT_AXIOM, 2, assertionTerm 98, rfl, rfl, ⟨1, rfl⟩, assertion_fits 98⟩]

def wantedRoots : List (KeyedRoot fun _ => 1) :=
  [⟨⟨rootCursor, 0⟩, ROOT_AXIOM, 1, assertionTerm 98, rfl, rfl, ⟨1, rfl⟩, assertion_fits 98⟩]

end Sample

end Projector.Native
