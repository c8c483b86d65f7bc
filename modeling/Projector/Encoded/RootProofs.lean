import Projector.Encoded.Compilation
import Projector.Encoded.AxiomShapes

namespace Projector.Encoded
open Lib Projector.Core Compiler

variable {cols : Columns} {nodes : List Node} {rootValues : List (Nat × Node)}

/-- The kind and the node of a root, and the kind and the value it stands for. -/
structure RootOf (nodes : List Node) (root : Columns.Root) (value : Nat × Node) : Prop where
  kind : root.1 = value.1
  holds : Holds nodes root.2 value.2

def Ascends (a b : Columns.Root) : Prop := a.1 < b.1 ∨ (a.1 = b.1 ∧ a.2 < b.2)

theorem Ascends.trans {a b c : Columns.Root} (h : Ascends a b) (h' : Ascends b c) :
    Ascends a c := by
  unfold Ascends at *
  omega

section Enumeration

theorem rootId_ok (table : Encodes cols nodes rootValues) {index id : Nat} {value : Nat × Node}
    (hv : rootValues[index]? = some value) (hr : cols.rootId index = .ok id) :
    Holds nodes id value.2 := by
  obtain ⟨raw, hraw, hid⟩ := bind_ok hr
  obtain ⟨rfl, -⟩ := nodeId_ok table.toEncodesNodes hid
  simp only [Columns.read, Columns.buffer] at hraw
  split at hraw
  · rename_i stored hstored
    cases hraw
    obtain ⟨hlt, hget⟩ := List.getElem?_eq_some_iff.mp hstored
    obtain ⟨hlt', hget'⟩ := List.getElem?_eq_some_iff.mp hv
    have hstep := (List.forall₂_iff_get.mp table.rootIds).2 index hlt hlt'
    simp only [List.get_eq_getElem, hget, hget'] at hstep
    exact hstep
  · cases hraw

/-- The roots that could be enumerated are those of the table, in ascending order. -/
theorem rootsFrom_ok (table : Encodes cols nodes rootValues) {count : Nat} :
    ∀ {previous : Option Columns.Root} {index : Nat} {roots : List Columns.Root},
      index + count = rootValues.length → cols.rootsFrom previous index count = .ok roots →
      List.Forall₂ (RootOf nodes) roots (rootValues.drop index) ∧ roots.Pairwise Ascends ∧
        ∀ p, previous = some p → ∀ r ∈ roots, Ascends p r := by
  induction count with
  | zero =>
    intro previous index roots hcount hr
    cases hr
    rw [List.drop_of_length_le (by omega)]
    exact ⟨List.Forall₂.nil, List.Pairwise.nil, by simp⟩
  | succ count ih =>
    intro previous index roots hcount hr
    obtain ⟨kind, hkind, hr⟩ := bind_ok hr
    obtain ⟨id, hid, hr⟩ := bind_ok hr
    split at hr
    · cases hr
    rename_i hascends
    obtain ⟨rest, hrest, hr⟩ := bind_ok hr
    cases hr
    obtain ⟨hvalues, hpairs, hless⟩ := ih (by omega) hrest
    have hlt : index < rootValues.length := by omega
    have hvalue : rootValues[index]? = some rootValues[index] := List.getElem?_eq_getElem hlt
    have hkindEq : kind = rootValues[index].1 := by
      simp only [Columns.rootKind, Columns.read, Columns.buffer, table.rootKinds, List.getElem?_map,
        hvalue, Option.map_some] at hkind
      exact (Except.ok.inj hkind).symm
    rw [List.drop_eq_getElem_cons hlt]
    refine ⟨List.Forall₂.cons ⟨hkindEq, rootId_ok table hvalue hid⟩ hvalues, ?_, ?_⟩
    · exact List.pairwise_cons.mpr ⟨hless _ rfl, hpairs⟩
    · intro p hp r hmem
      have hfirst : Ascends p (kind, id) := by
        subst hp
        simp only [Columns.follows, Bool.not_eq_true', Bool.not_eq_false, decide_eq_true_eq]
          at hascends
        exact hascends
      cases List.mem_cons.mp hmem with
      | inl he => exact he ▸ hfirst
      | inr hr => exact hfirst.trans (hless _ rfl r hr)

end Enumeration

section Classification

/-- The axioms of an ontology given by its roots. -/
def axiomsOf (rootValues : List (Nat × Node)) : List Node :=
  (rootValues.filter (fun root => root.1 == ROOT_AXIOM)).map Prod.snd

/-- What classifying a root tells about its value. -/
structure Classified (value : Nat × Node) : Prop where
  annotated : value.1 = ROOT_ONTOLOGY_ANNOTATION → value.2.constructor = .annotationTerm
  rule : value.1 = ROOT_EXTENSION → value.2.constructor = .swrlRule
  known : value.1 = ROOT_AXIOM → Columns.rootAxiomTags.contains value.2.constructor = true
  kind : value.1 = ROOT_ONTOLOGY_ANNOTATION ∨ value.1 = ROOT_EXTENSION ∨ value.1 = ROOT_AXIOM

theorem inspectRoot_ok (table : EncodesNodes cols nodes) {root : Columns.Root}
    {value : Nat × Node} (h : RootOf nodes root value) (hr : cols.inspectRoot root = .ok none) :
    Classified value := by
  obtain ⟨kind, id⟩ := root
  have hkind : kind = value.1 := h.kind
  have hid : Holds nodes id value.2 := h.holds
  simp only [Columns.inspectRoot] at hr
  split at hr
  · rename_i he
    rw [ok_bind _ (tagIs_eq table hid _)] at hr
    obtain ⟨_, hd, -⟩ := bind_ok hr
    have htag := isOf_iff.mp (demand_ok hd)
    refine ⟨fun _ => htag, ?_, ?_, Or.inl (hkind ▸ he)⟩ <;>
      · intro hother
        rw [← hkind, he] at hother
        exact absurd hother (by decide)
  · split at hr
    · rename_i hne he
      rw [ok_bind _ (tagIs_eq table hid _)] at hr
      obtain ⟨_, hd, -⟩ := bind_ok hr
      have htag := isOf_iff.mp (demand_ok hd)
      refine ⟨?_, fun _ => htag, ?_, Or.inr (Or.inl (hkind ▸ he))⟩ <;>
        · intro hother
          rw [← hkind, he] at hother
          exact absurd hother (by decide)
    · split at hr
      · cases hr
      · rename_i hne hne' he
        simp only [ne_eq, not_not] at he
        obtain ⟨_, -, hr⟩ := bind_ok hr
        obtain ⟨_, -, hr⟩ := bind_ok hr
        obtain ⟨_, -, hr⟩ := bind_ok hr
        obtain ⟨_, -, hr⟩ := bind_ok hr
        obtain ⟨_, -, hr⟩ := bind_ok hr
        rw [ok_bind _ (tagIn_eq table hid _)] at hr
        have hknown := fallbackUnless_none hr
        exact ⟨fun ha => absurd (hkind.trans ha) hne, fun ha => absurd (hkind.trans ha) hne',
          fun _ => hknown, Or.inr (Or.inr (hkind ▸ he))⟩

theorem orElse_none {a b : Option String} (h : (a <|> b) = none) : a = none ∧ b = none := by
  cases a with
  | none => exact ⟨rfl, by simpa using h⟩
  | some x => simp at h

theorem inspectRoots_ok (table : EncodesNodes cols nodes) {roots : List Columns.Root}
    {values : List (Nat × Node)} (h : List.Forall₂ (RootOf nodes) roots values)
    (hr : cols.inspectRoots roots = .ok none) : ∀ value ∈ values, Classified value := by
  induction h with
  | nil => simp
  | @cons root value roots values hroot _ ih =>
    obtain ⟨reason, hreason, hr⟩ := bind_ok hr
    obtain ⟨others, hothers, hr⟩ := bind_ok hr
    obtain ⟨rfl, rfl⟩ := orElse_none (Except.ok.inj hr)
    intro x hx
    cases List.mem_cons.mp hx with
    | inl he => exact he ▸ inspectRoot_ok table hroot hreason
    | inr hmem => exact ih hothers x hmem

theorem inspectNodes_ok {ids : List Nat} (hr : cols.inspectNodes ids = .ok none) :
    ∀ id ∈ ids, cols.inspectNode id = .ok none := by
  induction ids with
  | nil => simp
  | cons i rest ih =>
    obtain ⟨reason, hreason, hr⟩ := bind_ok hr
    obtain ⟨others, hothers, hr⟩ := bind_ok hr
    obtain ⟨rfl, rfl⟩ := orElse_none (Except.ok.inj hr)
    intro id hid
    cases List.mem_cons.mp hid with
    | inl he => exact he ▸ hreason
    | inr hmem => exact ih hothers id hmem

/-- A table that was inspected without a reason to fall back. -/
structure Accepted (cols : Columns) (nodes : List Node) (rootValues : List (Nat × Node))
    (roots : List Columns.Root) : Prop extends Preflighted cols nodes where
  rooted : List.Forall₂ (RootOf nodes) roots rootValues
  ascending : roots.Pairwise Ascends
  classified : ∀ value ∈ rootValues, Classified value

theorem accepted_of_inspect (table : Encodes cols nodes rootValues) {nodeReason : Option String}
    {roots : List Columns.Root} (hinspect : cols.inspect = .ok (nodeReason, roots))
    {rootReason : Option String} (hroots : cols.inspectRoots roots = .ok rootReason)
    (hnone : (nodeReason <|> rootReason) = none) : Accepted cols nodes rootValues roots := by
  obtain ⟨rfl, rfl⟩ := orElse_none hnone
  obtain ⟨reason, hnodes, hr⟩ := bind_ok hinspect
  obtain ⟨_, -, hr⟩ := bind_ok hr
  obtain ⟨_, -, hr⟩ := bind_ok hr
  obtain ⟨_, -, hr⟩ := bind_ok hr
  obtain ⟨roots', hfrom, hr⟩ := bind_ok hr
  cases hr
  have hcount : 0 + cols.rootCount = rootValues.length := by
    simp [Columns.rootCount, table.rootKinds]
  obtain ⟨hvalues, hpairs, -⟩ := rootsFrom_ok table hcount hfrom
  rw [List.drop_zero] at hvalues
  have hpre : ∀ id v, Holds nodes id v → cols.inspectNode id = .ok none := by
    intro id v h
    apply inspectNodes_ok hnodes
    have hpos := h.positive
    have hle := h.le
    simp only [Columns.nodeIds, List.mem_range', table.nodeCount]
    exact ⟨id - 1, by omega, by omega⟩
  exact ⟨⟨table.toEncodesNodes, hpre⟩, hvalues, hpairs,
    inspectRoots_ok table.toEncodesNodes hvalues hroots⟩

end Classification

end Projector.Encoded
