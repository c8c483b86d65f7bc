import Projector.Lib.TreeRelabel
import Projector.Encoded.CanonicalCode
import Projector.Encoded.Preflight
import Projector.Encoded.ReadCells

namespace Projector.Encoded
open Lib Projector.Core Compiler

namespace Columns
variable (cols : Columns)

/-- The kind and the node of every root of a selection. -/
def selectedRoots (selection : List Nat) : Read (List Root) :=
  selection.mapM fun index => do
    let kind ← cols.rootKind index
    let id ← cols.rootId index
    pure (kind, id)

def anonymousScope (id : Nat) : Read Bytes := do
  let start ← cols.exactFields id 2
  cols.scalarPayload start COMPONENT_BYTES

/-- The scopes of the anonymous individuals in a list, each that differs from the one before. -/
def scopesFrom (previous : Option Bytes) : List Nat → Read (List Bytes)
  | [] => pure []
  | id :: rest => do
    let anonymous ← cols.tagIs id .anonymousIndividual
    if !anonymous then scopesFrom previous rest
    else do
      let scope ← cols.anonymousScope id
      let others ← scopesFrom (some scope) rest
      pure (if previous = some scope then others else scope :: others)

/-- `anonymous_scopes` -/
def anonymousScopes (reachable : List Nat) : Read (List Bytes) :=
  cols.scopesFrom none (sortOn id reachable)

end Columns

def remapped (scopeMap : Bytes → Option Bytes) (scope : Bytes) : Bytes := (scopeMap scope).getD scope

/-- Whether the targets ascend from the previous one. -/
def targetsAscend (scopeMap : Bytes → Option Bytes) (previous : Option Bytes) : List Bytes → Bool
  | [] => true
  | source :: rest =>
    let target := remapped scopeMap source
    if previous.any (fun p => target ≤ p) then false
    else targetsAscend scopeMap (some target) rest

/-- `_scope_remap_preserves_order` -/
def scopeRemapPreservesOrder (cols : Columns) (reachable : List Nat)
    (scopeMap : Bytes → Option Bytes) : Read Bool := do
  let scopes ← cols.anonymousScopes reachable
  pure (targetsAscend scopeMap none scopes)

/-- No scope is mapped. -/
def noScopeMap (_ : Bytes) : Option Bytes := none

section Relabelling
variable {cols : Columns} {scopeMap : Bytes → Option Bytes}

/-- The tag of the nodes whose first field is a scope. -/
abbrev scopeTag : Nat := Constructor.anonymousIndividual.tag

abbrev relabelled (scopeMap : Bytes → Option Bytes) (t : Term) : Term :=
  t.relabel scopeTag (remapped scopeMap)

theorem mapM_map {α β γ : Type} {f : α → Option γ} {g : α → Option β} {h : β → γ}
    {xs : List α} (hf : ∀ x ∈ xs, f x = (g x).map h) :
    xs.mapM f = (xs.mapM g).map (List.map h) := by
  induction xs with
  | nil => rfl
  | cons x xs ih =>
    rw [List.mapM_cons, List.mapM_cons, ih fun y hy => hf y (List.mem_cons_of_mem x hy),
      hf x List.mem_cons_self]
    cases g x with
    | none => rfl
    | some y => cases xs.mapM g <;> rfl

/-- The nodes read under a scope map. -/
abbrev relabelledAt (scopeMap : Bytes → Option Bytes) (term : Nat → Option Term) (n : Nat) :
    Option Term :=
  (term n).map (relabelled scopeMap)

theorem leafPiece_relabel (term : Nat → Option Term) (tag : Nat) (cell : ComponentRow) :
    cols.leafPiece (relabelledAt scopeMap term)
        (fun payload => if tag = scopeTag then remapped scopeMap payload else payload) cell =
      (cols.leafPiece term id cell).map
        (Piece.relabelHead scopeTag (remapped scopeMap) tag) := by
  unfold Columns.leafPiece
  split
  · split <;> rfl
  · split
    · split
      · unfold relabelledAt
        cases term cell.value <;> rfl
      · rfl
    · split
      · split
        · split <;> rfl
        · rfl
      · split
        · rename_i kind payload _ _
          cases kind <;> rfl
        · rfl

theorem relabelHead_of_ne {mark tag : Nat} {f : Bytes → Bytes} (h : tag ≠ mark) :
    Piece.relabelHead mark f tag = Piece.relabel mark f := by
  funext p
  by_cases hbytes : p.code = 3
  · obtain ⟨payload, rfl⟩ := Piece.bytes_of_code hbytes
    rw [Piece.relabelHead_bytes, if_neg h]
    rfl
  · exact Piece.relabelHead_other hbytes

/-- Only a label is mapped, so with another tag a payload is read as it is. -/
theorem leafPiece_relabel_id (term : Nat → Option Term) (cell : ComponentRow) :
    cols.leafPiece (relabelledAt scopeMap term) id cell =
      (cols.leafPiece term id cell).map (Piece.relabel scopeTag (remapped scopeMap)) := by
  have hne : scopeTag + 1 ≠ scopeTag := Nat.succ_ne_self _
  have h : cols.leafPiece (relabelledAt scopeMap term)
      (fun p => if scopeTag + 1 = scopeTag then remapped scopeMap p else p) cell = _ :=
    leafPiece_relabel term (scopeTag + 1) cell
  simp only [if_neg hne] at h
  rw [relabelHead_of_ne hne] at h
  exact h

theorem memberTerm_relabel (term : Nat → Option Term) (index : Nat) :
    cols.memberTerm (relabelledAt scopeMap term) index =
      (cols.memberTerm term index).map (relabelled scopeMap) := by
  unfold Columns.memberTerm
  split
  · split <;> rfl
  · rfl

theorem itemPiece_relabel (term : Nat → Option Term) (index : Nat) :
    cols.itemPiece (relabelledAt scopeMap term) index =
      (cols.itemPiece term index).map (Piece.relabel scopeTag (remapped scopeMap)) := by
  unfold Columns.itemPiece
  split
  · exact leafPiece_relabel_id term _
  · rfl

theorem termRelabelAll_eq (mark : Nat) (f : Bytes → Bytes) :
    Term.relabelAll mark f = List.map (Term.relabel mark f) := by
  funext terms
  induction terms with
  | nil => rfl
  | cons t rest ih => rw [Term.relabelAll, ih, List.map_cons]

theorem pieceRelabelAll_eq (mark : Nat) (f : Bytes → Bytes) :
    Piece.relabelAll mark f = List.map (Piece.relabel mark f) := by
  funext pieces
  induction pieces with
  | nil => rfl
  | cons p rest ih => rw [Piece.relabelAll, ih, List.map_cons]

theorem fieldPiece_relabel (term : Nat → Option Term) (tag index : Nat) :
    cols.fieldPiece (relabelledAt scopeMap term)
        (fun payload => if tag = scopeTag then remapped scopeMap payload else payload) index =
      (cols.fieldPiece term id index).map
        (Piece.relabelHead scopeTag (remapped scopeMap) tag) := by
  unfold Columns.fieldPiece
  split
  · rfl
  · split
    · split
      · split
        · dsimp only
          rw [mapM_map fun j _ => memberTerm_relabel term j, Option.map_map, Option.map_map,
            ← termRelabelAll_eq]
          rfl
        · dsimp only
          rw [mapM_map fun j _ => itemPiece_relabel term j, Option.map_map, Option.map_map,
            ← pieceRelabelAll_eq]
          rfl
      · rfl
    · exact leafPiece_relabel term tag _

theorem fieldPiece_relabel_id (term : Nat → Option Term) (index : Nat) :
    cols.fieldPiece (relabelledAt scopeMap term) id index =
      (cols.fieldPiece term id index).map (Piece.relabel scopeTag (remapped scopeMap)) := by
  have hne : scopeTag + 1 ≠ scopeTag := Nat.succ_ne_self _
  have h : cols.fieldPiece (relabelledAt scopeMap term)
      (fun p => if scopeTag + 1 = scopeTag then remapped scopeMap p else p) index = _ :=
    fieldPiece_relabel term (scopeTag + 1) index
  simp only [if_neg hne] at h
  rw [relabelHead_of_ne hne] at h
  exact h

theorem rescopeOf_none (tag start index : Nat) :
    Columns.rescopeOf noScopeMap tag start index = id := by
  unfold Columns.rescopeOf
  split <;> rfl

theorem rescopeOf_first (tag start : Nat) : Columns.rescopeOf scopeMap tag start start =
    fun payload => if tag = scopeTag then remapped scopeMap payload else payload := by
  unfold Columns.rescopeOf
  by_cases htag : tag = scopeTag
  · simp only [htag, and_self, if_true]
    rfl
  · simp only [htag, false_and, if_false]
    rfl

theorem rescopeOf_other (tag start index : Nat) (h : index ≠ start) :
    Columns.rescopeOf scopeMap tag start index = id := by
  unfold Columns.rescopeOf
  rw [if_neg fun hc => h hc.2]

theorem laterFields_relabel (term : Nat → Option Term) (tag start : Nat) (indices : List Nat)
    (hlater : ∀ index ∈ indices, index ≠ start) :
    (indices.mapM fun index => cols.fieldPiece (relabelledAt scopeMap term)
        (Columns.rescopeOf scopeMap tag start index) index) =
      (indices.mapM (cols.fieldPiece term id)).map
        (Piece.relabelAll scopeTag (remapped scopeMap)) := by
  rw [pieceRelabelAll_eq]
  apply mapM_map
  intro index hindex
  rw [rescopeOf_other tag start index (hlater index hindex)]
  exact fieldPiece_relabel_id term index

/-- The mapping of scopes relabels the terms that nodes stand for. -/
theorem termAt_relabel (fuel : Nat) :
    cols.termAt scopeMap fuel = relabelledAt scopeMap (cols.termAt noScopeMap fuel) := by
  induction fuel with
  | zero => rfl
  | succ fuel ih =>
    funext n
    unfold relabelledAt Columns.termAt
    split
    · rename_i start stop tag _ _
      rw [ih]
      simp only [rescopeOf_none]
      cases stop - start with
      | zero => rfl
      | succ count =>
        rw [List.range'_succ, List.mapM_cons, List.mapM_cons, rescopeOf_first,
          fieldPiece_relabel, laterFields_relabel]
        · cases cols.fieldPiece (cols.termAt noScopeMap fuel) id start with
          | none => rfl
          | some p =>
            cases (List.range' (start + 1) count).mapM
              (cols.fieldPiece (cols.termAt noScopeMap fuel) id) with
            | none => rfl
            | some rest => exact congrArg some (Term.relabel_cons _ _ tag p rest).symm
        · intro index hindex
          have := (List.mem_range'_1.mp hindex).1
          omega
    · rfl

theorem Columns.Stands.relabelled {n : Nat} {t : Term} (h : cols.Stands noScopeMap n t) :
    cols.Stands scopeMap n (relabelled scopeMap t) := by
  obtain ⟨fuel, ht⟩ := h
  refine ⟨fuel, ?_⟩
  rw [termAt_relabel, relabelledAt, ht]
  rfl

end Relabelling

end Projector.Encoded
