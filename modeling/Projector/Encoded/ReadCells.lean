import Projector.Encoded.AxiomShapes
import Projector.Encoded.CanonicalGround

namespace Projector.Encoded
open Lib Projector.Core Compiler

section Reads
variable {cols : Columns} {id index : Nat}

theorem nodeId_of_ok {i : Nat} (h : cols.nodeId id = .ok i) :
    i = id ∧ 1 ≤ id ∧ id ≤ cols.nodeCount := by
  unfold Columns.nodeId at h
  split at h
  · rename_i hin
    exact ⟨(Except.ok.inj h).symm, hin⟩
  · cases h

theorem tag_of_nodeTag {tag : Nat} (h : cols.nodeTag id = .ok tag) :
    cols.nodeTags[id - 1]? = some tag := by
  obtain ⟨i, hi, hread⟩ := bind_ok h
  obtain ⟨rfl, -⟩ := nodeId_of_ok hi
  exact some_of_read hread

theorem tag_of_tagIs {c : Constructor} (h : cols.tagIs id c = .ok true) :
    cols.nodeTags[id - 1]? = some c.tag := by
  obtain ⟨tag, htag, h⟩ := bind_ok h
  rw [tag_of_nodeTag htag, eq_of_beq (Except.ok.inj h)]

/-- The rows that a successful read has seen. -/
theorem range_of_fieldRange {start stop : Nat} (h : cols.fieldRange id = .ok (start, stop)) :
    cols.rangeAt id = some (start, stop) := by
  obtain ⟨i, hi, hread⟩ := bind_ok h
  obtain ⟨rfl, hin⟩ := nodeId_of_ok hi
  obtain ⟨low, hlow, hread⟩ := bind_ok hread
  obtain ⟨high, hhigh, hread⟩ := bind_ok hread
  split at hread
  · cases hread
  · rename_i hrange
    obtain ⟨rfl, rfl⟩ := Prod.mk.inj (Except.ok.inj hread)
    have hlow' : cols.nodeFieldOffsets[i - 1]? = some low := some_of_read hlow
    have hhigh' : cols.nodeFieldOffsets[i]? = some high := some_of_read hhigh
    rw [not_or, Nat.not_lt, Nat.not_lt] at hrange
    unfold Columns.rangeAt
    rw [if_pos hin, hlow', hhigh']
    dsimp only
    rw [if_pos hrange]

theorem range_of_exactFields {arity start : Nat} (h : cols.exactFields id arity = .ok start) :
    cols.rangeAt id = some (start, start + arity) := by
  obtain ⟨⟨low, high⟩, hrange, h⟩ := bind_ok h
  dsimp only at h
  split at h
  · cases h
  · rename_i harity
    cases h
    have hview := range_of_fieldRange hrange
    have hle : start ≤ high := by
      unfold Columns.rangeAt at hview
      split at hview
      · split at hview
        · split at hview
          · rename_i hle
            obtain ⟨rfl, rfl⟩ := Prod.mk.inj (Option.some.inj hview)
            exact hle.1
          · cases hview
        · cases hview
      · cases hview
    rw [hview, show start + arity = high by omega]

theorem cell_of_field {kind value length : Nat} (hkind : cols.read .fieldKinds index = .ok kind)
    (hvalue : cols.read .fieldValues index = .ok value)
    (hlength : cols.read .fieldLengths index = .ok length) :
    cols.cellAt index false = some ⟨kind, value, length⟩ := by
  unfold Columns.cellAt
  simp only [kindsOf, valuesOf, lengthsOf, Bool.false_eq_true, if_false, some_of_read hkind,
    some_of_read hvalue, some_of_read hlength]
  rfl

theorem cell_of_fieldNode {i : Nat} (h : cols.fieldNode index = .ok i) :
    cols.cellAt index false = some ⟨COMPONENT_NODE, i, 0⟩ := by
  obtain ⟨kind, hkind, h⟩ := bind_ok h
  obtain ⟨length, hlength, h⟩ := bind_ok h
  split at h
  · cases h
  · rename_i hnode
    obtain ⟨value, hvalue, h⟩ := bind_ok h
    obtain ⟨rfl, -⟩ := nodeId_of_ok h
    rw [not_or, not_not, not_not] at hnode
    rw [cell_of_field hkind hvalue hlength, hnode.1, hnode.2]

theorem cell_of_itemNode {i : Nat} (h : cols.itemNode index = .ok i) :
    cols.cellAt index true = some ⟨COMPONENT_NODE, i, 0⟩ := by
  obtain ⟨kind, hkind, h⟩ := bind_ok h
  obtain ⟨length, hlength, h⟩ := bind_ok h
  split at h
  · cases h
  · rename_i hnode
    obtain ⟨value, hvalue, h⟩ := bind_ok h
    obtain ⟨rfl, -⟩ := nodeId_of_ok h
    rw [not_or, not_not, not_not] at hnode
    unfold Columns.cellAt
    simp only [kindsOf, valuesOf, lengthsOf, if_true, some_of_read hkind, some_of_read hvalue,
      some_of_read hlength]
    rw [hnode.1, hnode.2]
    rfl

theorem cell_of_scalarPayload {kind : Nat} {payload : Bytes}
    (h : cols.scalarPayload index kind = .ok payload) :
    ∃ offset length, cols.cellAt index false = some ⟨kind, offset, length⟩ ∧
      cols.payloadAt offset length = some payload := by
  obtain ⟨actual, hkind, h⟩ := bind_ok h
  obtain ⟨_, hsame, h⟩ := bind_ok h
  obtain ⟨offset, hoffset, h⟩ := bind_ok h
  obtain ⟨length, hlength, h⟩ := bind_ok h
  obtain ⟨_, hinside, h⟩ := bind_ok h
  have hinside := of_decide_eq_true (demand_ok hinside)
  refine ⟨offset, length, ?_, ?_⟩
  · rw [cell_of_field hkind hoffset hlength, eq_of_beq (demand_ok hsame)]
  · unfold Columns.payloadAt
    rw [if_pos ⟨by omega, by omega⟩, Except.ok.inj h]

/-- The members of a set are read from the items of its row. -/
theorem items_of_setItems {previous length : Nat} {ids : List Nat}
    (h : cols.setItems previous index length = .ok ids) :
    ids.length = length ∧ ∀ k < length, ∃ i ∈ ids, cols.itemNode (index + k) = .ok i := by
  induction length generalizing previous index ids with
  | zero =>
    cases h
    exact ⟨rfl, fun k hk => absurd hk (Nat.not_lt_zero k)⟩
  | succ length ih =>
    obtain ⟨i, hi, h⟩ := bind_ok h
    split at h
    · cases h
    · obtain ⟨rest, hrest, h⟩ := bind_ok h
      cases h
      obtain ⟨hlength, hitems⟩ := ih hrest
      refine ⟨congrArg (· + 1) hlength, fun k hk => ?_⟩
      cases k with
      | zero => exact ⟨i, List.mem_cons_self, hi⟩
      | succ k =>
        obtain ⟨j, hj, hread⟩ := hitems k (by omega)
        exact ⟨j, List.mem_cons_of_mem i hj, by rw [← hread]; congr 1; omega⟩

theorem items_of_nodeSet {minimum : Nat} {ids : List Nat}
    (h : cols.nodeSet index minimum = .ok ids) :
    ∃ start, cols.cellAt index false = some ⟨COMPONENT_SET, start, ids.length⟩ ∧
      ids.length ≤ cols.itemCount ∧
      ∀ k < ids.length, ∃ i ∈ ids, cols.itemNode (start + k) = .ok i := by
  obtain ⟨kind, hkind, h⟩ := bind_ok h
  obtain ⟨_, hset, h⟩ := bind_ok h
  obtain ⟨start, hstart, h⟩ := bind_ok h
  obtain ⟨length, hlength, h⟩ := bind_ok h
  obtain ⟨_, hinside, h⟩ := bind_ok h
  have hinside := demand_ok hinside
  simp only [Bool.and_eq_true, decide_eq_true_eq] at hinside
  split at h
  · cases h
  · obtain ⟨rfl, hitems⟩ := items_of_setItems h
    refine ⟨start, ?_, by omega, hitems⟩
    rw [cell_of_field hkind hstart hlength, eq_of_beq (demand_ok hset)]

theorem items_of_nodeSequence {minimum : Nat} {ids : List Nat}
    (h : cols.nodeSequence index minimum = .ok ids) :
    ∃ start, cols.cellAt index false = some ⟨COMPONENT_SEQUENCE, start, ids.length⟩ ∧
      List.Forall₂ (fun j i => cols.itemNode j = .ok i) (List.range' start ids.length) ids := by
  obtain ⟨kind, hkind, h⟩ := bind_ok h
  obtain ⟨_, hsequence, h⟩ := bind_ok h
  obtain ⟨start, hstart, h⟩ := bind_ok h
  obtain ⟨length, hlength, h⟩ := bind_ok h
  obtain ⟨_, -, h⟩ := bind_ok h
  split at h
  · cases h
  · have hitems := forall₂_of_mapM h
    have hcount : ids.length = length := by simpa using hitems.length_eq.symm
    refine ⟨start, ?_, hcount ▸ hitems⟩
    rw [cell_of_field hkind hstart hlength, eq_of_beq (demand_ok hsequence), hcount]

end Reads

end Projector.Encoded
