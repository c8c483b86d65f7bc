import Projector.Native.CanonicalMerge
import Projector.Native.LengthBuilder

namespace Projector.Native
open Lib Projector.Core Projector.Encoded

section Delivery
variable {β α : Type} {mm : MergeMeter β} {m : Meter β}

/-- An error that the resources of a merge may answer with. -/
def Refuses (mm : MergeMeter β) (e : KernelError) : Prop :=
  Refusal mm.left e ∨ Refusal mm.right e ∨ (∃ b, mm.recordByte b = .error e) ∨
    ∃ n b, mm.recordRoots n b = .error e

/-- With enough fuel a run gives one value, unless a resource is refused. -/
abbrev Delivers (mm : MergeMeter β) (x : Nat → MergeRun β α) (a : α) : Prop :=
  Settles (fun _ => True) (Refuses mm) x (.ok a)

theorem refuses_left {e : KernelError} (h : Refusal mm.left e) : Refuses mm e := .inl h

theorem refuses_right {e : KernelError} (h : Refusal mm.right e) : Refuses mm e := .inr (.inl h)

theorem metered_delivers {x : Metered β α} {a : α} (hm : ∀ e, Refusal m e → Refuses mm e)
    (h : Gives m x a) : Delivers mm (fun _ => metered x) a := by
  refine ⟨0, fun _ _ b _ => ?_⟩
  rcases h b with ⟨b', hok⟩ | ⟨e, he, herror⟩
  · exact .inl ⟨b', trivial, by simp only [metered, hok]⟩
  · exact .inr ⟨e, hm e he, by simp only [metered, herror]⟩

theorem lift_delivers {x : Except KernelError α} {a : α} (h : x = .ok a) :
    Delivers mm (fun _ => Lib.Shared.lift x) a := by
  have hlift : Settles (fun _ : β => True) (Refuses mm) (fun _ => Lib.Shared.lift x) x := .lift x
  rw [h] at hlift ⊢
  exact hlift

theorem recordRoots_delivers (n : Nat) : Delivers mm (fun _ => recorded (mm.recordRoots n)) () := by
  refine ⟨0, fun _ _ b _ => ?_⟩
  cases h : mm.recordRoots n b with
  | ok b' => exact .inl ⟨b', trivial, by simp only [recorded, h]⟩
  | error e => exact .inr ⟨e, .inr (.inr (.inr ⟨n, b, h⟩)), by simp only [recorded, h]⟩

theorem recordByte_counts (b : β) : (∃ b', True ∧ mm.recordByte b = .ok b') ∨
    ∃ e, Refuses mm e ∧ mm.recordByte b = .error e := by
  cases h : mm.recordByte b with
  | ok b' => exact .inl ⟨b', trivial, rfl⟩
  | error e => exact .inr ⟨e, .inr (.inr (.inl ⟨b, h⟩)), rfl⟩

theorem metered_ok {x : Metered β α} {b b' : β} {a : α}
    (h : (metered x).run b = some (.ok (b', a))) : x b = .ok (a, b') := by
  cases hx : x b with
  | error e =>
    simp only [metered, hx] at h
    cases h
  | ok r =>
    simp only [metered, hx] at h
    cases h
    rfl

theorem shared_lift_ok {x : Except KernelError α} {b b' : β} {a : α}
    (h : (Lib.Shared.lift x : MergeRun β α).run b = some (.ok (b', a))) : x = .ok a := by
  cases x with
  | error e => cases h
  | ok c =>
    cases h
    rfl

end Delivery

section Measuring
variable {β : Type} {mm : MergeMeter β} {d : SelectedColumns} {table : CanonicalTable}

/-- A table whose nodes are measured and whose roots can be read. -/
structure Measured (table : CanonicalTable) : Prop where
  built : ∃ depth, Table table.columns.direct (directMap table.columns.direct) depth table.lengths
  all : ∀ id, 1 ≤ id ∧ id ≤ table.columns.direct.columns.nodeCount → table.lengths id ≠ 0
  scopes : BytesScopes table.columns.direct
  postings : table.columns.postings.Pairwise (· < ·)
  roots : table.columns.ReadableRoots
  inRange : ∀ index < table.columns.rootCount, 1 ≤ (table.columns.refAt index).nodeId ∧
    (table.columns.refAt index).nodeId ≤ table.columns.direct.columns.nodeCount

theorem validateRoots_ok {indices : List Nat} {previous : Option (Nat × Nat)} {u : Unit}
    (h : validateRoots d indices previous = .ok u) :
    ∀ index ∈ indices, ∃ kind id, d.rootKind index = .ok kind ∧ d.rootId index = .ok id := by
  induction indices generalizing previous with
  | nil => exact fun _ hindex => absurd hindex List.not_mem_nil
  | cons first rest ih =>
    obtain ⟨kind, hkind, h⟩ := bind_ok h
    split at h
    · cases h
    obtain ⟨id, hid, h⟩ := bind_ok h
    split at h
    · cases h
    intro index hindex
    rcases List.mem_cons.mp hindex with rfl | hindex
    · exact ⟨kind, id, hkind, hid⟩
    · exact ih h index hindex

theorem rootRef_eq {index kind id : Nat} (hkind : d.rootKind index = .ok kind)
    (hid : d.rootId index = .ok id) :
    d.rootRef index = .ok (d.refAt index) ∧ (d.refAt index).nodeId = id ∧
      1 ≤ id ∧ id ≤ d.direct.columns.nodeCount := by
  have hread := hid
  obtain ⟨raw, hraw, hchecked⟩ := bind_ok hread
  obtain ⟨rfl, hin⟩ := checkedNodeId_ok.mp hchecked
  have hraw := readUsize_ok.mp hraw
  have hstored : d.direct.columns.rootKinds[index]? = some kind := by
    unfold SelectedColumns.rootKind at hkind
    split at hkind
    · rename_i stored hstored
      cases hkind
      exact hstored
    · cases hkind
  refine ⟨?_, ?_, hin⟩
  · unfold SelectedColumns.rootRef SelectedColumns.refAt
    rw [ok_bind _ hkind, ok_bind _ hid, hstored, hraw]
    rfl
  · unfold SelectedColumns.refAt
    rw [hraw]
    rfl

/-- What `validate_generic` accepts of the roots. -/
theorem validateGeneric_roots {u : Unit} (h : validateGeneric d = .ok u) :
    d.validatePostings = .ok () ∧ validateRoots d (List.range d.rootCount) none = .ok () := by
  obtain ⟨_, -, h⟩ := bind_ok h
  obtain ⟨_, -, h⟩ := bind_ok h
  obtain ⟨_, -, h⟩ := bind_ok h
  obtain ⟨_, -, h⟩ := bind_ok h
  obtain ⟨_, -, h⟩ := bind_ok h
  obtain ⟨_, -, h⟩ := bind_ok h
  obtain ⟨_, -, h⟩ := bind_ok h
  obtain ⟨_, -, h⟩ := bind_ok h
  obtain ⟨_, -, h⟩ := bind_ok h
  obtain ⟨_, hroots, h⟩ := bind_ok h
  obtain ⟨_, hpostings, -⟩ := bind_ok h
  exact ⟨hpostings, hroots⟩

theorem build_ok {fuel : Nat} {b b' : β} (hfits : d.rootCount < usizeLimit)
    (hscopes : BytesScopes d.direct)
    (h : (CanonicalTable.build mm fuel d).run b = some (.ok (b', table))) :
    table.columns = d ∧ Measured table := by
  obtain ⟨_, _, -, h⟩ := Lib.Shared.ok_of_bind h
  obtain ⟨_, _, hvalid, h⟩ := Lib.Shared.ok_of_bind h
  obtain ⟨lengths, _, hlengths, h⟩ := Lib.Shared.ok_of_bind h
  have hvalid := shared_lift_ok hvalid
  have hlengths := metered_ok hlengths
  cases lengths with
  | none => cases h
  | some lengths =>
    cases h
    obtain ⟨hpostings, hroots⟩ := validateGeneric_roots hvalid
    have hrows := rows32_directMap (validateGeneric_sound hvalid)
    obtain ⟨hbuilt, hall⟩ := buildLengths_ok hrows hlengths
    have hrefs : ∀ index < d.rootCount, d.rootRef index = .ok (d.refAt index) ∧
        1 ≤ (d.refAt index).nodeId ∧ (d.refAt index).nodeId ≤ d.direct.columns.nodeCount := by
      intro index hindex
      obtain ⟨kind, id, hkind, hid⟩ := validateRoots_ok hroots index (List.mem_range.mpr hindex)
      obtain ⟨href, hnode, hin⟩ := rootRef_eq hkind hid
      exact ⟨href, hnode ▸ hin⟩
    exact ⟨rfl, hbuilt, hall, hscopes, validatePostings_ok hpostings,
      ⟨hfits, fun index hindex => (hrefs index hindex).1⟩, fun index hindex => (hrefs index hindex).2⟩

end Measuring

/-- A root of a table with the term that its node stands for. -/
structure TableRoot where
  table : CanonicalTable
  ref : CanonicalRootRef
  term : Term
  stands : table.columns.direct.columns.Stands (directMap table.columns.direct) ref.nodeId term

namespace TableRoot

/-- Roots are ordered by their kinds, then by their canonical bytes. -/
def key (r : TableRoot) : Nat ×ₗ Bytes := toLex (r.ref.kind, r.term.encode)

end TableRoot

theorem cmp_bytes (kind kind' : Nat) (bytes bytes' : Bytes) :
    cmp (toLex (kind, bytes)) (toLex (kind', bytes')) =
      if compare kind kind' = .eq then byteOrder bytes bytes' else compare kind kind' := by
  rcases lt_trichotomy kind kind' with hlt | rfl | hgt
  · rw [Nat.compare_eq_lt.mpr hlt, if_neg (by decide)]
    exact (cmp_eq_lt_iff _ _).mpr (Prod.Lex.toLex_lt_toLex.mpr (.inl hlt))
  · rw [if_pos (Nat.compare_eq_eq.mpr rfl)]
    rcases lt_trichotomy bytes bytes' with hlt | rfl | hgt
    · rw [(byteOrder_lt_iff _ _).mpr hlt]
      exact (cmp_eq_lt_iff _ _).mpr (Prod.Lex.toLex_lt_toLex.mpr (.inr ⟨rfl, hlt⟩))
    · rw [(byteOrder_eq_iff _ _).mpr rfl]
      exact (cmp_eq_eq_iff _ _).mpr rfl
    · rw [(byteOrder_gt_iff _ _).mpr hgt]
      exact (cmp_eq_gt_iff _ _).mpr (Prod.Lex.toLex_lt_toLex.mpr (.inr ⟨rfl, hgt⟩))
  · rw [Nat.compare_eq_gt.mpr hgt, if_neg (by decide)]
    exact (cmp_eq_gt_iff _ _).mpr (Prod.Lex.toLex_lt_toLex.mpr (.inl hgt))

section Comparison
variable {β : Type} {mm : MergeMeter β} {l r : TableRoot} {same : Bool}

theorem TableRoot.checked (r : TableRoot) :
    r.table.columns.direct.checkedNodeId r.ref.nodeId = .ok r.ref.nodeId := by
  obtain ⟨fuel, ht⟩ := r.stands
  obtain ⟨previous, start, stop, tag, fields, -, -, hview⟩ := termAt_some ht
  have hin := Columns.rangeAt_inside hview.range
  exact if_pos ⟨hin.1, hin.2⟩

theorem TableRoot.listed (r : TableRoot) (hr : Measured r.table) :
    r.table.lengths r.ref.nodeId ≠ 0 := by
  obtain ⟨fuel, ht⟩ := r.stands
  obtain ⟨previous, start, stop, tag, fields, -, -, hview⟩ := termAt_some ht
  have hin := Columns.rangeAt_inside hview.range
  exact hr.all _ ⟨hin.1, hin.2⟩

theorem TableRoot.streams (r : TableRoot) (hr : Measured r.table) (m : Meter β) :
    Emits m r.table.columns.direct r.table.lengths [.node r.ref.nodeId] r.term.encode := by
  obtain ⟨fuel, ht⟩ := r.stands
  obtain ⟨depth, hbuilt⟩ := hr.built
  have hemits := emits_node (m := m) hbuilt (directMap_getD r.table.columns.direct) hr.scopes fuel
    _ _ ht (r.listed hr) [] [] emits_end
  rwa [List.append_nil] at hemits

/-- Roots of measured tables compare as the codes of their terms do. -/
theorem compareTableNodes_delivers (hl : Measured l.table) (hr : Measured r.table)
    (hsame : same = true → l.table = r.table) :
    Delivers mm
      (fun fuel => compareTableNodes mm fuel same l.table l.ref.nodeId r.table r.ref.nodeId)
      (byteOrder l.term.encode r.term.encode) := by
  unfold compareTableNodes
  refine (lift_delivers l.checked).bind ((lift_delivers r.checked).bind ?_)
  by_cases hnode : (same && l.ref.nodeId == r.ref.nodeId) = true
  · obtain ⟨htable, hid⟩ := Bool.and_eq_true_iff.mp hnode
    have hstands := r.stands
    rw [← hsame htable, ← eq_of_beq hid] at hstands
    have hterm := l.stands.unique hstands
    rw [hterm, (byteOrder_eq_iff _ _).mpr rfl]
    simp only [if_pos hnode]
    exact .pure
  · simp only [if_neg hnode]
    refine (metered_delivers (fun _ => refuses_left) (Gives.push _ [])).bind
      ((metered_delivers (fun _ => refuses_right) (Gives.push _ [])).bind ?_)
    obtain ⟨enough, hcompare⟩ := Streams.compared (fun b _ => @recordByte_counts β mm b)
      ((l.streams hl mm.left).mono fun _ => refuses_left)
      ((r.streams hr mm.right).mono fun _ => refuses_right)
    exact ⟨enough, fun fuel hfuel b hb => hcompare fuel hfuel b hb⟩

theorem orderRoots_delivers (hl : Measured l.table) (hr : Measured r.table)
    (hsame : same = true → l.table = r.table) :
    Delivers mm (fun fuel => orderRoots mm fuel same l.table l.ref r.table r.ref)
      (cmp l.key r.key) := by
  unfold TableRoot.key
  rw [cmp_bytes]
  unfold orderRoots kindOrder
  by_cases hkind : compare l.ref.kind r.ref.kind = .eq
  · simp only [if_neg (not_not_intro hkind), if_pos hkind]
    exact compareTableNodes_delivers hl hr hsame
  · simp only [if_pos hkind, if_neg hkind]
    exact .pure

theorem compareTableRoots_delivers (hl : Measured l.table) (hr : Measured r.table)
    (hsame : same = true → l.table = r.table) :
    Delivers mm (fun fuel => compareTableRoots mm fuel same l.table l.ref r.table r.ref)
      (cmp l.key r.key) :=
  (metered_delivers (fun _ => refuses_left) (Gives.consumed 1)).bind
    (orderRoots_delivers hl hr hsame)

end Comparison

section Steadiness
variable {β : Type} {mm : MergeMeter β} {same : Bool} {left right : CanonicalTable}

theorem compareTableNodes_steady {leftNode rightNode : Nat} :
    Steady fun fuel => compareTableNodes mm fuel same left leftNode right rightNode := by
  unfold compareTableNodes
  refine (Steady.const _).bind fun _ => (Steady.const _).bind fun _ => ?_
  split
  · exact .const _
  · exact (Steady.const _).bind fun _ => (Steady.const _).bind fun _ =>
      fun _ _ hle _ _ h => compareStreams_more h hle

theorem compareTableRoots_steady {leftRoot rightRoot : CanonicalRootRef} :
    Steady fun fuel => compareTableRoots mm fuel same left leftRoot right rightRoot := by
  unfold compareTableRoots orderRoots
  refine (Steady.const _).bind fun _ => ?_
  split
  · exact .const _
  · exact compareTableNodes_steady

end Steadiness

end Projector.Native
