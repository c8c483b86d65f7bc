import Projector.Encoded.RootGroups
import Projector.Lib.HeadMerge
import Projector.Lib.SubsetScan

namespace Projector.Encoded
open Lib Projector.Core Compiler

/-- A root with the kind and the term that it stands for. -/
structure KeyedRoot (arity : Nat → Nat) where
  root : RootRef
  kind : Nat
  id : Nat
  term : Term
  kindRead : root.rootKind = .ok kind
  idRead : root.nodeId = .ok id
  stands : root.cursor.columns.Stands root.cursor.scopeMap id term
  fits : term.Fits arity

namespace KeyedRoot
variable {arity : Nat → Nat}

/-- Roots are ordered by their kinds, then by their canonical bytes. -/
def key (r : KeyedRoot arity) : Nat ×ₗ Bytes := toLex (r.kind, r.term.encode)

theorem key_lt_iff {r s : KeyedRoot arity} :
    r.key < s.key ↔ r.kind < s.kind ∨ r.kind = s.kind ∧ r.term.encode < s.term.encode :=
  Prod.Lex.toLex_lt_toLex

/-- Two roots have one key if they are structurally equal. -/
theorem key_eq_iff {r s : KeyedRoot arity} : r.key = s.key ↔ r.kind = s.kind ∧ r.term = s.term := by
  have hkey : r.key = s.key ↔ (r.kind, r.term.encode) = (s.kind, s.term.encode) :=
    toLex.injective.eq_iff
  rw [hkey, Prod.mk.injEq]
  exact and_congr_right fun _ => ⟨Term.encode_inj, fun h => congrArg _ h⟩

theorem cmp_of_kind_ne {r s : KeyedRoot arity} (h : r.kind ≠ s.kind) :
    cmp r.key s.key = if r.kind < s.kind then .lt else .gt := by
  by_cases hlt : r.kind < s.kind
  · rw [if_pos hlt]
    exact (cmp_eq_lt_iff _ _).mpr (key_lt_iff.mpr (.inl hlt))
  · rw [if_neg hlt]
    exact (cmp_eq_gt_iff _ _).mpr (key_lt_iff.mpr (.inl (by omega)))

theorem cmp_of_kind_eq {r s : KeyedRoot arity} (h : r.kind = s.kind) :
    cmp r.key s.key = byteOrder r.term.encode s.term.encode := by
  rcases lt_trichotomy r.term.encode s.term.encode with hlt | heq | hgt
  · rw [(byteOrder_lt_iff _ _).mpr hlt]
    exact (cmp_eq_lt_iff _ _).mpr (key_lt_iff.mpr (.inr ⟨h, hlt⟩))
  · rw [(byteOrder_eq_iff _ _).mpr heq]
    exact (cmp_eq_eq_iff _ _).mpr (key_eq_iff.mpr ⟨h, Term.encode_inj heq⟩)
  · rw [(byteOrder_gt_iff _ _).mpr hgt]
    exact (cmp_eq_gt_iff _ _).mpr (key_lt_iff.mpr (.inr ⟨h.symm, hgt⟩))

end KeyedRoot

/-- Nothing is refused. -/
def NoRefusal (_ : CompileError) : Prop := False

section Comparison
variable {arity : Nat → Nat} {cursors : List Cursor} (hd : Distinct cursors)

theorem settles_read {α : Type} {y : Read α} {a : α} (h : y = .ok a) :
    Settles (Remembers cursors) NoRefusal (fun _ => Shared.lift y) (.ok a) :=
  h ▸ Settles.lift y

include hd

/-- Two roots compare as their keys do. -/
theorem compareRoots_settles {r s : KeyedRoot arity} (hr : r.root.cursor ∈ cursors)
    (hs : s.root.cursor ∈ cursors) :
    Settles (Remembers cursors) NoRefusal (fun fuel => compareRoots fuel r.root s.root)
      (.ok (cmp r.key s.key)) := by
  unfold compareRoots
  refine (settles_read r.kindRead).bind ((settles_read s.kindRead).bind ?_)
  by_cases hkind : r.kind = s.kind
  · rw [KeyedRoot.cmp_of_kind_eq hkind]
    simp only [ne_eq, hkind, not_true_eq_false, if_false]
    refine (settles_read r.idRead).bind ((settles_read s.idRead).bind ?_)
    obtain ⟨enough, hcompare⟩ := compareNodes_eq hd hr hs r.stands s.stands
    exact ⟨enough, fun fuel hfuel session hsession => .inl (hcompare fuel hfuel session hsession)⟩
  · rw [KeyedRoot.cmp_of_kind_ne hkind]
    simp only [ne_eq, hkind, not_false_eq_true, if_true]
    exact .pure

/-- Every cursor of some roots is one of these. -/
def Among {arity : Nat → Nat} (cursors : List Cursor) (roots : List (KeyedRoot arity)) : Prop :=
  ∀ r ∈ roots, r.root.cursor ∈ cursors

theorem compareRoots_key {roots : List (KeyedRoot arity)} (hin : Among cursors roots)
    {others : List (KeyedRoot arity)} (hothers : Among cursors others) :
    ∀ r ∈ roots, ∀ s ∈ others,
      KeyCompare (Remembers cursors) NoRefusal compareRoots KeyedRoot.key KeyedRoot.root r s :=
  fun r hr s hs => compareRoots_settles hd (hin r hr) (hothers s hs)

omit hd in
theorem checkGroup_eq (fuel : Nat) (group : List RootRef) :
    checkGroup fuel group =
      checkAscending (compareRoots fuel) (.snapshotCompatibility notStrict []) group := by
  match group with
  | [] => rfl
  | [_] => rfl
  | left :: right :: rest =>
    unfold checkGroup checkAscending
    rw [checkGroup_eq fuel (right :: rest)]
    rfl

omit hd in
theorem checkGroups_eq (fuel : Nat) (groups : List (List RootRef)) :
    checkGroups fuel groups =
      checkAllAscending (compareRoots fuel) (.snapshotCompatibility notStrict []) groups := by
  induction groups with
  | nil => rfl
  | cons group groups ih =>
    unfold checkGroups checkAllAscending
    rw [checkGroup_eq, ih]

theorem checkGroups_settles (groups : List (List (KeyedRoot arity)))
    (hin : ∀ group ∈ groups, Among cursors group) :
    Settles (Remembers cursors) NoRefusal
      (fun fuel => checkGroups fuel (groups.map (List.map KeyedRoot.root)))
      (if ∀ group ∈ groups, StrictOn KeyedRoot.key group then .ok () else reject notStrict) := by
  simp only [checkGroups_eq]
  exact checkAllAscending_settles groups fun group hgroup =>
    compareRoots_key hd (hin group hgroup) (hin group hgroup)

end Comparison

section Merge
variable {arity : Nat → Nat} {cursors : List Cursor}

theorem among_heads {groups : List (List (KeyedRoot arity))}
    (hin : ∀ group ∈ groups, Among cursors group) {p : Nat × KeyedRoot arity}
    (hp : p ∈ heads 0 groups) : p.2.root.cursor ∈ cursors := by
  obtain ⟨i, bs, hget, -⟩ := mem_heads.mp hp
  exact hin _ (List.mem_of_getElem? hget) p.2 List.mem_cons_self

variable (hd : Distinct cursors)
include hd

omit hd in
/-- The merge of roots counts what the lists that move on together hold. -/
theorem advance_eq (fuel : Nat) (selected : Nat × RootRef) (index : Nat)
    (groups : List (List RootRef)) :
    advance fuel selected index groups = (do
      let (rests, taken) ← takeHeads (compareRoots fuel) selected index groups
      pure (rests, taken.length)) := by
  induction groups generalizing index with
  | nil => rfl
  | cons group groups ih =>
    cases group with
    | nil =>
      unfold advance takeHeads
      rw [ih, bind_assoc, bind_assoc]
      rfl
    | cons root rest =>
      unfold advance takeHeads
      rw [ih]
      split
      · rw [bind_assoc, bind_assoc]
        rfl
      · rw [bind_assoc]
        refine congrArg _ (funext fun order => ?_)
        rw [bind_assoc, bind_assoc]
        refine congrArg _ (funext fun found => ?_)
        rw [pure_bind]
        by_cases horder : order = .eq
        · simp only [if_pos horder]
          rfl
        · simp only [if_neg horder]
          rfl

/-- The rounds of the merge are those of the union, by their representatives. -/
theorem mergeRounds_settles {rounds : Nat} {groups : List (List (KeyedRoot arity))}
    (hin : ∀ group ∈ groups, Among cursors group) (hrounds : groups.flatten.length < rounds) :
    ∃ merged deduplicated,
      merged = (unionRounds KeyedRoot.key rounds groups).filterMap representative ∧
      merged.length + deduplicated = groups.flatten.length ∧
      Settles (Remembers cursors) NoRefusal
        (fun fuel => mergeRounds fuel rounds (groups.map (List.map KeyedRoot.root)))
        (.ok (merged.map KeyedRoot.root, deduplicated)) := by
  induction rounds generalizing groups with
  | zero => exact absurd hrounds (Nat.not_lt_zero _)
  | succ rounds ih =>
    unfold unionRounds mergeRounds
    rw [heads_map]
    cases hk : leastKey KeyedRoot.key groups with
    | none =>
      have hempty : groups.flatten = [] := List.flatten_eq_nil_iff.mpr (leastKey_none hk)
      rw [heads_nil_of_none hk, hempty]
      exact ⟨[], 0, rfl, rfl, Settles.pure⟩
    | some k =>
      cases hheads : heads 0 groups with
      | nil => exact absurd hheads (heads_ne_nil hk)
      | cons first others =>
        obtain ⟨hkey, hrepresentative⟩ := leastFrom_heads hk hheads
        have hfind := leastFrom_heads_find hk hheads
        have hleast := leastFrom_mem (fun p : Nat × KeyedRoot arity => p.2.key) first others
        have hscan : Settles (Remembers cursors) NoRefusal
            (fun fuel => leastOf (fun candidate least => compareRoots fuel candidate.2 least.2)
              (Prod.map id KeyedRoot.root first) (others.map (Prod.map id KeyedRoot.root)))
            (.ok (Prod.map id KeyedRoot.root
              (leastFrom (fun p : Nat × KeyedRoot arity => p.2.key) first others))) := by
          apply leastOf_settles
          intro a ha b hb
          rw [← hheads] at ha hb
          exact compareRoots_settles hd (among_heads hin ha) (among_heads hin hb)
        generalize leastFrom (fun p : Nat × KeyedRoot arity => p.2.key) first others = least at *
        rw [← hheads] at hleast
        obtain ⟨i, bs, hget, hi⟩ := mem_heads.mp hleast
        obtain rfl : i = least.1 := by omega
        have hadvance : Settles (Remembers cursors) NoRefusal
            (fun fuel => takeHeads (compareRoots fuel) (least.1, least.2.root) 0
              (groups.map (List.map KeyedRoot.root))) _ :=
          takeHeads_settles hkey groups (fun group hgroup r hr =>
            compareRoots_settles hd (hin group hgroup r hr) (among_heads hin hleast)) 0 (by
              intro x bs' _ hx
              rw [Nat.sub_zero, hget] at hx
              cases hx
              exact hkey)
        have hmoves : Settles (Remembers cursors) NoRefusal
            (fun fuel => advance fuel (least.1, least.2.root) 0 (groups.map (List.map KeyedRoot.root)))
            (.ok ((groups.map (tailWith KeyedRoot.key k)).map (List.map KeyedRoot.root),
              (othersFrom KeyedRoot.key k least.1 0 groups).length)) := by
          simp only [advance_eq]
          refine hadvance.bind ?_
          rw [← List.length_map (f := KeyedRoot.root)]
          exact .pure
        have hin' : ∀ group ∈ groups.map (tailWith KeyedRoot.key k), Among cursors group := by
          intro group hgroup
          obtain ⟨whole, hwhole, rfl⟩ := List.mem_map.mp hgroup
          exact fun r hr => hin whole hwhole r (tailWith_subset hr)
        have hshorter := flatten_tails_lt (List.mem_of_getElem? hget) hkey
        obtain ⟨merged, deduplicated, hmerged, hcount, hrest⟩ := ih hin' (by omega)
        have hround := round_length KeyedRoot.key k groups
        rw [← othersFrom_first hfind, List.length_cons] at hround
        refine ⟨least.2 :: merged,
          (othersFrom KeyedRoot.key k least.1 0 groups).length + deduplicated, ?_, ?_, ?_⟩
        · rw [List.filterMap_cons_some hrepresentative, hmerged]
        · rw [List.length_cons]
          omega
        · exact hscan.bind (hmoves.bind (hrest.bind Settles.pure))

theorem mergeRootGroups_settles {groups : List (List (KeyedRoot arity))}
    (hin : ∀ group ∈ groups, Among cursors group)
    (hstrict : ∀ group ∈ groups, StrictOn KeyedRoot.key group) :
    ∃ merged deduplicated, IsUnion KeyedRoot.key groups merged ∧
      merged.length + deduplicated = groups.flatten.length ∧
      Settles (Remembers cursors) NoRefusal
        (fun fuel => mergeRootGroups fuel (groups.map (List.map KeyedRoot.root)))
        (.ok (merged.map KeyedRoot.root, deduplicated)) := by
  have hcheck := checkGroups_settles hd groups hin
  rw [if_pos hstrict] at hcheck
  have hlength : (groups.map (List.map KeyedRoot.root)).flatten.length = groups.flatten.length := by
    simp only [List.length_flatten, List.map_map, Function.comp_def, List.length_map]
  obtain ⟨merged, deduplicated, hmerged, hcount, hrounds⟩ :=
    mergeRounds_settles hd hin (Nat.lt_succ_self groups.flatten.length)
  refine ⟨merged, deduplicated, ?_, hcount, ?_⟩
  · rw [hmerged, unionRounds_eq hstrict (le_refl _)]
    exact representatives_union groups
  · unfold mergeRootGroups
    rw [hlength]
    exact hcheck.bind hrounds

theorem mergeRootGroups_rejects {groups : List (List (KeyedRoot arity))}
    (hin : ∀ group ∈ groups, Among cursors group)
    (hnot : ¬∀ group ∈ groups, StrictOn KeyedRoot.key group) :
    Settles (Remembers cursors) NoRefusal
      (fun fuel => mergeRootGroups fuel (groups.map (List.map KeyedRoot.root)))
      (reject notStrict) := by
  have hcheck := checkGroups_settles hd groups hin
  rw [if_neg hnot] at hcheck
  exact hcheck.bindError

/-- What the merge of some groups returns: the sorted union, with the number of roots that are
found again, or that a group does not ascend. -/
theorem merge_root_groups_union {session : Session} (hreached : session.Reached arity cursors)
    {groups : List (List (KeyedRoot arity))} (hin : ∀ group ∈ groups, Among cursors group) :
    ((∀ group ∈ groups, StrictOn KeyedRoot.key group) ∧
      ∃ merged deduplicated, IsUnion KeyedRoot.key groups merged ∧
        merged.length + deduplicated = groups.flatten.length ∧
        ∃ enough, ∀ fuel, enough ≤ fuel → ∃ session',
          (mergeRootGroups fuel (groups.map (List.map KeyedRoot.root))).run session =
            some (.ok (session', merged.map KeyedRoot.root, deduplicated))) ∨
    (¬∀ group ∈ groups, StrictOn KeyedRoot.key group) ∧
      ∃ enough, ∀ fuel, enough ≤ fuel →
        (mergeRootGroups fuel (groups.map (List.map KeyedRoot.root))).run session =
          some (reject notStrict) := by
  have hremembers := hreached.remembers hd
  by_cases hstrict : ∀ group ∈ groups, StrictOn KeyedRoot.key group
  · obtain ⟨merged, deduplicated, hunion, hcount, enough, hsettles⟩ :=
      mergeRootGroups_settles hd hin hstrict
    refine .inl ⟨hstrict, merged, deduplicated, hunion, hcount, enough, fun fuel hfuel => ?_⟩
    rcases hsettles fuel hfuel session hremembers with ⟨session', -, hok⟩ | ⟨_, hrefused, -⟩
    · exact ⟨session', hok⟩
    · exact absurd hrefused id
  · obtain ⟨enough, hsettles⟩ := mergeRootGroups_rejects hd hin hstrict
    refine .inr ⟨hstrict, enough, fun fuel hfuel => ?_⟩
    rcases hsettles fuel hfuel session hremembers with herror | ⟨_, hrefused, -⟩
    · exact herror
    · exact absurd hrefused id

end Merge

section Sample

/-- One annotation assertion with a text of one byte. -/
def assertionTable (text : UInt8) : Columns :=
  ⟨[ROOT_AXIOM], [1], [120], [0, 1], [COMPONENT_TEXT], [0], [1], [], [], [], [text], 8, 8, id⟩

def assertionCursor (identity : Nat) (text : UInt8) : Cursor :=
  ⟨identity, assertionTable text, fun _ => none⟩

def assertionRoot (identity : Nat) (text : UInt8) : KeyedRoot fun _ => 1 :=
  ⟨⟨assertionCursor identity text, 0⟩, ROOT_AXIOM, 1, .mk 120 [.scalar .text [text]], rfl, rfl,
    ⟨1, rfl⟩, ⟨rfl, trivial, trivial⟩⟩

/-- An assertion that two of three tables hold is merged once. -/
theorem merge_root_groups_union_assertions :
    ∃ merged deduplicated,
      IsUnion KeyedRoot.key [[assertionRoot 0 97], [assertionRoot 1 98], [assertionRoot 2 97]]
        merged ∧
      merged.length + deduplicated = 3 := by
  have hdistinct :
      Distinct [assertionCursor 0 97, assertionCursor 1 98, assertionCursor 2 97] := by
    intro c hc d hd h
    simp only [List.mem_cons, List.not_mem_nil, or_false] at hc hd
    rcases hc with rfl | rfl | rfl <;> rcases hd with rfl | rfl | rfl <;> first | rfl | cases h
  have hin : ∀ group ∈ [[assertionRoot 0 97], [assertionRoot 1 98], [assertionRoot 2 97]],
      Among [assertionCursor 0 97, assertionCursor 1 98, assertionCursor 2 97] group := by
    intro group hgroup r hr
    simp only [List.mem_cons, List.not_mem_nil, or_false] at hgroup
    rcases hgroup with rfl | rfl | rfl <;> rw [List.mem_singleton.mp hr] <;> simp [assertionRoot]
  rcases merge_root_groups_union hdistinct .start hin with ⟨-, merged, deduplicated, hunion, hcount, -⟩ |
    ⟨hnot, -⟩
  · exact ⟨merged, deduplicated, hunion, hcount⟩
  · refine absurd (fun group hgroup => ?_) hnot
    simp only [List.mem_cons, List.not_mem_nil, or_false] at hgroup
    rcases hgroup with rfl | rfl | rfl <;> exact List.pairwise_singleton _ _

end Sample

section Intersect
variable {arity : Nat → Nat} {cursors : List Cursor}

def KeyedRoot.isAnnotationAssertion (r : KeyedRoot arity) : Bool :=
  r.kind == ROOT_AXIOM && r.term.tag == Constructor.annotationAssertion.tag

theorem KeyedRoot.tagRead (r : KeyedRoot arity) :
    r.root.cursor.columns.nodeTag r.id = .ok r.term.tag := by
  obtain ⟨fuel, ht⟩ := r.stands
  obtain ⟨previous, start, stop, tag, fields, -, hterm, hview⟩ := termAt_some ht
  rw [nodeTag_of_range hview.range hview.tagged, hterm]
  rfl

theorem isAnnotationAssertion_eq (r : KeyedRoot arity) :
    r.root.isAnnotationAssertion = .ok r.isAnnotationAssertion := by
  unfold RootRef.isAnnotationAssertion KeyedRoot.isAnnotationAssertion
  rw [ok_bind _ r.kindRead]
  by_cases hkind : r.kind = ROOT_AXIOM
  · rw [if_pos hkind, ok_bind _ r.idRead, hkind, beq_self_eq_true, Bool.true_and]
    unfold Columns.tagIs
    rw [ok_bind _ r.tagRead]
    rfl
  · rw [if_neg hkind, beq_eq_false_iff_ne.mpr hkind, Bool.false_and]
    rfl

theorem annotationAssertionRoots_eq (roots : List (KeyedRoot arity)) :
    RootRef.annotationAssertionRoots (roots.map KeyedRoot.root) =
      .ok ((roots.filter KeyedRoot.isAnnotationAssertion).map KeyedRoot.root) := by
  induction roots with
  | nil => rfl
  | cons r rest ih =>
    rw [List.map_cons]
    unfold RootRef.annotationAssertionRoots
    rw [ok_bind _ (isAnnotationAssertion_eq r), ok_bind _ ih]
    cases h : r.isAnnotationAssertion with
    | true =>
      rw [List.filter_cons_of_pos h]
      rfl
    | false =>
      rw [List.filter_cons_of_neg (by simp [h])]
      rfl

/-- What the intersection gives back: the selected roots, or that one is missing. -/
def intersection (selected : Option (List (KeyedRoot arity))) : Read (List RootRef) :=
  match selected with
  | some roots => .ok (roots.map KeyedRoot.root)
  | none => reject absentAssertion

variable (hd : Distinct cursors)
include hd

theorem intersectFrom_settles (closures roots : List (KeyedRoot arity))
    (hc : Among cursors closures) (hr : Among cursors roots) :
    Settles (Remembers cursors) NoRefusal
      (fun fuel => intersectFrom fuel (closures.map KeyedRoot.root) (roots.map KeyedRoot.root))
      (intersection (intersectScan KeyedRoot.key KeyedRoot.key closures roots)) := by
  induction closures generalizing roots with
  | nil =>
    cases roots with
    | nil => exact Settles.pure
    | cons r roots => exact Settles.lift _
  | cons c closures ih =>
    have hc' : Among cursors closures := fun r hr => hc r (List.mem_cons_of_mem _ hr)
    cases roots with
    | nil => exact Settles.pure
    | cons r roots =>
      have hr' : Among cursors roots := fun s hs => hr s (List.mem_cons_of_mem _ hs)
      have hfirst := compareRoots_settles hd (hc c List.mem_cons_self) (hr r List.mem_cons_self)
      rw [List.map_cons, List.map_cons]
      unfold intersectFrom intersectScan
      refine hfirst.bind ?_
      rcases lt_trichotomy c.key r.key with hlt | heq | hgt
      · rw [if_pos hlt, (cmp_eq_lt_iff _ _).mpr hlt]
        exact ih (r :: roots) hc' hr
      · rw [if_neg (by rw [heq]; exact lt_irrefl _), if_pos heq, (cmp_eq_eq_iff _ _).mpr heq]
        have hrest := ih roots hc' hr'
        cases hscan : intersectScan KeyedRoot.key KeyedRoot.key closures roots with
        | some selected =>
          rw [hscan] at hrest
          exact hrest.bind Settles.pure
        | none =>
          rw [hscan] at hrest
          exact hrest.bindError
      · rw [if_neg (lt_asymm hgt), if_neg (ne_of_gt hgt), (cmp_eq_gt_iff _ _).mpr hgt]
        exact Settles.lift _

/-- On sorted selections the intersection is that of the sets of assertions. -/
theorem intersectRootAnnotationAssertions_settles (closures roots : List (KeyedRoot arity))
    (hc : Among cursors closures) (hr : Among cursors roots)
    (hclosures : StrictOn KeyedRoot.key closures) (hroots : StrictOn KeyedRoot.key roots) :
    Settles (Remembers cursors) NoRefusal
      (fun fuel => intersectRootAnnotationAssertions fuel (closures.map KeyedRoot.root)
        (roots.map KeyedRoot.root))
      (intersection (subsetOf KeyedRoot.key KeyedRoot.key
        (closures.filter KeyedRoot.isAnnotationAssertion)
        (roots.filter KeyedRoot.isAnnotationAssertion))) := by
  unfold intersectRootAnnotationAssertions
  refine (settles_read (annotationAssertionRoots_eq closures)).bind
    ((settles_read (annotationAssertionRoots_eq roots)).bind ?_)
  rw [← intersectScan_eq (hclosures.filter _) (hroots.filter _)]
  apply intersectFrom_settles hd
  · exact fun r hr => hc r (List.mem_of_mem_filter hr)
  · exact fun r hs => hr r (List.mem_of_mem_filter hs)

end Intersect

end Projector.Encoded
