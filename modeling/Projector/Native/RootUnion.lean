import Projector.Native.MergedRoots

namespace Projector.Native
open Lib Projector.Core Projector.Encoded

section Acceptance
variable {β : Type} {m : MergeMeter β} {table : CanonicalTable} {error : KernelError}

/-- Roots that a measured table holds stand for terms. -/
theorem roots_stand (htable : Measured table) (indices : List Nat)
    (hin : ∀ index ∈ indices, index < table.columns.rootCount) :
    ∃ roots : List TableRoot, roots.map TableRoot.ref = indices.map table.columns.refAt ∧
      ∀ r ∈ roots, r.table = table := by
  induction indices with
  | nil => exact ⟨[], rfl, fun _ hr => absurd hr List.not_mem_nil⟩
  | cons index indices ih =>
    obtain ⟨roots, hroots, hown⟩ := ih fun i hi => hin i (List.mem_cons_of_mem _ hi)
    obtain ⟨depth, hbuilt⟩ := htable.built
    have hnode := htable.inRange index (hin index List.mem_cons_self)
    obtain ⟨-, t, ht, -⟩ := hbuilt _ (htable.all _ hnode)
    refine ⟨⟨table, table.columns.refAt index, t, depth, ht⟩ :: roots, ?_, fun r hr => ?_⟩
    · rw [List.map_cons, List.map_cons, hroots]
    · rcases List.mem_cons.mp hr with rfl | hr
      · rfl
      · exact hown r hr

/-- What the comparisons of a table's own roots may answer. -/
def ComparesKeys (table : CanonicalTable)
    (compare : CanonicalRootRef → CanonicalRootRef → MergeRun β Ordering) : Prop :=
  ∀ l r : TableRoot, l.table = table → r.table = table → ∀ b b' order,
    (compare l.ref r.ref).run b = some (.ok (b', order)) → order = cmp l.key r.key

theorem compareTableRoots_keys (htable : Measured table) (fuel : Nat) :
    ComparesKeys table (compareTableRoots m fuel true table · table ·) := by
  intro l r hl hr b b' order hrun
  subst hl
  have hsettles : Delivers m
      (fun fuel => compareTableRoots m fuel true l.table l.ref r.table r.ref) (cmp l.key r.key) :=
    compareTableRoots_delivers htable (hr.symm ▸ htable) fun _ => hr.symm
  rw [hr] at hsettles
  exact compareTableRoots_steady.settled hsettles trivial hrun

/-- A table whose roots are let through holds them in the order of their keys. -/
theorem validateRootOrder_ok (htable : Measured table)
    {compare : CanonicalRootRef → CanonicalRootRef → MergeRun β Ordering}
    (hcompare : ComparesKeys table compare) {indices : List Nat} {roots : List TableRoot}
    (hin : ∀ index ∈ indices, index < table.columns.rootCount)
    (hroots : roots.map TableRoot.ref = indices.map table.columns.refAt)
    (hown : ∀ r ∈ roots, r.table = table) {previous : Option TableRoot}
    (hprevious : ∀ p ∈ previous, p.table = table) {b b' : β}
    (h : (validateRootOrder m table error compare indices
      (previous.map TableRoot.ref)).run b = some (.ok (b', ()))) :
    StrictOn TableRoot.key (previous.toList ++ roots) := by
  induction indices generalizing roots previous b with
  | nil =>
    obtain rfl := List.map_eq_nil_iff.mp hroots
    cases previous with
    | none => exact List.Pairwise.nil
    | some p => exact List.pairwise_singleton _ p
  | cons index indices ih =>
    obtain ⟨r, roots, rfl, hr, hroots⟩ := List.map_eq_cons_iff.mp hroots
    have hrest := fun i hi => hin i (List.mem_cons_of_mem index hi)
    have hmore := fun s hs => hown s (List.mem_cons_of_mem r hs)
    have hnext : ∀ p ∈ some r, p.table = table := by
      rintro p ⟨⟩
      exact hown r List.mem_cons_self
    obtain ⟨_, _, -, h⟩ := Lib.Shared.ok_of_bind h
    obtain ⟨current, _, hread, h⟩ := Lib.Shared.ok_of_bind h
    have hread := shared_lift_ok hread
    rw [htable.roots.read index (hin index List.mem_cons_self)] at hread
    obtain rfl : r.ref = current := hr.trans (Except.ok.inj hread)
    cases previous with
    | none =>
      have hrest := ih hrest hroots hmore hnext h
      exact hrest
    | some p =>
      obtain ⟨order, between, horder, h⟩ := Lib.Shared.ok_of_bind h
      have horder := hcompare p r (hprevious p rfl) (hown r List.mem_cons_self) _ _ _ horder
      split at h
      · cases h
      · rename_i hlt
        have hlt : p.key < r.key := by
          rw [not_not] at hlt
          exact (cmp_eq_lt_iff _ _).mp (horder.symm.trans hlt)
        have hrest := ih hrest hroots hmore hnext h
        refine List.pairwise_cons.mpr ⟨fun s hs => ?_, hrest⟩
        rcases List.mem_cons.mp hs with rfl | hs
        · exact hlt
        · exact lt_trans hlt ((List.pairwise_cons.mp hrest).1 s hs)

/-- The selected roots of a table, with their terms. -/
structure Selection (table : CanonicalTable) (group : List TableRoot) : Prop where
  own : ∀ r ∈ group, r.table = table
  refs : group.map TableRoot.ref = table.columns.rest 0

theorem selection_of_strict {roots : List TableRoot}
    (hroots : roots.map TableRoot.ref =
      (List.range table.columns.rootCount).map table.columns.refAt)
    (hown : ∀ r ∈ roots, r.table = table) (hstrict : StrictOn TableRoot.key roots) :
    ∃ group, Selection table group ∧ StrictOn TableRoot.key group := by
  refine ⟨roots.filter fun r => table.columns.selects r.ref.index, ⟨fun r hr => ?_, ?_⟩,
    hstrict.filter _⟩
  · exact hown r (List.mem_of_mem_filter hr)
  · have hfilter := List.filter_map (f := TableRoot.ref) (l := roots)
      (p := fun ref => table.columns.selects ref.index)
    rw [hroots, List.filter_map, List.range_eq_range'] at hfilter
    exact hfilter.symm

/-- A table that is let through offers its selected roots in ascending order. -/
theorem selection_of_ok (htable : Measured table)
    {compare : CanonicalRootRef → CanonicalRootRef → MergeRun β Ordering}
    (hcompare : ComparesKeys table compare) {b b' : β}
    (h : (validateRootOrder m table error compare (List.range table.columns.rootCount)
      none).run b = some (.ok (b', ()))) :
    ∃ group, Selection table group ∧ StrictOn TableRoot.key group := by
  have hin : ∀ index ∈ List.range table.columns.rootCount, index < table.columns.rootCount :=
    fun _ => List.mem_range.mp
  obtain ⟨roots, hroots, hown⟩ := roots_stand htable _ hin
  have hnone : ∀ p ∈ (none : Option TableRoot), p.table = table := by rintro p ⟨⟩
  have hstrict := validateRootOrder_ok htable hcompare hin hroots hown hnone h
  exact selection_of_strict hroots hown hstrict

end Acceptance

section Cursors
variable {β : Type} {m : MergeMeter β} {table : CanonicalTable} {group : List TableRoot}

/-- A cursor of a table with the selected roots that are left. -/
structure Stage (state : CanonicalTable × RootCursor) (group : List TableRoot) : Prop where
  measured : Measured state.1
  own : ∀ r ∈ group, r.table = state.1
  stands : state.1.columns.Stands state.2
  refs : group.map TableRoot.ref = state.1.columns.rest state.2.position

/-- What a table offers of the selected roots that are left. -/
structure Offering (offer : Offer) (group : List TableRoot) : Prop where
  stays : Stage (offer.table, offer.cursor) group
  root : offer.root = group.head?.map TableRoot.ref
  moves : ∀ r rest, group = r :: rest → Stage (offer.table, offer.cursor.next) rest

theorem Selection.stage (h : Selection table group) (hm : Measured table) :
    Stage (table, .start) group := ⟨hm, h.own, stands_start, h.refs⟩

theorem Stage.offers {cursor : RootCursor} (h : Stage (table, cursor) group) :
    ∃ offer : Offer, offer.table = table ∧ Offering offer group ∧
      Delivers m (fun _ => metered (table.columns.selectedRoot m.left cursor))
        (offer.root, offer.cursor) := by
  obtain ⟨cursor', hgives, hstands, hsame, htail⟩ :=
    selectedRoot_gives (m := m.left) h.measured.postings h.measured.roots h.stands
  rw [← h.refs] at hgives hsame htail
  refine ⟨⟨table, (group.map TableRoot.ref).head?, cursor'⟩, rfl, ⟨?_, ?_, ?_⟩, ?_⟩
  · exact ⟨h.measured, h.own, hstands, hsame.symm⟩
  · rw [List.head?_map]
  · rintro r rest rfl
    exact ⟨h.measured, fun s hs => h.own s (List.mem_cons_of_mem _ hs), hstands.next,
      (htail rfl).symm⟩
  · exact metered_delivers (fun _ => refuses_left) hgives

end Cursors

section KWay
variable {β : Type} {m : MergeMeter β} {state : List (CanonicalTable × RootCursor)}
  {groups : List (List TableRoot)} {offers : List Offer} {k : Nat ×ₗ Bytes}

theorem candidates_delivers (h : List.Forall₂ Stage state groups) :
    ∃ offers, List.Forall₂ Offering offers groups ∧
      Delivers m (fun _ => candidates m state) offers := by
  induction h with
  | nil => exact ⟨[], .nil, .pure⟩
  | @cons first group state groups hfirst _ ih =>
    obtain ⟨others, hothers, hrest⟩ := ih
    obtain ⟨offer, htable, hoffer, hgives⟩ := hfirst.offers (m := m)
    refine ⟨offer :: others, .cons hoffer hothers, ?_⟩
    refine hgives.bind (hrest.bind ?_)
    rw [← htable]
    exact .pure

/-- A head of the groups as the merge passes it on. -/
def offerOf (p : Nat × TableRoot) : Nat × CanonicalTable × CanonicalRootRef :=
  (p.1, p.2.table, p.2.ref)

theorem offered_heads (h : List.Forall₂ Offering offers groups) (start : Nat) :
    offered start offers = (heads start groups).map offerOf := by
  induction h generalizing start with
  | nil => rfl
  | @cons offer group offers groups hoffer _ ih =>
    unfold offered
    rw [hoffer.root, ih]
    cases group with
    | nil => rfl
    | cons r rest =>
      have hown := hoffer.stays.own r List.mem_cons_self
      simp only [List.head?_cons, Option.map_some, heads, List.map_cons, offerOf, hown]

theorem head_measured (h : List.Forall₂ Offering offers groups) {start : Nat}
    {p : Nat × TableRoot} (hp : p ∈ heads start groups) : Measured p.2.table := by
  obtain ⟨i, rest, hget, -⟩ := mem_heads.mp hp
  obtain ⟨hi, hget⟩ := List.getElem?_eq_some_iff.mp hget
  have hlength := h.length_eq
  have hoffering := h.get (i := i) (by omega) hi
  rw [List.get_eq_getElem, List.get_eq_getElem, hget] at hoffering
  rw [hoffering.stays.own p.2 List.mem_cons_self]
  exact hoffering.stays.measured

theorem head_unique {start : Nat} {p q : Nat × TableRoot} (hp : p ∈ heads start groups)
    (hq : q ∈ heads start groups) (h : p.1 = q.1) : p.2 = q.2 := by
  obtain ⟨i, rest, hi, hip⟩ := mem_heads.mp hp
  obtain ⟨j, rest', hj, hjq⟩ := mem_heads.mp hq
  obtain rfl : i = j := by omega
  rw [hi] at hj
  exact (List.cons.inj (Option.some.inj hj)).1

theorem compareCandidates_delivers {p q : Nat × TableRoot} (hp : Measured p.2.table)
    (hq : Measured q.2.table) (hsame : p.1 = q.1 → p.2.table = q.2.table) :
    Delivers m (fun fuel => compareCandidates m fuel (offerOf p) (offerOf q))
      (cmp p.2.key q.2.key) :=
  compareTableRoots_delivers hp hq fun h => hsame (eq_of_beq h)

theorem equalsLeast_delivers {p least : Nat × TableRoot} (hp : Measured p.2.table)
    (hleast : Measured least.2.table) (hkey : least.2.key = k)
    (hsame : p.1 = least.1 → p.2.key = k) :
    Delivers m (fun fuel => equalsLeast m fuel (offerOf least) (offerOf p))
      (decide (p.2.key = k)) := by
  unfold equalsLeast
  by_cases hindex : p.1 = least.1
  · have hcond : (offerOf p).1 = (offerOf least).1 := hindex
    rw [decide_eq_true (hsame hindex)]
    simp only [if_pos hcond]
    exact .pure
  · have hcond : ¬(offerOf p).1 = (offerOf least).1 := hindex
    have hanswer : (cmp p.2.key least.2.key == .eq) = decide (p.2.key = k) := by
      by_cases hr : p.2.key = k
      · rw [decide_eq_true hr, (cmp_eq_eq_iff _ _).mpr (hr.trans hkey.symm)]
        rfl
      · rw [decide_eq_false hr]
        exact beq_eq_false_iff_ne.mpr fun hc => hr (((cmp_eq_eq_iff _ _).mp hc).trans hkey)
    simp only [if_neg hcond]
    rw [← hanswer]
    exact (compareCandidates_delivers hp hleast fun h => absurd h hindex).bind .pure

/-- Every table that offers the least key moves on, and no other. -/
theorem takeEqual_delivers (h : List.Forall₂ Offering offers groups) {least : Nat × TableRoot}
    (hleast : Measured least.2.table) (hkey : least.2.key = k) (index : Nat)
    (hat : ∀ x bs, index ≤ least.1 → groups[least.1 - index]? = some (x :: bs) → x.key = k) :
    ∃ taken, taken.map Prod.fst =
        groups.map (fun group => (headWith TableRoot.key k group).map TableRoot.ref) ∧
      List.Forall₂ Stage (taken.map Prod.snd) (groups.map (tailWith TableRoot.key k)) ∧
      Delivers m (fun fuel => takeEqual m fuel (offerOf least) index offers) taken := by
  induction h generalizing index with
  | nil => exact ⟨[], rfl, .nil, .pure⟩
  | @cons offer group offers groups hoffer _ ih =>
    obtain ⟨others, hslots, hstages, hrest⟩ := ih (index + 1) (by
      intro x bs hle hget
      refine hat x bs (by omega) ?_
      rw [show least.1 - index = least.1 - (index + 1) + 1 by omega, List.getElem?_cons_succ]
      exact hget)
    have hroot := hoffer.root
    unfold takeEqual
    cases group with
    | nil =>
      refine ⟨(none, offer.table, offer.cursor) :: others, ?_, .cons hoffer.stays hstages, ?_⟩
      · rw [List.map_cons, List.map_cons, hslots]
        rfl
      · rw [hroot]
        exact hrest.bind .pure
    | cons r rest =>
      have hown := hoffer.stays.own r List.mem_cons_self
      have hequal := equalsLeast_delivers (m := m) (p := (index, r))
        (hown.symm ▸ hoffer.stays.measured) hleast hkey fun hindex : index = least.1 =>
          hat r rest (by omega) (by rw [hindex, Nat.sub_self]; rfl)
      unfold offerOf at hequal
      dsimp only at hequal
      rw [hown] at hequal
      rw [hroot]
      by_cases hr : r.key = k
      · rw [decide_eq_true hr] at hequal
        refine ⟨(some r.ref, offer.table, offer.cursor.next) :: others, ?_,
          .cons ?_ hstages, hequal.bind (hrest.bind .pure)⟩
        · rw [List.map_cons, List.map_cons, hslots, headWith_cons, if_pos hr]
          rfl
        · rw [tailWith_cons, if_pos hr]
          exact hoffer.moves r rest rfl
      · rw [decide_eq_false hr] at hequal
        refine ⟨(none, offer.table, offer.cursor) :: others, ?_, .cons ?_ hstages,
          hequal.bind (hrest.bind .pure)⟩
        · rw [List.map_cons, List.map_cons, hslots, headWith_cons, if_neg hr]
          rfl
        · rw [tailWith_cons, if_neg hr]
          exact hoffer.stays

/-- The slots that a round of the union fills. -/
def slotsOf (found : List (Option TableRoot)) : List (Option CanonicalRootRef) :=
  found.map (Option.map TableRoot.ref)

theorem nextGroup_none (h : List.Forall₂ Stage state groups)
    (hk : leastKey TableRoot.key groups = none) :
    ∃ state', Delivers m (fun fuel => nextGroup m fuel state) (none, state') := by
  obtain ⟨offers, hoffers, hcandidates⟩ := candidates_delivers (m := m) h
  refine ⟨offers.map fun offer => (offer.table, offer.cursor), hcandidates.bind ?_⟩
  rw [offered_heads hoffers 0, heads_nil_of_none hk]
  exact .pure

/-- A round gives the roots with the least key, and the tables that hold one move on. -/
theorem nextGroup_some (h : List.Forall₂ Stage state groups)
    (hk : leastKey TableRoot.key groups = some k) :
    ∃ state', List.Forall₂ Stage state' (groups.map (tailWith TableRoot.key k)) ∧
      Delivers m (fun fuel => nextGroup m fuel state)
        (some (slotsOf (groups.map (headWith TableRoot.key k))), state') := by
  obtain ⟨offers, hoffers, hcandidates⟩ := candidates_delivers (m := m) h
  cases hheads : heads 0 groups with
  | nil => exact absurd hheads (heads_ne_nil hk)
  | cons first others =>
    obtain ⟨hkey, -⟩ := leastFrom_heads hk hheads
    have hleast := leastFrom_mem (fun p : Nat × TableRoot => p.2.key) first others
    have hscan : Delivers m
        (fun fuel => leastOf (compareCandidates m fuel) (offerOf first) (others.map offerOf))
        (offerOf (leastFrom (fun p : Nat × TableRoot => p.2.key) first others)) := by
      apply leastOf_settles
      intro p hp q hq
      rw [← hheads] at hp hq
      exact compareCandidates_delivers (head_measured hoffers hp) (head_measured hoffers hq)
        fun heq => congrArg TableRoot.table (head_unique hp hq heq)
    generalize leastFrom (fun p : Nat × TableRoot => p.2.key) first others = least at *
    rw [← hheads] at hleast
    obtain ⟨i, bs, hget, hi⟩ := mem_heads.mp hleast
    obtain rfl : i = least.1 := by omega
    obtain ⟨taken, hslots, hstages, htaken⟩ := takeEqual_delivers (m := m) hoffers
      (head_measured hoffers hleast) hkey 0 (by
        intro x bs' _ hx
        rw [Nat.sub_zero, hget] at hx
        cases hx
        exact hkey)
    refine ⟨taken.map Prod.snd, hstages, hcandidates.bind ?_⟩
    rw [offered_heads hoffers 0, hheads, List.map_cons]
    refine hscan.bind (htaken.bind ((recordRoots_delivers _).bind ?_))
    unfold slotsOf
    rw [hslots, List.map_map]
    exact .pure

/-- The merge goes through the rounds of the union. -/
theorem drainGroups_delivers {rounds : Nat} (h : List.Forall₂ Stage state groups)
    (hrounds : groups.flatten.length < rounds) :
    Delivers m (fun fuel => drainGroups m fuel rounds state)
      ((unionRounds TableRoot.key rounds groups).map slotsOf) := by
  induction rounds generalizing state groups with
  | zero => exact absurd hrounds (Nat.not_lt_zero _)
  | succ rounds ih =>
    unfold unionRounds drainGroups
    cases hk : leastKey TableRoot.key groups with
    | none =>
      obtain ⟨state', hnext⟩ := nextGroup_none (m := m) h hk
      exact hnext.bind .pure
    | some k =>
      obtain ⟨state', hstages, hnext⟩ := nextGroup_some (m := m) h hk
      obtain ⟨⟨x, xs, hmem, hx⟩, -⟩ := leastKey_some hk
      have hshorter := flatten_tails_lt hmem hx
      exact hnext.bind ((ih hstages (by omega)).bind .pure)

end KWay

section TwoWay
variable {β : Type} {m : MergeMeter β} {left right : CanonicalTable}
  {cursors : RootCursor × RootCursor} {ls rs : List TableRoot} {k : Nat ×ₗ Bytes}

/-- The slots of the two tables that a merged root fills. -/
def MergedCanonicalRoot.slots : MergedCanonicalRoot → List (Option CanonicalRootRef)
  | .left root => [some root, none]
  | .right root => [none, some root]
  | .both left right => [some left, some right]

theorem nextMerged_none (hl : Stage (left, cursors.1) []) (hr : Stage (right, cursors.2) []) :
    ∃ cursors', Delivers m (fun fuel => nextMerged m fuel left right cursors)
      (none, cursors') := by
  obtain ⟨l, -, hleft, hlgives⟩ := hl.offers (m := m)
  obtain ⟨r, -, hright, hrgives⟩ := hr.offers (m := m)
  refine ⟨(l.cursor, r.cursor), hlgives.bind (hrgives.bind ?_)⟩
  rw [hleft.root, hright.root]
  exact .pure

/-- A request gives the root of the next round of the union. -/
theorem nextMerged_some (hl : Stage (left, cursors.1) ls) (hr : Stage (right, cursors.2) rs)
    (hk : leastKey TableRoot.key [ls, rs] = some k) :
    ∃ root cursors',
      Delivers m (fun fuel => nextMerged m fuel left right cursors) (some root, cursors') ∧
      root.slots = slotsOf [headWith TableRoot.key k ls, headWith TableRoot.key k rs] ∧
      Stage (left, cursors'.1) (tailWith TableRoot.key k ls) ∧
      Stage (right, cursors'.2) (tailWith TableRoot.key k rs) := by
  obtain ⟨l, hlt, hleft, hlgives⟩ := hl.offers (m := m)
  obtain ⟨r, hrt, hright, hrgives⟩ := hr.offers (m := m)
  have hlroot := hleft.root
  have hrroot := hright.root
  have hlstays := hleft.stays
  have hrstays := hright.stays
  have hlmoves := hleft.moves
  have hrmoves := hright.moves
  rw [hlt] at hlstays hlmoves
  rw [hrt] at hrstays hrmoves
  cases ls with
  | nil =>
    cases rs with
    | nil => cases hk
    | cons y ys =>
      cases hk
      rw [headWith_cons, tailWith_cons, if_pos rfl, if_pos rfl]
      refine ⟨.right y.ref, (l.cursor, r.cursor.next), hlgives.bind (hrgives.bind ?_), rfl,
        hlstays, hrmoves y ys rfl⟩
      rw [hlroot, hrroot]
      exact (recordRoots_delivers 0).bind .pure
  | cons x xs =>
    cases rs with
    | nil =>
      cases hk
      rw [headWith_cons, tailWith_cons, if_pos rfl, if_pos rfl]
      refine ⟨.left x.ref, (l.cursor.next, r.cursor), hlgives.bind (hrgives.bind ?_), rfl,
        hlmoves x xs rfl, hrstays⟩
      rw [hlroot, hrroot]
      exact (recordRoots_delivers 0).bind .pure
    | cons y ys =>
      cases hk
      have hx := hl.own x List.mem_cons_self
      have hy := hr.own y List.mem_cons_self
      have hcompare : Delivers m
          (fun fuel => compareTableRoots m fuel false x.table x.ref y.table y.ref)
          (cmp x.key y.key) :=
        compareTableRoots_delivers (hx.symm ▸ hl.measured) (hy.symm ▸ hr.measured) fun h =>
          absurd h (by decide)
      rw [hx, hy] at hcompare
      simp only [headWith_cons, tailWith_cons]
      rcases lt_trichotomy x.key y.key with hlt | heq | hgt
      · rw [(cmp_eq_lt_iff _ _).mpr hlt] at hcompare
        rw [min_eq_left (le_of_lt hlt), if_pos rfl, if_pos rfl, if_neg (ne_of_gt hlt),
          if_neg (ne_of_gt hlt)]
        refine ⟨.left x.ref, (l.cursor.next, r.cursor), hlgives.bind (hrgives.bind ?_), rfl,
          hlmoves x xs rfl, hrstays⟩
        rw [hlroot, hrroot]
        exact hcompare.bind ((recordRoots_delivers 0).bind .pure)
      · rw [(cmp_eq_eq_iff _ _).mpr heq] at hcompare
        rw [heq, min_self, if_pos rfl, if_pos rfl, if_pos rfl, if_pos rfl]
        refine ⟨.both x.ref y.ref, (l.cursor.next, r.cursor.next), hlgives.bind (hrgives.bind ?_),
          rfl, hlmoves x xs rfl, hrmoves y ys rfl⟩
        rw [hlroot, hrroot]
        exact hcompare.bind ((recordRoots_delivers 1).bind .pure)
      · rw [(cmp_eq_gt_iff _ _).mpr hgt] at hcompare
        rw [min_eq_right (le_of_lt hgt), if_neg (ne_of_gt hgt), if_neg (ne_of_gt hgt), if_pos rfl,
          if_pos rfl]
        refine ⟨.right y.ref, (l.cursor, r.cursor.next), hlgives.bind (hrgives.bind ?_), rfl,
          hlstays, hrmoves y ys rfl⟩
        rw [hlroot, hrroot]
        exact hcompare.bind ((recordRoots_delivers 0).bind .pure)

/-- The merge of two tables goes through the rounds of the union. -/
theorem drainMerger_delivers {rounds : Nat} (hl : Stage (left, cursors.1) ls)
    (hr : Stage (right, cursors.2) rs) (hrounds : [ls, rs].flatten.length < rounds) :
    ∃ merged, merged.map MergedCanonicalRoot.slots =
        (unionRounds TableRoot.key rounds [ls, rs]).map slotsOf ∧
      Delivers m (fun fuel => drainMerger m fuel left right rounds cursors) merged := by
  induction rounds generalizing cursors ls rs with
  | zero => exact absurd hrounds (Nat.not_lt_zero _)
  | succ rounds ih =>
    unfold unionRounds drainMerger
    cases hk : leastKey TableRoot.key [ls, rs] with
    | none =>
      have hnil := leastKey_none hk
      rw [hnil ls List.mem_cons_self] at hl
      rw [hnil rs (List.mem_cons_of_mem _ List.mem_cons_self)] at hr
      obtain ⟨cursors', hnext⟩ := nextMerged_none (m := m) hl hr
      exact ⟨[], rfl, hnext.bind .pure⟩
    | some k =>
      obtain ⟨root, cursors', hnext, hslots, hl', hr'⟩ := nextMerged_some (m := m) hl hr hk
      obtain ⟨⟨x, xs, hmem, hx⟩, -⟩ := leastKey_some hk
      have hshorter := flatten_tails_lt hmem hx
      obtain ⟨merged, hmerged, hrest⟩ := ih hl' hr' (by
        rw [List.map_cons, List.map_cons, List.map_nil] at hshorter
        omega)
      refine ⟨root :: merged, ?_, hnext.bind (hrest.bind .pure)⟩
      rw [List.map_cons, hslots, hmerged]
      rfl

end TwoWay

section Mergers
variable {β : Type} {mm : MergeMeter β} {fuel : Nat} {before after : β}

/-- What the callers of a merge have checked of a table. -/
structure Mergeable (d : SelectedColumns) : Prop where
  fits : d.rootCount < usizeLimit
  scopes : BytesScopes d.direct

/-- The selected roots of a table, with their terms, in ascending order. -/
structure SortedRoots (d : SelectedColumns) (group : List TableRoot) : Prop where
  own : ∀ r ∈ group, r.table.columns = d
  refs : group.map TableRoot.ref = d.rest 0
  strict : StrictOn TableRoot.key group

/-- The slots of the sorted union: for every key the table's roots that have it. -/
def unionSlots (groups : List (List TableRoot)) : List (List (Option CanonicalRootRef)) :=
  (unionKeys TableRoot.key groups).map fun k => slotsOf (occurrences TableRoot.key groups k)

theorem unionSlots_eq {groups : List (List TableRoot)} {rounds : Nat}
    (hstrict : ∀ group ∈ groups, StrictOn TableRoot.key group)
    (hrounds : groups.flatten.length < rounds) :
    (unionRounds TableRoot.key rounds groups).map slotsOf = unionSlots groups := by
  obtain ⟨rounds, rfl⟩ := Nat.exists_eq_add_of_lt hrounds
  rw [unionRounds_eq hstrict (Nat.le_add_right _ rounds), List.map_map]
  rfl

theorem TableRoot.key_eq_iff {r s : TableRoot} :
    r.key = s.key ↔ r.ref.kind = s.ref.kind ∧ r.term = s.term := by
  have hkey : r.key = s.key ↔ (r.ref.kind, r.term.encode) = (s.ref.kind, s.term.encode) :=
    toLex.injective.eq_iff
  rw [hkey, Prod.mk.injEq]
  exact and_congr_right fun _ => ⟨Term.encode_inj, fun h => congrArg _ h⟩

theorem buildTables_ok {columns : List SelectedColumns} (hall : ∀ d ∈ columns, Mergeable d)
    {tables : List CanonicalTable}
    (h : (buildTables mm fuel columns).run before = some (.ok (after, tables))) :
    List.Forall₂ (fun d table => table.columns = d ∧ Measured table) columns tables := by
  induction columns generalizing before tables with
  | nil =>
    cases h
    exact .nil
  | cons d columns ih =>
    obtain ⟨table, _, hbuild, h⟩ := Lib.Shared.ok_of_bind h
    obtain ⟨rest, _, hrest, h⟩ := Lib.Shared.ok_of_bind h
    cases h
    have hd := hall d List.mem_cons_self
    exact .cons (build_ok hd.fits hd.scopes hbuild)
      (ih (fun more hmore => hall more (List.mem_cons_of_mem _ hmore)) hrest)

theorem validateTable_ok {table : CanonicalTable} (htable : Measured table)
    (h : (validateTable mm fuel table).run before = some (.ok (after, ()))) :
    ∃ group, Selection table group ∧ StrictOn TableRoot.key group := by
  obtain ⟨_, _, -, h⟩ := Lib.Shared.ok_of_bind h
  obtain ⟨_, _, -, h⟩ := Lib.Shared.ok_of_bind h
  exact selection_of_ok htable (compareTableRoots_keys htable fuel) h

/-- The groups of tables that are let through one after another. -/
theorem validateTables_ok {columns : List SelectedColumns} {tables : List CanonicalTable}
    (hbuilt : List.Forall₂ (fun d table => table.columns = d ∧ Measured table) columns tables)
    (h : (validateTables mm fuel tables).run before = some (.ok (after, ()))) :
    ∃ groups, List.Forall₂ SortedRoots columns groups ∧
      List.Forall₂ Stage (tables.map (·, RootCursor.start)) groups := by
  induction hbuilt generalizing before with
  | nil => exact ⟨[], .nil, .nil⟩
  | @cons d table columns tables hfirst _ ih =>
    obtain ⟨rfl, htable⟩ := hfirst
    obtain ⟨_, _, hvalid, h⟩ := Lib.Shared.ok_of_bind h
    obtain ⟨group, hselection, hstrict⟩ := validateTable_ok htable hvalid
    obtain ⟨groups, hsorted, hstages⟩ := ih h
    exact ⟨group :: groups, .cons ⟨fun r hr => congrArg _ (hselection.own r hr), hselection.refs,
      hstrict⟩ hsorted, .cons (hselection.stage htable) hstages⟩

theorem strict_of_sorted {columns : List SelectedColumns} {groups : List (List TableRoot)}
    (h : List.Forall₂ SortedRoots columns groups) :
    ∀ group ∈ groups, StrictOn TableRoot.key group := by
  induction h with
  | nil => exact fun _ hgroup => absurd hgroup List.not_mem_nil
  | cons hfirst _ ih =>
    intro group hgroup
    rcases List.mem_cons.mp hgroup with rfl | hgroup
    · exact hfirst.strict
    · exact ih group hgroup

theorem newKWayMerger_delivers {columns : List SelectedColumns}
    (hall : ∀ d ∈ columns, Mergeable d) {tables : List CanonicalTable}
    (h : (newKWayMerger mm fuel columns).run before = some (.ok (after, tables))) :
    ∃ groups, List.Forall₂ SortedRoots columns groups ∧
      ∀ rounds, groups.flatten.length < rounds →
        Delivers mm (fun fuel => drainGroups mm fuel rounds (tables.map (·, RootCursor.start)))
          (unionSlots groups) := by
  unfold newKWayMerger at h
  split at h
  · cases h
  obtain ⟨built, _, hbuild, h⟩ := Lib.Shared.ok_of_bind h
  obtain ⟨_, _, hvalid, h⟩ := Lib.Shared.ok_of_bind h
  cases h
  obtain ⟨groups, hsorted, hstages⟩ := validateTables_ok (buildTables_ok hall hbuild) hvalid
  refine ⟨groups, hsorted, fun rounds hrounds => ?_⟩
  rw [← unionSlots_eq (strict_of_sorted hsorted) hrounds]
  exact drainGroups_delivers hstages hrounds

theorem newRootMerger_delivers {left right : SelectedColumns} (hl : Mergeable left)
    (hr : Mergeable right) {tables : CanonicalTable × CanonicalTable}
    (h : (newRootMerger mm fuel left right).run before = some (.ok (after, tables))) :
    ∃ groups, List.Forall₂ SortedRoots [left, right] groups ∧
      ∀ rounds, groups.flatten.length < rounds → ∃ merged,
        merged.map MergedCanonicalRoot.slots = unionSlots groups ∧
        Delivers mm (fun fuel =>
          drainMerger mm fuel tables.1 tables.2 rounds (RootCursor.start, RootCursor.start))
          merged := by
  obtain ⟨l, _, hleft, h⟩ := Lib.Shared.ok_of_bind h
  obtain ⟨r, _, hright, h⟩ := Lib.Shared.ok_of_bind h
  obtain ⟨_, _, -, h⟩ := Lib.Shared.ok_of_bind h
  obtain ⟨_, _, -, h⟩ := Lib.Shared.ok_of_bind h
  obtain ⟨_, _, hgroupLeft, h⟩ := Lib.Shared.ok_of_bind h
  obtain ⟨_, _, hgroupRight, h⟩ := Lib.Shared.ok_of_bind h
  cases h
  obtain ⟨rfl, hlm⟩ := build_ok hl.fits hl.scopes hleft
  obtain ⟨rfl, hrm⟩ := build_ok hr.fits hr.scopes hright
  obtain ⟨ls, hls, hlstrict⟩ := selection_of_ok hlm (compareTableRoots_keys hlm fuel) hgroupLeft
  obtain ⟨rs, hrs, hrstrict⟩ := selection_of_ok hrm (compareTableRoots_keys hrm fuel) hgroupRight
  have hsorted : List.Forall₂ SortedRoots [l.columns, r.columns] [ls, rs] :=
    .cons ⟨fun s hs => congrArg _ (hls.own s hs), hls.refs, hlstrict⟩
      (.cons ⟨fun s hs => congrArg _ (hrs.own s hs), hrs.refs, hrstrict⟩ .nil)
  refine ⟨[ls, rs], hsorted, fun rounds hrounds => ?_⟩
  rw [← unionSlots_eq (strict_of_sorted hsorted) hrounds]
  exact drainMerger_delivers (hls.stage hlm) (hrs.stage hrm) hrounds

/-- The table of a complement, with both of its nodes as roots. -/
def complementRoots : SelectedColumns :=
  ⟨⟨{ tableOf complement with rootKinds := [2, 2], rootIds := [1, 2] }, []⟩, [], []⟩

def freeMerge : MergeMeter Unit :=
  ⟨fun _ _ => .ok (), fun _ _ => .ok (), fun _ _ => .ok (), fun _ => .ok (), fun _ _ => .ok ()⟩

end Mergers

end Projector.Native
