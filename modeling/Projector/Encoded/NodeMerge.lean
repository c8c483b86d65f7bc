import Projector.Encoded.CanonicalCode
import Projector.Encoded.RootGroups
import Projector.Lib.DenseRank
import Projector.Lib.HeadMerge

namespace Projector.Encoded
open Lib Projector.Core Compiler

section Code

/-- `_EncodedNodeRef` -/
structure NodeRef where
  cursor : Cursor
  nodeId : Nat

variable (fuel : Nat)

/-- `compare_nodes` -/
def compareNodeRefs (left right : NodeRef) : Comparing Ordering :=
  ⟨fun session => compareNodes fuel session left.cursor left.nodeId right.cursor right.nodeId⟩

def nodesNotStrict : String :=
  "encoded subset canonical node group is not strictly sorted and unique"

/-- The merge loop: every round names the nodes of one identity. -/
def nameNodes : Nat → Nat → List (List NodeRef) → Comparing (List (List NodeRef × String))
  | 0, _, _ => Shared.exhausted
  | rounds + 1, nextIdentifier, groups =>
    match heads 0 groups with
    | [] => pure []
    | first :: others => do
      let selected ← leastOf (fun candidate least => compareNodeRefs fuel candidate.2 least.2) first
        others
      let (rests, taken) ← takeHeads (compareNodeRefs fuel) selected 0 groups
      let merged ← nameNodes rounds (nextIdentifier + 1) rests
      pure ((selected.2 :: taken, "_:genid" ++ toString nextIdentifier) :: merged)

/-- `_merge_node_groups` -/
def mergeNodeGroups (groups : List (List NodeRef)) : Comparing (List (List NodeRef × String)) := do
  checkAllAscending (compareNodeRefs fuel) (.snapshotCompatibility nodesNotStrict []) groups
  nameNodes fuel (groups.flatten.length + 1) 2147483648 groups

end Code

/-- A node with the term that it stands for. -/
structure KeyedNode where
  ref : NodeRef
  term : Term
  stands : ref.cursor.columns.Stands ref.cursor.scopeMap ref.nodeId term

/-- Nodes are ordered by their canonical bytes. -/
def KeyedNode.key (n : KeyedNode) : Bytes := n.term.encode

theorem KeyedNode.key_eq_iff {n m : KeyedNode} : n.key = m.key ↔ n.term = m.term :=
  ⟨Term.encode_inj, fun h => congrArg Term.encode h⟩

/-- Every identity has a name of its own: the names are numbered without gaps in the order of the
canonical bytes, and every node is named once. -/
structure DenselyNamed (groups : List (List KeyedNode)) (named : List (List KeyedNode × String)) :
    Prop where
  identities : List.Forall₂ (fun entry k => entry.1 ≠ [] ∧ ∀ n ∈ entry.1, n.key = k) named
    (unionKeys KeyedNode.key groups)
  names : named.map Prod.snd = (List.range named.length).map genid
  nodes : (named.map Prod.fst).flatten.Perm groups.flatten

section Naming
variable {groups : List (List KeyedNode)} {named : List (List KeyedNode × String)}

theorem genid_inj {i j : Nat} (h : genid i = genid j) : i = j := by
  have hlist := congrArg String.toList h
  unfold genid at hlist
  rw [String.toList_append, String.toList_append] at hlist
  have hrepr : (Nat.repr (2147483648 + i)).toList = (Nat.repr (2147483648 + j)).toList :=
    List.append_cancel_left hlist
  have hdigits := congrArg (fun digits => Nat.ofDigitChars 10 digits 0) hrepr
  simp only [Nat.toList_repr, Nat.ofDigitChars_ten_toDigits] at hdigits
  omega

/-- A name tells the rank of an identity. -/
theorem DenselyNamed.rank_of (h : DenselyNamed groups named) {entry : List KeyedNode × String}
    (hentry : entry ∈ named) {n : KeyedNode} (hn : n ∈ entry.1) :
    entry.2 = genid (rank (groups.flatten.map KeyedNode.key) n.key) := by
  obtain ⟨i, hi, rfl⟩ := List.getElem_of_mem hentry
  have hlength := h.identities.length_eq
  have hplace : i < (unionKeys KeyedNode.key groups).length := by omega
  obtain ⟨-, hkeys⟩ := h.identities.get hi hplace
  have hkey := hkeys n hn
  rw [List.get_eq_getElem] at hkey
  rw [hkey]
  have hrank : rank (groups.flatten.map KeyedNode.key) (unionKeys KeyedNode.key groups)[i] = i :=
    rank_getElem hplace
  rw [hrank]
  have hname : (named.map Prod.snd)[i]? = ((List.range named.length).map genid)[i]? := by
    rw [h.names]
  rw [List.getElem?_map, List.getElem?_map, List.getElem?_eq_getElem hi,
    List.getElem?_range hi] at hname
  exact Option.some.inj hname

theorem DenselyNamed.name_eq_iff (h : DenselyNamed groups named)
    {entry other : List KeyedNode × String} (hentry : entry ∈ named) (hother : other ∈ named)
    {n m : KeyedNode} (hn : n ∈ entry.1) (hm : m ∈ other.1) :
    entry.2 = other.2 ↔ n.term = m.term := by
  have hlisted : ∀ {e : List KeyedNode × String}, e ∈ named → ∀ {x : KeyedNode}, x ∈ e.1 →
      x.key ∈ groups.flatten.map KeyedNode.key := by
    intro e he x hx
    have hin : x ∈ (named.map Prod.fst).flatten :=
      List.mem_flatten.mpr ⟨e.1, List.mem_map_of_mem he, hx⟩
    exact List.mem_map_of_mem (h.nodes.mem_iff.mp hin)
  rw [h.rank_of hentry hn, h.rank_of hother hm, ← KeyedNode.key_eq_iff]
  constructor
  · intro hname
    exact rank_inj (hlisted hentry hn) (hlisted hother hm) (genid_inj hname)
  · intro hkey
    rw [hkey]

/-- The rounds of the union, named from an identifier on. -/
def namedRounds (next : Nat) (rounds : List (List (Option KeyedNode))) :
    List (List KeyedNode × String) :=
  (rounds.zipIdx next).map fun found => (found.1.reduceOption, "_:genid" ++ toString found.2)

theorem namedRounds_cons (next : Nat) (found : List (Option KeyedNode))
    (rounds : List (List (Option KeyedNode))) :
    namedRounds next (found :: rounds) =
      (found.reduceOption, "_:genid" ++ toString next) :: namedRounds (next + 1) rounds := rfl

theorem namedRounds_length (next : Nat) (rounds : List (List (Option KeyedNode))) :
    (namedRounds next rounds).length = rounds.length := by
  unfold namedRounds
  rw [List.length_map, List.length_zipIdx]

theorem namedRounds_nodes (next : Nat) (rounds : List (List (Option KeyedNode))) :
    (namedRounds next rounds).map Prod.fst = rounds.map List.reduceOption := by
  induction rounds generalizing next with
  | nil => rfl
  | cons found rounds ih => rw [namedRounds_cons, List.map_cons, List.map_cons, ih]

theorem namedRounds_names (rounds : List (List (Option KeyedNode))) (start : Nat) :
    (namedRounds (2147483648 + start) rounds).map Prod.snd =
      (List.range' start rounds.length).map genid := by
  induction rounds generalizing start with
  | nil => rfl
  | cons found rounds ih =>
    rw [namedRounds_cons, List.map_cons, List.length_cons, List.range'_succ, List.map_cons,
      Nat.add_assoc, ih (start + 1)]
    rfl

theorem densely_named (hstrict : ∀ group ∈ groups, StrictOn KeyedNode.key group) :
    DenselyNamed groups
      (namedRounds 2147483648 (unionRounds KeyedNode.key (groups.flatten.length + 1) groups)) := by
  have hnames := namedRounds_names
    (unionRounds KeyedNode.key (groups.flatten.length + 1) groups) 0
  refine ⟨?_, ?_, ?_⟩
  · rw [unionRounds_eq hstrict (le_refl _)]
    have hall : ∀ (ks : List Bytes) (next : Nat), (∀ k ∈ ks, k ∈ unionKeys KeyedNode.key groups) →
        List.Forall₂ (fun entry k => entry.1 ≠ [] ∧ ∀ n ∈ entry.1, n.key = k)
          (namedRounds next (ks.map (occurrences KeyedNode.key groups))) ks := by
      intro ks
      induction ks with
      | nil => exact fun _ _ => .nil
      | cons k ks ih =>
        intro next hks
        rw [List.map_cons, namedRounds_cons]
        exact .cons (occurrences_reduced (hks k List.mem_cons_self))
          (ih (next + 1) fun j hj => hks j (List.mem_cons_of_mem _ hj))
    exact hall _ _ fun _ hk => hk
  · rw [namedRounds_length, List.range_eq_range']
    exact hnames
  · rw [namedRounds_nodes]
    exact unionRounds_perm (Nat.lt_succ_self _)

end Naming

section Merge
variable {cursors : List Cursor} (hd : Distinct cursors) {groups : List (List KeyedNode)}

/-- Every cursor of some nodes is one of these. -/
def NodesAmong (cursors : List Cursor) (nodes : List KeyedNode) : Prop :=
  ∀ n ∈ nodes, n.ref.cursor ∈ cursors

theorem nodesAmong_heads (hin : ∀ group ∈ groups, NodesAmong cursors group) {p : Nat × KeyedNode}
    (hp : p ∈ heads 0 groups) : p.2.ref.cursor ∈ cursors := by
  obtain ⟨i, bs, hget, -⟩ := mem_heads.mp hp
  exact hin _ (List.mem_of_getElem? hget) p.2 List.mem_cons_self

include hd

theorem compareNodeRefs_settles {n m : KeyedNode} (hn : n.ref.cursor ∈ cursors)
    (hm : m.ref.cursor ∈ cursors) :
    KeyCompare (Remembers cursors) (fun _ => False) compareNodeRefs KeyedNode.key KeyedNode.ref n m := by
  obtain ⟨enough, hcompare⟩ := compareNodes_eq hd hn hm n.stands m.stands
  have hsettles : Settles (Remembers cursors) (fun _ => False)
      (fun fuel => compareNodeRefs fuel n.ref m.ref) (.ok (byteOrder n.key m.key)) :=
    ⟨enough, fun fuel hfuel session hsession => .inl (hcompare fuel hfuel session hsession)⟩
  unfold KeyCompare
  rcases lt_trichotomy n.key m.key with hlt | heq | hgt
  · rw [(byteOrder_lt_iff _ _).mpr hlt] at hsettles
    rw [(cmp_eq_lt_iff _ _).mpr hlt]
    exact hsettles
  · rw [(byteOrder_eq_iff _ _).mpr heq] at hsettles
    rw [(cmp_eq_eq_iff _ _).mpr heq]
    exact hsettles
  · rw [(byteOrder_gt_iff _ _).mpr hgt] at hsettles
    rw [(cmp_eq_gt_iff _ _).mpr hgt]
    exact hsettles

/-- The rounds of the merge are those of the union, named in turn. -/
theorem nameNodes_settles {rounds : Nat} (next : Nat)
    (hin : ∀ group ∈ groups, NodesAmong cursors group) (hrounds : groups.flatten.length < rounds) :
    Settles (Remembers cursors) (fun _ => False)
      (fun fuel => nameNodes fuel rounds next (groups.map (List.map KeyedNode.ref)))
      (.ok ((namedRounds next (unionRounds KeyedNode.key rounds groups)).map
        (Prod.map (List.map KeyedNode.ref) id))) := by
  induction rounds generalizing groups next with
  | zero => exact absurd hrounds (Nat.not_lt_zero _)
  | succ rounds ih =>
    unfold unionRounds nameNodes
    rw [heads_map]
    cases hk : leastKey KeyedNode.key groups with
    | none =>
      rw [heads_nil_of_none hk]
      exact .pure
    | some k =>
      cases hheads : heads 0 groups with
      | nil => exact absurd hheads (heads_ne_nil hk)
      | cons first others =>
        obtain ⟨hkey, -⟩ := leastFrom_heads hk hheads
        have hfind := leastFrom_heads_find hk hheads
        have hleast := leastFrom_mem (fun p : Nat × KeyedNode => p.2.key) first others
        have hscan : Settles (Remembers cursors) (fun _ => False)
            (fun fuel => leastOf (fun candidate least => compareNodeRefs fuel candidate.2 least.2)
              (Prod.map id KeyedNode.ref first) (others.map (Prod.map id KeyedNode.ref)))
            (.ok (Prod.map id KeyedNode.ref
              (leastFrom (fun p : Nat × KeyedNode => p.2.key) first others))) := by
          apply leastOf_settles
          intro a ha b hb
          rw [← hheads] at ha hb
          exact compareNodeRefs_settles hd (nodesAmong_heads hin ha) (nodesAmong_heads hin hb)
        generalize leastFrom (fun p : Nat × KeyedNode => p.2.key) first others = least at *
        rw [← hheads] at hleast
        obtain ⟨i, bs, hget, hi⟩ := mem_heads.mp hleast
        obtain rfl : i = least.1 := by omega
        have hmoves : Settles (Remembers cursors) (fun _ => False)
            (fun fuel => takeHeads (compareNodeRefs fuel) (least.1, least.2.ref) 0
              (groups.map (List.map KeyedNode.ref))) _ :=
          takeHeads_settles hkey groups (fun group hgroup n hn =>
            compareNodeRefs_settles hd (hin group hgroup n hn) (nodesAmong_heads hin hleast)) 0 (by
              intro x bs' _ hx
              rw [Nat.sub_zero, hget] at hx
              cases hx
              exact hkey)
        have hin' : ∀ group ∈ groups.map (tailWith KeyedNode.key k), NodesAmong cursors group := by
          intro group hgroup
          obtain ⟨whole, hwhole, rfl⟩ := List.mem_map.mp hgroup
          exact fun n hn => hin whole hwhole n (tailWith_subset hn)
        have hshorter := flatten_tails_lt (List.mem_of_getElem? hget) hkey
        rw [namedRounds_cons, ← othersFrom_first hfind]
        exact hscan.bind (hmoves.bind ((ih (next + 1) hin' (by omega)).bind .pure))

/-- What the merge of ascending groups returns. -/
theorem mergeNodeGroups_settles (hin : ∀ group ∈ groups, NodesAmong cursors group)
    (hstrict : ∀ group ∈ groups, StrictOn KeyedNode.key group) :
    Settles (Remembers cursors) (fun _ => False)
      (fun fuel => mergeNodeGroups fuel (groups.map (List.map KeyedNode.ref)))
      (.ok ((namedRounds 2147483648
        (unionRounds KeyedNode.key (groups.flatten.length + 1) groups)).map
          (Prod.map (List.map KeyedNode.ref) id))) := by
  have hcheck : Settles (Remembers cursors) (fun _ => False)
      (fun fuel => checkAllAscending (compareNodeRefs fuel) (.snapshotCompatibility nodesNotStrict [])
        (groups.map (List.map KeyedNode.ref))) _ :=
    checkAllAscending_settles groups fun group hgroup n hn m hm =>
      compareNodeRefs_settles hd (hin group hgroup n hn) (hin group hgroup m hm)
  rw [if_pos hstrict] at hcheck
  have hlength : (groups.map (List.map KeyedNode.ref)).flatten.length = groups.flatten.length := by
    simp only [List.length_flatten, List.map_map, Function.comp_def, List.length_map]
  unfold mergeNodeGroups
  rw [hlength]
  exact hcheck.bind (nameNodes_settles hd 2147483648 hin (Nat.lt_succ_self groups.flatten.length))

/-- Groups that do not all ascend are refused. -/
theorem mergeNodeGroups_refuses (hin : ∀ group ∈ groups, NodesAmong cursors group)
    (hstrict : ¬∀ group ∈ groups, StrictOn KeyedNode.key group) :
    Settles (Remembers cursors) (fun _ => False)
      (fun fuel => mergeNodeGroups fuel (groups.map (List.map KeyedNode.ref)))
      (.error (.snapshotCompatibility nodesNotStrict [])) := by
  have hcheck : Settles (Remembers cursors) (fun _ => False)
      (fun fuel => checkAllAscending (compareNodeRefs fuel) (.snapshotCompatibility nodesNotStrict [])
        (groups.map (List.map KeyedNode.ref))) _ :=
    checkAllAscending_settles groups fun group hgroup n hn m hm =>
      compareNodeRefs_settles hd (hin group hgroup n hn) (hin group hgroup m hm)
  rw [if_neg hstrict] at hcheck
  exact hcheck.bindError

/-- What the merge of some groups of nodes returns: a name for every identity, or that a group
does not ascend. -/
theorem merge_node_groups_named {arity : Nat → Nat} {session : Session}
    (hreached : session.Reached arity cursors)
    (hin : ∀ group ∈ groups, NodesAmong cursors group) :
    ((∀ group ∈ groups, StrictOn KeyedNode.key group) ∧
      ∃ named, DenselyNamed groups named ∧
        (∀ entry ∈ named, ∀ n ∈ entry.1, ∀ other ∈ named, ∀ m ∈ other.1,
          entry.2 = other.2 ↔ n.term = m.term) ∧
        ∃ enough, ∀ fuel, enough ≤ fuel → ∃ session',
          (mergeNodeGroups fuel (groups.map (List.map KeyedNode.ref))).run session =
            some (.ok (session', named.map (Prod.map (List.map KeyedNode.ref) id)))) ∨
    (¬∀ group ∈ groups, StrictOn KeyedNode.key group) ∧
      ∃ enough, ∀ fuel, enough ≤ fuel →
        (mergeNodeGroups fuel (groups.map (List.map KeyedNode.ref))).run session =
          some (reject nodesNotStrict) := by
  have hremembers := hreached.remembers hd
  by_cases hstrict : ∀ group ∈ groups, StrictOn KeyedNode.key group
  · have hnamed := densely_named hstrict
    obtain ⟨enough, hsettles⟩ := mergeNodeGroups_settles hd hin hstrict
    refine .inl ⟨hstrict, _, hnamed, fun entry hentry n hn other hother m hm =>
      hnamed.name_eq_iff hentry hother hn hm, enough, fun fuel hfuel => ?_⟩
    rcases hsettles fuel hfuel session hremembers with ⟨session', -, hok⟩ | ⟨_, hrefused, -⟩
    · exact ⟨session', hok⟩
    · exact absurd hrefused id
  · obtain ⟨enough, hsettles⟩ := mergeNodeGroups_refuses hd hin hstrict
    refine .inr ⟨hstrict, enough, fun fuel hfuel => ?_⟩
    rcases hsettles fuel hfuel session hremembers with herror | ⟨_, hrefused, -⟩
    · exact herror
    · exact absurd hrefused id

end Merge

section Sample

def plainScope : Bytes := List.replicate 32 0

/-- One anonymous individual with a local key of one byte. -/
def anonymousTable (localKey : UInt8) : Columns :=
  ⟨[ROOT_AXIOM], [1], [3], [0, 2], [COMPONENT_BYTES, COMPONENT_BYTES], [0, 32], [32, 1], [], [], [],
    plainScope ++ [localKey], 8, 8, id⟩

def anonymousCursor (identity : Nat) (localKey : UInt8) : Cursor :=
  ⟨identity, anonymousTable localKey, fun _ => none⟩

def anonymousNode (identity : Nat) (localKey : UInt8) : KeyedNode :=
  ⟨⟨anonymousCursor identity localKey, 1⟩,
    .mk 3 [.scalar .bytes plainScope, .scalar .bytes [localKey]], ⟨1, rfl⟩⟩

/-- Three tables, of which two hold the same individual. -/
def sharedGroups : List (List KeyedNode) :=
  [[anonymousNode 0 97], [anonymousNode 1 98], [anonymousNode 2 97]]

def sharedCursors : List Cursor := [anonymousCursor 0 97, anonymousCursor 1 98, anonymousCursor 2 97]

theorem shared_distinct : Distinct sharedCursors := by
  intro c hc d hd h
  simp only [sharedCursors, List.mem_cons, List.not_mem_nil, or_false] at hc hd
  rcases hc with rfl | rfl | rfl <;> rcases hd with rfl | rfl | rfl <;> first | rfl | cases h

theorem shared_among : ∀ group ∈ sharedGroups, NodesAmong sharedCursors group := by
  intro group hgroup n hn
  simp only [sharedGroups, List.mem_cons, List.not_mem_nil, or_false] at hgroup
  rcases hgroup with rfl | rfl | rfl <;>
    rw [List.mem_singleton.mp hn] <;> simp [anonymousNode, sharedCursors]

theorem shared_strict : ∀ group ∈ sharedGroups, StrictOn KeyedNode.key group := by
  intro group hgroup
  simp only [sharedGroups, List.mem_cons, List.not_mem_nil, or_false] at hgroup
  rcases hgroup with rfl | rfl | rfl <;> exact List.pairwise_singleton _ _

/-- An individual that two of three tables hold has one name. -/
theorem merge_node_groups_named_shared :
    ∃ named, DenselyNamed [[anonymousNode 0 97], [anonymousNode 1 98], [anonymousNode 2 97]]
      named := by
  rcases merge_node_groups_named shared_distinct
    (Session.Reached.start : Session.Reached (fun _ => 2) _ _) shared_among with
    ⟨-, named, hnamed, -⟩ | ⟨hnot, -⟩
  · exact ⟨named, hnamed⟩
  · exact absurd shared_strict hnot

end Sample

end Projector.Encoded
