import Projector.Encoded.CanonicalCode
import Projector.Native.ByteCursor
import Projector.Native.ScopeSearch

namespace Projector.Native
open Lib Projector.Core Projector.Encoded

section Code
variable {β : Type} {m : Meter β} {d : DirectColumns} {lengths : Nat → Nat} {depth id : Nat}
  {t : Term}

/-- The byte cursor of a built table gives out the code of the term of a node, unless the
meter refuses. -/
theorem canonicalBytes_eq {scopeMap : Bytes → Option Bytes}
    (htable : Table d scopeMap depth lengths)
    (hscope : ∀ scope, d.remapAnonymousScope scope = (scopeMap scope).getD scope)
    (hanonymous : BytesScopes d) (ht : d.columns.Stands scopeMap id t) (hne : lengths id ≠ 0) :
    ∃ enough, ∀ fuel, enough ≤ fuel → ∀ budget,
      Answers (fun _ => True) (Refusal m) (canonicalBytes m d lengths fuel budget id) t.encode := by
  obtain ⟨terms, ht⟩ := ht
  have hemits : Emits m d lengths [.node id] (t.encode ++ []) :=
    emits_node htable hscope hanonymous terms id t ht hne [] [] emits_end
  rw [List.append_nil] at hemits
  obtain ⟨enough, hdrain⟩ := hemits.drained
  refine ⟨enough, fun fuel hfuel budget => ?_⟩
  unfold canonicalBytes
  obtain ⟨budget', hpush⟩ | ⟨e, he, hpush⟩ := Gives.push (m := m) (.node id) [] budget
  · rw [hpush]
    exact hdrain fuel hfuel budget' trivial
  · exact .inr ⟨e, he, by rw [hpush]⟩

end Code

/-- The canonical byte stream is a faithful code. After any run of requests two nodes
stream as many bytes as was measured, equal bytes only if they stand for one term and no
bytes that the other's only begin with, and they compare in the order of their bytes. The
native cursor of a table that is built streams the same bytes. -/
theorem canonical_stream_faithful (arity : Nat → Nat) {cursors : List Cursor}
    (hdistinct : Distinct cursors) {session : Encoded.Session}
    (hreached : Encoded.Session.Reached arity cursors session) {c d : Cursor} (hc : c ∈ cursors)
    (hd : d ∈ cursors) {i j : Nat} (hi : Coded arity c i) (hj : Coded arity d j) :
    ∃ s t, c.columns.Stands c.scopeMap i s ∧ d.columns.Stands d.scopeMap j t ∧
      (∃ lengths, c.nodeLength (session.lengths c.identity) i =
        .ok (s.encode.length, lengths)) ∧
      (∃ enough, ∀ fuel, enough ≤ fuel → ∃ session',
        c.nodeBytes fuel session i = some (.ok (session', s.encode))) ∧
      (∃ enough, ∀ fuel, enough ≤ fuel → ∃ session',
        d.nodeBytes fuel session j = some (.ok (session', t.encode))) ∧
      (s.encode = t.encode ↔ s = t) ∧ (s.encode <+: t.encode → s = t) ∧
      (∃ order enough,
        (∀ fuel, enough ≤ fuel → ∃ session',
          compareNodes fuel session c i d j = some (.ok (session', order))) ∧
        (order = .eq ↔ s = t) ∧ (order = .lt ↔ s.encode < t.encode) ∧
        (order = .gt ↔ t.encode < s.encode)) ∧
      ∀ (β : Type) (m : Meter β) (value : Bytes) (lengths : Nat → Nat) (built : Nat)
        (before after : β), validateScopeMap value = .ok () → c.scopeMap = scopeMapOf value →
        BytesScopes (.ofTable c.columns value) →
        buildLengths m (.ofTable c.columns value) built before = .ok (some lengths, after) →
        ∃ enough, ∀ fuel, enough ≤ fuel → ∀ budget,
          Answers (fun _ => True) (Refusal m)
            (canonicalBytes m (.ofTable c.columns value) lengths fuel budget i) s.encode := by
  obtain ⟨s, hs, hsfits⟩ := hi.stands
  obtain ⟨t, ht, htfits⟩ := hj.stands
  have hremembers := hreached.remembers hdistinct
  obtain ⟨lengths, -, hlength⟩ := nodeLength_eq (hremembers c hc) hs
  obtain ⟨enoughLeft, hleft⟩ := nodeBytes_eq hdistinct hc hs
  obtain ⟨enoughRight, hright⟩ := nodeBytes_eq hdistinct hd ht
  obtain ⟨enough, hcompare⟩ := compareNodes_eq hdistinct hc hd hs ht
  have hinj : s.encode = t.encode ↔ s = t :=
    ⟨Term.encode_inj, fun he => he ▸ rfl⟩
  refine ⟨s, t, hs, ht, ⟨lengths, hlength⟩, ⟨enoughLeft, fun fuel hfuel => ?_⟩,
    ⟨enoughRight, fun fuel hfuel => ?_⟩, hinj, Term.prefix_free hsfits htfits,
    ⟨byteOrder s.encode t.encode, enough, fun fuel hfuel => ?_,
      (byteOrder_eq_iff _ _).trans hinj, byteOrder_lt_iff _ _, byteOrder_gt_iff _ _⟩, ?_⟩
  · obtain ⟨session', -, hbytes⟩ := hleft fuel hfuel session hremembers
    exact ⟨session', hbytes⟩
  · obtain ⟨session', -, hbytes⟩ := hright fuel hfuel session hremembers
    exact ⟨session', hbytes⟩
  · obtain ⟨session', -, horder⟩ := hcompare fuel hfuel session hremembers
    exact ⟨session', horder⟩
  · intro β m value lengths built before after hvalid hmap hscopes hbuilt
    have hrows : Rows32 c.scopeMap := hmap ▸ rows32_scopeMapOf value
    obtain ⟨⟨depth, htable⟩, hall⟩ := buildLengths_ok hrows hbuilt
    refine canonicalBytes_eq htable (fun scope => ?_) hscopes hs (hall i hi.inRange)
    rw [hmap]
    exact remapAnonymousScope_eq c.columns (ascending_of_valid hvalid) scope

section Samples

/-- Eight little-endian bytes of a small number. -/
def wide (n : UInt8) : Bytes := [n, 0, 0, 0, 0, 0, 0, 0]

/-- A table with nodes and fields only, whose first node is its root. -/
def fieldTable (tags offsets kinds values lengths : List UInt8) (scalars : Bytes) : Buffers
  | .rootKinds => [2]
  | .rootIds => [1, 0, 0, 0]
  | .nodeTags => tags.flatMap fun tag => [tag, 0]
  | .nodeFieldOffsets => offsets.flatMap wide
  | .fieldKinds => kinds
  | .fieldValues => values.flatMap wide
  | .fieldLengths => lengths.flatMap wide
  | .scalarBytes => scalars
  | _ => []

def tableOf (b : Buffers) : Columns := columnsOf b 0 0 id

def noLimits : SourceView := ⟨0, .exact 2, fun _ => none, none⟩

theorem cellAt_kind {cols : Columns} {index : Nat} {item : Bool} {row : ComponentRow}
    (h : cols.cellAt index item = some row) : row.kind ∈ cols.buffer (kindsOf item) := by
  unfold Columns.cellAt at h
  obtain ⟨kind, hkind, h⟩ := Option.bind_eq_some_iff.mp h
  obtain ⟨value, -, h⟩ := Option.bind_eq_some_iff.mp h
  obtain ⟨length, -, h⟩ := Option.bind_eq_some_iff.mp h
  cases h
  exact List.mem_of_getElem? hkind

/-- An integer with an idle byte. -/
def idleInteger : Buffers := fieldTable [1] [0, 1] [4] [0] [2] [1, 0]

/-- An anonymous individual whose document scope is text. -/
def textScope : Buffers := fieldTable [3] [0, 2] [2, 2] [0, 1] [1, 1] [97, 98]

/-- The complement of a class, after its name. -/
def complement : Buffers := fieldTable [1, 32] [0, 1, 2] [2, 1] [0, 1] [1, 0] [97]

def pythonCursor (b : Buffers) : Cursor := ⟨0, tableOf b, scopeMapOf []⟩

theorem no_children {b : Buffers} (hfields : COMPONENT_NODE ∉ (tableOf b).fieldKinds)
    (hitems : COMPONENT_NODE ∉ (tableOf b).itemKinds) {n child : Nat} :
    ¬(tableOf b).HasChild n child := by
  intro hchild
  obtain ⟨index, item, length, -, hcell⟩ := hchild
  have hkind := cellAt_kind hcell
  cases item with
  | false => exact hfields hkind
  | true => exact hitems hkind

theorem acyclic_of_no_children {cols : Columns} {id : Nat}
    (h : ∀ n child, ¬cols.HasChild n child) : cols.Acyclic id := by
  intro n _ hcycle
  obtain ⟨m, hchild, -⟩ := Relation.TransGen.head'_iff.mp hcycle
  exact h n m hchild

theorem minimal_of_no_integers {b : Buffers} (hfields : COMPONENT_INTEGER ∉ (tableOf b).fieldKinds)
    (hitems : COMPONENT_INTEGER ∉ (tableOf b).itemKinds) {id : Nat} :
    (tableOf b).MinimalIntegers id := by
  intro n _ index item offset length payload _ hcell _
  have hkind := cellAt_kind hcell
  cases item with
  | false => exact absurd hkind hfields
  | true => exact absurd hkind hitems

theorem oneNode_arity {b : Buffers} {stop : Nat} (hcount : (tableOf b).nodeCount = 1)
    (hrange : (tableOf b).rangeAt 1 = some (0, stop)) :
    (tableOf b).FixedArity fun _ => stop := by
  intro id first last tag h _
  have hin := Columns.rangeAt_inside h
  obtain rfl : id = 1 := by omega
  rw [hrange] at h
  cases h
  rfl

theorem textScope_coded : Coded (fun _ => 2) (pythonCursor textScope) 1 where
  validated := ⟨textScope, noLimits, 0, 1, 0, 0, id, rfl, rfl⟩
  arity := oneNode_arity rfl rfl
  inRange := by decide
  acyclic := acyclic_of_no_children fun _ _ => no_children (by decide) (by decide)
  minimal := minimal_of_no_integers (by decide) (by decide)

/-- Validation lets two tables pass that are not streamed alike: one has an integer that the
cursor refuses to measure, the other a document scope that only the native cursor refuses. -/
theorem canonical_stream_refused :
    (validateColumnReferences idleInteger noLimits 0 = .ok 1 ∧
      (tableOf idleInteger).FixedArity (fun _ => 1) ∧ (tableOf idleInteger).Acyclic 1 ∧
      (pythonCursor idleInteger).nodeLength (fun _ => none) 1 = reject Cursor.nonminimalInteger ∧
      (pythonCursor idleInteger).nodeBytes 100 Encoded.Session.start 1 =
        some (reject Cursor.nonminimalInteger)) ∧
    Coded (fun _ => 2) (pythonCursor textScope) 1 ∧
      (∃ session, (pythonCursor textScope).nodeBytes 100 Encoded.Session.start 1 =
        some (.ok (session, [3, 2, 1, 97, 2, 1, 98]))) ∧
      ∃ lengths, buildLengths freeMeter (.ofTable (tableOf textScope) []) 100 () =
          .ok (some lengths, ()) ∧
        canonicalBytes freeMeter (.ofTable (tableOf textScope) []) lengths 100 () 1 =
          some (.error (.malformed "encoded anonymous scope is not a bytes component")) :=
  ⟨⟨rfl, oneNode_arity rfl rfl,
      acyclic_of_no_children fun _ _ => no_children (by decide) (by decide), rfl, rfl⟩,
    textScope_coded, ⟨_, rfl⟩, _, rfl, rfl⟩

theorem complement_child {n child : Nat} (h : (tableOf complement).HasChild n child) :
    n = 2 ∧ child = 1 := by
  obtain ⟨index, item, length, hown, hcell⟩ := h
  cases hown with
  | item _ hrow hkind =>
    have hmem : _ ∈ (tableOf complement).itemKinds := cellAt_kind hcell
    cases hmem
  | @field start stop index hrange hindex =>
    have hin := Columns.rangeAt_inside hrange
    have hnodes : (tableOf complement).nodeCount = 2 := rfl
    obtain rfl | rfl : n = 1 ∨ n = 2 := by omega
    · obtain ⟨rfl, rfl⟩ : 0 = start ∧ 1 = stop := by
        simpa using (show some (0, 1) = some (start, stop) from hrange)
      obtain rfl : index = 0 := by omega
      cases hcell
    · obtain ⟨rfl, rfl⟩ : 1 = start ∧ 2 = stop := by
        simpa using (show some (1, 2) = some (start, stop) from hrange)
      obtain rfl : index = 1 := by omega
      cases hcell
      exact ⟨rfl, rfl⟩

theorem complement_coded {id : Nat} (hid : 1 ≤ id ∧ id ≤ 2) :
    Coded (fun _ => 1) (pythonCursor complement) id where
  validated := ⟨complement, noLimits, 0, 1, 0, 0, _, rfl, rfl⟩
  arity := by
    intro id first last tag h _
    have hin := Columns.rangeAt_inside h
    have hnodes : (tableOf complement).nodeCount = 2 := rfl
    obtain rfl | rfl : id = 1 ∨ id = 2 := by
      have : (pythonCursor complement).columns.nodeCount = 2 := rfl
      omega
    · cases h
      rfl
    · cases h
      rfl
  inRange := hid
  acyclic := by
    intro n _ hcycle
    obtain ⟨m, hfirst, -⟩ := Relation.TransGen.head'_iff.mp hcycle
    obtain ⟨k, -, hlast⟩ := Relation.TransGen.tail'_iff.mp hcycle
    have hfrom := (complement_child hfirst).1
    have hto := (complement_child hlast).2
    omega
  minimal := minimal_of_no_integers (by decide) (by decide)

theorem complement_scopes : BytesScopes (.ofTable (tableOf complement) []) := by
  intro id start stop hrange _ htag
  have hin := Columns.rangeAt_inside hrange
  have hnodes : (tableOf complement).nodeCount = 2 := rfl
  have hin : 1 ≤ id ∧ id ≤ 2 := hin
  obtain rfl | rfl : id = 1 ∨ id = 2 := by omega
  · exact absurd (show some 1 = some _ from htag) (by decide)
  · exact absurd (show some 32 = some _ from htag) (by decide)

theorem canonical_stream_faithful_sample :
    ∃ s t, (tableOf complement).Stands (scopeMapOf []) 1 s ∧
      (tableOf complement).Stands (scopeMapOf []) 2 t ∧ (s.encode = t.encode ↔ s = t) ∧
      ∃ lengths enough, ∀ fuel, enough ≤ fuel →
        Answers (fun _ => True) (Refusal freeMeter)
          (canonicalBytes freeMeter (.ofTable (tableOf complement) []) lengths fuel () 1)
          s.encode := by
  have hdistinct : Distinct [pythonCursor complement] := by simp [Distinct]
  have hmem : pythonCursor complement ∈ [pythonCursor complement] := List.mem_cons_self
  obtain ⟨s, t, hs, ht, -, -, -, hinj, -, -, hnative⟩ :=
    canonical_stream_faithful (fun _ => 1) hdistinct .start hmem hmem
      (complement_coded (show 1 ≤ 1 ∧ 1 ≤ 2 by omega))
      (complement_coded (show 1 ≤ 2 ∧ 2 ≤ 2 by omega))
  obtain ⟨enough, hanswers⟩ :=
    hnative Unit freeMeter [] _ 100 () () rfl rfl complement_scopes rfl
  exact ⟨s, t, hs, ht, hinj, _, enough, fun fuel hfuel => hanswers fuel hfuel ()⟩

end Samples

end Projector.Native
