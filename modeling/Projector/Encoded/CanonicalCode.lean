import Projector.Encoded.CanonicalGround
import Projector.Encoded.CanonicalStream

namespace Projector.Encoded
open Lib Projector.Core Compiler

/-- Every node has as many fields as its constructor asks for. -/
def Columns.FixedArity (cols : Columns) (arity : Nat → Nat) : Prop :=
  ∀ id start stop tag, cols.rangeAt id = some (start, stop) →
    cols.nodeTags[id - 1]? = some tag → stop - start = arity tag

section Fitting
variable {cols : Columns} {arity : Nat → Nat} {scopeMap : Bytes → Option Bytes}
  {term : Nat → Option Term} {rescope : Bytes → Bytes}

theorem LeafView.fits {cell : ComponentRow} {p : Piece}
    (h : LeafView cols term rescope cell p)
    (hterm : ∀ id t, term id = some t → t.Fits arity) : p.Fits arity := by
  cases h with
  | none => trivial
  | node ht => exact hterm _ _ ht
  | scalar => trivial
  | integer => trivial

theorem memberTerms_fit {indices : List Nat} {items : List Term}
    (h : List.Forall₂ (fun j t => cols.memberTerm term j = some t) indices items)
    (hterm : ∀ id t, term id = some t → t.Fits arity) : Term.FitsAll arity items := by
  induction h with
  | nil => trivial
  | cons hmember _ ih =>
    obtain ⟨id, -, ht⟩ := memberTerm_some hmember
    exact ⟨hterm id _ ht, ih⟩

theorem itemPieces_fit {indices : List Nat} {items : List Piece}
    (h : List.Forall₂ (fun j p => cols.itemPiece term j = some p) indices items)
    (hterm : ∀ id t, term id = some t → t.Fits arity) : Piece.FitsAll arity items := by
  induction h with
  | nil => trivial
  | cons hpiece _ ih =>
    obtain ⟨_, -, hleaf⟩ := itemPiece_some hpiece
    exact ⟨hleaf.fits hterm, ih⟩

theorem FieldView.fits {cell : ComponentRow} {p : Piece}
    (h : FieldView cols term rescope cell p)
    (hterm : ∀ id t, term id = some t → t.Fits arity) : p.Fits arity := by
  cases h with
  | leaf hleaf => exact hleaf.fits hterm
  | set _ hitems => exact memberTerms_fit (mapM_some.mp hitems) hterm
  | sequence _ hitems => exact itemPieces_fit (mapM_some.mp hitems) hterm

theorem fields_fit {fuel start tag : Nat} {indices : List Nat} {fields : List Piece}
    (h : List.Forall₂ (fun index p => cols.fieldPiece (cols.termAt scopeMap fuel)
      (Columns.rescopeOf scopeMap tag start index) index = some p) indices fields)
    (hterm : ∀ id t, cols.termAt scopeMap fuel id = some t → t.Fits arity) :
    Piece.FitsAll arity fields := by
  induction h with
  | nil => trivial
  | cons hpiece _ ih =>
    obtain ⟨_, -, hview⟩ := fieldPiece_some hpiece
    exact ⟨hview.fits hterm, ih⟩

/-- In a table of fixed arity the terms have fixed arity. -/
theorem termAt_fits (harity : cols.FixedArity arity) (fuel : Nat) :
    ∀ id t, cols.termAt scopeMap fuel id = some t → t.Fits arity := by
  induction fuel with
  | zero =>
    intro id t h
    cases h
  | succ fuel ih =>
    intro id t h
    obtain ⟨previous, start, stop, tag, fields, hfuel, rfl, hview⟩ := termAt_some h
    obtain rfl := Nat.succ.inj hfuel
    have hcount : stop - start = fields.length := by simpa using hview.fields.length_eq
    exact ⟨hcount ▸ harity id start stop tag hview.range hview.tagged, fields_fit hview.fields ih⟩

end Fitting

/-- A node of a validated table under which there is no cycle and no integer with idle
bytes. -/
structure Coded (arity : Nat → Nat) (c : Cursor) (id : Nat) : Prop where
  validated : ∃ buffers owner localBufferBytes rootCount maxIriBytes maxLiteralBytes lowered,
    validateColumnReferences buffers owner localBufferBytes = .ok rootCount ∧
    c.columns = columnsOf buffers maxIriBytes maxLiteralBytes lowered
  arity : c.columns.FixedArity arity
  inRange : 1 ≤ id ∧ id ≤ c.columns.nodeCount
  acyclic : c.columns.Acyclic id
  minimal : c.columns.MinimalIntegers id

theorem Coded.stands {arity : Nat → Nat} {c : Cursor} {id : Nat} (h : Coded arity c id) :
    ∃ t, c.columns.Stands c.scopeMap id t ∧ t.Fits arity := by
  obtain ⟨buffers, owner, localBufferBytes, rootCount, maxIriBytes, maxLiteralBytes, lowered,
    hvalid, hcolumns⟩ := h.validated
  have hshows : Shows buffers c.columns :=
    hcolumns ▸ columnsOf_shows buffers maxIriBytes maxLiteralBytes lowered
  obtain ⟨t, fuel, ht⟩ := stands_of_acyclic (referenced_of_ok hvalid).1 hshows c.scopeMap
    (hshows.nodeCount ▸ h.inRange) h.acyclic h.minimal
  exact ⟨t, ⟨fuel, ht⟩, termAt_fits h.arity fuel id t ht⟩

section Answers
variable {cursors : List Cursor} {session : Session} {c d : Cursor} {i j : Nat} {s t : Term}

/-- What a stream that is never refused answers. -/
theorem answers_ok {μ α ε : Type} {Keeps : μ → Prop} {result : Option (Except ε (μ × α))} {a : α}
    (h : Answers Keeps (fun _ => False) result a) :
    ∃ memory, Keeps memory ∧ result = some (.ok (memory, a)) := by
  obtain hok | ⟨_, hfalse, _⟩ := h
  · exact hok
  · exact absurd hfalse id

theorem iterNodeBytes_eq (hd : Distinct cursors) (hc : c ∈ cursors) (hs : Remembers cursors session)
    (ht : c.columns.Stands c.scopeMap i t) :
    ∃ session', Remembers cursors session' ∧
      c.iterNodeBytes session i = .ok (session', [c.nodeParts i]) := by
  obtain ⟨lengths, hsound, hlength⟩ := nodeLength_eq (hs c hc) ht
  refine ⟨session.remember c.identity lengths, hs.remember hd hc hsound, ?_⟩
  unfold Cursor.iterNodeBytes
  rw [ok_bind _ hlength]
  rfl

theorem yields_start (hd : Distinct cursors) (hc : c ∈ cursors)
    (ht : c.columns.Stands c.scopeMap i t) : Yields cursors c [c.nodeParts i] t.encode := by
  obtain ⟨fuel, ht⟩ := ht
  have hyields := yields_node hd hc fuel i t ht [] [] yields_end
  rwa [List.append_nil] at hyields

theorem nodeBytes_eq (hd : Distinct cursors) (hc : c ∈ cursors)
    (ht : c.columns.Stands c.scopeMap i t) :
    ∃ enough, ∀ fuel, enough ≤ fuel → ∀ session, Remembers cursors session →
      ∃ session', Remembers cursors session' ∧
        c.nodeBytes fuel session i = some (.ok (session', t.encode)) := by
  obtain ⟨enough, hdrain⟩ := (yields_start hd hc ht).drained
  refine ⟨enough, fun fuel hfuel session hs => ?_⟩
  obtain ⟨started, hstarted, hiter⟩ := iterNodeBytes_eq hd hc hs ht
  obtain ⟨session', hs', hbytes⟩ := answers_ok (hdrain fuel hfuel started hstarted)
  refine ⟨session', hs', ?_⟩
  unfold Cursor.nodeBytes
  rw [hiter]
  exact hbytes

theorem countByte_remembers (hs : Remembers cursors session) :
    ∃ session', Remembers cursors session' ∧ countByte session = .ok session' :=
  ⟨{ session with bytesCompared := session.bytesCompared + 1 }, hs, rfl⟩

/-- Nodes compare as the codes of their terms do. -/
theorem compareNodes_eq (hd : Distinct cursors) (hc : c ∈ cursors) (hdc : d ∈ cursors)
    (hi : c.columns.Stands c.scopeMap i s) (hj : d.columns.Stands d.scopeMap j t) :
    ∃ enough, ∀ fuel, enough ≤ fuel → ∀ session, Remembers cursors session →
      ∃ session', Remembers cursors session' ∧
        compareNodes fuel session c i d j =
          some (.ok (session', byteOrder s.encode t.encode)) := by
  by_cases hsame : c.identity = d.identity ∧ i = j
  · obtain ⟨hidentity, rfl⟩ := hsame
    obtain rfl := hd c hc d hdc hidentity
    obtain rfl := hi.unique hj
    refine ⟨0, fun fuel _ session hs => ⟨session, hs, ?_⟩⟩
    unfold compareNodes
    rw [if_pos ⟨rfl, rfl⟩, (byteOrder_eq_iff _ _).mpr rfl]
  · obtain ⟨enough, hcompare⟩ := Streams.compared (fun memory hm => .inl (countByte_remembers hm))
      (yields_start hd hc hi) (yields_start hd hdc hj)
    refine ⟨enough, fun fuel hfuel session hs => ?_⟩
    obtain ⟨left, hleft, hiterLeft⟩ := iterNodeBytes_eq hd hc hs hi
    obtain ⟨right, hright, hiterRight⟩ := iterNodeBytes_eq hd hdc hleft hj
    obtain ⟨session', hs', horder⟩ := answers_ok (hcompare fuel hfuel right hright)
    refine ⟨session', hs', ?_⟩
    unfold compareNodes
    simp only [if_neg hsame, hiterLeft, hiterRight]
    exact horder

end Answers

/-- The sessions of a run of requests, made one after another about coded nodes. -/
inductive Session.Reached (arity : Nat → Nat) (cursors : List Cursor) : Session → Prop where
  | start : Reached arity cursors Session.start
  | length {session : Session} {c : Cursor} {i n : Nat} {lengths : Lengths}
      (h : Reached arity cursors session) (hc : c ∈ cursors) (hi : Coded arity c i)
      (hr : c.nodeLength (session.lengths c.identity) i = .ok (n, lengths)) :
      Reached arity cursors (session.remember c.identity lengths)
  | bytes {session session' : Session} {c : Cursor} {i fuel : Nat} {bytes : Bytes}
      (h : Reached arity cursors session) (hc : c ∈ cursors) (hi : Coded arity c i)
      (hr : c.nodeBytes fuel session i = some (.ok (session', bytes))) :
      Reached arity cursors session'
  | compare {session session' : Session} {c d : Cursor} {i j fuel : Nat} {order : Ordering}
      (h : Reached arity cursors session) (hc : c ∈ cursors) (hdc : d ∈ cursors)
      (hi : Coded arity c i) (hj : Coded arity d j)
      (hr : compareNodes fuel session c i d j = some (.ok (session', order))) :
      Reached arity cursors session'

section Runs
variable {arity : Nat → Nat} {cursors : List Cursor} {session session' : Session} {c d : Cursor}
  {i j fuel more : Nat}

theorem nodeBytes_more {r : Read (Session × Bytes)} (h : c.nodeBytes fuel session i = some r)
    (hle : fuel ≤ more) : c.nodeBytes more session i = some r := by
  unfold Cursor.nodeBytes at h ⊢
  split at h
  · exact h
  · exact drain_more h hle

theorem compareNodes_more {r : Read (Session × Ordering)}
    (h : compareNodes fuel session c i d j = some r) (hle : fuel ≤ more) :
    compareNodes more session c i d j = some r := by
  unfold compareNodes at h ⊢
  split at h
  · rename_i hsame
    rw [if_pos hsame]
    exact h
  · rename_i hsame
    rw [if_neg hsame]
    split at h
    · exact h
    · split at h
      · exact h
      · exact compareStreams_more h hle

/-- After any run of requests what the cursors remember is right. -/
theorem Session.Reached.remembers (hd : Distinct cursors)
    (h : Session.Reached arity cursors session) : Remembers cursors session := by
  induction h with
  | start => exact remembers_start
  | @length session c i n lengths _ hc hi hr ih =>
    obtain ⟨t, ht, -⟩ := hi.stands
    obtain ⟨lengths', hsound, hlength⟩ := nodeLength_eq (ih c hc) ht
    rw [hr] at hlength
    cases hlength
    exact ih.remember hd hc hsound
  | @bytes session session' c i fuel bytes _ hc hi hr ih =>
    obtain ⟨t, ht, -⟩ := hi.stands
    obtain ⟨enough, hbytes⟩ := nodeBytes_eq hd hc ht
    obtain ⟨after, hafter, heq⟩ := hbytes (max enough fuel) (Nat.le_max_left _ _) session ih
    rw [nodeBytes_more hr (Nat.le_max_right enough fuel)] at heq
    cases heq
    exact hafter
  | @compare session session' c d i j fuel order _ hc hdc hi hj hr ih =>
    obtain ⟨s, hs, -⟩ := hi.stands
    obtain ⟨t, ht, -⟩ := hj.stands
    obtain ⟨enough, horder⟩ := compareNodes_eq hd hc hdc hs ht
    obtain ⟨after, hafter, heq⟩ := horder (max enough fuel) (Nat.le_max_left _ _) session ih
    rw [compareNodes_more hr (Nat.le_max_right enough fuel)] at heq
    cases heq
    exact hafter

end Runs

end Projector.Encoded
