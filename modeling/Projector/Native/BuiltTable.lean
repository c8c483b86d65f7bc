import Projector.Native.LengthTable

namespace Projector.Native
open Lib Projector.Core Projector.Encoded

section Readable
variable {d : DirectColumns} {lengths lengths' : Nat → Nat}

/-- Every field of a node can be read, and the children in it have lengths. -/
structure NodeReadable (d : DirectColumns) (lengths : Nat → Nat) (id start stop tag : Nat) :
    Prop where
  range : d.columns.rangeAt id = some (start, stop)
  tagged : d.columns.nodeTags[id - 1]? = some tag
  fields : ∀ f ∈ List.range' start (stop - start),
    ∃ component, Reads d f false component ∧ Listed d lengths component

theorem LeafListed.mono (hmono : ∀ id, lengths id ≠ 0 → lengths' id ≠ 0)
    {component : CanonicalComponent} (h : LeafListed lengths component) :
    LeafListed lengths' component := by
  cases component with
  | node child => exact hmono child h
  | integer value => exact h
  | _ => trivial

theorem Listed.mono (hmono : ∀ id, lengths id ≠ 0 → lengths' id ≠ 0)
    {component : CanonicalComponent} (h : Listed d lengths component) :
    Listed d lengths' component := by
  cases component with
  | collection kind start length =>
    intro j hj
    obtain ⟨item, hitem, hlisted⟩ := h j hj
    exact ⟨item, hitem, hlisted.mono hmono⟩
  | node child => exact hmono child h
  | integer value => exact h
  | _ => trivial

theorem NodeReadable.mono (hmono : ∀ id, lengths id ≠ 0 → lengths' id ≠ 0)
    {id start stop tag : Nat} (h : NodeReadable d lengths id start stop tag) :
    NodeReadable d lengths' id start stop tag := by
  refine ⟨h.range, h.tagged, fun f hf => ?_⟩
  obtain ⟨component, hreads, hlisted⟩ := h.fields f hf
  exact ⟨component, hreads, hlisted.mono hmono⟩

/-- The lengths in the table are those of the codes of the terms that the nodes stand
for, no deeper than the fuel. -/
def Table (d : DirectColumns) (scopeMap : Bytes → Option Bytes) (fuel : Nat)
    (lengths : Nat → Nat) : Prop :=
  ∀ id, lengths id ≠ 0 → (∃ start stop tag, NodeReadable d lengths id start stop tag) ∧
    ∃ t, d.columns.termAt scopeMap fuel id = some t ∧ lengths id = t.encode.length

theorem Table.known {scopeMap : Bytes → Option Bytes} {fuel : Nat}
    (h : Table d scopeMap fuel lengths) : KnownLengths (d.columns.termAt scopeMap fuel) lengths :=
  fun child hne => (h child hne).2

end Readable

/-- A scope map with rows of 32 bytes. -/
def Rows32 (scopeMap : Bytes → Option Bytes) : Prop :=
  ∀ source target, scopeMap source = some target → source.length = 32 ∧ target.length = 32

section Exit
variable {β : Type} {m : Meter β} {d : DirectColumns} {lengths : Nat → Nat} {b b' : β}
  {scopeMap : Bytes → Option Bytes} {fuel id start stop tag : Nat}

theorem rescopeOf_length (hrows : Rows32 scopeMap) (tag start index : Nat) (payload : Bytes) :
    (Columns.rescopeOf scopeMap tag start index payload).length = payload.length := by
  unfold Columns.rescopeOf
  split
  · dsimp only
    cases h : scopeMap payload with
    | none => rfl
    | some target =>
      obtain ⟨hsource, htarget⟩ := hrows payload target h
      exact htarget.trans hsource.symm
  · rfl

/-- Mapping a scope does not change the length of a component. -/
theorem mapScope_piece {rescope : Bytes → Bytes} (hlength : ∀ x, (rescope x).length = x.length)
    {term : Nat → Option Term} {component : CanonicalComponent} {p : Piece}
    (h : pieceOf d.columns term component = some p) :
    ∃ q, pieceOf d.columns term (mapScope rescope component) = some q ∧
      q.encode.length = p.encode.length := by
  cases component with
  | scalar kind payload =>
    obtain ⟨k, hk, rfl⟩ := Option.map_eq_some_iff.mp h
    refine ⟨_, by simp only [mapScope, pieceOf, hk]; rfl, ?_⟩
    simp only [Piece.encode, List.length_cons, length_sized]
    split
    · rw [hlength]
    · rfl
  | _ => exact ⟨p, h, rfl⟩

theorem exitField_ok {total index n : Nat}
    (h : exitField m d lengths total index b = .ok (n, b')) :
    ∃ size, n = total + size ∧ ∃ component, Reads d index false component ∧
      Listed d lengths component ∧ ∀ term, KnownLengths term lengths →
        ∃ p, pieceOf d.columns term component = some p ∧ size = p.encode.length := by
  unfold exitField at h
  obtain ⟨component, _, hcomponent, h⟩ := metered_bind_ok h
  obtain ⟨size, _, hsize, h⟩ := metered_bind_ok h
  have hreads := canonicalComponent_ok hcomponent
  obtain ⟨hlisted, hpiece⟩ :=
    componentLength_ok (fun kind payload he => scalarKindOf_scalar (he ▸ hreads)) hsize
  exact ⟨size, checkedAdd_ok (lift_ok h), component, hreads, hlisted, hpiece⟩

/-- The fields of a node that is left. -/
theorem exitFields_ok (hrows : Rows32 scopeMap) (hknown : Table d scopeMap fuel lengths)
    (tag start : Nat) {indices sizes : List Nat}
    (h : List.Forall₂ (fun index size => ∃ component, Reads d index false component ∧
      Listed d lengths component ∧ ∀ term, KnownLengths term lengths →
        ∃ p, pieceOf d.columns term component = some p ∧ size = p.encode.length) indices sizes) :
    (∀ f ∈ indices, ∃ component, Reads d f false component ∧ Listed d lengths component) ∧
    ∃ fields, List.Forall₂ (fun index p => d.columns.fieldPiece (d.columns.termAt scopeMap fuel)
        (Columns.rescopeOf scopeMap tag start index) index = some p) indices fields ∧
      sizes.sum = (Piece.encodeAll fields).length := by
  induction h with
  | nil => exact ⟨fun f hf => (by cases hf), [], .nil, rfl⟩
  | @cons index size indices sizes hindex _ ih =>
    obtain ⟨component, hreads, hlisted, hpiece⟩ := hindex
    obtain ⟨hall, fields, hfields, hsum⟩ := ih
    obtain ⟨p, hp, rfl⟩ := hpiece _ hknown.known
    obtain ⟨q, hq, hlength⟩ :=
      mapScope_piece (rescopeOf_length hrows tag start index) hp
    refine ⟨fun f hf => ?_, q :: fields, .cons ?_ hfields, ?_⟩
    · cases hf with
      | head => exact ⟨component, hreads, hlisted⟩
      | tail _ hmem => exact hall f hmem
    · rw [fieldPiece_reads hreads, hq]
    · rw [List.sum_cons, hsum, Piece.encodeAll, List.length_append, hlength]

end Exit

section Loop
variable {β : Type} {m : Meter β} {d : DirectColumns} {b b' : β} {scopeMap : Bytes → Option Bytes}
  {s s' : Building}

/-- The lengths so far are right, and every node that has been left has one. -/
structure Measuring (d : DirectColumns) (scopeMap : Bytes → Option Bytes) (s : Building) :
    Prop where
  table : ∃ fuel, Table d scopeMap fuel s.lengths
  left : ∀ id, s.colors id = 2 → s.lengths id ≠ 0

/-- A part of the traversal that only pushes events. -/
structure Pushes (s s' : Building) : Prop where
  lengths : s'.lengths = s.lengths
  colors : s'.colors = s.colors
  events : ∀ event ∈ s.events, event ∈ s'.events

theorem Pushes.refl (s : Building) : Pushes s s := ⟨rfl, rfl, fun _ h => h⟩

theorem Pushes.trans {s'' : Building} (h : Pushes s s') (h' : Pushes s' s'') : Pushes s s'' :=
  ⟨h'.lengths.trans h.lengths, h'.colors.trans h.colors,
    fun event hmem => h'.events event (h.events event hmem)⟩

theorem pushEvent_ok {event : LengthEvent} (h : pushEvent d event s = .ok s') :
    Pushes s s' ∧ event ∈ s'.events := by
  unfold pushEvent at h
  split at h
  · cases h
  · cases h
    exact ⟨⟨rfl, rfl, fun _ hmem => List.mem_cons_of_mem _ hmem⟩, List.mem_cons_self⟩

theorem pushChild_ok {child : Nat} (h : pushChild d child s = .ok s') : Pushes s s' := by
  unfold pushChild at h
  split at h
  · cases h
  · split at h
    · exact (pushEvent_ok h).1
    · cases h
      exact .refl s

/-- A loop whose turns only push events. -/
theorem foldlM_pushes {step : Building → Nat → Metered β Building}
    (hstep : ∀ s index s' b b', step s index b = .ok (s', b') → Pushes s s') {indices : List Nat}
    (h : indices.foldlM step s b = .ok (s', b')) : Pushes s s' := by
  induction indices generalizing s b with
  | nil =>
    rw [List.foldlM_nil] at h
    rw [metered_pure_ok h]
    exact .refl s
  | cons index indices ih =>
    rw [List.foldlM_cons] at h
    obtain ⟨next, b₁, hnext, hrest⟩ := metered_bind_ok h
    exact (hstep s index next b b₁ hnext).trans (ih hrest)

theorem enterItem_ok {kind index : Nat} (h : enterItem m d kind s index b = .ok (s', b')) :
    Pushes s s' := by
  unfold enterItem at h
  obtain ⟨_, _, _, h⟩ := metered_bind_ok h
  obtain ⟨item, _, _, hitem⟩ := metered_bind_ok h
  clear h
  split at hitem
  · exact pushChild_ok (lift_ok hitem)
  · split at hitem
    · exact absurd hitem malformed_ne
    · rw [metered_pure_ok hitem]
      exact .refl s

theorem enterField_ok {index : Nat} (h : enterField m d s index b = .ok (s', b')) :
    Pushes s s' := by
  unfold enterField at h
  obtain ⟨_, _, _, h⟩ := metered_bind_ok h
  obtain ⟨component, _, _, hcomponent⟩ := metered_bind_ok h
  clear h
  split at hcomponent
  · exact pushChild_ok (lift_ok hcomponent)
  · exact foldlM_pushes (fun _ _ _ _ _ hstep => enterItem_ok hstep) hcomponent
  · rw [metered_pure_ok hcomponent]
    exact .refl s

/-- What one event does to the traversal. -/
structure Handles (event : LengthEvent) (s s' : Building) : Prop where
  finished : ∀ id, s.colors id = 2 → s'.colors id = 2
  events : ∀ e ∈ s.events, e ∈ s'.events
  exited : ∀ id, event = .exit id → s'.colors id = 2
  entered : ∀ id, event = .enter id → s'.colors id = 2 ∨ .exit id ∈ s'.events

theorem enterTurn_ok {id : Nat} (hinv : Measuring d scopeMap s)
    (h : eventTurn m d (.enter id) s b = .ok (s', b')) :
    Measuring d scopeMap s' ∧ Handles (.enter id) s s' := by
  unfold eventTurn at h
  dsimp only at h
  split at h
  · rename_i hdone
    rw [metered_pure_ok h]
    exact ⟨hinv, fun _ hc => hc, fun _ he => he, fun _ he => (by cases he),
      fun _ he => by cases he; exact .inl hdone⟩
  · rename_i hfresh
    split at h
    · exact absurd h malformed_ne
    · obtain ⟨pushed, _, hpushed, h⟩ := metered_bind_ok h
      obtain ⟨⟨start, stop⟩, _, _, h⟩ := metered_bind_ok h
      obtain ⟨hpush, hexit⟩ := pushEvent_ok (lift_ok hpushed)
      have hfields := foldlM_pushes (fun _ _ _ _ _ hstep => enterField_ok hstep) h
      have hall := hpush.trans hfields
      have hcolor : ∀ k, s.colors k = 2 → s'.colors k = 2 := by
        intro k hk
        have hne : k ≠ id := fun he => hfresh (he ▸ hk)
        rw [hall.colors]
        simp only [update, if_neg hne, hk]
      refine ⟨⟨?_, ?_⟩, hcolor, hall.events, fun _ he => (by cases he), ?_⟩
      · rw [hall.lengths]
        exact hinv.table
      · intro k hk
        rw [hall.lengths]
        apply hinv.left
        rw [hall.colors] at hk
        simp only [update] at hk
        split at hk
        · cases hk
        · exact hk
      · intro k he
        cases he
        exact .inr (hfields.events _ hexit)

theorem exitTurn_ok {id : Nat} (hrows : Rows32 scopeMap) (hinv : Measuring d scopeMap s)
    (h : eventTurn m d (.exit id) s b = .ok (s', b')) :
    Measuring d scopeMap s' ∧ Handles (.exit id) s s' := by
  unfold eventTurn at h
  dsimp only at h
  obtain ⟨tag, _, htag, h⟩ := metered_bind_ok h
  obtain ⟨⟨start, stop⟩, _, hrange, h⟩ := metered_bind_ok h
  obtain ⟨length, _, hlength, h⟩ := metered_bind_ok h
  have hrange := fieldRange_ok.mp (lift_ok hrange)
  have htag := (nodeTag_ok hrange).mp (lift_ok htag)
  obtain ⟨sizes, hsizes, hsum⟩ := metered_sizes (fun total x n b b' _ hx => by
    obtain ⟨size, hn, hrest⟩ := exitField_ok hx
    exact ⟨size, hrest, hn⟩) hlength
  obtain ⟨fuel, htable⟩ := hinv.table
  obtain ⟨hreadable, fields, hfields, hcode⟩ :=
    exitFields_ok hrows htable tag start hsizes
  have hterm : d.columns.termAt scopeMap (fuel + 1) id = some (.mk tag fields) :=
    NodeView.termAt ⟨hrange, htag, hfields⟩
  have hencode : length = (Term.mk tag fields).encode.length := by
    rw [hsum, hcode, varintWidth_eq, Term.encode, List.length_append]
  have hpositive : length ≠ 0 := by
    have := (Term.mk tag fields).encode_length_pos
    omega
  have hgrow : ∀ k, s.lengths k ≠ 0 → update s.lengths id length k ≠ 0 := by
    intro k hk
    unfold update
    split
    · exact hpositive
    · exact hk
  rw [metered_pure_ok h]
  refine ⟨⟨⟨fuel + 1, ?_⟩, ?_⟩, ?_, fun _ he => he, ?_, fun _ he => (by cases he)⟩
  · intro k hk
    by_cases hkid : k = id
    · subst hkid
      refine ⟨⟨start, stop, tag, ?_⟩, _, hterm, by simp [update, hencode]⟩
      exact NodeReadable.mono hgrow ⟨hrange, htag, hreadable⟩
    · simp only [update, if_neg hkid] at hk ⊢
      obtain ⟨⟨start', stop', tag', hread⟩, t, ht, hlen⟩ := htable k hk
      exact ⟨⟨start', stop', tag', hread.mono hgrow⟩, t, termAt_extends fuel k t ht, hlen⟩
  · intro k hk
    apply Classical.byContradiction
    intro hzero
    have hzero : update s.lengths id length k = 0 := by simpa using hzero
    by_cases hkid : k = id
    · exact hpositive (by simpa [update, hkid] using hzero)
    · simp only [update, if_neg hkid] at hzero hk
      exact hinv.left k hk hzero
  · intro k hk
    simp only [update]
    split
    · rfl
    · exact hk
  · intro k he
    cases he
    simp [update]

theorem eventTurn_ok {event : LengthEvent} (hrows : Rows32 scopeMap)
    (hinv : Measuring d scopeMap s) (h : eventTurn m d event s b = .ok (s', b')) :
    Measuring d scopeMap s' ∧ Handles event s s' := by
  cases event with
  | enter id => exact enterTurn_ok hinv h
  | exit id => exact exitTurn_ok hrows hinv h

/-- When no event is left, every node that an event was about has been left. -/
theorem eventLoop_ok {fuel : Nat} (hrows : Rows32 scopeMap) (hinv : Measuring d scopeMap s)
    (h : eventLoop m d fuel s b = .ok (some s', b')) :
    Measuring d scopeMap s' ∧ (∀ id, s.colors id = 2 → s'.colors id = 2) ∧
    ∀ id, .exit id ∈ s.events ∨ .enter id ∈ s.events → s'.colors id = 2 := by
  induction fuel generalizing s b with
  | zero => cases h
  | succ fuel ih =>
    unfold eventLoop at h
    cases hevents : s.events with
    | nil =>
      rw [hevents] at h
      cases h
      refine ⟨hinv, fun _ hc => hc, fun id hmem => ?_⟩
      cases hmem with
      | inl hmem => cases hmem
      | inr hmem => cases hmem
    | cons event rest =>
      rw [hevents] at h
      obtain ⟨_, _, _, h⟩ := metered_bind_ok h
      obtain ⟨next, _, hnext, h⟩ := metered_bind_ok h
      have hpopped : Measuring d scopeMap { s with events := rest } := ⟨hinv.table, hinv.left⟩
      obtain ⟨hinv', hhandles⟩ := eventTurn_ok hrows hpopped hnext
      obtain ⟨hdone, hkept, hall⟩ := ih hinv' h
      refine ⟨hdone, fun id hc => hkept id (hhandles.finished id hc), fun id hmem => ?_⟩
      cases hmem with
      | inl hmem =>
        cases List.mem_cons.mp hmem with
        | inl he => exact hkept id (hhandles.exited id he.symm)
        | inr hin => exact hall id (.inl (hhandles.events _ hin))
      | inr hmem =>
        cases List.mem_cons.mp hmem with
        | inl he =>
          cases hhandles.entered id he.symm with
          | inl hc => exact hkept id hc
          | inr hexit => exact hall id (.inl hexit)
        | inr hin => exact hall id (.inr (hhandles.events _ hin))

theorem buildFrom_ok {fuel : Nat} {nodes : List Nat} (hrows : Rows32 scopeMap)
    (hinv : Measuring d scopeMap s) (h : buildFrom m d fuel nodes s b = .ok (some s', b')) :
    Measuring d scopeMap s' ∧ (∀ id, s.colors id = 2 → s'.colors id = 2) ∧
    ∀ id ∈ nodes, s'.colors id = 2 := by
  induction nodes generalizing s b with
  | nil =>
    cases h
    exact ⟨hinv, fun _ hc => hc, fun id hmem => (by cases hmem)⟩
  | cons initial rest ih =>
    unfold buildFrom at h
    obtain ⟨_, _, _, hturn⟩ := metered_bind_ok h
    clear h
    split at hturn
    · rename_i hdone
      obtain ⟨hinv', hkept, hall⟩ := ih hinv hturn
      refine ⟨hinv', hkept, fun id hmem => ?_⟩
      cases hmem with
      | head => exact hkept initial hdone
      | tail _ hin => exact hall id hin
    · obtain ⟨pushed, _, hpushed, h⟩ := metered_bind_ok hturn
      obtain ⟨hpush, henter⟩ := pushEvent_ok (lift_ok hpushed)
      obtain ⟨result, _, hloop, hrest⟩ := metered_bind_ok h
      have hinv₁ : Measuring d scopeMap pushed :=
        ⟨by rw [hpush.lengths]; exact hinv.table,
          by rw [hpush.lengths, hpush.colors]; exact hinv.left⟩
      cases result with
      | none => cases hrest
      | some s₂ =>
        obtain ⟨hinv₂, hkept₂, hall₂⟩ := eventLoop_ok hrows hinv₁ hloop
        obtain ⟨hinv', hkept, hall⟩ := ih hinv₂ hrest
        refine ⟨hinv', fun id hc => hkept id (hkept₂ id (hpush.colors ▸ hc)), fun id hmem => ?_⟩
        cases hmem with
        | head => exact hkept initial (hall₂ initial (.inr henter))
        | tail _ hin => exact hall id hin

/-- A table that is built has the length of the code of every node. -/
theorem buildLengths_ok {fuel : Nat} {lengths : Nat → Nat} (hrows : Rows32 scopeMap)
    (h : buildLengths m d fuel b = .ok (some lengths, b')) :
    (∃ depth, Table d scopeMap depth lengths) ∧
    ∀ id, 1 ≤ id ∧ id ≤ d.columns.nodeCount → lengths id ≠ 0 := by
  unfold buildLengths at h
  obtain ⟨built, _, hbuilt, h⟩ := metered_bind_ok h
  have hresult := metered_pure_ok h
  cases built with
  | none => cases hresult
  | some s =>
    obtain rfl : lengths = s.lengths := Option.some.inj hresult
    have hstart : Measuring d scopeMap ⟨fun _ => 0, fun _ => 0, []⟩ :=
      ⟨⟨0, fun _ hne => absurd rfl hne⟩, fun _ hc => (by cases hc)⟩
    obtain ⟨hinv, -, hall⟩ := buildFrom_ok hrows hstart hbuilt
    refine ⟨hinv.table, fun id hid => hinv.left id (hall id ?_)⟩
    exact List.mem_range'_1.mpr (by omega)

end Loop

end Projector.Native
