import Projector.Encoded.CanonicalLengths

namespace Projector.Encoded
open Lib Projector.Core Compiler

section Nodes
variable {c : Cursor} {fuel id start stop tag : Nat} {fields : List Piece} {lengths : Lengths}

theorem nodeChildIds_eq (hrange : c.columns.rangeAt id = some (start, stop)) :
    c.nodeChildIds id =
      (List.range' start (stop - start)).flatMap (c.componentChildIds id) := by
  unfold Cursor.nodeChildIds
  rw [(rangeAt_some hrange).2]

theorem node_children (h : NodeView c.columns c.scopeMap fuel id start stop tag fields) :
    ∀ x ∈ c.nodeChildIds id, ChildOf c fuel (Term.mk tag fields).encode.length x := by
  intro x hx
  rw [nodeChildIds_eq h.range, List.mem_flatMap] at hx
  obtain ⟨index, hindex, hx⟩ := hx
  obtain ⟨p, hp, hpiece⟩ := forall₂_left h.fields hindex
  have hle := Piece.length_le_encodeAll hp
  apply (field_children h.range h.tagged hpiece x hx).mono
  simp only [Term.encode, List.length_append]
  omega

theorem measured_eq (h : NodeView c.columns c.scopeMap fuel id start stop tag fields)
    (hmeasured : Measured c fuel lengths (c.nodeChildIds id)) :
    c.measured lengths id = .ok (Term.mk tag fields).encode.length := by
  rw [nodeChildIds_eq h.range] at hmeasured
  unfold Cursor.measured
  rw [ok_bind _ (nodeTag_of_range h.range h.tagged), ok_bind _ (rangeAt_some h.range).2]
  dsimp only
  rw [foldlM_lengths _ (fun p : Piece => p.encode.length) fields ?_]
  · rw [← length_encodePieces]
    simp [Term.encode, Cursor.varintLength]
  · refine forall₂_of_mem h.fields fun index p hindex hpiece r => ?_
    have hlength := field_length h.range h.tagged hpiece
      (hmeasured.sublist fun x hx => List.mem_flatMap.mpr ⟨index, hindex, hx⟩)
    rw [ok_bind _ hlength]
    rfl

end Nodes

section Walk
variable {c : Cursor} {fuel id : Nat} {t : Term} {lengths : Lengths} {active : List Nat}

/-- What a cursor remembers is the length of the code of the term. -/
def Sound (c : Cursor) (lengths : Lengths) : Prop :=
  ∀ id n, lengths id = some n → ∃ t, c.columns.Stands c.scopeMap id t ∧ n = t.encode.length

theorem Sound.eq (hsound : Sound c lengths) {n : Nat} (h : lengths id = some n)
    (ht : c.columns.Stands c.scopeMap id t) : n = t.encode.length := by
  obtain ⟨s, hs, hn⟩ := hsound id n h
  rw [hn, hs.unique ht]

theorem Sound.insert (hsound : Sound c lengths) (ht : c.columns.Stands c.scopeMap id t) :
    Sound c (Cursor.Lengths.insert lengths id t.encode.length) := by
  intro k n h
  unfold Cursor.Lengths.insert at h
  split at h
  · rename_i hk
    cases h
    exact ⟨t, hk ▸ ht, rfl⟩
  · exact hsound k n h

/-- The turns that a walk still needs: those of every node that has no length yet. -/
def pending (c : Cursor) (lengths : Lengths) : Nat :=
  ((List.range' 1 c.columns.nodeCount).map fun id =>
    if (lengths id).isSome then 0 else c.turnsOf id).sum

theorem pending_le (c : Cursor) (lengths : Lengths) : pending c lengths < c.walkFuel := by
  unfold pending Cursor.walkFuel
  apply Nat.lt_succ_of_le
  induction List.range' 1 c.columns.nodeCount with
  | nil => exact Nat.le_refl _
  | cons id rest ih =>
    simp only [List.map_cons, List.sum_cons]
    split <;> omega

/-- Measuring a node takes its turns off. -/
theorem pending_insert (hid : 1 ≤ id ∧ id ≤ c.columns.nodeCount) (hnone : lengths id = none)
    (n : Nat) :
    pending c (Cursor.Lengths.insert lengths id n) + c.turnsOf id = pending c lengths := by
  unfold pending
  have hmem : id ∈ List.range' 1 c.columns.nodeCount := List.mem_range'_1.mpr (by omega)
  have hnodup : (List.range' 1 c.columns.nodeCount).Nodup := List.nodup_range'
  revert hmem hnodup
  induction List.range' 1 c.columns.nodeCount with
  | nil =>
    intro hmem
    cases hmem
  | cons k rest ih =>
    intro hmem hnodup
    obtain ⟨hk, hrest⟩ := List.nodup_cons.mp hnodup
    simp only [List.map_cons, List.sum_cons]
    cases List.mem_cons.mp hmem with
    | inl heq =>
      subst heq
      have hsame : (rest.map fun k => if (Cursor.Lengths.insert lengths id n k).isSome then 0
          else c.turnsOf k) = rest.map fun k => if (lengths k).isSome then 0 else c.turnsOf k := by
        apply List.map_congr_left
        intro k hmem
        have hne : k ≠ id := fun he => hk (he ▸ hmem)
        simp [Cursor.Lengths.insert, hne]
      rw [hsame]
      simp [Cursor.Lengths.insert, hnone]
      omega
    | inr hin =>
      have hne : k ≠ id := fun he => hk (he ▸ hin)
      have hhead : Cursor.Lengths.insert lengths id n k = lengths k := by
        simp [Cursor.Lengths.insert, hne]
      have hrest := ih hin hrest
      rw [hhead]
      omega

/-- Every node on the path stands for a term with a longer code. -/
def Above (c : Cursor) (active : List Nat) (t : Term) : Prop :=
  ∀ a ∈ active, ∃ s, c.columns.Stands c.scopeMap a s ∧ t.encode.length < s.encode.length

theorem Above.notMem (h : Above c active t) (ht : c.columns.Stands c.scopeMap id t) :
    id ∉ active := by
  intro hmem
  obtain ⟨s, hs, hlt⟩ := h id hmem
  rw [hs.unique ht] at hlt
  exact Nat.lt_irrefl _ hlt

/-- How a part of the walk leaves the remembered lengths: some turns were spent on new
lengths, none of them of a node on the path. -/
structure Progress (c : Cursor) (active : List Nat) (lengths lengths' : Lengths) (turns : Nat) :
    Prop where
  sound : Sound c lengths'
  kept : ∀ id n, lengths id = some n → lengths' id = some n
  path : ∀ a ∈ active, lengths' a = lengths a
  spent : turns + pending c lengths' = pending c lengths

/-- The walk goes from one state to another in some turns. -/
def Reaches (c : Cursor) (turns : Nat) (w w' : Cursor.Walk) : Prop :=
  ∀ fuel, c.walkLoop (fuel + turns) w = c.walkLoop fuel w'

theorem Reaches.trans {m n : Nat} {w w' w'' : Cursor.Walk} (h : Reaches c m w w')
    (h' : Reaches c n w' w'') : Reaches c (m + n) w w'' := by
  intro fuel
  rw [show fuel + (m + n) = fuel + n + m by omega, h, h']

theorem reaches_turn {children : List (Read Nat)} {frames : List (Nat × List (Read Nat))}
    {w : Cursor.Walk} (h : c.walkTurn lengths active id children frames = .ok w) :
    Reaches c 1 ⟨lengths, active, (id, children) :: frames⟩ w := by
  intro fuel
  change (do
    let next ← c.walkTurn lengths active id children frames
    c.walkLoop fuel next) = _
  rw [ok_bind _ h]

/-- Entering a node that has no length yet measures it. -/
def Measures (c : Cursor) (fuel : Nat) : Prop :=
  ∀ id t, c.columns.termAt c.scopeMap fuel id = some t → ∀ lengths active, Sound c lengths →
    Above c active t → lengths id = none → ∀ frames, ∃ lengths' turns,
      Progress c active lengths lengths' turns ∧ (lengths' id).isSome ∧
      Reaches c turns ⟨lengths, id :: active, (id, c.nodeChildIds id) :: frames⟩
        ⟨lengths', active, frames⟩

/-- The children that a node still has to yield are measured one after another. -/
theorem walk_children (frames : List (Nat × List (Read Nat))) (ih : Measures c fuel)
    (ht : c.columns.Stands c.scopeMap id t) (habove : Above c active t) (children : List (Read Nat))
    (hchildren : ∀ x ∈ children, ChildOf c fuel t.encode.length x) (hsound : Sound c lengths) :
    ∃ lengths' turns, turns + pending c lengths' = children.length + pending c lengths ∧
      Sound c lengths' ∧ (∀ k n, lengths k = some n → lengths' k = some n) ∧
      (∀ a ∈ id :: active, lengths' a = lengths a) ∧
      (∀ child, .ok child ∈ children → (lengths' child).isSome) ∧
      Reaches c turns ⟨lengths, id :: active, (id, children) :: frames⟩
        ⟨lengths', id :: active, (id, []) :: frames⟩ := by
  induction children generalizing lengths with
  | nil =>
    refine ⟨lengths, 0, by simp, hsound, fun _ _ h => h, fun _ _ => rfl, ?_, fun _ => rfl⟩
    intro child h
    cases h
  | cons x rest ihrest =>
    obtain ⟨child, s, rfl, hs, hlt⟩ := hchildren x List.mem_cons_self
    have hstands : c.columns.Stands c.scopeMap child s := ⟨fuel, hs⟩
    have hrest := fun y hy => hchildren y (List.mem_cons_of_mem _ hy)
    cases hcached : lengths child with
    | some n =>
      obtain ⟨lengths', turns, hspent, hsound', hkept, hpath, hall, hreach⟩ :=
        ihrest hrest hsound
      have hturn : c.walkTurn lengths (id :: active) id (.ok child :: rest) frames =
          .ok ⟨lengths, id :: active, (id, rest) :: frames⟩ := by
        simp [Cursor.walkTurn, hcached, pure, Except.pure]
      refine ⟨lengths', 1 + turns, by simp only [List.length_cons]; omega, hsound', hkept, hpath,
        ?_, (reaches_turn hturn).trans hreach⟩
      intro k hk
      cases hk with
      | head => simp [hkept child n hcached]
      | tail _ hmem => exact hall k hmem
    | none =>
      have habove' : Above c (id :: active) s := by
        intro a ha
        cases ha with
        | head => exact ⟨t, ht, hlt⟩
        | tail _ hmem =>
          obtain ⟨r, hr, hlt'⟩ := habove a hmem
          exact ⟨r, hr, by omega⟩
      obtain ⟨lengths₁, turns₁, hprogress, hsome, hreach₁⟩ :=
        ih child s hs lengths (id :: active) hsound habove' hcached ((id, rest) :: frames)
      obtain ⟨lengths₂, turns₂, hspent, hsound₂, hkept₂, hpath₂, hall₂, hreach₂⟩ :=
        ihrest hrest hprogress.sound
      have hturn : c.walkTurn lengths (id :: active) id (.ok child :: rest) frames =
          .ok ⟨lengths, child :: id :: active,
            (child, c.nodeChildIds child) :: (id, rest) :: frames⟩ := by
        obtain ⟨_, _, _, _, _, _, _, hview⟩ := termAt_some hs
        have hfresh : (id :: active).contains child = false := by
          simpa using habove'.notMem hstands
        simp only [Cursor.walkTurn, hcached, Option.isSome_none, Bool.false_eq_true, if_false]
        rw [ok_bind _ (nodeTag_of_range hview.range hview.tagged), hfresh]
        rfl
      refine ⟨lengths₂, 1 + turns₁ + turns₂, ?_, hsound₂, ?_, ?_, ?_,
        ((reaches_turn hturn).trans hreach₁).trans hreach₂⟩
      · have := hprogress.spent
        simp only [List.length_cons]
        omega
      · exact fun k n h => hkept₂ k n (hprogress.kept k n h)
      · exact fun a ha => (hpath₂ a ha).trans (hprogress.path a ha)
      · intro k hk
        cases hk with
        | head =>
          obtain ⟨n, hn⟩ := Option.isSome_iff_exists.mp hsome
          simp [hkept₂ child n hn]
        | tail _ hmem => exact hall₂ k hmem

/-- A node is left with the length of the code of its term. -/
theorem walk_measures (fuel : Nat) : Measures c fuel := by
  induction fuel with
  | zero =>
    intro id t h
    cases h
  | succ fuel ih =>
    intro id t h lengths active hsound habove hnone frames
    have hstands : c.columns.Stands c.scopeMap id t := ⟨_, h⟩
    obtain ⟨previous, start, stop, tag, fields, hfuel, rfl, hview⟩ := termAt_some h
    obtain rfl := Nat.succ.inj hfuel
    obtain ⟨lengths', turns, hspent, hsound', hkept, hpath, hall, hreach⟩ :=
      walk_children frames ih hstands habove (c.nodeChildIds id)
        (node_children hview) hsound
    have hmeasured : Measured c fuel lengths' (c.nodeChildIds id) := by
      intro child s hmem hs
      obtain ⟨n, hn⟩ := Option.isSome_iff_exists.mp (hall child hmem)
      rw [hn, hsound'.eq hn ⟨fuel, hs⟩]
    have hturn : c.walkTurn lengths' (id :: active) id [] frames =
        .ok ⟨Cursor.Lengths.insert lengths' id (Term.mk tag fields).encode.length, active,
          frames⟩ := by
      unfold Cursor.walkTurn
      rw [ok_bind _ (measured_eq hview hmeasured), List.erase_cons_head]
      rfl
    have hnone' : lengths' id = none := (hpath id List.mem_cons_self).trans hnone
    refine ⟨_, turns + 1, ⟨hsound'.insert hstands, ?_, ?_, ?_⟩, ?_,
      hreach.trans (reaches_turn hturn)⟩
    · intro k n hk
      have hne : k ≠ id := fun he => by simp [he ▸ hk] at hnone
      simp only [Cursor.Lengths.insert, if_neg hne]
      exact hkept k n hk
    · intro a ha
      have hne : a ≠ id := fun he => habove.notMem hstands (he ▸ ha)
      simp only [Cursor.Lengths.insert, if_neg hne]
      exact hpath a (List.mem_cons_of_mem _ ha)
    · have hinsert : pending c (Cursor.Lengths.insert lengths' id
          (Term.mk tag fields).encode.length) + c.turnsOf id = pending c lengths' :=
        pending_insert (Columns.rangeAt_inside hview.range) hnone' _
      have hturns : c.turnsOf id = (c.nodeChildIds id).length + 1 := rfl
      omega
    · simp [Cursor.Lengths.insert]

/-- `node_length` is the length of the code of the term that the node stands for. -/
theorem nodeLength_eq (hsound : Sound c lengths) (ht : c.columns.Stands c.scopeMap id t) :
    ∃ lengths', Sound c lengths' ∧ c.nodeLength lengths id = .ok (t.encode.length, lengths') := by
  unfold Cursor.nodeLength
  cases hcached : lengths id with
  | some n => exact ⟨lengths, hsound, by rw [hsound.eq hcached ht]⟩
  | none =>
    obtain ⟨fuel, hterm⟩ := ht
    obtain ⟨_, _, _, _, _, _, _, hview⟩ := termAt_some hterm
    obtain ⟨lengths', turns, hprogress, hsome, hreach⟩ :=
      walk_measures fuel id t hterm lengths [] hsound (fun _ h => by cases h) hcached []
    obtain ⟨n, hn⟩ := Option.isSome_iff_exists.mp hsome
    refine ⟨lengths', hprogress.sound, ?_⟩
    have hspent := hprogress.spent
    have hfuel := pending_le c lengths
    obtain ⟨extra, hextra⟩ := Nat.exists_eq_add_of_le' (show turns ≤ c.walkFuel by omega)
    have hloop : c.walkLoop c.walkFuel ⟨lengths, [id], [(id, c.nodeChildIds id)]⟩ =
        .ok lengths' := by
      rw [hextra, hreach extra]
      cases extra <;> rfl
    rw [ok_bind _ (nodeTag_of_range hview.range hview.tagged), ok_bind _ hloop, hn,
      hprogress.sound.eq hn ⟨fuel, hterm⟩]
    rfl

end Walk

end Projector.Encoded
