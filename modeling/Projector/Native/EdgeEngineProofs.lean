import Projector.Native.EdgeEngine

namespace Projector.Native
open Lib Streaming

/-- The allocator refuses some call. -/
def OutOfMemory (allocates : Nat → Bool) : Prop := ∃ call, allocates call = false

section Reference
variable {τ : Type} [DecidableEq τ] [PyText τ]

/-- The edges that the policy delivers of `raw`. -/
def policyEdges (duplicates : DuplicatePolicy) (order : EdgeOrder) (raw : List (Edge τ)) :
    List (Edge τ) :=
  match order with
  | .encounter => firsts duplicates raw
  | .canonical => sortOn Edge.canonicalKey (firsts duplicates raw)

/-- The counts that the policy leaves. -/
def policyCounts (raw : List (Edge τ)) : EdgeCounts :=
  ⟨raw.length, raw.eraseDups.length, raw.length - raw.eraseDups.length⟩

omit [PyText τ] in
theorem mem_firsts {duplicates : DuplicatePolicy} {raw : List (Edge τ)} {edge : Edge τ} :
    edge ∈ firsts duplicates raw ↔ edge ∈ raw := by
  cases duplicates with
  | preserve => exact Iff.rfl
  | unique => exact List.mem_eraseDups

theorem iterProjectedEdges_eq {raw : List (Edge τ)} (duplicates : DuplicatePolicy)
    (order : EdgeOrder) (henc : ∀ edge ∈ raw, edge.encodable = true) :
    iterProjectedEdges duplicates order raw = .ok (policyEdges duplicates order raw, policyCounts raw) := by
  cases order with
  | encounter => exact iterProjectedEdges_encounter duplicates raw
  | canonical =>
    have hall : (firsts duplicates raw).all Edge.encodable = true :=
      List.all_eq_true.mpr fun edge he => henc edge (mem_firsts.mp he)
    cases duplicates <;> exact if_pos hall

variable {σ : Type} [DecidableEq σ] [PyText σ] {f : Edge σ → Edge τ}

theorem eraseDups_map {α β : Type} [DecidableEq α] [DecidableEq β] {f : α → β}
    (hf : Function.Injective f) (xs : List α) : (xs.map f).eraseDups = xs.eraseDups.map f := by
  induction xs using List.reverseRecOn with
  | nil => rfl
  | append_singleton xs x ih =>
    rw [List.map_append, List.map_singleton, eraseDups_snoc, eraseDups_snoc, ih]
    by_cases hx : x ∈ xs
    · rw [if_pos hx, if_pos (List.mem_map_of_mem hx)]
    · rw [if_neg hx, if_neg (by simpa [hf.eq_iff] using hx), List.map_append, List.map_singleton]

omit [PyText τ] [PyText σ] in
theorem firsts_map (duplicates : DuplicatePolicy) (hf : Function.Injective f)
    (xs : List (Edge σ)) : firsts duplicates (xs.map f) = (firsts duplicates xs).map f := by
  cases duplicates with
  | preserve => rfl
  | unique => exact eraseDups_map hf xs

/-- The policy does not depend on how the text of an edge is held. -/
theorem policyEdges_map (duplicates : DuplicatePolicy) (order : EdgeOrder)
    (hf : Function.Injective f) (hkey : ∀ edge, (f edge).canonicalKey = edge.canonicalKey)
    (xs : List (Edge σ)) :
    policyEdges duplicates order (xs.map f) = (policyEdges duplicates order xs).map f := by
  cases order with
  | encounter => exact firsts_map duplicates hf xs
  | canonical =>
    unfold policyEdges
    dsimp only
    rw [firsts_map duplicates hf]
    refine (List.map_mergeSort fun a _ b _ => ?_).symm
    rw [hkey, hkey]

omit [PyText τ] [PyText σ] in
theorem policyCounts_map (hf : Function.Injective f) (xs : List (Edge σ)) :
    policyCounts (xs.map f) = policyCounts xs := by
  unfold policyCounts
  rw [eraseDups_map hf, List.length_map, List.length_map]

end Reference

section Engine
variable {allocates : Nat → Bool} {order : EdgeOrder} {duplicates : DuplicatePolicy}
  {maxEdges : Option Nat} {w : EngineState}

theorem tryReserve_spec (message : String) (w : EngineState) :
    wp (tryReserve allocates message) (fun _ v => v.engine = w.engine)
      (fun _ v => v.engine = w.engine ∧ OutOfMemory allocates) w := by
  simp only [tryReserve, wp_bind, wp_modifyGet]
  exact wp_raiseIf (fun hfalse => ⟨rfl, _, hfalse⟩) (fun _ => rfl)

theorem tryClone_spec (w : EngineState) :
    wp (tryClone allocates) (fun _ v => v.engine = w.engine)
      (fun _ _ => OutOfMemory allocates) w := by
  simp only [tryClone, wp_bind]
  refine wp_mono (tryReserve_spec _ w) ?_ (fun _ _ h => h.2)
  intro _ v hv
  refine wp_mono (tryReserve_spec _ v) ?_ (fun _ _ h => h.2)
  intro _ u hu
  exact wp_mono (tryReserve_spec _ u) (fun _ _ h => h.trans (hu.trans hv)) (fun _ _ h => h.2)

theorem pushEdge_spec (output : List (Edge String)) (edge : Edge String) (w : EngineState) :
    wp (pushEdge allocates output edge)
      (fun out v => (v.engine, out) = EdgeEngine.absorb (w.engine, output) edge)
      (fun _ _ => OutOfMemory allocates) w := by
  simp only [pushEdge, modifyEngine, insertSeen, wp_bind, wp_modify]
  refine wp_mono (tryClone_spec _) ?_ (fun _ _ h => h)
  rintro - ⟨engine, allocations⟩ hengine
  dsimp only at hengine
  subst hengine
  by_cases hseen : edge ∈ w.engine.seen
  · by_cases hkept : w.engine.duplicates = .preserve
    · cases horder : w.engine.order <;>
        simp [runIf, EdgeEngine.absorb, wp_ite, hseen, hkept, horder]
    · simp [runIf, EdgeEngine.absorb, wp_ite, hseen, hkept]
  · cases horder : w.engine.order <;>
      simp [runIf, EdgeEngine.absorb, wp_ite, hseen, horder]

/-- The engine takes a batch: it is in use, and the batch keeps to the limits. -/
structure Accepts (e : EdgeEngine) (batch : List (Edge String)) : Prop where
  cancelled : e.cancelled = false
  finished : e.finished = false
  counter : e.rawEdges + batch.length < usizeLimit
  limit : ∀ limit, e.maxEdges = some limit → e.rawEdges + batch.length ≤ limit

theorem reserveOutput_spec (order : EdgeOrder) (w : EngineState) :
    wp (reserveOutput allocates order) (fun _ v => v.engine = w.engine)
      (fun _ _ => OutOfMemory allocates) w := by
  cases order <;> exact wp_mono (tryReserve_spec _ w) (fun _ _ h => h) (fun _ _ h => h.2)

/-- A push applies its whole batch, or refuses it and leaves the engine as it was; in between it
only stops if the allocator gives up. -/
theorem push_spec (batch : List (Edge String)) (w : EngineState) :
    wp (EdgeEngine.push allocates batch)
      (fun out v => Accepts w.engine batch ∧
        (v.engine, out) = batch.foldl EdgeEngine.absorb (w.engine, []))
      (fun _ v => ¬Accepts w.engine batch ∧ v.engine = w.engine ∨ OutOfMemory allocates) w := by
  simp only [EdgeEngine.push, ensureActive, wp_bind, wp_get]
  refine wp_raiseIf (fun hc => .inl ⟨fun h => ?_, rfl⟩) (fun hcancelled => ?_)
  · rw [h.cancelled] at hc
    cases hc
  refine wp_raiseIf (fun hc => .inl ⟨fun h => ?_, rfl⟩) (fun hfinished => ?_)
  · rw [h.finished] at hc
    cases hc
  refine wp_raiseIf (fun hc => .inl ⟨fun h => ?_, rfl⟩) (fun hcounter => ?_)
  · exact absurd h.counter (by omega)
  refine wp_raiseIf (fun hc => .inl ⟨fun h => ?_, rfl⟩) (fun hlimit => ?_)
  · obtain ⟨limit, hsome, hlt⟩ := hc
    exact absurd (h.limit limit hsome) (by omega)
  have haccepts : Accepts w.engine batch := by
    refine ⟨by simpa using hcancelled, by simpa using hfinished, by omega, fun limit hsome => ?_⟩
    by_contra hlt
    exact hlimit ⟨limit, hsome, by omega⟩
  refine wp_mono (tryReserve_spec _ w) ?_ (fun _ _ h => .inr h.2)
  intro _ v hv
  refine wp_mono (reserveOutput_spec w.engine.order v) ?_ (fun _ _ h => .inr h)
  intro _ u hu
  have hu := hu.trans hv
  have hstep : ∀ (done : List (Edge String)) (edge : Edge String) (rest out : List (Edge String))
      (s : EngineState), batch = done ++ edge :: rest →
      (s.engine, out) = done.foldl EdgeEngine.absorb (w.engine, []) →
      wp (pushEdge allocates out edge)
        (fun out t => (t.engine, out) = (done ++ [edge]).foldl EdgeEngine.absorb (w.engine, []))
        (fun _ _ => OutOfMemory allocates) s := by
    intro done edge rest out s _ hs
    refine wp_mono (pushEdge_spec out edge s) ?_ (fun _ _ h => h)
    intro out' t ht
    rw [List.foldl_append, List.foldl_cons, List.foldl_nil, ht, hs]
  refine wp_mono (wp_foldlM _ hstep (by rw [hu]; rfl)) ?_ (fun _ _ h => .inr h)
  exact fun out v h => ⟨haccepts, h⟩

/-- The engine after the edges `done`. -/
def EdgeEngine.after (order : EdgeOrder) (duplicates : DuplicatePolicy) (maxEdges : Option Nat)
    (done : List (Edge String)) : EdgeEngine where
  order := order
  duplicates := duplicates
  seen := done.eraseDups
  canonical := match order with
    | .canonical => firsts duplicates done
    | .encounter => []
  rawEdges := done.length
  duplicateEdges := done.length - done.eraseDups.length
  finished := false
  cancelled := false
  maxEdges := maxEdges

/-- What the engine has handed out after the edges `done`, before it is finished. -/
def handed (order : EdgeOrder) (duplicates : DuplicatePolicy) (done : List (Edge String)) :
    List (Edge String) :=
  match order with
  | .canonical => []
  | .encounter => firsts duplicates done

theorem length_eraseDups_le {α : Type} [DecidableEq α] (xs : List α) :
    xs.eraseDups.length ≤ xs.length := by
  induction xs using List.reverseRecOn with
  | nil => exact Nat.le_refl 0
  | append_singleton xs x ih =>
    rw [eraseDups_snoc]
    split
    · rw [List.length_append]
      omega
    · rw [List.length_append, List.length_append]
      exact Nat.add_le_add_right ih _

variable (maxEdges) in
theorem absorb_after {prior output done : List (Edge String)} (edge : Edge String)
    (h : prior ++ output = handed order duplicates done) :
    (EdgeEngine.absorb (.after order duplicates maxEdges done, output) edge).1 =
        .after order duplicates maxEdges (done ++ [edge]) ∧
      prior ++ (EdgeEngine.absorb (.after order duplicates maxEdges done, output) edge).2 =
        handed order duplicates (done ++ [edge]) := by
  have hle := length_eraseDups_le done
  have hseen : edge ∈ done.eraseDups ↔ edge ∈ done := List.mem_eraseDups
  by_cases hin : edge ∈ done
  · have hnone : (done ++ [edge]).eraseDups = done.eraseDups := by simp [eraseDups_snoc, hin]
    refine ⟨?_, ?_⟩
    · cases duplicates <;> cases order <;>
        simp [EdgeEngine.absorb, EdgeEngine.after, firsts, hin, hnone] <;> omega
    · cases duplicates <;> cases order <;>
        simp [EdgeEngine.absorb, EdgeEngine.after, handed, firsts, hin, hnone,
          ← List.append_assoc] at h ⊢ <;> simp [h]
  · have hnew : (done ++ [edge]).eraseDups = done.eraseDups ++ [edge] := by
      simp [eraseDups_snoc, hin]
    refine ⟨?_, ?_⟩
    · cases duplicates <;> cases order <;>
        simp [EdgeEngine.absorb, EdgeEngine.after, firsts, hin, hnew]
    · cases duplicates <;> cases order <;>
        simp [EdgeEngine.absorb, EdgeEngine.after, handed, firsts, hin, hnew,
          ← List.append_assoc] at h ⊢ <;> simp [h]

variable (maxEdges) in
theorem absorb_all {prior output done : List (Edge String)} (batch : List (Edge String))
    (h : prior ++ output = handed order duplicates done) :
    (batch.foldl EdgeEngine.absorb (.after order duplicates maxEdges done, output)).1 =
        .after order duplicates maxEdges (done ++ batch) ∧
      prior ++ (batch.foldl EdgeEngine.absorb (.after order duplicates maxEdges done, output)).2 =
        handed order duplicates (done ++ batch) := by
  induction batch generalizing done output with
  | nil => simpa using h
  | cons edge rest ih =>
    obtain ⟨hengine, hout⟩ := absorb_after maxEdges edge h
    have hnext := ih hout
    rw [List.append_assoc, List.singleton_append] at hnext
    rw [List.foldl_cons, ← hengine] at *
    exact hnext

/-- The limits leave room for `count` edges. -/
structure Room (maxEdges : Option Nat) (count : Nat) : Prop where
  counter : count < usizeLimit
  limit : ∀ limit, maxEdges = some limit → count ≤ limit

theorem push_after {done batch : List (Edge String)}
    (h : w.engine = .after order duplicates maxEdges done)
    (hroom : Room maxEdges (done.length + batch.length)) :
    wp (EdgeEngine.push allocates batch)
      (fun out v => v.engine = .after order duplicates maxEdges (done ++ batch) ∧
        handed order duplicates done ++ out = handed order duplicates (done ++ batch))
      (fun _ _ => OutOfMemory allocates) w := by
  have haccepts : Accepts w.engine batch := by
    rw [h]
    exact ⟨rfl, rfl, hroom.counter, hroom.limit⟩
  refine wp_mono (push_spec batch w) ?_ ?_
  · rintro out v ⟨-, hv⟩
    obtain ⟨hengine, hout⟩ := absorb_all maxEdges batch
      (List.append_nil (handed order duplicates done))
    rw [h] at hv
    rw [← hv] at hengine hout
    exact ⟨hengine, hout⟩
  · rintro e v (⟨hrefused, -⟩ | hmemory)
    · exact absurd haccepts hrefused
    · exact hmemory

/-- The engine after `finish`, when `rest` is still to be drained. -/
def EdgeEngine.finishedWith (e : EdgeEngine) (rest : List (Edge String)) : EdgeEngine :=
  { e with canonical := rest.reverse, finished := true }

/-- What `finish` leaves to be drained. -/
def pendingEdges (order : EdgeOrder) (duplicates : DuplicatePolicy) (done : List (Edge String)) :
    List (Edge String) :=
  match order with
  | .canonical => sortOn Edge.canonicalKey (firsts duplicates done)
  | .encounter => []

theorem handed_pending (order : EdgeOrder) (duplicates : DuplicatePolicy)
    (done : List (Edge String)) :
    handed order duplicates done ++ pendingEdges order duplicates done =
      policyEdges duplicates order done := by
  cases order with
  | canonical => rfl
  | encounter => exact List.append_nil _

theorem finish_after {done : List (Edge String)} {E : EngineError → EngineState → Prop}
    (h : w.engine = .after order duplicates maxEdges done) :
    wp EdgeEngine.finish (fun _ v => v.engine =
      (EdgeEngine.after order duplicates maxEdges done).finishedWith
        (pendingEdges order duplicates done)) E w := by
  simp only [EdgeEngine.finish, ensureActive, modifyEngine, wp_bind, wp_get, wp_modify]
  refine wp_raiseIf (fun hc => ?_) (fun _ => ?_)
  · rw [h] at hc
    cases hc
  refine wp_raiseIf (fun hc => ?_) (fun _ => ?_)
  · rw [h] at hc
    cases hc
  rw [h]
  cases order <;> rfl

theorem popEdges_eq (amount : Nat) (rest output : List (Edge String)) :
    popEdges amount rest.reverse output = (output ++ rest.take amount, (rest.drop amount).reverse) := by
  induction amount generalizing rest output with
  | zero => simp [popEdges]
  | succ amount ih =>
    cases rest with
    | nil =>
      have hnil := ih [] output
      simpa [popEdges] using hnil
    | cons edge rest =>
      have hnext := ih rest (output ++ [edge])
      simpa [popEdges] using hnext

theorem drain_finished {e : EdgeEngine} {rest : List (Edge String)} (maxItems : Nat)
    (hactive : e.cancelled = false) (h : w.engine = e.finishedWith rest) :
    wp (EdgeEngine.drain allocates maxItems)
      (fun out v => out = rest.take maxItems ∧ v.engine = e.finishedWith (rest.drop maxItems))
      (fun _ _ => OutOfMemory allocates) w := by
  simp only [EdgeEngine.drain, wp_bind, wp_get]
  refine wp_raiseIf (fun hc => ?_) (fun _ => ?_)
  · rw [h] at hc
    cases hc
  refine wp_raiseIf (fun hc => ?_) (fun _ => ?_)
  · rw [h] at hc
    simp [EdgeEngine.finishedWith, hactive] at hc
  refine wp_mono (tryReserve_spec _ w) ?_ (fun _ _ h => h.2)
  intro _ v hv
  have hcanonical : w.engine.canonical = rest.reverse := by rw [h]; rfl
  have hlength : w.engine.canonical.length = rest.length := by rw [hcanonical, List.length_reverse]
  rw [hlength, hcanonical, popEdges_eq]
  simp only [modifyEngine, wp_modify, wp_pure, List.nil_append]
  refine ⟨?_, ?_⟩
  · rw [List.take_eq_take_iff]
    omega
  · rw [hv, h]
    simp only [EdgeEngine.finishedWith, EdgeEngine.mk.injEq, List.reverse_inj, true_and, and_true]
    rw [List.drop_eq_drop_iff]
    omega

theorem finishedWith_drained {e : EdgeEngine} {rest : List (Edge String)} :
    (e.finishedWith rest).drained = true ↔ rest = [] := by
  simp [EdgeEngine.drained, EdgeEngine.finishedWith]

/-- Drain until nothing is left. -/
def drainEngine (allocates : Nat → Bool) (maxItems : Nat) :
    Nat → List (Edge String) → EngineM (List (Edge String))
  | 0, output => pure output
  | turns + 1, output => do
    let s ← get
    if s.engine.drained then pure output
    else do
      let values ← EdgeEngine.drain allocates maxItems
      drainEngine allocates maxItems turns (output ++ values)

/-- All that an engine gives out: the output of the pushes, and then that of the drains. -/
def runEngine (allocates : Nat → Bool) (maxItems : Nat) (batches : List (List (Edge String))) :
    EngineM (List (Edge String)) := do
  let output ← batches.foldlM
    (fun output batch => (output ++ ·) <$> EdgeEngine.push allocates batch) []
  EdgeEngine.finish
  let s ← get
  drainEngine allocates maxItems s.engine.canonical.length output

theorem drainEngine_finished {e : EdgeEngine} {maxItems turns : Nat}
    {rest output : List (Edge String)} (hactive : e.cancelled = false) (hmax : 1 ≤ maxItems)
    (hturns : rest.length ≤ turns) (h : w.engine = e.finishedWith rest) :
    wp (drainEngine allocates maxItems turns output)
      (fun out v => out = output ++ rest ∧ v.engine = e.finishedWith [])
      (fun _ _ => OutOfMemory allocates) w := by
  induction turns generalizing rest output w with
  | zero =>
    have hnil : rest = [] := List.length_eq_zero_iff.mp (by omega)
    subst hnil
    exact ⟨(List.append_nil output).symm, h⟩
  | succ turns ih =>
    simp only [drainEngine, wp_bind, wp_get]
    rw [h, wp_ite]
    split
    · rename_i hdrained
      have hnil := finishedWith_drained.mp hdrained
      subst hnil
      exact ⟨(List.append_nil output).symm, h⟩
    · rename_i hmore
      have hsome : rest ≠ [] := fun hnil => hmore (finishedWith_drained.mpr hnil)
      have hpos := List.length_pos_iff.mpr hsome
      rw [wp_bind]
      refine wp_mono (drain_finished maxItems hactive h) ?_ (fun _ _ h => h)
      rintro values v ⟨rfl, hv⟩
      have hless : (rest.drop maxItems).length ≤ turns := by
        rw [List.length_drop]
        omega
      refine wp_mono (ih hless hv) ?_ (fun _ _ h => h)
      rintro out u ⟨rfl, hu⟩
      rw [List.append_assoc, List.take_append_drop]
      exact ⟨rfl, hu⟩

theorem finishedWith_stats (done rest : List (Edge String)) :
    ((EdgeEngine.after order duplicates maxEdges done).finishedWith rest).stats =
      policyCounts done := rfl

/-- For every batching, the engine gives out what the policy yields, and counts as it does. -/
theorem runEngine_spec {maxItems : Nat} {batches : List (List (Edge String))}
    (hmax : 1 ≤ maxItems) (hroom : Room maxEdges batches.flatten.length)
    (h : w.engine = .new order duplicates maxEdges) :
    wp (runEngine allocates maxItems batches)
      (fun out v => v.engine.drained = true ∧ out = policyEdges duplicates order batches.flatten ∧
        v.engine.stats = policyCounts batches.flatten)
      (fun _ _ => OutOfMemory allocates) w := by
  have hstart : w.engine = .after order duplicates maxEdges [] := by
    rw [h]
    cases order <;> cases duplicates <;> rfl
  have hnone : handed order duplicates [] = [] := by
    cases order <;> cases duplicates <;> rfl
  simp only [runEngine, wp_bind]
  have hstep : ∀ (done : List (List (Edge String))) (batch : List (Edge String))
      (rest : List (List (Edge String))) (out : List (Edge String)) (s : EngineState),
      batches = done ++ batch :: rest →
      s.engine = .after order duplicates maxEdges done.flatten ∧
        out = handed order duplicates done.flatten →
      wp ((out ++ ·) <$> EdgeEngine.push allocates batch)
        (fun out v => v.engine = .after order duplicates maxEdges (done ++ [batch]).flatten ∧
          out = handed order duplicates (done ++ [batch]).flatten)
        (fun _ _ => OutOfMemory allocates) s := by
    rintro done batch rest out s hsplit ⟨hengine, rfl⟩
    have hlength : done.flatten.length + batch.length ≤ batches.flatten.length := by
      rw [hsplit, List.flatten_append, List.flatten_cons, List.length_append, List.length_append]
      omega
    have hfits : Room maxEdges (done.flatten.length + batch.length) :=
      ⟨lt_of_le_of_lt hlength hroom.counter, fun limit hl => le_trans hlength (hroom.limit limit hl)⟩
    rw [wp_map]
    refine wp_mono (push_after hengine hfits) ?_ (fun _ _ h => h)
    rintro values v ⟨hv, hout⟩
    rw [List.flatten_append, List.flatten_singleton]
    exact ⟨hv, hout⟩
  refine wp_mono (wp_foldlM _ hstep ⟨hstart, hnone.symm⟩) ?_ (fun _ _ h => h)
  rintro _ v ⟨hv, rfl⟩
  refine wp_mono (finish_after hv) ?_ (fun _ _ h => h)
  intro _ u hu
  simp only [wp_get]
  have hturns : (pendingEdges order duplicates batches.flatten).length ≤
      u.engine.canonical.length := by
    rw [hu]
    simp [EdgeEngine.finishedWith]
  refine wp_mono (drainEngine_finished rfl hmax hturns hu) ?_ (fun _ _ h => h)
  rintro out x ⟨rfl, hx⟩
  rw [hx, handed_pending]
  exact ⟨finishedWith_drained.mpr rfl, rfl, finishedWith_stats _ _⟩

end Engine

section Text

theorem extractEdge_toPython (edge : Edge String) : extractEdge (edgeToPython edge) = some edge := by
  simp [extractEdge, edgeToPython, PyStr.toString_ofString]

theorem edgeToPython_injective : Function.Injective edgeToPython := by
  intro a b h
  have hextract := congrArg extractEdge h
  rw [extractEdge_toPython, extractEdge_toPython] at hextract
  exact Option.some.inj hextract

theorem edgeToPython_encoded (edge : Edge String) : (edgeToPython edge).encoded? = edge.encoded? := by
  simp [Edge.encoded?, edgeToPython, PyText.encode, PyStr.toString_ofString]

theorem edgeToPython_key (edge : Edge String) :
    (edgeToPython edge).canonicalKey = edge.canonicalKey := by
  unfold Edge.canonicalKey
  rw [edgeToPython_encoded]

/-- Edges that can be encoded are the Python form of native edges. -/
theorem exists_toPython {edges : List (Edge PyStr)} (henc : ∀ edge ∈ edges, edge.encodable = true) :
    ∃ es : List (Edge String), edges = es.map edgeToPython := by
  induction edges with
  | nil => exact ⟨[], rfl⟩
  | cons edge edges ih =>
    obtain ⟨es, rfl⟩ := ih fun e he => henc e (List.mem_cons_of_mem _ he)
    obtain ⟨source, relation, destination⟩ := edge
    have hedge := henc _ List.mem_cons_self
    simp only [Edge.encodable, Edge.encoded?, PyText.encode, Option.bind_eq_bind,
      Option.isSome_iff_exists, Option.bind_eq_some_iff, Option.map_eq_some_iff] at hedge
    obtain ⟨-, -, ⟨s, hs, -⟩, -, ⟨r, hr, -⟩, -, ⟨d, hd, -⟩, -⟩ := hedge
    refine ⟨⟨s, r, d⟩ :: es, ?_⟩
    rw [List.map_cons]
    simp only [edgeToPython, PyStr.ofString_of_toString hs, PyStr.ofString_of_toString hr,
      PyStr.ofString_of_toString hd]

theorem extractBatch_toPython (es : List (Edge String)) :
    (es.map edgeToPython).mapM extractEdge = some es := by
  induction es with
  | nil => rfl
  | cons edge es ih => simp [extractEdge_toPython, ih]

end Text

section Driver
variable {allocates : Nat → Bool} {order : EdgeOrder} {duplicates : DuplicatePolicy}
  {s : PolicyState} {batchEdges : Nat}

@[simp]
theorem wp_call {α : Type} {Q : α → PolicyState → Prop} {E : NativePolicyError → PolicyState → Prop}
    (operation : EngineM α) (s : PolicyState) :
    wp (call operation) Q E s = wp operation (fun a native => Q a { s with native := native })
      (fun e native => E e.translated { s with native := native }) s.native := by
  unfold wp call
  cases operation s.native <;> rfl

/-- The loop over the edges sends all of them, in batches, in their order. -/
theorem batches_sent {send : List (Edge PyStr) → PolicyM Unit}
    {I : List (Edge String) → PolicyState → Prop} {E : NativePolicyError → PolicyState → Prop}
    {Q : PolicyState → Prop} {es : List (Edge String)}
    (hsend : ∀ sent chunk t, sent.length + chunk.length ≤ es.length → I sent t →
      wp (send (chunk.map edgeToPython)) (fun _ => I (sent ++ chunk)) E t)
    (hstart : I [] s) (hend : ∀ t, I es t → Q t) :
    wp ((es.map edgeToPython).foldlM (policyStep send batchEdges) [])
      (fun batch t => wp (runIf (batch ≠ []) (send batch)) (fun _ => Q) E t) E s := by
  suffices hloop : ∀ (rest sent pending : List (Edge String)) (t : PolicyState),
      es = sent ++ pending ++ rest → I sent t →
      wp ((rest.map edgeToPython).foldlM (policyStep send batchEdges) (pending.map edgeToPython))
        (fun batch t => wp (runIf (batch ≠ []) (send batch)) (fun _ => Q) E t) E t from
    hloop es [] [] s rfl hstart
  intro rest
  induction rest with
  | nil =>
    intro sent pending t hsplit hi
    rw [List.append_nil] at hsplit
    subst hsplit
    refine wp_runIf (fun _ => ?_) (fun hnone => ?_)
    · refine wp_mono (hsend sent pending t (by rw [List.length_append]) hi) ?_ (fun _ _ h => h)
      exact fun _ u hu => hend u hu
    · have hempty : pending = [] := by simpa using hnone
      subst hempty
      exact hend t (by simpa using hi)
  | cons edge rest ih =>
    intro sent pending t hsplit hi
    have hbatch : pending.map edgeToPython ++ [edgeToPython edge] =
        (pending ++ [edge]).map edgeToPython := by simp
    have hshift : es = sent ++ (pending ++ [edge]) ++ rest := by simp [hsplit]
    simp only [List.map_cons, List.foldlM_cons, wp_bind, policyStep, hbatch, wp_ite]
    split
    · have hless : sent.length + (pending ++ [edge]).length ≤ es.length := by
        rw [hshift]
        simp only [List.length_append]
        omega
      refine wp_mono (hsend sent (pending ++ [edge]) t hless hi) ?_ (fun _ _ h => h)
      intro _ u hu
      exact ih (sent ++ (pending ++ [edge])) [] u (by simpa using hshift) hu
    · exact ih sent (pending ++ [edge]) t hshift hi

theorem pushBatch_after {done es : List (Edge String)} {w : EngineState}
    (h : w.engine = .after order duplicates none done)
    (hroom : done.length + es.length < usizeLimit) :
    wp (pushBatch allocates (es.map edgeToPython))
      (fun values v => v.engine = .after order duplicates none (done ++ es) ∧
        (handed order duplicates done).map edgeToPython ++ values =
          (handed order duplicates (done ++ es)).map edgeToPython)
      (fun _ _ => OutOfMemory allocates) w := by
  unfold pushBatch
  rw [extractBatch_toPython]
  simp only [edgesIntoTuples, wp_bind, wp_pure]
  refine wp_mono (tryReserve_spec _ w) ?_ (fun _ _ h => h.2)
  intro _ v hv
  refine wp_mono (push_after (hv.trans h) ⟨hroom, fun _ hl => by cases hl⟩) ?_ (fun _ _ h => h)
  rintro out u ⟨hu, hout⟩
  refine wp_mono (tryReserve_spec _ u) ?_ (fun _ _ h => h.2)
  intro _ x hx
  refine ⟨hx.trans hu, ?_⟩
  rw [← List.map_append, hout]

/-- What a policy generator has done after the edges `sent`. -/
structure Sent (start : PolicyState) (order : EdgeOrder) (duplicates : DuplicatePolicy)
    (sent : List (Edge String)) (s : PolicyState) : Prop where
  engine : s.native.engine = .after order duplicates none sent
  yielded : s.yielded = start.yielded ++ (handed order duplicates sent).map edgeToPython
  statistics : s.statistics = start.statistics

theorem pushValues_sent {start : PolicyState} {sent chunk : List (Edge String)}
    (h : Sent start order duplicates sent s)
    (hroom : sent.length + chunk.length < usizeLimit) :
    wp (pushValues allocates (chunk.map edgeToPython))
      (fun _ => Sent start order duplicates (sent ++ chunk)) (fun _ _ => OutOfMemory allocates) s := by
  simp only [pushValues, wp_bind, wp_call]
  refine wp_mono (pushBatch_after h.engine hroom) ?_ (fun _ _ h => h)
  rintro values native ⟨hengine, hvalues⟩
  simp only [yieldAll, wp_modify]
  refine ⟨hengine, ?_, h.statistics⟩
  dsimp only
  rw [h.yielded, List.append_assoc, hvalues]

theorem drainBatch_finished {e : EdgeEngine} {rest : List (Edge String)} {w : EngineState}
    (hactive : e.cancelled = false) (hmin : 1 ≤ batchEdges) (hmax : batchEdges < usizeLimit)
    (h : w.engine = e.finishedWith rest) :
    wp (drainBatch allocates batchEdges)
      (fun values v => values = (rest.take batchEdges).map edgeToPython ∧
        v.engine = e.finishedWith (rest.drop batchEdges))
      (fun _ _ => OutOfMemory allocates) w := by
  simp only [drainBatch, wp_bind, edgesIntoTuples, wp_pure]
  refine wp_raiseIf (fun hc => absurd hc (by omega)) (fun _ => ?_)
  refine wp_raiseIf (fun hc => absurd hc (by omega)) (fun _ => ?_)
  refine wp_mono (drain_finished batchEdges hactive h) ?_ (fun _ _ h => h)
  rintro out v ⟨rfl, hv⟩
  exact wp_mono (tryReserve_spec _ v) (fun _ _ h => ⟨rfl, h.trans hv⟩) (fun _ _ h => h.2)

theorem drainValues_finished {e : EdgeEngine} {rest : List (Edge String)} {turns : Nat}
    (hactive : e.cancelled = false) (hbatch : rest ≠ [] → 1 ≤ batchEdges ∧ batchEdges < usizeLimit)
    (hturns : rest.length ≤ turns) (h : s.native.engine = e.finishedWith rest) :
    wp (drainValues allocates batchEdges turns)
      (fun _ t => t.yielded = s.yielded ++ rest.map edgeToPython ∧
        t.statistics = s.statistics ∧ t.native.engine = e.finishedWith [])
      (fun _ _ => OutOfMemory allocates) s := by
  induction turns generalizing rest s with
  | zero =>
    have hnil : rest = [] := List.length_eq_zero_iff.mp (by omega)
    subst hnil
    simp only [drainValues, wp_bind, wp_get]
    refine wp_raiseIf (fun hc => ?_) (fun _ => ⟨(List.append_nil _).symm, rfl, h⟩)
    rw [h, finishedWith_drained.mpr rfl] at hc
    cases hc
  | succ turns ih =>
    simp only [drainValues, wp_bind, wp_get]
    rw [h, wp_ite]
    split
    · rename_i hdrained
      have hnil := finishedWith_drained.mp hdrained
      subst hnil
      exact ⟨(List.append_nil _).symm, rfl, h⟩
    · rename_i hmore
      have hsome : rest ≠ [] := fun hnil => hmore (finishedWith_drained.mpr hnil)
      obtain ⟨hmin, hmax⟩ := hbatch hsome
      have hpos := List.length_pos_iff.mpr hsome
      simp only [wp_bind, wp_call]
      refine wp_mono (drainBatch_finished hactive hmin hmax h) ?_ (fun _ _ h => h)
      rintro values native ⟨rfl, hnative⟩
      simp only [yieldAll, wp_modify]
      have hless : (rest.drop batchEdges).length ≤ turns := by
        rw [List.length_drop]
        omega
      refine wp_mono (ih (fun _ => ⟨hmin, hmax⟩) hless hnative) ?_ (fun _ _ h => h)
      rintro _ t ⟨hyielded, hstatistics, hengine⟩
      refine ⟨?_, hstatistics, hengine⟩
      rw [hyielded, List.append_assoc, ← List.map_append, List.take_append_drop]

/-- A policy generator sends all its edges and finishes its processor; it still has to drain it. -/
theorem policyBody_finished {es : List (Edge String)} (statistics : Bool)
    {Q : PolicyState → Prop} {E : NativePolicyError → PolicyState → Prop}
    (hroom : es.length < usizeLimit) (hmemory : OutOfMemory allocates → ∀ e t, E e t)
    (hdrain : ∀ t : PolicyState, t.yielded = s.yielded ++ (handed order duplicates es).map edgeToPython →
      t.statistics = s.statistics →
      t.native.engine = (EdgeEngine.after order duplicates none es).finishedWith
        (pendingEdges order duplicates es) →
      wp (drainValues allocates batchEdges (pendingEdges order duplicates es).length)
        (fun _ u => wp (copyStatistics statistics) (fun _ => Q) E u) E t) :
    wp (policyBody allocates batchEdges statistics (es.map edgeToPython)) (fun _ => Q) E
      { s with native := { s.native with engine := .new order duplicates none } } := by
  have hstart : Sent s order duplicates []
      { s with native := { s.native with engine := .new order duplicates none } } := by
    refine ⟨?_, ?_, rfl⟩
    · cases order <;> cases duplicates <;> rfl
    · cases order <;> cases duplicates <;> exact (List.append_nil _).symm
  simp only [policyBody, wp_bind, wp_call, wp_get]
  refine batches_sent (fun sent chunk t hless hsent => ?_) hstart ?_
  · exact wp_mono (pushValues_sent hsent (by omega)) (fun _ _ h => h) (fun e t h => hmemory h e t)
  · intro t ht
    refine wp_mono (finish_after ht.engine) ?_ (fun _ _ h => h)
    intro _ native hnative
    have hturns : native.engine.canonical.length = (pendingEdges order duplicates es).length := by
      rw [hnative]
      simp [EdgeEngine.finishedWith]
    have hnext := hdrain { t with native := native } ht.yielded ht.statistics hnative
    rwa [← hturns] at hnext

/-- A policy generator yields what the policy delivers. -/
theorem iterNativePolicy_spec {es : List (Edge String)} (statistics : Bool)
    (hroom : es.length < usizeLimit)
    (hbatch : order = .canonical → 1 ≤ batchEdges ∧ batchEdges < usizeLimit) :
    wp (iterNativePolicy allocates duplicates order batchEdges statistics (es.map edgeToPython))
      (fun _ t => t.yielded = s.yielded ++ (policyEdges duplicates order es).map edgeToPython ∧
        t.statistics = if statistics then some (policyCounts es) else s.statistics)
      (fun _ _ => OutOfMemory allocates) s := by
  have hcancel : ∀ (e : NativePolicyError) (t : PolicyState), OutOfMemory allocates →
      wp EdgeEngine.cancel (fun _ _ => OutOfMemory allocates)
        (fun _ _ => OutOfMemory allocates) t.native := fun _ _ hmemory => hmemory
  have hpending : pendingEdges order duplicates es ≠ [] →
      1 ≤ batchEdges ∧ batchEdges < usizeLimit := fun hsome => hbatch (by
    cases order with
    | canonical => rfl
    | encounter => exact absurd rfl hsome)
  simp only [iterNativePolicy, newProcessor, wp_bind, wp_modify, wp_tryCatch, wp_throw, wp_call]
  refine wp_mono (policyBody_finished statistics hroom (fun hmemory _ _ => hmemory) ?_)
    (fun _ _ h => h) hcancel
  intro t hyielded hstatistics ht
  refine wp_mono (drainValues_finished rfl hpending (Nat.le_refl _) ht) ?_ (fun _ _ h => h)
  rintro _ u ⟨hyielded', hstatistics', hengine⟩
  simp only [copyStatistics, wp_modify]
  have hall : u.yielded = s.yielded ++ (policyEdges duplicates order es).map edgeToPython := by
    rw [hyielded', hyielded, List.append_assoc, ← List.map_append, handed_pending]
  cases statistics with
  | false => exact ⟨hall, hstatistics'.trans hstatistics⟩
  | true =>
    refine ⟨hall, ?_⟩
    simp only [if_true]
    rw [hengine, finishedWith_stats]

/-- A batch size that is no `usize` is refused when there is something to drain. -/
theorem iterNativePolicy_overflow {es : List (Edge String)} (statistics : Bool)
    (hroom : es.length < usizeLimit) (hsome : pendingEdges order duplicates es ≠ [])
    (hbatch : usizeLimit ≤ batchEdges) :
    wp (iterNativePolicy allocates duplicates order batchEdges statistics (es.map edgeToPython))
      (fun _ _ => False)
      (fun e _ => e = resourceError "OverflowError" ∨ OutOfMemory allocates) s := by
  have hcancel : ∀ (e : NativePolicyError) (t : PolicyState),
      e = resourceError "OverflowError" ∨ OutOfMemory allocates →
      wp EdgeEngine.cancel
        (fun _ _ => e = resourceError "OverflowError" ∨ OutOfMemory allocates)
        (fun e' _ => e'.translated = resourceError "OverflowError" ∨ OutOfMemory allocates)
        t.native := fun _ _ h => h
  simp only [iterNativePolicy, newProcessor, wp_bind, wp_modify, wp_tryCatch, wp_throw, wp_call]
  refine wp_mono (policyBody_finished statistics hroom (fun hmemory _ _ => .inr hmemory) ?_)
    (fun _ _ h => h) hcancel
  intro t _ _ ht
  obtain ⟨turns, hturns⟩ := Nat.exists_eq_succ_of_ne_zero (List.length_pos_iff.mpr hsome).ne'
  rw [hturns]
  simp only [drainValues, wp_bind, wp_get]
  rw [ht, wp_ite, if_neg fun hdrained => hsome (finishedWith_drained.mp hdrained)]
  simp only [wp_bind, wp_call, drainBatch]
  exact wp_raiseIf (fun _ => .inl rfl) (fun hlt => absurd hbatch hlt)

/-- The pass-through yields its edges as they are. -/
theorem iterNativePassthrough_spec {es : List (Edge String)} (hroom : es.length < usizeLimit) :
    wp (iterNativePassthrough allocates batchEdges (es.map edgeToPython))
      (fun _ t => t.yielded = s.yielded ++ es.map edgeToPython)
      (fun _ _ => OutOfMemory allocates) s := by
  have htransfer : ∀ (size : Nat) (sent chunk : List (Edge String)) (t : PolicyState),
      chunk.length < usizeLimit → t.yielded = s.yielded ++ sent.map edgeToPython →
      wp (transfer allocates size (chunk.map edgeToPython))
        (fun _ u => u.yielded = s.yielded ++ (sent ++ chunk).map edgeToPython)
        (fun _ _ => OutOfMemory allocates) t := by
    intro size sent chunk t hchunk ht
    refine wp_mono (iterNativePolicy_spec false hchunk (by simp)) ?_ (fun _ _ h => h)
    rintro _ u ⟨hu, -⟩
    rw [hu, ht, List.append_assoc, List.map_append]
    rfl
  cases es with
  | nil => exact (List.append_nil _).symm
  | cons first rest =>
    rw [List.length_cons] at hroom
    simp only [List.map_cons, iterNativePassthrough, wp_bind]
    have hfirst := htransfer 1 [] [first] s (by rw [List.length_singleton]; omega)
      (List.append_nil _).symm
    refine wp_mono hfirst ?_ (fun _ _ h => h)
    intro _ t ht
    refine batches_sent (I := fun sent u =>
      u.yielded = s.yielded ++ (first :: sent).map edgeToPython)
      (fun sent chunk u hless hu => ?_) ht (fun u hu => hu)
    exact htransfer batchEdges (first :: sent) chunk u (by omega) hu

end Driver

section Agreement

/-- The native edge engine is the reference policy, whatever the batches. Unless the allocator gives
up, an engine gives out, over its pushes and drains, what the policy yields, with its statistics; so
does the Python generator around it, on edges that can be encoded; the pass-through yields its edges
as they are; and a push applies its whole batch, or refuses it and leaves the engine alone. -/
theorem edge_engine_agrees (allocates : Nat → Bool) (duplicates : DuplicatePolicy)
    (order : EdgeOrder) {maxEdges : Option Nat} {maxItems batchEdges : Nat}
    {batches : List (List (Edge String))} {edges : List (Edge PyStr)}
    (hmax : 1 ≤ maxItems) (hroom : Room maxEdges batches.flatten.length)
    (hmin : 1 ≤ batchEdges) (hbatch : batchEdges < usizeLimit) (hedges : edges.length < usizeLimit)
    (henc : ∀ edge ∈ edges, edge.encodable = true) (w : EngineState) (s : PolicyState) :
    wp (runEngine allocates maxItems batches)
        (fun out v => v.engine.drained = true ∧
          iterProjectedEdges duplicates order batches.flatten = .ok (out, v.engine.stats))
        (fun _ _ => OutOfMemory allocates) { w with engine := .new order duplicates maxEdges } ∧
      wp (iterNativePolicy allocates duplicates order batchEdges true edges)
        (fun _ t => ∃ out counts, iterProjectedEdges duplicates order edges = .ok (out, counts) ∧
          t.yielded = s.yielded ++ out ∧ t.statistics = some counts)
        (fun _ _ => OutOfMemory allocates) s ∧
      wp (iterNativePassthrough allocates batchEdges edges)
        (fun _ t => t.yielded = s.yielded ++ edges) (fun _ _ => OutOfMemory allocates) s ∧
      ∀ batch, wp (EdgeEngine.push allocates batch)
        (fun out v => Accepts w.engine batch ∧
          (v.engine, out) = batch.foldl EdgeEngine.absorb (w.engine, []))
        (fun _ v => ¬Accepts w.engine batch ∧ v.engine = w.engine ∨ OutOfMemory allocates) w := by
  obtain ⟨es, rfl⟩ := exists_toPython henc
  rw [List.length_map] at hedges
  refine ⟨?_, ?_, iterNativePassthrough_spec hedges, fun batch => push_spec batch w⟩
  · refine wp_mono (runEngine_spec hmax hroom rfl) ?_ (fun _ _ h => h)
    rintro out v ⟨hdrained, rfl, hstats⟩
    exact ⟨hdrained, hstats ▸ iterProjectedEdges_eq duplicates order fun _ _ => rfl⟩
  · refine wp_mono (iterNativePolicy_spec true hedges fun _ => ⟨hmin, hbatch⟩) ?_ (fun _ _ h => h)
    rintro _ t ⟨hyielded, hstatistics⟩
    refine ⟨_, _, iterProjectedEdges_eq duplicates order henc, ?_, ?_⟩
    · rw [hyielded, policyEdges_map duplicates order edgeToPython_injective edgeToPython_key]
    · rw [hstatistics, policyCounts_map edgeToPython_injective]
      rfl

def freshState : PolicyState :=
  ⟨⟨.new .encounter .preserve none, 0⟩, [], none⟩

/-- An allocator that never refuses. It is kept folded, so that a statement about a run is not
evaluated. -/
@[irreducible] def roomy : Nat → Bool := fun _ => true

theorem roomy_never_out : ¬OutOfMemory roomy := by
  rintro ⟨call, hrefused⟩
  unfold roomy at hrefused
  cases hrefused

def plainEdge : Edge PyStr := ⟨[.scalar 'a'], [.scalar 'r'], [.scalar 'x']⟩

theorem edge_engine_agrees_sample :
    wp (iterNativePassthrough roomy 2 [plainEdge, plainEdge, plainEdge])
      (fun _ t => t.yielded = [plainEdge, plainEdge, plainEdge]) (fun _ _ => False)
      freshState := by
  have hroom : Room none ([[]] : List (List (Edge String))).flatten.length :=
    ⟨by decide, fun _ h => by cases h⟩
  have henc : ∀ edge ∈ [plainEdge, plainEdge, plainEdge], edge.encodable = true := by
    intro edge he
    simp only [List.mem_cons, List.not_mem_nil, or_false, or_self] at he
    exact he ▸ rfl
  have hagrees := edge_engine_agrees roomy .unique .canonical (Nat.le_refl 1) hroom
    (by decide : 1 ≤ 2) (by decide) (by simp [usizeLimit]) henc freshState.native freshState
  exact wp_mono hagrees.2.2.1 (fun _ _ h => h) (fun _ _ hmemory => roomy_never_out hmemory)

/-- An edge whose source is a lone surrogate. -/
def surrogateEdge : Edge PyStr := ⟨[.surrogate (Fin.last 2047)], [.scalar 'r'], [.scalar 'x']⟩

/-- The reference yields an edge that cannot be encoded, in encounter order; the native engine does
not take it. A drain size has to be a `usize`. An allocation that fails inside a batch leaves the
edges before it in the engine. -/
theorem edge_engine_differs :
    (iterProjectedEdges .preserve .encounter [surrogateEdge] = .ok ([surrogateEdge], ⟨1, 1, 0⟩) ∧
      wp (iterNativePolicy (fun _ => true) .preserve .encounter 1 true [surrogateEdge])
        (fun _ _ => False) (fun e t => e = executionError "UnicodeEncodeError" ∧ t.yielded = [])
        freshState) ∧
      wp (iterNativePolicy roomy .preserve .canonical usizeLimit true [plainEdge])
        (fun _ _ => False) (fun e _ => e = resourceError "OverflowError") freshState ∧
      wp (EdgeEngine.push (fun call => call != 5) [⟨"a", "r", "x"⟩, ⟨"b", "r", "x"⟩])
        (fun _ _ => False)
        (fun _ v => v.engine.rawEdges = 2 ∧ v.engine.seen = [⟨"a", "r", "x"⟩])
        ⟨.new .encounter .preserve (some 10), 0⟩ := by
  refine ⟨⟨rfl, rfl, rfl⟩, ?_, ⟨rfl, rfl⟩⟩
  · have hplain : plainEdge = edgeToPython ⟨"a", "r", "x"⟩ := by decide
    have hpending : pendingEdges .canonical .preserve [(⟨"a", "r", "x"⟩ : Edge String)] ≠ [] := by
      simp [pendingEdges, firsts, ← List.length_eq_zero_iff, (sortOn_perm _ _).length_eq]
    rw [hplain]
    exact wp_mono (iterNativePolicy_overflow true (by simp [usizeLimit]) hpending (Nat.le_refl _))
      (fun _ _ h => h) (fun _ _ h => h.resolve_right roomy_never_out)

end Agreement

end Projector.Native
