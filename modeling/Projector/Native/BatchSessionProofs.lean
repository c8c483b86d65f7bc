import Projector.Native.BatchSession
import Projector.Lib.Effects

namespace Projector.Native
open Lib

variable {γ : Type} {kernel : Kernel γ}

/-- The edges of a stream from a cursor on, as far as the kernel gets within `amount`. -/
def emissionFrom (kernel : Kernel γ) : Nat → DirectEmissionCursor γ → List DirectEdge
  | 0, _ => []
  | amount + 1, cursor =>
    match cursor.nextEdge kernel with
    | .ok (some (edge, cursor)) => edge :: emissionFrom kernel amount cursor
    | _ => []

/-- Everything a prepared stream has to give. -/
def emission (kernel : Kernel γ) (stream : PreparedDirectBatches γ) : List DirectEdge :=
  emissionFrom kernel stream.remainingEdges stream.cursor

section Collect
variable {cursor next last : DirectEmissionCursor γ} {edges more : List DirectEdge}

/-- One turn of the loop that ended well. -/
theorem collectEdges_succ {amount : Nat}
    (h : collectEdges kernel (amount + 1) cursor = .ok (edges, last)) :
    ∃ edge next rest, cursor.nextEdge kernel = .ok (some (edge, next)) ∧
      collectEdges kernel amount next = .ok (rest, last) ∧ edges = edge :: rest := by
  simp only [collectEdges] at h
  obtain ⟨found, hfound, h⟩ := bind_ok h
  cases found with
  | none => cases h
  | some p =>
    obtain ⟨edge, next⟩ := p
    obtain ⟨⟨rest, last'⟩, hrest, h⟩ := bind_ok h
    simp only [pure, Except.pure, Except.ok.injEq, Prod.mk.injEq] at h
    obtain ⟨rfl, rfl⟩ := h
    exact ⟨edge, next, rest, hfound, hrest, rfl⟩

theorem nextEdge_emitted {edge : DirectEdge}
    (h : cursor.nextEdge kernel = .ok (some (edge, next))) : next.emitted = cursor.emitted + 1 := by
  simp only [DirectEmissionCursor.nextEdge] at h
  obtain ⟨found, -, h⟩ := bind_ok h
  cases found with
  | none => simp [pure, Except.pure] at h
  | some p =>
    simp only at h
    split at h
    · simp only [pure, Except.pure, Except.ok.injEq, Option.some.injEq, Prod.mk.injEq] at h
      rw [← h.2]
    · cases h

/-- The loop counts what it collects. -/
theorem collectEdges_count {amount : Nat}
    (h : collectEdges kernel amount cursor = .ok (edges, next)) :
    edges.length = amount ∧ next.emitted = cursor.emitted + amount := by
  induction amount generalizing cursor edges with
  | zero =>
    simp only [collectEdges, pure, Except.pure, Except.ok.injEq, Prod.mk.injEq] at h
    obtain ⟨rfl, rfl⟩ := h
    exact ⟨rfl, rfl⟩
  | succ amount ih =>
    obtain ⟨edge, middle, rest, hedge, hrest, rfl⟩ := collectEdges_succ h
    obtain ⟨hlen, hemitted⟩ := ih hrest
    have hone := nextEdge_emitted hedge
    exact ⟨by simp [hlen], by omega⟩

/-- Two batches in a row are one batch of both sizes. -/
theorem collectEdges_append {amount further : Nat}
    (h : collectEdges kernel amount cursor = .ok (edges, next))
    (h' : collectEdges kernel further next = .ok (more, last)) :
    collectEdges kernel (amount + further) cursor = .ok (edges ++ more, last) := by
  induction amount generalizing cursor edges with
  | zero =>
    simp only [collectEdges, pure, Except.pure, Except.ok.injEq, Prod.mk.injEq] at h
    obtain ⟨rfl, rfl⟩ := h
    simpa using h'
  | succ amount ih =>
    obtain ⟨edge, middle, rest, hedge, hrest, rfl⟩ := collectEdges_succ h
    have htail := ih hrest
    rw [Nat.add_right_comm]
    simp only [collectEdges, hedge, htail, bind, Except.bind, pure, Except.pure, List.cons_append]

/-- What the loop collects comes first in the emission. -/
theorem emissionFrom_collect {amount total : Nat} (hle : amount ≤ total)
    (h : collectEdges kernel amount cursor = .ok (edges, next)) :
    emissionFrom kernel total cursor = edges ++ emissionFrom kernel (total - amount) next := by
  induction amount generalizing cursor edges total with
  | zero =>
    simp only [collectEdges, pure, Except.pure, Except.ok.injEq, Prod.mk.injEq] at h
    obtain ⟨rfl, rfl⟩ := h
    simp
  | succ amount ih =>
    obtain ⟨edge, middle, rest, hedge, hrest, rfl⟩ := collectEdges_succ h
    obtain ⟨total, rfl⟩ : ∃ n, total = n + 1 := ⟨total - 1, by omega⟩
    have htail := ih (show amount ≤ total by omega) hrest
    simp only [emissionFrom, hedge, htail, List.cons_append, Nat.add_sub_add_right]

end Collect

section Position
variable {stream origin : PreparedDirectBatches γ} {done edges : List DirectEdge}

/-- A stream that has delivered `done` since `origin`. -/
def Delivered (kernel : Kernel γ) (origin : PreparedDirectBatches γ) (done : List DirectEdge)
    (stream : PreparedDirectBatches γ) : Prop :=
  ∃ cursor, collectEdges kernel done.length origin.cursor = .ok (done, cursor) ∧
    stream = origin.commitCursor cursor

theorem Delivered.start (kernel : Kernel γ) (origin : PreparedDirectBatches γ) :
    Delivered kernel origin [] origin := ⟨origin.cursor, rfl, rfl⟩

theorem Delivered.remaining (h : Delivered kernel origin done stream) :
    stream.remainingEdges = origin.remainingEdges - done.length := by
  obtain ⟨cursor, hcollect, rfl⟩ := h
  have hcount := (collectEdges_count hcollect).2
  simp only [PreparedDirectBatches.remainingEdges, PreparedDirectBatches.commitCursor, hcount]
  omega

/-- A prepared batch, once committed, has been delivered after the others. -/
theorem Delivered.commit {size : Nat} {cursor : DirectEmissionCursor γ}
    (h : Delivered kernel origin done stream)
    (hbatch : stream.prepareNextBatch kernel size = .ok (edges, cursor)) :
    Delivered kernel origin (done ++ edges) (stream.commitCursor cursor) ∧
      edges.length = min stream.remainingEdges size := by
  obtain ⟨middle, hcollect, rfl⟩ := h
  have hlen := (collectEdges_count hbatch).1
  refine ⟨⟨cursor, ?_, rfl⟩, hlen⟩
  rw [List.length_append]
  exact collectEdges_append hcollect (by rw [hlen]; exact hbatch)

theorem Delivered.emission (h : Delivered kernel origin done stream)
    (hle : done.length ≤ origin.remainingEdges) :
    emission kernel origin = done ++ emission kernel stream := by
  have hremaining := h.remaining
  obtain ⟨cursor, hcollect, rfl⟩ := h
  rw [Native.emission, emissionFrom_collect hle hcollect, Native.emission, hremaining]
  rfl

theorem emission_batch {size : Nat} {cursor : DirectEmissionCursor γ}
    (hbatch : stream.prepareNextBatch kernel size = .ok (edges, cursor)) :
    edges = (emission kernel stream).take size := by
  have hlen := (collectEdges_count hbatch).1
  have hall := emissionFrom_collect (Nat.min_le_left _ _) hbatch
  rw [emission, hall]
  rcases Nat.le_total stream.remainingEdges size with hle | hle
  · -- The batch takes all that is left.
    rw [Nat.min_eq_left hle] at hlen ⊢
    simp only [Nat.sub_self, emissionFrom, List.append_nil]
    exact (List.take_of_length_le (by omega)).symm
  · rw [Nat.min_eq_right hle] at hlen
    rw [List.take_left' hlen]

end Position

/-- `compile_batch` returns the whole emission, or nothing. -/
theorem coarseOutput_emission {turns : Nat} {stream : PreparedDirectBatches γ}
    {all : List DirectEdge} (h : stream.coarseOutput kernel turns = .ok all) :
    all = emission kernel stream := by
  induction turns generalizing stream all with
  | zero =>
    unfold PreparedDirectBatches.coarseOutput at h
    split at h
    · rename_i hzero
      obtain rfl := Except.ok.inj h
      rw [emission, hzero]
      rfl
    · cases h
  | succ turns ih =>
    unfold PreparedDirectBatches.coarseOutput at h
    split at h
    · rename_i hzero
      obtain rfl := Except.ok.inj h
      rw [emission, hzero]
      rfl
    · obtain ⟨⟨edges, cursor⟩, hbatch, h⟩ := bind_ok h
      obtain ⟨others, hothers, h⟩ := bind_ok h
      obtain rfl := Except.ok.inj h
      obtain ⟨hdelivered, hlen⟩ := (Delivered.start kernel stream).commit hbatch
      rw [hdelivered.emission (by simp only [List.nil_append, hlen]; omega), ih hothers]
      rfl

section Output
variable {output next : DirectBatchOutput γ} {drain : Drain γ} {edges batch : List DirectEdge}
  {cursor : DirectEmissionCursor γ}

theorem take_lent (h : output.take = .ok (some (drain, next))) :
    output.cancelled = false ∧ output.exhausted = false ∧ output.draining = false ∧
      output.stream = some drain.stream ∧ drain.batchEdges = output.batchEdges ∧
      next = { output with stream := none, draining := true } := by
  unfold DirectBatchOutput.take at h
  cases hp : output.prepared with
  | false => simp [hp] at h
  | true =>
  cases hc : output.cancelled with
  | true => simp [hp, hc] at h
  | false =>
  cases he : output.exhausted with
  | true => simp [hp, hc, he] at h
  | false =>
  cases hd : output.draining with
  | true => simp [hp, hc, he, hd] at h
  | false =>
  simp only [hp, hc, he, hd, Bool.not_true, Bool.false_eq_true, if_false] at h
  split at h
  · cases h
  split at h
  · cases h
  split at h
  · cases h
  · rename_i hs
    simp only [Except.ok.injEq, Option.some.injEq, Prod.mk.injEq] at h
    obtain ⟨rfl, rfl⟩ := h
    exact ⟨rfl, rfl, rfl, hs, rfl, by simp⟩

theorem take_empty (h : output.take = .ok none) : output.exhausted = true := by
  unfold DirectBatchOutput.take at h
  cases he : output.exhausted with
  | true => rfl
  | false =>
    simp only [he, Bool.false_eq_true, if_false] at h
    repeat' split at h
    all_goals cases h

/-- What gives the stream back leaves the rest of an open session as it was. -/
theorem restore_output (stream : PreparedDirectBatches γ) (error : BatchError) :
    (output.restore stream error).2 = if output.cancelled then { output with draining := false }
      else { output with draining := false, stream := some stream } := by
  unfold DirectBatchOutput.restore
  split <;> rfl

theorem restore_handled {stream : PreparedDirectBatches γ} {error : BatchError} :
    (output.restore stream error).1 = .cancelled ∨ (output.restore stream error).1 = error := by
  unfold DirectBatchOutput.restore
  split
  · exact Or.inl rfl
  · exact Or.inr rfl

theorem publish_ok (h : output.publish drain edges cursor = (.ok batch, next)) :
    output.cancelled = false ∧ batch = edges ∧
      next.prepared = output.prepared ∧ next.batchEdges = output.batchEdges ∧
      next.cancelled = false ∧ next.draining = false ∧
      next.exhausted = decide ((drain.stream.commitCursor cursor).remainingEdges = 0) ∧
      next.stream = if (drain.stream.commitCursor cursor).remainingEdges = 0 then none
        else some (drain.stream.commitCursor cursor) := by
  unfold DirectBatchOutput.publish at h
  split at h
  · cases h
  · rename_i hc
    simp only [Bool.not_eq_true] at hc
    simp only [Prod.mk.injEq, Except.ok.injEq] at h
    obtain ⟨rfl, rfl⟩ := h
    exact ⟨hc, rfl, rfl, rfl, hc, rfl, rfl, rfl⟩

theorem publish_error {error : BatchError}
    (h : output.publish drain edges cursor = (.error error, next)) :
    output.cancelled = true ∧ next = { output with draining := false } := by
  unfold DirectBatchOutput.publish at h
  split at h
  · rename_i hc
    simp only [Prod.mk.injEq] at h
    exact ⟨hc, h.2.symm⟩
  · cases h

/-- A session is closed or exhausted for good. -/
def DirectBatchOutput.over (output : DirectBatchOutput γ) : Prop :=
  output.cancelled = true ∨ output.exhausted = true

theorem cancel_cases (hp : output.prepared = true) :
    (output.over ∧ output.cancel = (false, output)) ∨
      (output.cancelled = false ∧ output.exhausted = false ∧
        output.cancel = (true, { output with
          stream := none, remainingEdges := 0, cancelled := true })) := by
  unfold DirectBatchOutput.cancel DirectBatchOutput.over
  cases hc : output.cancelled with
  | true => exact Or.inl ⟨Or.inl rfl, by simp⟩
  | false =>
    cases he : output.exhausted with
    | true => exact Or.inl ⟨Or.inr rfl, by simp⟩
    | false => exact Or.inr ⟨rfl, rfl, by simp [hp]⟩

end Output

theorem batches_append (events events' : List BatchEvent) :
    batches (events ++ events') = batches events ++ batches events' := by
  fun_induction batches events with
  | case1 => rfl
  | case2 call edge edges events ih => simp [batches, ih]
  | case3 event events hne ih =>
    rw [List.cons_append, ← ih]
    cases event with
    | returned call batch =>
      cases batch with
      | nil => rfl
      | cons edge edges => exact (hne call edge edges rfl).elim
    | _ => rfl

/-- The edges a history has returned. -/
def delivered (events : List BatchEvent) : List DirectEdge := (batches events).flatten

/-- What a call in progress holds. -/
structure Lent (kernel : Kernel γ) (origin : PreparedDirectBatches γ) (size : Nat)
    (done : List DirectEdge) (p : Draining γ) : Prop where
  sized : p.drain.batchEdges = size
  stream : Delivered kernel origin done p.drain.stream
  built : ∀ drain edges cursor, p = .building drain edges cursor →
    drain.stream.prepareNextBatch kernel drain.batchEdges = .ok (edges, cursor)

/-- What holds after every history whose calls all ended in a handled way. -/
structure Exact (kernel : Kernel γ) (origin : PreparedDirectBatches γ) (size : Nat)
    (events : List BatchEvent) (s : Session γ) : Prop where
  prepared : s.output.prepared = true
  sized : s.output.batchEdges = size
  single : ∀ call call' p p', s.calls call = some p → s.calls call' = some p' → call = call'
  lent : ∀ call p, s.calls call = some p → Lent kernel origin size (delivered events) p ∧
    s.output.exhausted = false ∧ s.output.stream = none
  draining : s.output.draining = true → ∃ call p, s.calls call = some p
  busy : ∀ call p, s.calls call = some p → s.output.draining = true
  stream : ∀ stream, s.output.stream = some stream →
    Delivered kernel origin (delivered events) stream
  available : s.output.cancelled = false → s.output.exhausted = false →
    s.output.draining = false → ∃ stream, s.output.stream = some stream
  reached : ∃ stream, Delivered kernel origin (delivered events) stream
  bound : (delivered events).length ≤ origin.remainingEdges
  unfinished : s.output.exhausted = false → (delivered events).length < origin.remainingEdges
  finished : s.output.exhausted = true → (delivered events).length = origin.remainingEdges
  full : s.output.exhausted = false → ∀ batch ∈ batches events, batch.length = size
  last : ∀ batch ∈ (batches events).dropLast, batch.length = size

namespace Exact
variable {origin : PreparedDirectBatches γ} {size : Nat} {events : List BatchEvent}
  {s : Session γ}

theorem initial (composite : Bool) (origin : PreparedDirectBatches γ) (size : Nat) :
    Exact kernel origin size [] (Session.start composite origin size) := by
  have hstream : ∀ stream, (DirectBatchOutput.install origin size).stream = some stream →
      stream = origin := by
    intro stream h
    simp only [DirectBatchOutput.install] at h
    split at h
    · cases h
    · exact (Option.some.inj h).symm
  refine ⟨rfl, rfl, by simp [Session.start], by simp [Session.start],
    by simp [Session.start, DirectBatchOutput.install], by simp [Session.start], ?_, ?_,
    ⟨origin, .start kernel origin⟩, Nat.zero_le _, ?_, ?_, by simp [batches], by simp [batches]⟩
  · intro stream h
    rw [hstream stream h]
    exact .start kernel origin
  · intro _ he _
    simp only [Session.start, DirectBatchOutput.install, decide_eq_false_iff_not] at he ⊢
    exact ⟨origin, if_neg he⟩
  · intro he
    simp only [Session.start, DirectBatchOutput.install, decide_eq_false_iff_not] at he
    exact Nat.pos_of_ne_zero he
  · intro he
    simp only [Session.start, DirectBatchOutput.install, decide_eq_true_eq] at he
    exact he.symm

/-- An event that returns nothing changes no promise about what was returned. -/
theorem quiet {event : BatchEvent} (h : Exact kernel origin size events s)
    (hevent : batches [event] = []) : Exact kernel origin size (events ++ [event]) s := by
  have hsame : batches (events ++ [event]) = batches events := by
    rw [batches_append, hevent, List.append_nil]
  have hdelivered : delivered (events ++ [event]) = delivered events := by
    rw [delivered, hsame, delivered]
  exact ⟨h.prepared, h.sized, h.single, hdelivered ▸ h.lent, h.draining, h.busy,
    hdelivered ▸ h.stream, h.available, hdelivered ▸ h.reached, hdelivered ▸ h.bound,
    hdelivered ▸ h.unfinished, hdelivered ▸ h.finished, hsame ▸ h.full, hsame ▸ h.last⟩

/-- A call read after an update is the updated one, or was there before. -/
theorem moveTo_cases {call other : CallId} {phase : Option (Draining γ)} {p : Draining γ}
    (h : (s.moveTo call phase).calls other = some p) :
    (other = call ∧ phase = some p) ∨ (other ≠ call ∧ s.calls other = some p) := by
  by_cases ho : other = call
  · subst ho
    exact Or.inl ⟨rfl, by simpa [Session.moveTo] using h⟩
  · exact Or.inr ⟨ho, by simpa [Session.moveTo, Function.update_of_ne ho] using h⟩

/-- While a call holds the stream no other call is there, and after it none is. -/
theorem alone {call : CallId} {p : Draining γ} (h : Exact kernel origin size events s)
    (hp : s.calls call = some p) (other : CallId) : (s.moveTo call none).calls other = none := by
  cases hq : (s.moveTo call none).calls other with
  | none => rfl
  | some q =>
    rcases moveTo_cases hq with ⟨-, hn⟩ | ⟨hne, hq⟩
    · cases hn
    · exact absurd (h.single other call q p hq hp) hne

theorem lend {call : CallId} {drain : Drain γ} {output : DirectBatchOutput γ}
    (h : Exact kernel origin size events s) (htake : s.output.take = .ok (some (drain, output))) :
    Exact kernel origin size events
      ((s.setOutput output).moveTo call (some (.preparing drain))) := by
  obtain ⟨hcancelled, hexhausted, hdraining, hstream, hsized, rfl⟩ := take_lent htake
  have hnone : ∀ other p, s.calls other = some p → False := by
    intro other p hp
    have hbusy := h.busy other p hp
    rw [hdraining] at hbusy
    cases hbusy
  have hback : ∀ other p, ((s.setOutput { s.output with stream := none, draining := true }).moveTo
      call (some (.preparing drain))).calls other = some p →
      other = call ∧ p = .preparing drain := by
    intro other p hp
    rcases moveTo_cases hp with ⟨ho, hq⟩ | ⟨-, hp⟩
    · exact ⟨ho, (Option.some.inj hq).symm⟩
    · exact (hnone other p hp).elim
  refine ⟨h.prepared, h.sized, ?_, ?_, ?_, fun _ _ _ => rfl, ?_, ?_, h.reached, h.bound,
    h.unfinished, h.finished, h.full, h.last⟩
  · intro a b p q hp hq
    rw [(hback a p hp).1, (hback b q hq).1]
  · intro other p hp
    obtain ⟨-, rfl⟩ := hback other p hp
    exact ⟨⟨hsized.trans h.sized, h.stream _ hstream, fun _ _ _ he => by cases he⟩, hexhausted,
      rfl⟩
  · intro _
    exact ⟨call, .preparing drain, by simp [Session.moveTo]⟩
  · intro stream hs
    cases hs
  · intro _ _ hd
    cases hd

theorem giveBack {call : CallId} {p : Draining γ} (h : Exact kernel origin size events s)
    (hp : s.calls call = some p) (error : BatchError) :
    Exact kernel origin size events
      ((s.setOutput (s.output.restore p.drain.stream error).2).moveTo call none) := by
  obtain ⟨hlent, hexhausted, hnone⟩ := h.lent call p hp
  have halone := h.alone hp
  have hgone : ∀ output : DirectBatchOutput γ, ∀ other q,
      ((s.setOutput output).moveTo call none).calls other = some q → False := by
    intro output other q hq
    exact Option.some_ne_none q (hq.symm.trans (halone other))
  rw [restore_output]
  cases hc : s.output.cancelled with
  | true =>
    rw [if_pos rfl]
    refine ⟨h.prepared, h.sized, fun a _ q _ hq => (hgone _ a q hq).elim,
      fun a q hq => (hgone _ a q hq).elim, fun hd => ?_, fun a q hq => (hgone _ a q hq).elim,
      h.stream, ?_, h.reached, h.bound, h.unfinished, h.finished, h.full, h.last⟩
    · cases hd
    · intro hcancelled
      cases hcancelled
  | false =>
    rw [if_neg (by simp)]
    refine ⟨h.prepared, h.sized, fun a _ q _ hq => (hgone _ a q hq).elim,
      fun a q hq => (hgone _ a q hq).elim, fun hd => ?_, fun a q hq => (hgone _ a q hq).elim,
      ?_, ?_, h.reached, h.bound, h.unfinished, h.finished, h.full, h.last⟩
    · cases hd
    · intro stream hs
      obtain rfl := Option.some.inj hs
      exact hlent.stream
    · exact fun _ _ _ => ⟨_, rfl⟩

theorem build {call : CallId} {drain : Drain γ} {edges : List DirectEdge}
    {cursor : DirectEmissionCursor γ} (h : Exact kernel origin size events s)
    (hp : s.calls call = some (.preparing drain))
    (hbatch : drain.stream.prepareNextBatch kernel drain.batchEdges = .ok (edges, cursor)) :
    Exact kernel origin size events (s.moveTo call (some (.building drain edges cursor))) := by
  obtain ⟨hlent, hexhausted, hnone⟩ := h.lent call _ hp
  have hback : ∀ other q, (s.moveTo call (some (.building drain edges cursor))).calls other =
      some q → ∃ q', s.calls other = some q' := by
    intro other q hq
    rcases moveTo_cases hq with ⟨rfl, -⟩ | ⟨-, hq⟩
    · exact ⟨_, hp⟩
    · exact ⟨q, hq⟩
  refine ⟨h.prepared, h.sized, ?_, ?_, ?_, ?_, h.stream, h.available, h.reached, h.bound,
    h.unfinished, h.finished, h.full, h.last⟩
  · intro a b q r hq hr
    obtain ⟨q', hq'⟩ := hback a q hq
    obtain ⟨r', hr'⟩ := hback b r hr
    exact h.single a b q' r' hq' hr'
  · intro other q hq
    rcases moveTo_cases hq with ⟨-, hmoved⟩ | ⟨-, hq⟩
    · obtain rfl := Option.some.inj hmoved
      refine ⟨⟨hlent.sized, hlent.stream, ?_⟩, hexhausted, hnone⟩
      intro drain' edges' cursor' he
      simp only [Draining.building.injEq] at he
      obtain ⟨rfl, rfl, rfl⟩ := he
      exact hbatch
    · exact h.lent other q hq
  · exact fun _ => ⟨call, .building drain edges cursor, by simp [Session.moveTo]⟩
  · intro other q hq
    obtain ⟨q', hq'⟩ := hback other q hq
    exact h.busy other q' hq'

theorem discard {call : CallId} {p : Draining γ} (h : Exact kernel origin size events s)
    (hp : s.calls call = some p) (hcancelled : s.output.cancelled = true) :
    Exact kernel origin size events
      ((s.setOutput { s.output with draining := false }).moveTo call none) := by
  have hrestore := h.giveBack hp .cancelled
  have houtput : (s.output.restore p.drain.stream .cancelled).2 =
      { s.output with draining := false } := by rw [restore_output, if_pos hcancelled]
  rwa [houtput] at hrestore

theorem close (h : Exact kernel origin size events s) :
    Exact kernel origin size events s.cancelBatchOutput.2 := by
  unfold Session.cancelBatchOutput
  rcases cancel_cases h.prepared with ⟨-, hcancel⟩ | ⟨hc, he, hcancel⟩
  · rw [hcancel]
    exact ⟨h.prepared, h.sized, h.single, h.lent, h.draining, h.busy, h.stream, h.available,
      h.reached, h.bound, h.unfinished, h.finished, h.full, h.last⟩
  · rw [hcancel]
    refine ⟨h.prepared, h.sized, h.single, ?_, h.draining, h.busy, ?_, ?_, h.reached, h.bound,
      h.unfinished, h.finished, h.full, h.last⟩
    · intro call p hp
      obtain ⟨hlent, hexhausted, -⟩ := h.lent call p hp
      exact ⟨hlent, hexhausted, rfl⟩
    · intro stream hs
      cases hs
    · intro hcancelled
      cases hcancelled

/-- A batch goes out: it is the next one, of full size unless it is the last. -/
theorem publish {call : CallId} {drain : Drain γ} {edges batch : List DirectEdge}
    {cursor : DirectEmissionCursor γ} {output : DirectBatchOutput γ}
    (h : Exact kernel origin size events s) (hsize : 1 ≤ size)
    (hp : s.calls call = some (.building drain edges cursor))
    (hpublish : s.output.publish drain edges cursor = (.ok batch, output)) :
    Exact kernel origin size (events ++ [.returned call batch])
      ((s.setOutput output).moveTo call none) := by
  obtain ⟨hlent, hexhausted, -⟩ := h.lent call _ hp
  obtain ⟨-, rfl, hprepared, hsized, hcancelled, hdraining, hfinished, hstream⟩ :=
    publish_ok hpublish
  have hgone : ∀ other q, ((s.setOutput output).moveTo call none).calls other = some q → False :=
    fun other q hq => Option.some_ne_none q (hq.symm.trans (h.alone hp other))
  have hbatch := hlent.built drain batch cursor rfl
  have hdrain : drain.batchEdges = size := hlent.sized
  have hat : Delivered kernel origin (delivered events) drain.stream := hlent.stream
  rw [hdrain] at hbatch
  obtain ⟨hnext, hlen⟩ := hat.commit hbatch
  have hremaining := hat.remaining
  have hopen := h.unfinished hexhausted
  obtain ⟨edge, rest, rfl⟩ : ∃ edge rest, batch = edge :: rest := by
    cases batch with
    | nil =>
      simp only [List.length_nil] at hlen
      omega
    | cons edge rest => exact ⟨edge, rest, rfl⟩
  have hbatches : batches (events ++ [.returned call (edge :: rest)]) =
      batches events ++ [edge :: rest] := by
    rw [batches_append]
    rfl
  have hdelivered : delivered (events ++ [.returned call (edge :: rest)]) =
      delivered events ++ edge :: rest := by
    rw [delivered, hbatches, List.flatten_append, delivered, List.flatten_singleton]
  have hleft := hnext.remaining
  rw [List.length_append] at hleft
  have hfull := h.full hexhausted
  refine ⟨hprepared.trans h.prepared, hsized.trans h.sized,
    fun a _ q _ hq => (hgone a q hq).elim, fun a q hq => (hgone a q hq).elim, ?_,
    fun a q hq => (hgone a q hq).elim, ?_, ?_, ?_, ?_, ?_, ?_, ?_, ?_⟩
  · intro hd
    exact absurd (hdraining.symm.trans hd) (by simp)
  · intro stream hs
    have hs' : output.stream = some stream := hs
    rw [hstream] at hs'
    split at hs'
    · cases hs'
    · obtain rfl := Option.some.inj hs'
      exact hdelivered ▸ hnext
  · intro _ he _
    have he' : output.exhausted = false := he
    rw [hfinished, decide_eq_false_iff_not] at he'
    exact ⟨drain.stream.commitCursor cursor, hstream.trans (if_neg he')⟩
  · exact hdelivered ▸ ⟨_, hnext⟩
  · rw [hdelivered, List.length_append]
    omega
  · intro he
    have he' : output.exhausted = false := he
    rw [hfinished, decide_eq_false_iff_not] at he'
    rw [hdelivered, List.length_append]
    omega
  · intro he
    have he' : output.exhausted = true := he
    rw [hfinished, decide_eq_true_eq] at he'
    rw [hdelivered, List.length_append]
    omega
  · intro he member hm
    have he' : output.exhausted = false := he
    rw [hfinished, decide_eq_false_iff_not] at he'
    rw [hbatches, List.mem_append, List.mem_singleton] at hm
    rcases hm with hm | rfl
    · exact hfull member hm
    · omega
  · rw [hbatches, List.dropLast_concat]
    exact hfull

/-- One handled step keeps all of it. -/
theorem step {event : BatchEvent} {t : Session γ} (h : Exact kernel origin size events s)
    (hsize : 1 ≤ size) (hhandled : event.handled) (hstep : BatchStep kernel s event t) :
    Exact kernel origin size (events ++ [event]) t := by
  cases hstep with
  | rejected => exact h.quiet rfl
  | refused => exact h.quiet rfl
  | empty => exact h.quiet rfl
  | took _ htake => exact (h.lend htake).quiet rfl
  | planFailed => exact hhandled.elim
  | kernelFailed hp =>
    refine quiet ?_ rfl
    exact h.giveBack hp _
  | built hp hbatch => exact (h.build hp hbatch).quiet rfl
  | allocationFailed hp =>
    refine quiet ?_ rfl
    exact h.giveBack hp _
  | published hp hpublish => exact h.publish hsize hp hpublish
  | discarded hp hpublish =>
    obtain ⟨hcancelled, rfl⟩ := publish_error hpublish
    exact (h.discard hp hcancelled).quiet rfl
  | panicked => exact hhandled.elim
  | closed => exact h.close.quiet rfl
  | cancelled => exact quiet ⟨h.prepared, h.sized, h.single, h.lent, h.draining, h.busy, h.stream,
      h.available, h.reached, h.bound, h.unfinished, h.finished, h.full, h.last⟩ rfl

theorem run {composite : Bool} (hsize : 1 ≤ size)
    (h : Run (BatchStep kernel) (Session.start composite origin size) events s)
    (hhandled : ∀ event ∈ events, event.handled) : Exact kernel origin size events s :=
  h.invariant_of hhandled (initial composite origin size)
    (fun _ _ _ _ hi he hs => hi.step hsize he hs)

end Exact

end Projector.Native
