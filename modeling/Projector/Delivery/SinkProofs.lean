import Projector.Delivery.Sink

namespace Projector.Delivery
open Lib Artifact

variable {γ ε : Type}

/-- A stretch of the stream, from its start. -/
def Source.Emits (p : Source γ ε) (edges : List (Edge PyStr)) : Prop :=
  ∀ i (h : i < edges.length), p.pulls i = .edge edges[i]

/-- The whole stream. -/
def Source.Ends (p : Source γ ε) (edges : List (Edge PyStr)) : Prop :=
  p.Emits edges ∧ p.pulls edges.length = .stop

/-- What is cut into batches: each is full, but for the last. -/
structure Batched (batchSize : Int) (batches : List (List (Edge PyStr))) : Prop where
  nonempty : ∀ batch ∈ batches, batch ≠ []
  bounded : ∀ batch ∈ batches, (batch.length : Int) ≤ batchSize
  full : ∀ batch ∈ batches.dropLast, (batch.length : Int) = batchSize

/-- No call has raised. -/
def Sink.Accepts (sink : Sink ε) (calls : List SinkCall) : Prop :=
  ∀ earlier, earlier <+: calls → earlier ≠ [] → sink.answer earlier = none

/-- No generator waits at its `yield`, and what one took is given back. -/
structure Released (initial : ProjectorState) (w : World γ) : Prop where
  generator : ∀ frame, w.generator ≠ .suspended frame
  lock : w.projector.scalaLock = initial.scalaLock
  batches : ∀ batches, w.batches = some batches → batches.compiler = none

/-- The number of a projection among the calls of its projector. -/
def Source.invocation (p : Source γ ε) (initial : ProjectorState) : Nat :=
  if p.scalaInstance then initial.scalaInvocationCount + 1 else 1

/-- The report of a projection of so many edges. -/
def Source.reported (p : Source γ ε) (initial : ProjectorState) (edgeCount : Nat) :
    Except ε ProjectionReport :=
  p.report edgeCount (p.invocation initial) (p.priorDigest initial)

section Stream
variable {p : Source γ ε} {edges : List (Edge PyStr)}

theorem Source.Emits.snoc (h : p.Emits edges) {edge : Edge PyStr}
    (hpull : p.pulls edges.length = .edge edge) : p.Emits (edges ++ [edge]) := by
  intro i hi
  rcases Nat.lt_or_ge i edges.length with hlt | hge
  · rw [List.getElem_append_left hlt]
    exact h i hlt
  · have hlast : i = edges.length := by
      simp only [List.length_append, List.length_singleton] at hi
      omega
    subst hlast
    simpa using hpull

theorem Source.Emits.left {rest : List (Edge PyStr)} (h : p.Emits (edges ++ rest)) :
    p.Emits edges := by
  intro i hi
  have hpull := h i (by simp; omega)
  rwa [List.getElem_append_left hi] at hpull

/-- A stretch of a stream that ends is part of it. -/
theorem Source.Emits.length_le {whole : List (Edge PyStr)} (h : p.Emits edges)
    (hw : p.Ends whole) : edges.length ≤ whole.length := by
  by_contra hlong
  have hedge := h whole.length (by omega)
  rw [hw.2] at hedge
  cases hedge

theorem Sink.Accepts.snoc {sink : Sink ε} {calls : List SinkCall} {call : SinkCall}
    (h : sink.Accepts calls) (hlast : sink.answer (calls ++ [call]) = none) :
    sink.Accepts (calls ++ [call]) := by
  intro earlier hpre hne
  rcases List.prefix_concat_iff.mp hpre with heq | hpre
  · rw [heq]
    exact hlast
  · exact h earlier hpre hne

theorem Sink.accepts_nil (sink : Sink ε) : sink.Accepts [] := by
  intro earlier hpre hne
  exact absurd (List.prefix_nil.mp hpre) hne

theorem Batched.nil (batchSize : Int) : Batched batchSize [] := by
  constructor <;> simp

/-- Full batches, and one more. -/
theorem Batched.snoc {batchSize : Int} {batches : List (List (Edge PyStr))}
    {batch : List (Edge PyStr)} (hne : ∀ b ∈ batches, b ≠ [])
    (hfull : ∀ b ∈ batches, (b.length : Int) = batchSize) (hlast : batch ≠ [])
    (hle : (batch.length : Int) ≤ batchSize) : Batched batchSize (batches ++ [batch]) := by
  constructor
  · intro b hb
    rcases List.mem_append.mp hb with hb | hb
    · exact hne b hb
    · rw [List.mem_singleton.mp hb]
      exact hlast
  · intro b hb
    rcases List.mem_append.mp hb with hb | hb
    · exact le_of_eq (hfull b hb)
    · rw [List.mem_singleton.mp hb]
      exact hle
  · rw [List.dropLast_concat]
    exact hfull

end Stream

/-- Closing does not fail and lets the compiler go. -/
theorem NativeBatches.close_ok (batches : NativeBatches γ) :
    ∃ result closed, (batches.close : Except (SinkError ε) _) = .ok (result, closed) ∧
      closed.compiler = none := by
  unfold NativeBatches.close
  cases hc : batches.compiler with
  | none => exact ⟨false, batches, rfl, hc⟩
  | some output =>
    obtain ⟨output, hprepared⟩ := output
    have hended : output.cancel.2.state = .exhausted ∨ output.cancel.2.state = .cancelled := by
      unfold Native.DirectBatchOutput.cancel Native.DirectBatchOutput.state
      cases hcancelled : output.cancelled <;> cases hexhausted : output.exhausted <;>
        simp [hprepared, hcancelled, hexhausted]
    refine ⟨output.cancel.1, ⟨none, output.cancel.2.state⟩, ?_, rfl⟩
    simp only
    rw [if_pos hended]

section Generate
variable {p : Source γ ε} {initial : ProjectorState} {w : World γ}

/-- The lock inside the `try` block of `generate`. -/
structure Held (p : Source γ ε) (initial : ProjectorState) (w : World γ) : Prop where
  lock : w.projector.scalaLock = (p.scalaInstance || initial.scalaLock)
  free : p.scalaInstance = true → initial.scalaLock = false

/-- Inside the `try` block, before the report. -/
structure Entered (p : Source γ ε) (initial : ProjectorState) (w : World γ) : Prop
    extends Held p initial w where
  digest : w.projector.scalaCallHistoryDigest = initial.scalaCallHistoryDigest

/-- The generator before its pull number `n`. -/
inductive Live (p : Source γ ε) (initial : ProjectorState) (n : Nat) (w : World γ) : Prop where
  | fresh (first : n = 0) (generator : w.generator = .created)
      (projector : w.projector = initial) (batches : w.batches = none)
  | waiting (generator : w.generator = .suspended ⟨p.scalaInstance, p.invocation initial, n⟩)
      (entered : Entered p initial w)

/-- What `generate` may raise, and when. -/
inductive Source.Fault (p : Source γ ε) (initial : ProjectorState) : SinkError ε → Prop where
  | locked (scala : p.scalaInstance = true) (taken : initial.scalaLock = true) :
    p.Fault initial (.invalidOptions "compatibility_state='scala-instance' is non-concurrent"
      [("compatibility_state", .text "scala-instance")])
  | unprepared {error : ε} (h : p.unprepared = some error) : p.Fault initial (.stream error)
  | stream {n : Nat} {error : ε} (h : p.pulls n = .raise error) : p.Fault initial (.stream error)
  | report {error : ε} (h : p.core = .error error) : p.Fault initial (.stream error)

theorem release_spec (acquired : Bool) (w : World γ) :
    wp (release acquired : M γ ε Unit) (fun _ v =>
      v.generator = w.generator ∧ v.calls = w.calls ∧
      v.projector = (if acquired then { w.projector with scalaLock := false } else w.projector) ∧
      ∀ batches, v.batches = some batches → batches.compiler = none) (fun _ _ => False) w := by
  have hunlock : ∀ v : World γ, wp
      (runIf (acquired = true) (modifyProjector fun s => { s with scalaLock := false }) : M γ ε Unit)
      (fun _ u => u.generator = v.generator ∧ u.calls = v.calls ∧ u.batches = v.batches ∧
        u.projector = if acquired then { v.projector with scalaLock := false } else v.projector)
      (fun _ _ => False) v := by
    intro v
    refine wp_runIf (fun hacquired => ?_) (fun hfree => ?_)
    · simp [modifyProjector, hacquired]
    · simp [hfree]
  simp only [release, wp_bind, wp_get]
  cases hb : w.batches with
  | none =>
    refine wp_mono (hunlock w) ?_ (fun _ _ h => h)
    rintro _ v ⟨hgen, hcalls, hbatches, hproj⟩
    refine ⟨hgen, hcalls, hproj, fun batches hsome => ?_⟩
    rw [hbatches, hb] at hsome
    cases hsome
  | some batches =>
    obtain ⟨result, closed, hclose, hgone⟩ := batches.close_ok (ε := ε)
    simp only [hclose]
    refine wp_mono (hunlock _) ?_ (fun _ _ h => h)
    rintro _ v ⟨hgen, hcalls, hbatches, hproj⟩
    refine ⟨hgen, hcalls, hproj, fun batches hsome => ?_⟩
    rw [hbatches] at hsome
    obtain rfl : closed = batches := Option.some.inj hsome
    exact hgone

/-- The `finally` block gives back what the `try` block holds. -/
theorem Held.release (h : Held p initial w) (hgen : w.generator = .finished) :
    wp (release p.scalaInstance : M γ ε Unit) (fun _ v => v.calls = w.calls ∧ Released initial v ∧
      v.projector.lastReport = w.projector.lastReport) (fun _ _ => False) w := by
  refine wp_mono (release_spec p.scalaInstance w) ?_ (fun _ _ h => h)
  rintro _ v ⟨hg, hcalls, hproj, hbatches⟩
  refine ⟨hcalls, ⟨fun frame => ?_, ?_, hbatches⟩, ?_⟩
  · rw [hg, hgen]
    exact Generator.noConfusion
  · rw [hproj]
    cases hs : p.scalaInstance with
    | true => simpa using (h.free hs).symm
    | false => simpa [hs] using h.lock
  · rw [hproj]
    split <;> rfl

theorem Held.abandon {α : Type} {Q : α → World γ → Prop} (h : Held p initial w)
    (error : SinkError ε) :
    wp (Source.abandon p.scalaInstance error : M γ ε α) Q
      (fun e v => e = error ∧ v.calls = w.calls ∧ Released initial v) w := by
  simp only [Source.abandon, setGenerator, wp_bind, wp_modify, wp_throw]
  have hin : Held p initial ({ w with generator := .finished } : World γ) := ⟨h.lock, h.free⟩
  refine wp_mono (hin.release rfl) ?_ (fun _ _ h => h.elim)
  rintro _ v ⟨hcalls, hreleased, -⟩
  exact ⟨trivial, hcalls, hreleased⟩

theorem acquire_spec (hw : w.projector = initial) :
    wp p.acquire (fun acquired v => acquired = p.scalaInstance ∧ v.calls = w.calls ∧
      Entered p initial v ∧
      v.projector.scalaInvocationCount = initial.scalaInvocationCount)
      (fun e v => p.Fault initial e ∧ v.calls = w.calls ∧ v.projector = initial ∧
        v.batches = w.batches) w := by
  unfold Source.acquire
  cases hs : p.scalaInstance with
  | false =>
    refine ⟨rfl, rfl, ⟨⟨?_, ?_⟩, ?_⟩, by rw [hw]⟩
    · simp [hw, hs]
    · simp [hs]
    · rw [hw]
  | true =>
    simp only [if_true, wp_bind, wp_get, modifyProjector, wp_modify, wp_pure]
    refine wp_raiseIf (fun htaken => ⟨.locked hs (hw ▸ htaken), rfl, hw, rfl⟩) (fun hfree => ?_)
    rw [hw] at hfree
    refine ⟨trivial, rfl, ⟨⟨?_, fun _ => ?_⟩, ?_⟩, by rw [hw]⟩
    · simp [hs]
    · simpa using hfree
    · rw [hw]

theorem raiseAny_spec (error : Option ε) (w : World γ) :
    wp (raiseAny error : M γ ε Unit) (fun _ v => v = w)
      (fun e v => (∃ cause, error = some cause ∧ e = .stream cause) ∧ v = w) w := by
  cases error with
  | none => exact rfl
  | some error => exact ⟨⟨error, rfl, rfl⟩, rfl⟩

theorem prepare_spec (h : Entered p initial w)
    (hcount : w.projector.scalaInvocationCount = initial.scalaInvocationCount) :
    wp (p.prepare p.scalaInstance) (fun frame v =>
      frame = ⟨p.scalaInstance, p.invocation initial, 0⟩ ∧ v.calls = w.calls ∧ Entered p initial v)
      (fun e v => p.Fault initial e ∧ v.calls = w.calls ∧ Entered p initial v) w := by
  simp only [Source.prepare, wp_bind, wp_modify]
  refine wp_mono (raiseAny_spec p.unprepared _) ?_ ?_
  · rintro _ v rfl
    simp only [modifyProjector, wp_modify]
    cases hs : p.scalaInstance with
    | true =>
      refine ⟨?_, rfl, ⟨⟨?_, h.free⟩, h.digest⟩⟩
      · simp [Source.invocation, hs, hcount]
      · simpa using h.lock
    | false =>
      refine ⟨?_, rfl, ⟨⟨?_, h.free⟩, h.digest⟩⟩
      · simp [Source.invocation, hs]
      · simpa using h.lock
  · rintro _ v ⟨⟨cause, hcause, rfl⟩, rfl⟩
    exact ⟨.unprepared hcause, rfl, ⟨⟨h.lock, h.free⟩, h.digest⟩⟩

theorem report_error {n invocation : Nat} {prior : PyStr} {error : ε}
    (h : p.report n invocation prior = .error error) : p.core = .error error := by
  unfold Source.report at h
  cases hcore : p.core with
  | error cause =>
    simpa [hcore] using h
  | ok core =>
    rw [hcore] at h
    cases h

theorem publish_spec (n : Nat) (w : World γ) :
    wp (Source.publish (p.reported initial n) : M γ ε Unit) (fun _ v => v.calls = w.calls ∧
      v.projector.scalaLock = w.projector.scalaLock ∧
      ∃ report, p.reported initial n = .ok report ∧ v.projector.lastReport = some report)
      (fun e v => p.Fault initial e ∧ v.calls = w.calls ∧
        v.projector.scalaLock = w.projector.scalaLock) w := by
  cases hreport : p.reported initial n with
  | error error => exact ⟨.report (report_error hreport), rfl, rfl⟩
  | ok report => exact ⟨rfl, rfl, report, rfl, rfl⟩

theorem conclude_spec (n : Nat) (h : Entered p initial w) :
    wp (p.conclude ⟨p.scalaInstance, p.invocation initial, n⟩) (fun _ v => v.calls = w.calls ∧
      v.projector.scalaLock = w.projector.scalaLock ∧
      ∃ report, p.reported initial n = .ok report ∧ v.projector.lastReport = some report)
      (fun e v => p.Fault initial e ∧ v.calls = w.calls ∧
        v.projector.scalaLock = w.projector.scalaLock) w := by
  have hprior : p.priorDigest w.projector = p.priorDigest initial := by
    unfold Source.priorDigest
    rw [h.digest]
  simp only [Source.conclude, wp_bind, wp_get, hprior]
  refine wp_runIf (fun _ => ?_) (fun _ => ?_)
  · simp only [modifyProjector, wp_modify]
    exact publish_spec n _
  · exact publish_spec n _

/-- The stream has ended and its report is the projector's last. -/
def Source.Concluded (p : Source γ ε) (initial : ProjectorState) (n : Nat) (w : World γ) : Prop :=
  p.pulls n = .stop ∧
    ∃ report, p.reported initial n = .ok report ∧ w.projector.lastReport = some report

theorem advance_spec (n : Nat) (h : Entered p initial w) :
    wp (p.advance ⟨p.scalaInstance, p.invocation initial, n⟩) (fun next v =>
      v.calls = w.calls ∧ Held p initial v ∧
      match next with
      | some edge => p.pulls n = .edge edge ∧ Entered p initial v
      | none => p.Concluded initial n v)
      (fun e v => p.Fault initial e ∧ v.calls = w.calls ∧ Held p initial v) w := by
  simp only [Source.advance, wp_bind, wp_modify]
  have hin : Entered p initial
      ({ w with batches := w.batches.map (p.draws n) } : World γ) :=
    ⟨⟨h.lock, h.free⟩, h.digest⟩
  cases hpull : p.pulls n with
  | edge edge => exact ⟨rfl, ⟨h.lock, h.free⟩, rfl, hin⟩
  | raise error => exact ⟨.stream hpull, rfl, ⟨h.lock, h.free⟩⟩
  | stop =>
    simp only [wp_bind, wp_pure]
    refine wp_mono (conclude_spec n hin) ?_ ?_
    · rintro _ v ⟨hcalls, hlock, hreport⟩
      exact ⟨hcalls, ⟨hlock.trans h.lock, h.free⟩, hpull, hreport⟩
    · rintro e v ⟨he, hcalls, hlock⟩
      exact ⟨he, hcalls, ⟨hlock.trans h.lock, h.free⟩⟩

/-- What a step of the generator from before pull `n` may come to. -/
def Source.Stepped (p : Source γ ε) (initial : ProjectorState) (n : Nat) (w : World γ)
    (next : Option (Edge PyStr)) (v : World γ) : Prop :=
  v.calls = w.calls ∧
    match next with
    | some edge => p.pulls n = .edge edge ∧ Live p initial (n + 1) v
    | none => p.Concluded initial n v ∧ Released initial v

theorem resume_spec (n : Nat) (h : Entered p initial w) :
    wp (p.resume ⟨p.scalaInstance, p.invocation initial, n⟩) (p.Stepped initial n w)
      (fun e v => p.Fault initial e ∧ v.calls = w.calls ∧ Released initial v) w := by
  simp only [Source.resume, wp_bind, wp_tryCatch]
  refine wp_mono (advance_spec n h) ?_ ?_
  · rintro (_ | edge) v ⟨hcalls, hheld, hnext⟩
    · simp only [setGenerator, wp_bind, wp_modify, wp_pure]
      have hin : Held p initial ({ v with generator := .finished } : World γ) :=
        ⟨hheld.lock, hheld.free⟩
      refine wp_mono (hin.release rfl) ?_ (fun _ _ h => h.elim)
      rintro _ u ⟨hu, hreleased, hlast⟩
      obtain ⟨hstop, report, hreport, hsome⟩ := hnext
      exact ⟨hu.trans hcalls, ⟨hstop, report, hreport, hlast.trans hsome⟩, hreleased⟩
    · obtain ⟨hpull, hin⟩ := hnext
      exact ⟨hcalls, hpull, .waiting rfl ⟨⟨hin.lock, hin.free⟩, hin.digest⟩⟩
  · rintro e v ⟨he, hcalls, hheld⟩
    refine wp_mono (hheld.abandon e) (fun _ _ h => h) ?_
    rintro _ u ⟨rfl, hu, hreleased⟩
    exact ⟨he, hu.trans hcalls, hreleased⟩

theorem next_spec {n : Nat} (h : Live p initial n w) :
    wp p.next (p.Stepped initial n w)
      (fun e v => p.Fault initial e ∧ v.calls = w.calls ∧ Released initial v) w := by
  simp only [Source.next, wp_bind, wp_get]
  cases h with
  | waiting hgen hin =>
    rw [hgen]
    exact resume_spec n hin
  | fresh hn hgen hproj hbatches =>
    subst hn
    rw [hgen]
    simp only [setGenerator, wp_bind, wp_tryCatch, wp_modify, wp_throw]
    refine wp_mono (acquire_spec hproj) ?_ ?_
    · rintro _ v ⟨rfl, hcalls, hin, hcount⟩
      refine wp_mono (prepare_spec hin hcount) ?_ ?_
      · rintro _ u ⟨rfl, hu, hin⟩
        refine wp_mono (resume_spec 0 hin) ?_ ?_
        · rintro next t ⟨ht, hnext⟩
          exact ⟨ht.trans (hu.trans hcalls), hnext⟩
        · rintro e t ⟨he, ht, hreleased⟩
          exact ⟨he, ht.trans (hu.trans hcalls), hreleased⟩
      · rintro e u ⟨he, hu, hin⟩
        refine wp_mono (hin.toHeld.abandon e) (fun _ _ h => h) ?_
        rintro _ t ⟨rfl, ht, hreleased⟩
        exact ⟨he, ht.trans (hu.trans hcalls), hreleased⟩
    · rintro e v ⟨he, hcalls, hp, hb⟩
      refine ⟨he, hcalls, ⟨fun frame => Generator.noConfusion, ?_, fun batches hsome => ?_⟩⟩
      · rw [hp]
      · simp only [hb, hbatches] at hsome
        cases hsome

theorem closeIterator_spec {n : Nat} (h : Live p initial n w) :
    wp (closeIterator : M γ ε Unit) (fun _ v => v.calls = w.calls ∧ Released initial v)
      (fun _ _ => False) w := by
  simp only [closeIterator, setGenerator, wp_bind, wp_get, wp_modify]
  cases h with
  | fresh hn hgen hproj hbatches =>
    rw [hgen]
    refine ⟨rfl, ⟨fun frame => Generator.noConfusion, ?_, fun batches hsome => ?_⟩⟩
    · exact congrArg ProjectorState.scalaLock hproj
    · have hnone : w.batches = some batches := hsome
      rw [hbatches] at hnone
      cases hnone
  | waiting hgen hin =>
    rw [hgen]
    have hheld : Held p initial ({ w with generator := .finished } : World γ) :=
      ⟨hin.lock, hin.free⟩
    refine wp_mono (hheld.release rfl) ?_ (fun _ _ h => h)
    rintro _ v ⟨hcalls, hreleased, -⟩
    exact ⟨hcalls, hreleased⟩

/-- Closing an iterator that does not wait has no effect to speak of. -/
theorem closeIterator_released (h : Released initial w) :
    wp (closeIterator : M γ ε Unit) (fun _ v => v.calls = w.calls ∧ v.projector = w.projector ∧
      Released initial v) (fun _ _ => False) w := by
  simp only [closeIterator, setGenerator, wp_bind, wp_get, wp_modify]
  cases hgen : w.generator with
  | suspended frame => exact absurd hgen (h.generator frame)
  | created => exact ⟨rfl, rfl, fun frame => Generator.noConfusion, h.lock, h.batches⟩
  | finished => exact ⟨rfl, rfl, fun frame => Generator.noConfusion, h.lock, h.batches⟩

end Generate

section Deliver
variable {p : Source γ ε} {sink : Sink ε} {initial : ProjectorState} {w : World γ}
  {batchSize : Int}

/-- What has gone to the sink: the start of the stream, in batches. -/
structure Delivered (p : Source γ ε) (batchSize : Int) (batches : List (List (Edge PyStr))) :
    Prop where
  batched : Batched batchSize batches
  emits : p.Emits batches.flatten

/-- What a delivery raises of its own and of the projection, and when. -/
inductive Fault (p : Source γ ε) (sink : Sink ε) (batchSize : Int) (initial : ProjectorState) :
    SinkError ε → Prop where
  | operations {error : SinkError ε} (h : sinkOperations sink = .error error) :
    Fault p sink batchSize initial error
  | batchSize (h : batchSize < 1) : Fault p sink batchSize initial
      (.invalidOptions "batch_size must be a positive int" [])
  | refused {error : ε} (h : p.refused = some error) : Fault p sink batchSize initial (.stream error)
  | generate {error : SinkError ε} (h : p.Fault initial error) : Fault p sink batchSize initial error

/-- The last of the calls raised. -/
def Sink.Refuses (sink : Sink ε) (calls : List SinkCall) (error : SinkError ε) : Prop :=
  ∃ cause, error = .sink cause ∧ sink.Accepts calls.dropLast ∧ sink.answer calls = some cause

/-- How a delivery breaks: it does not start or the stream raises, after calls that were all
accepted, or the last of the calls raises. -/
def Broke (p : Source γ ε) (sink : Sink ε) (batchSize : Int) (initial : ProjectorState)
    (calls : List SinkCall) (error : SinkError ε) : Prop :=
  (Fault p sink batchSize initial error ∧ sink.Accepts calls) ∨ sink.Refuses calls error

theorem callSink_spec (call : SinkCall) (h : sink.Accepts w.calls) :
    wp (callSink sink call)
      (fun _ v => v = { w with calls := w.calls ++ [call] } ∧ sink.Accepts v.calls)
      (fun e v => v = { w with calls := w.calls ++ [call] } ∧ sink.Refuses v.calls e) w := by
  simp only [callSink, wp_bind, wp_modify, wp_get]
  cases hanswer : sink.answer (w.calls ++ [call]) with
  | none => exact ⟨rfl, h.snoc hanswer⟩
  | some cause =>
    refine ⟨rfl, cause, rfl, ?_, hanswer⟩
    rw [List.dropLast_concat]
    exact h

/-- The state of the `for` loop: full batches are out, and fewer edges wait than fill one. -/
structure Filling (p : Source γ ε) (sink : Sink ε) (batchSize : Int)
    (batches : List (List (Edge PyStr))) (batch : List (Edge PyStr)) (w : World γ) : Prop where
  calls : w.calls = batches.map .writeBatch
  emits : p.Emits (batches.flatten ++ batch)
  nonempty : ∀ b ∈ batches, b ≠ []
  full : ∀ b ∈ batches, (b.length : Int) = batchSize
  room : (batch.length : Int) < batchSize
  accepts : sink.Accepts w.calls

theorem Filling.delivered {batches : List (List (Edge PyStr))} {batch : List (Edge PyStr)}
    (h : Filling p sink batchSize batches batch w) : Delivered p batchSize batches := by
  refine ⟨⟨h.nonempty, fun b hb => le_of_eq (h.full b hb), fun b hb => ?_⟩, h.emits.left⟩
  exact h.full b (List.dropLast_subset batches hb)

/-- The batch that waits can go out as it is. -/
theorem Filling.flush {batches : List (List (Edge PyStr))} {batch : List (Edge PyStr)}
    (h : Filling p sink batchSize batches batch w) (hne : batch ≠ []) :
    Delivered p batchSize (batches ++ [batch]) := by
  refine ⟨Batched.snoc h.nonempty h.full hne (le_of_lt h.room), ?_⟩
  simpa using h.emits

/-- How the body of the `try` block fails. -/
def Failed (p : Source γ ε) (sink : Sink ε) (batchSize : Int) (initial : ProjectorState)
    (error : SinkError ε) (w : World γ) : Prop :=
  (Released initial w ∨ ∃ n, Live p initial n w) ∧ Broke p sink batchSize initial w.calls error ∧
    ∃ batches, Delivered p batchSize batches ∧ w.calls = batches.map .writeBatch

theorem Live.withCalls {n : Nat} (h : Live p initial n w) (calls : List SinkCall) :
    Live p initial n { w with calls := calls } := by
  cases h with
  | fresh hn hgen hproj hbatches => exact .fresh hn hgen hproj hbatches
  | waiting hgen hin => exact .waiting hgen ⟨⟨hin.lock, hin.free⟩, hin.digest⟩

section Step
variable {batches : List (List (Edge PyStr))} {batch : List (Edge PyStr)} {edge : Edge PyStr}

theorem Filling.pulled (h : Filling p sink batchSize batches batch w)
    (hpull : p.pulls (batches.flatten ++ batch).length = .edge edge) :
    p.Emits (batches.flatten ++ (batch ++ [edge])) := by
  rw [← List.append_assoc]
  exact h.emits.snoc hpull

theorem flatten_snoc (batches : List (List (Edge PyStr))) (batch : List (Edge PyStr)) :
    (batches ++ [batch]).flatten = batches.flatten ++ batch := by
  simp

/-- The new edge fills the batch. -/
theorem Filling.filled (h : Filling p sink batchSize batches batch w)
    (hpull : p.pulls (batches.flatten ++ batch).length = .edge edge)
    (hfull : ((batch ++ [edge]).length : Int) = batchSize) :
    Delivered p batchSize (batches ++ [batch ++ [edge]]) := by
  refine ⟨Batched.snoc h.nonempty h.full (by simp) (le_of_eq hfull), ?_⟩
  rw [flatten_snoc]
  exact h.pulled hpull

/-- A full batch went out and was accepted. -/
theorem Filling.sent {v : World γ} (h : Filling p sink batchSize batches batch w)
    (hpull : p.pulls (batches.flatten ++ batch).length = .edge edge)
    (hfull : ((batch ++ [edge]).length : Int) = batchSize)
    (hcalls : v.calls = w.calls ++ [.writeBatch (batch ++ [edge])])
    (haccepts : sink.Accepts v.calls) :
    Filling p sink batchSize (batches ++ [batch ++ [edge]]) [] v := by
  have hout := h.filled hpull hfull
  refine ⟨?_, ?_, hout.batched.nonempty, ?_, ?_, haccepts⟩
  · rw [hcalls, h.calls, List.map_append, List.map_singleton]
  · rw [List.append_nil]
    exact hout.emits
  · intro b hb
    rcases List.mem_append.mp hb with hb | hb
    · exact h.full b hb
    · rw [List.mem_singleton.mp hb]
      exact hfull
  · rw [← hfull]
    simp only [List.length_nil, List.length_append, List.length_singleton]
    omega

/-- The new edge waits with the others. -/
theorem Filling.wait {v : World γ} (h : Filling p sink batchSize batches batch w)
    (hpull : p.pulls (batches.flatten ++ batch).length = .edge edge)
    (hshort : ((batch ++ [edge]).length : Int) ≠ batchSize) (hcalls : v.calls = w.calls) :
    Filling p sink batchSize batches (batch ++ [edge]) v := by
  refine ⟨hcalls.trans h.calls, h.pulled hpull, h.nonempty, h.full, ?_, hcalls ▸ h.accepts⟩
  have hroom := h.room
  simp only [List.length_append, List.length_singleton, Nat.cast_add, Nat.cast_one] at hshort ⊢
  omega

end Step

theorem fillBatches_spec (turns : Nat) :
    ∀ (batches : List (List (Edge PyStr))) (batch : List (Edge PyStr)) (w : World γ),
      Filling p sink batchSize batches batch w →
      Live p initial (batches.flatten ++ batch).length w →
      wp (fillBatches p sink batchSize turns batch) (fun result v =>
        match result with
        | none => ∃ batches' batch', Filling p sink batchSize batches' batch' v ∧
            (batches'.flatten ++ batch').length = (batches.flatten ++ batch).length + turns
        | some batch' => ∃ batches', Filling p sink batchSize batches' batch' v ∧
            p.Concluded initial (batches'.flatten ++ batch').length v ∧ Released initial v)
        (Failed p sink batchSize initial) w := by
  induction turns with
  | zero =>
    intro batches batch w h _
    exact ⟨batches, batch, h, rfl⟩
  | succ turns ih =>
    intro batches batch w h hlive
    simp only [fillBatches, wp_bind]
    -- A loop that goes on with one more edge out or waiting has one turn less.
    have hgo : ∀ (others : List (List (Edge PyStr))) (rest : List (Edge PyStr)) (v : World γ),
        (others.flatten ++ rest).length = (batches.flatten ++ batch).length + 1 →
        Filling p sink batchSize others rest v →
        Live p initial ((batches.flatten ++ batch).length + 1) v →
        wp (fillBatches p sink batchSize turns rest) (fun result v =>
          match result with
          | none => ∃ batches' batch', Filling p sink batchSize batches' batch' v ∧
              (batches'.flatten ++ batch').length =
                (batches.flatten ++ batch).length + (turns + 1)
          | some batch' => ∃ batches', Filling p sink batchSize batches' batch' v ∧
              p.Concluded initial (batches'.flatten ++ batch').length v ∧ Released initial v)
          (Failed p sink batchSize initial) v := by
      intro others rest v hcount hfilling hlive
      refine wp_mono (ih others rest v hfilling (hcount ▸ hlive)) ?_ (fun _ _ h => h)
      rintro (_ | batch') u hu
      · obtain ⟨batches', batch', hu, htotal⟩ := hu
        exact ⟨batches', batch', hu, by omega⟩
      · exact hu
    refine wp_mono (next_spec hlive) ?_ ?_
    · rintro (_ | edge) v ⟨hcalls, hnext⟩
      · exact ⟨batches, ⟨hcalls.trans h.calls, h.emits, h.nonempty, h.full, h.room,
          hcalls ▸ h.accepts⟩, hnext⟩
      · obtain ⟨hpull, hlive⟩ := hnext
        simp only [wp_ite]
        split
        · rename_i hfull
          simp only [wp_bind]
          refine wp_mono (callSink_spec _ (hcalls ▸ h.accepts)) ?_ ?_
          · rintro _ _ ⟨rfl, haccepted⟩
            refine hgo _ [] _ ?_ (h.sent hpull hfull (by rw [hcalls]) haccepted)
              (hlive.withCalls _)
            rw [flatten_snoc, List.append_nil, ← List.append_assoc, List.length_append,
              List.length_singleton]
          · rintro e _ ⟨rfl, hrefused⟩
            refine ⟨.inr ⟨_, hlive.withCalls _⟩, .inr hrefused, _, h.filled hpull hfull, ?_⟩
            rw [hcalls, h.calls, List.map_append, List.map_singleton]
        · rename_i hshort
          refine hgo batches _ v ?_ (h.wait hpull hshort hcalls) hlive
          rw [← List.append_assoc, List.length_append, List.length_singleton]
    · rintro e v ⟨he, hcalls, hreleased⟩
      exact ⟨.inl hreleased, .inl ⟨.generate he, hcalls ▸ h.accepts⟩, batches, h.delivered,
        hcalls.trans h.calls⟩

/-- What a delivery that is still running has done. -/
def Running (p : Source γ ε) (sink : Sink ε) (batchSize : Int) (turns : Nat) (w : World γ) : Prop :=
  ∃ batches batch, Delivered p batchSize batches ∧ w.calls = batches.map .writeBatch ∧
    sink.Accepts w.calls ∧ p.Emits (batches.flatten ++ batch) ∧
    (batches.flatten ++ batch).length = turns

/-- The whole stream is out. -/
structure Complete (p : Source γ ε) (sink : Sink ε) (batchSize : Int) (initial : ProjectorState)
    (batches : List (List (Edge PyStr))) (w : World γ) : Prop where
  delivered : Delivered p batchSize batches
  calls : w.calls = batches.map .writeBatch
  accepts : sink.Accepts w.calls
  concluded : p.Concluded initial batches.flatten.length w
  released : Released initial w

theorem writeBatches_spec (p : Source γ ε) (sink : Sink ε) (initial : ProjectorState)
    (turns : Nat) (hsize : 1 ≤ batchSize) (hcalls : w.calls = [])
    (hlive : Live p initial 0 w) :
    wp (writeBatches p sink batchSize turns) (fun result v =>
      match result with
      | none => Running p sink batchSize turns v
      | some _ => ∃ batches, Complete p sink batchSize initial batches v)
      (Failed p sink batchSize initial) w := by
  have hstart : Filling p sink batchSize [] [] w := by
    refine ⟨hcalls, ?_, ?_, ?_, ?_, ?_⟩
    · intro i hi
      simp at hi
    · simp
    · simp
    · simp only [List.length_nil, Nat.cast_zero]
      omega
    · rw [hcalls]
      exact sink.accepts_nil
  simp only [writeBatches, wp_bind]
  refine wp_mono (fillBatches_spec turns [] [] w hstart hlive) ?_ (fun _ _ h => h)
  rintro (_ | batch) v hv
  · obtain ⟨batches, batch, hfilling, htotal⟩ := hv
    refine ⟨batches, batch, hfilling.delivered, hfilling.calls, hfilling.accepts,
      hfilling.emits, ?_⟩
    simpa using htotal
  · obtain ⟨batches, hfilling, hconcluded, hreleased⟩ := hv
    simp only [wp_bind, wp_pure]
    refine wp_runIf (fun hne => ?_) (fun hempty => ?_)
    · have hout := hfilling.flush hne
      have hmap : v.calls ++ [.writeBatch batch] = (batches ++ [batch]).map .writeBatch := by
        rw [hfilling.calls, List.map_append, List.map_singleton]
      have hreleased' : Released initial { v with calls := v.calls ++ [.writeBatch batch] } :=
        ⟨hreleased.generator, hreleased.lock, hreleased.batches⟩
      refine wp_mono (callSink_spec _ hfilling.accepts) ?_ ?_
      · rintro _ _ ⟨rfl, haccepted⟩
        refine ⟨batches ++ [batch], hout, hmap, haccepted, ?_, hreleased'⟩
        rw [flatten_snoc]
        exact hconcluded
      · rintro e _ ⟨rfl, hrefused⟩
        exact ⟨.inl hreleased', .inr hrefused, _, hout, hmap⟩
    · obtain rfl : batch = [] := not_not.mp hempty
      rw [List.append_nil] at hconcluded
      exact ⟨batches, hfilling.delivered, hfilling.calls, hfilling.accepts, hconcluded, hreleased⟩

theorem reported_edges {n : Nat} {report : ProjectionReport}
    (h : p.reported initial n = .ok report) : report.counts.edges = n := by
  unfold Source.reported Source.report at h
  cases hcore : p.core with
  | error error =>
    rw [hcore] at h
    cases h
  | ok core =>
    rw [hcore] at h
    cases h
    rfl

/-- The call of `finish`, where the sink has one. -/
def finishCalls (sink : Sink ε) (report : ProjectionReport) : List SinkCall :=
  match sinkOperations sink with
  | .ok true => [.finish report]
  | _ => []

/-- The delivery returned: the stream is out as a whole, and `finish` had the report of it. -/
def Returned (p : Source γ ε) (sink : Sink ε) (batchSize : Int) (initial : ProjectorState)
    (report : ProjectionReport) (w : World γ) : Prop :=
  ∃ batches, Batched batchSize batches ∧ p.Ends batches.flatten ∧
    p.reported initial batches.flatten.length = .ok report ∧
    report.counts.edges = batches.flatten.length ∧
    w.calls = batches.map .writeBatch ++ finishCalls sink report ∧ sink.Accepts w.calls ∧
    Released initial w

/-- The delivery raised. Nothing was called after a call that raised, and the only call of
`finish` that there may be is the one that raised itself, with the whole stream out. -/
def Raised (p : Source γ ε) (sink : Sink ε) (batchSize : Int) (initial : ProjectorState)
    (error : SinkError ε) (w : World γ) : Prop :=
  Released initial w ∧ Broke p sink batchSize initial w.calls error ∧
    ∃ batches, Delivered p batchSize batches ∧
      (w.calls = batches.map .writeBatch ∨
        p.Ends batches.flatten ∧
          ∃ report cause, p.reported initial batches.flatten.length = .ok report ∧
            w.calls = batches.map .writeBatch ++ [.finish report] ∧ error = .sink cause)

theorem raised_early {error : SinkError ε} (h : Fault p sink batchSize initial error) :
    Raised p sink batchSize initial error (World.start initial) := by
  refine ⟨⟨fun frame => Generator.noConfusion, rfl, fun _ h => (by cases h)⟩,
    .inl ⟨h, sink.accepts_nil⟩, [], ⟨Batched.nil batchSize, ?_⟩, .inl rfl⟩
  intro i hi
  simp at hi

/-- The delivery from the end of the `try` block on. -/
theorem Complete.finish {batches : List (List (Edge PyStr))} {finish : Bool}
    (h : Complete p sink batchSize initial batches w) (hops : sinkOperations sink = .ok finish)
    {report : ProjectionReport}
    (hreport : p.reported initial batches.flatten.length = .ok report) :
    wp (runIf (finish = true) (callSink sink (.finish report)))
      (fun _ v => Returned p sink batchSize initial report v)
      (Raised p sink batchSize initial) w := by
  have hends : p.Ends batches.flatten := ⟨h.delivered.emits, h.concluded.1⟩
  refine wp_runIf (fun hfinish => ?_) (fun hnone => ?_)
  · refine wp_mono (callSink_spec _ h.accepts) ?_ ?_
    · rintro _ _ ⟨rfl, haccepted⟩
      refine ⟨batches, h.delivered.batched, hends, hreport, reported_edges hreport, ?_, haccepted,
        h.released.generator, h.released.lock, h.released.batches⟩
      simp [finishCalls, hops, hfinish, h.calls]
    · rintro e _ ⟨rfl, cause, hcause, hlast⟩
      refine ⟨⟨h.released.generator, h.released.lock, h.released.batches⟩,
        .inr ⟨cause, hcause, hlast⟩, batches, h.delivered,
        .inr ⟨hends, report, cause, hreport, ?_, hcause⟩⟩
      simp [h.calls]
  · have hops' : sinkOperations sink = .ok false := by simpa [hnone] using hops
    refine ⟨batches, h.delivered.batched, hends, hreport, reported_edges hreport, ?_, h.accepts,
      h.released⟩
    simp [finishCalls, hops', h.calls]

end Deliver

end Projector.Delivery
