import Projector.Native.BatchSessionProofs

namespace Projector.Native
open Lib

variable {γ : Type} {kernel : Kernel γ} {origin : PreparedDirectBatches γ} {size : Nat}
  {events : List BatchEvent} {s t : Session γ}

/-- A batch session at one point of a run: `origin` is the stream it was prepared with. -/
structure ExactStream (kernel : Kernel γ) (origin : PreparedDirectBatches γ) (size : Nat)
    (events : List BatchEvent) (s : Session γ) : Prop where
  inOrder : delivered events <+: emission kernel origin
  oneShot : ∀ all, origin.oneShot kernel = .ok all → all = emission kernel origin
  /-- what a call may return next does not depend on the calls that failed before -/
  next : ∀ call batch t, BatchStep kernel s (.returned call batch) t →
    (s.output.exhausted = true ∧ batch = []) ∨
      (batch ≠ [] ∧ batch = ((emission kernel origin).drop (delivered events).length).take size)
  /-- between calls an active session holds its stream where the last batch left it -/
  kept : (∀ call, s.calls call = none) → s.output.state = .active →
    ∃ stream, s.output.stream = some stream ∧ Delivered kernel origin (delivered events) stream
  sizes : ∀ batch ∈ (batches events).dropLast, batch.length = size
  closed : ∀ before result after, events = before ++ .closed result :: after → batches after = []
  exhausted : s.output.state = .exhausted → delivered events = emission kernel origin
  draining : (∀ call, s.calls call = none) → s.output.draining = false

theorem next_returned (h : Exact kernel origin size events s) (hsize : 1 ≤ size) {call : CallId}
    {batch : List DirectEdge} (hstep : BatchStep kernel s (.returned call batch) t) :
    (s.output.exhausted = true ∧ batch = []) ∨
      (batch ≠ [] ∧
        batch = ((emission kernel origin).drop (delivered events).length).take size) := by
  cases hstep with
  | empty htake => exact Or.inl ⟨take_empty htake, rfl⟩
  | @published _ drain edges cursor _ _ hp hpublish =>
    obtain ⟨hlent, hexhausted, -⟩ := h.lent call _ hp
    obtain ⟨-, rfl, -⟩ := publish_ok hpublish
    have hbatch := hlent.built _ _ _ rfl
    have hdrain : drain.batchEdges = size := hlent.sized
    have hat : Delivered kernel origin (delivered events) drain.stream := hlent.stream
    rw [hdrain] at hbatch
    have hlen := (hat.commit hbatch).2
    have hremaining := hat.remaining
    have hopen := h.unfinished hexhausted
    refine Or.inr ⟨?_, ?_⟩
    · rintro rfl
      simp only [List.length_nil] at hlen
      omega
    · rw [hat.emission h.bound, List.drop_left]
      exact emission_batch hbatch

/-- Once a session is over it stays over, and it returns nothing more. -/
theorem over_step {event : BatchEvent} (h : Exact kernel origin size events s)
    (hover : s.output.over) (hstep : BatchStep kernel s event t) :
    t.output.over ∧ batches [event] = [] := by
  have hlent : ∀ {call p}, s.calls call = some p → s.output.cancelled = true := by
    intro call p hp
    have hexhausted := (h.lent call p hp).2.1
    exact hover.resolve_right (by simp [hexhausted])
  have hrestore : ∀ {call p} (error : BatchError), s.calls call = some p →
      (s.output.restore p.drain.stream error).2.over := by
    intro call p error hp
    rw [restore_output, if_pos (hlent hp)]
    exact Or.inl (hlent hp)
  cases hstep with
  | rejected => exact ⟨hover, rfl⟩
  | refused => exact ⟨hover, rfl⟩
  | empty => exact ⟨hover, rfl⟩
  | took _ htake =>
    obtain ⟨hcancelled, hexhausted, -⟩ := take_lent htake
    rcases hover with hover | hover
    · rw [hcancelled] at hover
      cases hover
    · rw [hexhausted] at hover
      cases hover
  | planFailed => exact ⟨hover, rfl⟩
  | kernelFailed hp => exact ⟨hrestore _ hp, rfl⟩
  | built => exact ⟨hover, rfl⟩
  | allocationFailed hp => exact ⟨hrestore _ hp, rfl⟩
  | published hp hpublish =>
    have hcancelled := (publish_ok hpublish).1
    rw [hlent hp] at hcancelled
    cases hcancelled
  | discarded hp hpublish =>
    obtain ⟨hcancelled, rfl⟩ := publish_error hpublish
    exact ⟨Or.inl hcancelled, rfl⟩
  | panicked => exact ⟨hover, rfl⟩
  | closed =>
    refine ⟨?_, rfl⟩
    simp only [Session.cancelBatchOutput]
    rcases cancel_cases h.prepared with ⟨-, hcancel⟩ | ⟨-, -, hcancel⟩
    · rw [hcancel]
      exact hover
    · rw [hcancel]
      exact Or.inl rfl
  | cancelled => exact ⟨hover, rfl⟩

theorem closed_over {result : Bool} (h : Exact kernel origin size events s)
    (hstep : BatchStep kernel s (.closed result) t) : t.output.over := by
  cases hstep with
  | closed =>
    simp only [Session.cancelBatchOutput]
    rcases cancel_cases h.prepared with ⟨hover, hcancel⟩ | ⟨-, -, hcancel⟩
    · rw [hcancel]
      exact hover
    · rw [hcancel]
      exact Or.inl rfl

theorem closed_for_good {composite result : Bool} {before after : List BatchEvent}
    (hsize : 1 ≤ size)
    (hrun : Run (BatchStep kernel) (Session.start composite origin size)
      (before ++ .closed result :: after) s)
    (hhandled : ∀ event ∈ before ++ .closed result :: after, event.handled) :
    batches after = [] := by
  obtain ⟨u, v, hu, hclose, hafter⟩ := hrun.around
  have hexact := Exact.run hsize hu (fun e he => hhandled e (List.mem_append_left _ he))
  have hclosed := hexact.step hsize (hhandled _ (by simp)) hclose
  have hend := hafter.invariant_of
    (I := fun es w => Exact kernel origin size (before ++ [.closed result] ++ es) w ∧
      w.output.over ∧ batches es = [])
    (fun e he => hhandled e (by simp [he]))
    ⟨by simpa using hclosed, closed_over hexact hclose, rfl⟩
    (fun es w event x hi he hs => by
      obtain ⟨hover, hnone⟩ := over_step hi.1 hi.2.1 hs
      refine ⟨?_, hover, ?_⟩
      · rw [← List.append_assoc]
        exact hi.1.step hsize he hs
      · rw [batches_append, hi.2.2, hnone]
        rfl)
  exact hend.2.2

/-- The batch session is a retryable exact stream: in every interleaving in which each
call that took the stream ended in one of the ways the code handles. -/
theorem batch_session_exact (kernel : Kernel γ) (composite : Bool)
    (origin : PreparedDirectBatches γ) (size : Nat) (hsize : 1 ≤ size)
    (events : List BatchEvent) (s : Session γ)
    (hrun : Run (BatchStep kernel) (Session.start composite origin size) events s)
    (hhandled : ∀ event ∈ events, event.handled) : ExactStream kernel origin size events s := by
  have h := Exact.run hsize hrun hhandled
  obtain ⟨stream, hstream⟩ := h.reached
  have hemission := hstream.emission h.bound
  have hidle : (∀ call, s.calls call = none) → s.output.draining = false := by
    intro hnone
    cases hd : s.output.draining with
    | false => rfl
    | true =>
      obtain ⟨call, p, hp⟩ := h.draining hd
      rw [hnone call] at hp
      cases hp
  refine ⟨⟨_, hemission.symm⟩, fun all hall => coarseOutput_emission hall,
    fun call batch t hstep => next_returned h hsize hstep, ?_, h.last, ?_, ?_, hidle⟩
  · intro hnone hactive
    simp only [DirectBatchOutput.state, h.prepared, Bool.not_true, Bool.false_eq_true,
      if_false] at hactive
    split at hactive
    · cases hactive
    rename_i hcancelled
    split at hactive
    · cases hactive
    rename_i hexhausted
    simp only [Bool.not_eq_true] at hcancelled hexhausted
    obtain ⟨held, hheld⟩ := h.available hcancelled hexhausted (hidle hnone)
    exact ⟨held, hheld, h.stream held hheld⟩
  · rintro before result after rfl
    exact closed_for_good hsize hrun hhandled
  · intro hstate
    have hexhausted : s.output.exhausted = true := by
      simp only [DirectBatchOutput.state, h.prepared, Bool.not_true, Bool.false_eq_true,
        if_false] at hstate
      split at hstate
      · cases hstate
      split at hstate
      · rename_i he
        exact he
      · cases hstate
    have hlen := h.finished hexhausted
    have hremaining := hstream.remaining
    have hnone : emission kernel stream = [] := by
      rw [emission, hremaining, hlen, Nat.sub_self]
      rfl
    rw [hemission, hnone, List.append_nil]

/-- The kernel whose cursor is the list of the edges still to come. -/
def listKernel : Kernel (List DirectEdge)
  | [] => .ok none
  | edge :: edges => .ok (some (edge, edges))

def sampleStream : PreparedDirectBatches (List DirectEdge) :=
  ⟨2, ⟨[⟨"a", "r", "b"⟩, ⟨"b", "r", "c"⟩], 0⟩⟩

/-- A first call that fails while its edge is built, and a second one that does not. -/
def sampleBatchEvents : List BatchEvent :=
  [.took 0, .built 0, .failed 0 .allocation, .took 0, .built 0,
    .returned 0 [⟨"a", "r", "b"⟩]]

theorem batch_session_exact_sample : ∃ s,
    ExactStream listKernel sampleStream 1 sampleBatchEvents s ∧ s.output.state = .active := by
  have hrun : ∃ s, Run (BatchStep listKernel) (Session.start true sampleStream 1)
      sampleBatchEvents s ∧ s.output.state = .active :=
    ⟨_, .cons (.took rfl rfl) (.cons (.built rfl rfl) (.cons (.allocationFailed rfl)
      (.cons (.took rfl rfl) (.cons (.built rfl rfl) (.cons (.published rfl rfl) (.nil _)))))), rfl⟩
  obtain ⟨s, hrun, hstate⟩ := hrun
  refine ⟨s, batch_session_exact listKernel true sampleStream 1 (by decide) sampleBatchEvents s
    hrun ?_, hstate⟩
  intro event h
  simp only [sampleBatchEvents, List.mem_cons, List.not_mem_nil, or_false] at h
  rcases h with rfl | rfl | rfl | rfl | rfl | rfl <;> trivial

/-- A call of a composite whose plan cannot be allocated: no call is in progress, but the
session is draining, has lost its stream and refuses every further call. -/
theorem plan_failure_drains : ∃ s,
    Run (BatchStep listKernel) (Session.start true sampleStream 1)
      [.took 0, .failed 0 .plan] s ∧
      (∀ call, s.calls call = none) ∧ s.output.draining = true ∧ s.output.stream = none ∧
      s.output.take = .error .alreadyDraining ∧
      ¬ExactStream listKernel sampleStream 1 [.took 0, .failed 0 .plan] s := by
  have hcalls : ∀ phase : Option (Draining (List DirectEdge)), ∀ call,
      Function.update (Function.update (fun _ : CallId => none) 0 phase) 0 none call = none := by
    intro phase call
    by_cases hc : call = 0
    · simp [hc]
    · simp [Function.update_of_ne hc]
  refine ⟨_, .cons (.took rfl rfl) (.cons (.planFailed rfl rfl) (.nil _)), hcalls _, rfl, rfl, rfl,
    ?_⟩
  intro h
  have hidle := h.draining (hcalls _)
  cases hidle

end Projector.Native
