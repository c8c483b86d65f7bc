import Projector.Edge
import Projector.Native.LifeCycle

namespace Projector.Native
open Lib

def usizeMax : Nat := 2 ^ 64 - 1

abbrev DirectEdge := Edge String

inductive KernelError where
  | malformed (message : String)
  | unsupported (message : String)
  | referenceFailure (message : String)
  | resource (message : String)
  | cancelled
  deriving DecidableEq, Repr

/-- `next_edge` as a function of where the cursor stands: the next edge and the position
after it, or none at the end. The prepared table it reads does not change. -/
abbrev Kernel (γ : Type) := γ → Except KernelError (Option (DirectEdge × γ))

structure DirectEmissionCursor (γ : Type) where
  position : γ
  emitted : Nat

structure PreparedDirectBatches (γ : Type) where
  /-- `statistics.edges` of the preparation -/
  edges : Nat
  cursor : DirectEmissionCursor γ

section Stream
variable {γ : Type} (kernel : Kernel γ)

/-- One edge, counted by `publish`. -/
def DirectEmissionCursor.nextEdge (cursor : DirectEmissionCursor γ) :
    Except KernelError (Option (DirectEdge × DirectEmissionCursor γ)) := do
  match ← kernel cursor.position with
  | none => pure none
  | some (edge, position) =>
    if cursor.emitted < usizeMax then pure (some (edge, ⟨position, cursor.emitted + 1⟩))
    else throw (.resource "encoded emitted-edge counter overflow")

/-- The loop of `prepare_next_batch` on its own copy of the cursor. -/
def collectEdges : Nat → DirectEmissionCursor γ →
    Except KernelError (List DirectEdge × DirectEmissionCursor γ)
  | 0, cursor => pure ([], cursor)
  | amount + 1, cursor => do
    match ← cursor.nextEdge kernel with
    | none => throw (.malformed "encoded direct output ended before its preflight edge count")
    | some (edge, cursor) => do
      let (edges, cursor) ← collectEdges amount cursor
      pure (edge :: edges, cursor)

namespace PreparedDirectBatches

def remainingEdges (stream : PreparedDirectBatches γ) : Nat :=
  stream.edges - stream.cursor.emitted

def prepareNextBatch (stream : PreparedDirectBatches γ) (batchEdges : Nat) :
    Except KernelError (List DirectEdge × DirectEmissionCursor γ) :=
  collectEdges kernel (min stream.remainingEdges batchEdges) stream.cursor

def commitCursor (stream : PreparedDirectBatches γ) (cursor : DirectEmissionCursor γ) :
    PreparedDirectBatches γ := { stream with cursor := cursor }

/-- The loop of `compile_batch`. A chunk has at least one edge, so the remaining edges
bound the turns. -/
def coarseOutput : Nat → PreparedDirectBatches γ → Except KernelError (List DirectEdge)
  | turns, stream =>
    if stream.remainingEdges = 0 then pure []
    else
      match turns with
      | 0 => throw (.resource "out of turns")
      | turns + 1 => do
        let (edges, cursor) ← stream.prepareNextBatch kernel 256
        let others ← coarseOutput turns (stream.commitCursor cursor)
        pure (edges ++ others)

/-- The edges one `compile_batch` call returns. -/
def oneShot (stream : PreparedDirectBatches γ) : Except KernelError (List DirectEdge) :=
  stream.coarseOutput kernel stream.remainingEdges

end PreparedDirectBatches

end Stream

/-- What a failed `next_batch` raises. -/
inductive BatchError where
  /-- an argument that is not canonical -/
  | rejected
  | notPrepared
  | cancelled
  | alreadyDraining
  | counterOverflow
  | cursorUnavailable
  /-- the column plan of a composite could not be allocated -/
  | plan
  | kernel (error : KernelError)
  /-- raised while the edges were built -/
  | allocation
  /-- a panic that `guarded` contained -/
  | panic
  deriving DecidableEq, Repr

structure DirectBatchOutput (γ : Type) where
  stream : Option (PreparedDirectBatches γ)
  remainingEdges : Nat
  batchEdges : Nat
  boundaryCalls : Nat
  edgeBatches : Nat
  peakBufferedEdges : Nat
  prepared : Bool
  draining : Bool
  exhausted : Bool
  cancelled : Bool

inductive BatchState where
  | absent
  | cancelled
  | exhausted
  | active
  deriving DecidableEq, Repr

/-- What a `next_batch` holds between the two sections under the lock. -/
structure Drain (γ : Type) where
  stream : PreparedDirectBatches γ
  batchEdges : Nat
  nextBoundaryCalls : Nat
  nextEdgeBatches : Nat

namespace DirectBatchOutput
variable {γ : Type}

def install (stream : PreparedDirectBatches γ) (batchEdges : Nat) : DirectBatchOutput γ where
  stream := if stream.remainingEdges = 0 then none else some stream
  remainingEdges := stream.remainingEdges
  batchEdges := batchEdges
  boundaryCalls := 1
  edgeBatches := 0
  peakBufferedEdges := 0
  prepared := true
  draining := false
  exhausted := decide (stream.remainingEdges = 0)
  cancelled := false

def state (output : DirectBatchOutput γ) : BatchState :=
  if !output.prepared then .absent
  else if output.cancelled then .cancelled
  else if output.exhausted then .exhausted
  else .active

def cancel (output : DirectBatchOutput γ) : Bool × DirectBatchOutput γ :=
  if !output.prepared || output.cancelled || output.exhausted then (false, output)
  else (true, { output with stream := none, remainingEdges := 0, cancelled := true })

/-- The first section of `next_batch`: nothing is left, or the stream is taken out. -/
def take (output : DirectBatchOutput γ) :
    Except BatchError (Option (Drain γ × DirectBatchOutput γ)) :=
  if !output.prepared then .error .notPrepared
  else if output.cancelled then .error .cancelled
  else if output.exhausted then .ok none
  else if output.draining then .error .alreadyDraining
  else if usizeMax ≤ output.boundaryCalls then .error .counterOverflow
  else if usizeMax ≤ output.edgeBatches then .error .counterOverflow
  else
    match output.stream with
    | none => .error .cursorUnavailable
    | some stream => .ok (some
        (⟨stream, output.batchEdges, output.boundaryCalls + 1, output.edgeBatches + 1⟩,
          { output with stream := none, draining := true }))

/-- The section after a failure: the stream goes back unless the session was closed. -/
def restore (output : DirectBatchOutput γ) (stream : PreparedDirectBatches γ)
    (error : BatchError) : BatchError × DirectBatchOutput γ :=
  if output.cancelled then (.cancelled, { output with draining := false })
  else (error, { output with draining := false, stream := some stream })

/-- The last section of a `next_batch` whose edges were built. -/
def publish (output : DirectBatchOutput γ) (drain : Drain γ) (edges : List DirectEdge)
    (nextCursor : DirectEmissionCursor γ) :
    Except BatchError (List DirectEdge) × DirectBatchOutput γ :=
  if output.cancelled then (.error .cancelled, { output with draining := false })
  else
    let stream := drain.stream.commitCursor nextCursor
    (.ok edges, { output with
      draining := false
      boundaryCalls := drain.nextBoundaryCalls
      edgeBatches := drain.nextEdgeBatches
      peakBufferedEdges := max output.peakBufferedEdges edges.length
      remainingEdges := stream.remainingEdges
      exhausted := decide (stream.remainingEdges = 0)
      stream := if stream.remainingEdges = 0 then none else some stream })

end DirectBatchOutput

/-- A `next_batch` call between the two sections under the lock. -/
inductive Draining (γ : Type) where
  | preparing (drain : Drain γ)
  | building (drain : Drain γ) (edges : List DirectEdge) (nextCursor : DirectEmissionCursor γ)

def Draining.drain {γ : Type} : Draining γ → Drain γ
  | .preparing drain => drain
  | .building drain _ _ => drain

abbrev CallId := Nat

/-- A batch session: the shared output, and the calls that hold its stream. `composite`
says whether the compiler was built over the members of a composite. -/
structure Session (γ : Type) where
  composite : Bool
  state : CompilerState
  output : DirectBatchOutput γ
  calls : CallId → Option (Draining γ)

inductive BatchEvent where
  | took (call : CallId)
  | built (call : CallId)
  /-- `next_batch` returned a batch -/
  | returned (call : CallId) (batch : List DirectEdge)
  /-- `next_batch` raised -/
  | failed (call : CallId) (error : BatchError)
  /-- `close_batches` returned -/
  | closed (result : Bool)
  /-- `cancel` of the compiler returned -/
  | cancelled (result : Bool)

variable {γ : Type}

namespace Session

/-- The session a `compile_batches` call leaves. -/
def start (composite : Bool) (stream : PreparedDirectBatches γ) (batchEdges : Nat) : Session γ :=
  ⟨composite, .finished, .install stream batchEdges, fun _ => none⟩

def moveTo (s : Session γ) (call : CallId) (phase : Option (Draining γ)) : Session γ :=
  { s with calls := Function.update s.calls call phase }

def setOutput (s : Session γ) (output : DirectBatchOutput γ) : Session γ :=
  { s with output := output }

/-- `cancel_batch_output` -/
def cancelBatchOutput (s : Session γ) : Bool × Session γ :=
  let (cancelled, output) := s.output.cancel
  (cancelled, { s with
    output := output
    state := if cancelled then .cancelled else s.state })

end Session

/-- The atomic steps of any number of overlapping calls. A section under the lock is one
step, and so is each piece of work between two of them. -/
inductive BatchStep (kernel : Kernel γ) : Session γ → BatchEvent → Session γ → Prop where
  | rejected {s call} : BatchStep kernel s (.failed call .rejected) s
  | refused {s call error} : s.output.take = .error error →
      BatchStep kernel s (.failed call error) s
  | empty {s call} : s.output.take = .ok none → BatchStep kernel s (.returned call []) s
  | took {s call drain output} : s.calls call = none →
      s.output.take = .ok (some (drain, output)) →
      BatchStep kernel s (.took call) ((s.setOutput output).moveTo call (some (.preparing drain)))
  -- The plan of a composite is rebuilt with `?`: where its allocation fails, the call
  -- returns and leaves the output as it is.
  | planFailed {s call drain} : s.calls call = some (.preparing drain) → s.composite = true →
      BatchStep kernel s (.failed call .plan) (s.moveTo call none)
  | kernelFailed {s call drain error} : s.calls call = some (.preparing drain) →
      BatchStep kernel s (.failed call (s.output.restore drain.stream (.kernel error)).1)
        ((s.setOutput (s.output.restore drain.stream (.kernel error)).2).moveTo call none)
  | built {s call drain edges nextCursor} : s.calls call = some (.preparing drain) →
      drain.stream.prepareNextBatch kernel drain.batchEdges = .ok (edges, nextCursor) →
      BatchStep kernel s (.built call) (s.moveTo call (some (.building drain edges nextCursor)))
  | allocationFailed {s call drain edges nextCursor} :
      s.calls call = some (.building drain edges nextCursor) →
      BatchStep kernel s (.failed call (s.output.restore drain.stream .allocation).1)
        ((s.setOutput (s.output.restore drain.stream .allocation).2).moveTo call none)
  | published {s call drain edges nextCursor batch output} :
      s.calls call = some (.building drain edges nextCursor) →
      s.output.publish drain edges nextCursor = (.ok batch, output) →
      BatchStep kernel s (.returned call batch) ((s.setOutput output).moveTo call none)
  | discarded {s call drain edges nextCursor error output} :
      s.calls call = some (.building drain edges nextCursor) →
      s.output.publish drain edges nextCursor = (.error error, output) →
      BatchStep kernel s (.failed call error) ((s.setOutput output).moveTo call none)
  -- A panic of the kernel or of the code that builds the edges, contained by `guarded`.
  | panicked {s call phase} : s.calls call = some phase →
      BatchStep kernel s (.failed call .panic) (s.moveTo call none)
  | closed {s} : BatchStep kernel s (.closed s.cancelBatchOutput.1) s.cancelBatchOutput.2
  | cancelled {s} : BatchStep kernel s (.cancelled s.state.cancel.1)
      { s with state := s.state.cancel.2 }

/-- The batches a history has returned, without the empty ones of an exhausted session. -/
def batches : List BatchEvent → List (List DirectEdge)
  | [] => []
  | .returned _ (edge :: edges) :: events => (edge :: edges) :: batches events
  | _ :: events => batches events

/-- A call that ended in one of the two failures the code handles, or in any other way
that does not skip the second section. -/
def BatchEvent.handled : BatchEvent → Prop
  | .failed _ .plan => False
  | .failed _ .panic => False
  | _ => True

end Projector.Native
