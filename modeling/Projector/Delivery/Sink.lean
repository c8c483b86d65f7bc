import Projector.Artifact.Writer
import Projector.Native.BatchSession

namespace Projector.Delivery
open Lib Artifact
open Native (BatchState DirectBatchOutput)
open Streaming (Detail)

/-- What a delivery raises: an error of its own, of the projection or of the sink. -/
inductive SinkError (ε : Type) where
  /-- `TypeError` -/
  | type (message : String)
  /-- `InvalidProjectionOptionsError` -/
  | invalidOptions (message : String) (details : List (String × Detail))
  /-- `RuntimeError` -/
  | runtime (message : String)
  /-- `ProjectionError` -/
  | projection (message : String)
  | stream (error : ε)
  | sink (error : ε)
  deriving DecidableEq

/-- `NativeEncodedDirectBatchIterator`: the compiler is let go once its output has ended, and
only a prepared output gets an iterator. -/
structure NativeBatches (γ : Type) where
  compiler : Option { output : DirectBatchOutput γ // output.prepared = true }
  terminalState : BatchState

def NativeBatches.open {γ : Type} (output : DirectBatchOutput γ) (h : output.prepared = true) :
    NativeBatches γ :=
  ⟨some ⟨output, h⟩, .active⟩

def NativeBatches.close {γ ε : Type} (batches : NativeBatches γ) :
    Except (SinkError ε) (Bool × NativeBatches γ) :=
  match batches.compiler with
  | none => .ok (false, batches)
  | some output =>
    let (result, closed) := output.1.cancel
    if closed.state = .exhausted ∨ closed.state = .cancelled then
      .ok (result, ⟨none, closed.state⟩)
    else .error (.projection "native encoded batch iterator did not close")

/-- What the policy iterator does when an edge is asked of it. -/
inductive Pull (ε : Type) where
  | edge (edge : Edge PyStr)
  | stop
  | raise (error : ε)

/-- What `iter_edges` meets for one view and one set of options. -/
structure Source (γ ε : Type) where
  options : ProjectionOptions
  /-- what the checks before the generator is made raise -/
  refused : Option ε
  /-- the batches, where the native compilation is chosen -/
  batches : Option (NativeBatches γ)
  /-- what the preparation raises once the batches are open, or before -/
  unprepared : Option ε
  pulls : Nat → Pull ε
  /-- what asking for an edge does to the batches -/
  draws : Nat → NativeBatches γ → NativeBatches γ
  core : Except ε CoreProvenance
  duplicateEdges : Nat
  skippedAxioms : Nat
  ignoredShapes : Nat
  diagnostics : List Diagnostic
  diagnosticsDigest : PyStr
  compilerCacheSchema : PyStr
  /-- SHA-256 over the prior digest and the history item of an invocation -/
  historyDigest : PyStr → Nat → PyStr

def Source.scalaInstance {γ ε : Type} (p : Source γ ε) : Bool :=
  p.options.compatibilityState = .scalaInstance

/-- The attribute `finish` of a sink. -/
inductive FinishAttribute where
  | absent
  | notCallable
  | callable
  deriving DecidableEq

inductive SinkCall where
  | writeBatch (batch : List (Edge PyStr))
  | finish (report : ProjectionReport)

/-- A sink object. What the last of its calls raises may depend on all of them. -/
structure Sink (ε : Type) where
  callable : Bool
  writeBatch : Bool
  /-- `protocol_version`, where its type is `int` -/
  protocolVersion : Option Int
  finish : FinishAttribute
  answer : List SinkCall → Option ε

/-- The fields of a `Projector` that the delivery reads or writes. -/
structure ProjectorState where
  scalaLock : Bool
  lastReport : Option ProjectionReport
  scalaInvocationCount : Nat
  scalaCallHistoryDigest : PyStr

/-- The locals of a generator that waits at its `yield`. -/
structure Frame where
  acquired : Bool
  invocation : Nat
  outputCount : Nat

inductive Generator where
  | created
  | suspended (frame : Frame)
  | finished

structure World (γ : Type) where
  projector : ProjectorState
  generator : Generator
  /-- the batches of the native compilation of this generator -/
  batches : Option (NativeBatches γ)
  /-- the calls of the sink so far -/
  calls : List SinkCall

def World.start {γ : Type} (projector : ProjectorState) : World γ := ⟨projector, .created, none, []⟩

section Delivery
variable {γ ε : Type}

abbrev M (γ ε : Type) := EStateM (SinkError ε) (World γ)

def modifyProjector (f : ProjectorState → ProjectorState) : M γ ε Unit :=
  modify fun w => { w with projector := f w.projector }

def setGenerator (generator : Generator) : M γ ε Unit :=
  modify fun w => { w with generator := generator }

def raiseAny (error : Option ε) : M γ ε Unit :=
  match error with
  | none => pure ()
  | some error => throw (.stream error)

/-- The `finally` block of `generate`. -/
def release (acquired : Bool) : M γ ε Unit := do
  let w ← get
  match w.batches with
  | none => pure ()
  | some batches =>
    match batches.close with
    | .error error => throw error
    | .ok (_, closed) => modify fun w => { w with batches := some closed }
  runIf (acquired = true) (modifyProjector fun s => { s with scalaLock := false })

namespace Source
variable (p : Source γ ε)

/-- `self._scala_lock.acquire(blocking=False)`, for a Scala instance only -/
def acquire : M γ ε Bool := do
  if p.scalaInstance then do
    let w ← get
    raiseIf (w.projector.scalaLock = true)
      (.invalidOptions "compatibility_state='scala-instance' is non-concurrent"
        [("compatibility_state", .text "scala-instance")])
    modifyProjector fun s => { s with scalaLock := true }
    pure true
  else pure false

/-- The body of `generate` from the choice of a backend to its loop. -/
def prepare (acquired : Bool) : M γ ε Frame := do
  modify fun w => { w with batches := p.batches }
  raiseAny p.unprepared
  modifyProjector fun s => { s with lastReport := none }
  if p.scalaInstance then do
    modifyProjector fun s => { s with scalaInvocationCount := s.scalaInvocationCount + 1 }
    let w ← get
    pure ⟨acquired, w.projector.scalaInvocationCount, 0⟩
  else pure ⟨acquired, 1, 0⟩

/-- `_report`, from the digest of the calls before this one -/
def report (edgeCount invocation : Nat) (prior : PyStr) : Except ε ProjectionReport :=
  match p.core with
  | .error error => .error error
  | .ok core => .ok
    { options := p.options
      core := core
      counts := ⟨edgeCount, p.duplicateEdges, p.skippedAxioms, p.ignoredShapes⟩
      compilerCacheSchema := p.compilerCacheSchema
      diagnosticsDigest := p.diagnosticsDigest
      invocationCount := invocation
      callHistoryDigest := p.historyDigest prior invocation
      diagnostics := p.diagnostics }

/-- The digest that `_report` starts from. -/
def priorDigest (projector : ProjectorState) : PyStr :=
  if p.scalaInstance then projector.scalaCallHistoryDigest else []

/-- The report, where there is one, becomes the projector's last. -/
def publish (report : Except ε ProjectionReport) : M γ ε Unit :=
  match report with
  | .error error => throw (.stream error)
  | .ok report => modifyProjector fun s => { s with lastReport := some report }

/-- The loop is over: the report, and the digest it leaves. -/
def conclude (frame : Frame) : M γ ε Unit := do
  let w ← get
  let prior := p.priorDigest w.projector
  runIf (p.scalaInstance = true)
    (modifyProjector fun s =>
      { s with scalaCallHistoryDigest := p.historyDigest prior frame.invocation })
  publish (p.report frame.outputCount frame.invocation prior)

/-- From one `yield` to the next, or to the end of the `try` block. -/
def advance (frame : Frame) : M γ ε (Option (Edge PyStr)) := do
  modify fun w => { w with batches := w.batches.map (p.draws frame.outputCount) }
  match p.pulls frame.outputCount with
  | .edge edge => pure (some edge)
  | .raise error => throw (.stream error)
  | .stop => do
    p.conclude frame
    pure none

/-- Leave the generator with an error. -/
def abandon {α : Type} (acquired : Bool) (error : SinkError ε) : M γ ε α := do
  setGenerator .finished
  release acquired
  throw error

def resume (frame : Frame) : M γ ε (Option (Edge PyStr)) := do
  match ← tryCatch (p.advance frame) (abandon frame.acquired) with
  | some edge => do
    setGenerator (.suspended { frame with outputCount := frame.outputCount + 1 })
    pure (some edge)
  | none => do
    setGenerator .finished
    release frame.acquired
    pure none

/-- `next(iterator)`; none stands for `StopIteration`. -/
def next : M γ ε (Option (Edge PyStr)) := do
  let w ← get
  match w.generator with
  | .finished => pure none
  | .suspended frame => p.resume frame
  | .created => do
    -- Where the lock is taken, the `try` block is not entered yet.
    let acquired ← tryCatch p.acquire fun error => do
      setGenerator .finished
      throw error
    let frame ← tryCatch (p.prepare acquired) (abandon acquired)
    p.resume frame

end Source

/-- `_close_iterator`: a generator that waits runs its `finally` block. -/
def closeIterator : M γ ε Unit := do
  let w ← get
  setGenerator .finished
  match w.generator with
  | .suspended frame => release frame.acquired
  | _ => pure ()

def batchSinkProtocolVersion : Int := 1

/-- Whether the sink has a `finish`. -/
def sinkOperations (sink : Sink ε) : Except (SinkError ε) Bool :=
  if sink.callable then .ok false
  else if sink.writeBatch = false then
    .error (.type "sink must be callable or expose write_batch()")
  else if sink.protocolVersion ≠ some batchSinkProtocolVersion then
    .error (.invalidOptions "batch sink protocol version is incompatible"
      [("expected_protocol_version", .number batchSinkProtocolVersion),
        ("actual_protocol_version", .number (sink.protocolVersion.getD (-1)))])
  else
    match sink.finish with
    | .absent => .ok false
    | .notCallable => .error (.type "sink.finish must be callable when present")
    | .callable => .ok true

def callSink (sink : Sink ε) (call : SinkCall) : M γ ε Unit := do
  modify fun w => { w with calls := w.calls ++ [call] }
  let w ← get
  match sink.answer w.calls with
  | none => pure ()
  | some error => throw (.sink error)

variable (p : Source γ ε) (sink : Sink ε)

/-- The `for` loop, with the edges that wait for their batch to fill up. None stands for a loop
that is still running after so many turns. -/
def fillBatches (batchSize : Int) :
    Nat → List (Edge PyStr) → M γ ε (Option (List (Edge PyStr)))
  | 0, _ => pure none
  | turns + 1, batch => do
    match ← p.next with
    | none => pure (some batch)
    | some edge => do
      let batch := batch ++ [edge]
      if batch.length = batchSize then do
        callSink sink (.writeBatch batch)
        fillBatches batchSize turns []
      else fillBatches batchSize turns batch

/-- The body of the `try` block. -/
def writeBatches (batchSize : Int) (turns : Nat) : M γ ε (Option Unit) := do
  match ← fillBatches p sink batchSize turns [] with
  | none => pure none
  | some batch => do
    runIf (batch ≠ []) (callSink sink (.writeBatch batch))
    pure (some ())

/-- `_project_to_sink` -/
def projectToSink (batchSize : Int) (turns : Nat) : M γ ε (Option ProjectionReport) := do
  match sinkOperations sink with
  | .error error => throw error
  | .ok finish => do
    raiseIf (batchSize < 1) (.invalidOptions "batch_size must be a positive int" [])
    raiseAny p.refused
    match ← tryCatch (writeBatches p sink batchSize turns) (fun error => do
        closeIterator
        throw error) with
    | none => pure none
    | some () => do
      closeIterator
      let w ← get
      match w.projector.lastReport with
      | none => throw (.runtime "projection completed without a report")
      | some report => do
        runIf (finish = true) (callSink sink (.finish report))
        pure (some report)

end Delivery

end Projector.Delivery
