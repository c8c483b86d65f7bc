import Projector.Native.CanonicalBytes
import Projector.Streaming.EncounterIndex

namespace Projector.Native
open Lib Streaming

/-- The errors that the edge processor hands to Python. -/
inductive EngineError where
  | memory (message : String)
  | value (message : String)
  /-- `OverflowError`: an argument is no `usize` -/
  | overflow
  /-- `UnicodeEncodeError`: a `str` has no UTF-8 form -/
  | unicodeEncode
  deriving DecidableEq, Repr

/-- The fields of `EdgeEngine`. `seen` is a set, here in the order of insertion; the last edge of
`canonical` is the one that `pop` takes. -/
structure EdgeEngine where
  order : EdgeOrder
  duplicates : DuplicatePolicy
  seen : List (Edge String)
  canonical : List (Edge String)
  rawEdges : Nat
  duplicateEdges : Nat
  finished : Bool
  cancelled : Bool
  maxEdges : Option Nat

/-- `allocations` counts the calls to the allocator, so each of them can be answered on its own. -/
structure EngineState where
  engine : EdgeEngine
  allocations : Nat

abbrev EngineM := EStateM EngineError EngineState

def EdgeEngine.new (order : EdgeOrder) (duplicates : DuplicatePolicy) (maxEdges : Option Nat) :
    EdgeEngine :=
  ⟨order, duplicates, [], [], 0, 0, false, false, maxEdges⟩

def EdgeEngine.stats (e : EdgeEngine) : EdgeCounts :=
  ⟨e.rawEdges, e.seen.length, e.duplicateEdges⟩

def EdgeEngine.drained (e : EdgeEngine) : Bool := e.finished && e.canonical.isEmpty

section Engine
variable (allocates : Nat → Bool)

def modifyEngine (f : EdgeEngine → EdgeEngine) : EngineM Unit :=
  modify fun s => { s with engine := f s.engine }

def tryReserve (message : String) : EngineM Unit := do
  let call ← modifyGet fun s => (s.allocations, { s with allocations := s.allocations + 1 })
  raiseIf (allocates call = false) (.memory message)

/-- `Edge::try_clone`: one reservation for each string. -/
def tryClone : EngineM Unit := do
  tryReserve allocates "native edge-string allocation failed"
  tryReserve allocates "native edge-string allocation failed"
  tryReserve allocates "native edge-string allocation failed"

def ensureActive : EngineM Unit := do
  let s ← get
  raiseIf s.engine.cancelled (.value "native processor was cancelled")
  raiseIf s.engine.finished (.value "native processor is already finished")

/-- `HashSet::insert`: whether the edge is new. -/
def insertSeen (edge : Edge String) : EngineM Bool :=
  modifyGet fun s =>
    if edge ∈ s.engine.seen then (false, s)
    else (true, { s with engine := { s.engine with seen := s.engine.seen ++ [edge] } })

/-- What pushing one edge does to the engine and to the output at hand. -/
def EdgeEngine.absorb (p : EdgeEngine × List (Edge String)) (edge : Edge String) :
    EdgeEngine × List (Edge String) :=
  let isNew := decide (edge ∉ p.1.seen)
  let kept := p.1.duplicates = .preserve ∨ isNew = true
  ({ p.1 with
      rawEdges := p.1.rawEdges + 1
      seen := if isNew then p.1.seen ++ [edge] else p.1.seen
      duplicateEdges := if isNew then p.1.duplicateEdges else p.1.duplicateEdges + 1
      canonical :=
        if kept ∧ p.1.order = .canonical then p.1.canonical ++ [edge] else p.1.canonical },
    if kept ∧ p.1.order = .encounter then p.2 ++ [edge] else p.2)

def pushEdge (output : List (Edge String)) (edge : Edge String) : EngineM (List (Edge String)) := do
  modifyEngine fun e => { e with rawEdges := e.rawEdges + 1 }
  tryClone allocates
  let isNew ← insertSeen edge
  runIf (isNew = false) (modifyEngine fun e => { e with duplicateEdges := e.duplicateEdges + 1 })
  let s ← get
  if s.engine.duplicates = .preserve ∨ isNew = true then
    match s.engine.order with
    | .canonical => do
      modifyEngine fun e => { e with canonical := e.canonical ++ [edge] }
      pure output
    | .encounter => pure (output ++ [edge])
  else pure output

/-- The room for the edges that a push keeps, or returns. -/
def reserveOutput : EdgeOrder → EngineM Unit
  | .canonical => tryReserve allocates "native canonical allocation failed"
  | .encounter => tryReserve allocates "native output allocation failed"

def EdgeEngine.push (batch : List (Edge String)) : EngineM (List (Edge String)) := do
  ensureActive
  let s ← get
  let nextCount := s.engine.rawEdges + batch.length
  raiseIf (nextCount ≥ usizeLimit) (.memory "native edge counter overflow")
  raiseIf (∃ limit, s.engine.maxEdges = some limit ∧ nextCount > limit)
    (.memory "native edge limit reached before batch allocation")
  tryReserve allocates "native distinct-edge allocation failed"
  reserveOutput allocates s.engine.order
  batch.foldlM (pushEdge allocates) []

/-- The derived order of `Edge` compares the bytes of the three strings in turn, and tells any two
edges apart, so an unstable sort has one result. -/
def EdgeEngine.finish : EngineM Unit := do
  ensureActive
  modifyEngine fun e => match e.order with
    | .canonical => { e with canonical := (sortOn Edge.canonicalKey e.canonical).reverse }
    | .encounter => e
  modifyEngine fun e => { e with finished := true }

/-- `amount` turns of the loop over `Vec::pop`. -/
def popEdges : Nat → List (Edge String) → List (Edge String) →
    List (Edge String) × List (Edge String)
  | 0, canonical, output => (output, canonical)
  | amount + 1, canonical, output =>
    match canonical.getLast? with
    | some edge => popEdges amount canonical.dropLast (output ++ [edge])
    | none => popEdges amount canonical output

def EdgeEngine.drain (maxItems : Nat) : EngineM (List (Edge String)) := do
  let s ← get
  raiseIf (s.engine.finished = false)
    (.value "finish() must be called before canonical output is drained")
  raiseIf s.engine.cancelled (.value "native processor was cancelled")
  let amount := min maxItems s.engine.canonical.length
  tryReserve allocates "native drain allocation failed"
  let (output, canonical) := popEdges amount s.engine.canonical []
  modifyEngine fun e => { e with canonical := canonical }
  pure output

def EdgeEngine.cancel : EngineM Unit :=
  modifyEngine fun e => { e with cancelled := true, canonical := [], seen := [] }

/-- A Python `str` becomes a native string if it has a UTF-8 form. -/
def extractEdge (edge : Edge PyStr) : Option (Edge String) := do
  let source ← edge.source.toString?
  let relation ← edge.relation.toString?
  let destination ← edge.destination.toString?
  pure ⟨source, relation, destination⟩

def edgeToPython (edge : Edge String) : Edge PyStr :=
  ⟨.ofString edge.source, .ofString edge.relation, .ofString edge.destination⟩

def edgesIntoTuples (edges : List (Edge String)) : EngineM (List (Edge PyStr)) := do
  tryReserve allocates "native tuple-batch allocation failed"
  pure (edges.map edgeToPython)

/-- `EdgeBatchProcessor.push_batch`. -/
def pushBatch (batch : List (Edge PyStr)) : EngineM (List (Edge PyStr)) :=
  match batch.mapM extractEdge with
  | none => throw .unicodeEncode
  | some converted => do
    tryReserve allocates "native input-batch allocation failed"
    let output ← EdgeEngine.push allocates converted
    edgesIntoTuples allocates output

/-- `EdgeBatchProcessor.drain_batch`. -/
def drainBatch (maxItems : Nat) : EngineM (List (Edge PyStr)) := do
  raiseIf (maxItems ≥ usizeLimit) .overflow
  raiseIf (maxItems = 0) (.value "max_items must be positive")
  let output ← EdgeEngine.drain allocates maxItems
  edgesIntoTuples allocates output

end Engine

section Driver

/-- The errors of the Python functions around a processor, with the `native_exception` detail. -/
inductive NativePolicyError where
  /-- `ProjectionResourceError` -/
  | resource (message nativeException : String)
  /-- `ProjectionError` -/
  | execution (message nativeException : String)
  /-- never raised by the source: a bound of the model's own recursion was too small -/
  | outOfFuel
  deriving DecidableEq, Repr

def resourceError (nativeException : String) : NativePolicyError :=
  .resource "native projector exhausted its configured edge resources" nativeException

def executionError (nativeException : String) : NativePolicyError :=
  .execution "native projector execution failed" nativeException

def EngineError.translated : EngineError → NativePolicyError
  | .memory _ => resourceError "MemoryError"
  | .overflow => resourceError "OverflowError"
  | .value _ => executionError "ValueError"
  | .unicodeEncode => executionError "UnicodeEncodeError"

/-- What a generator of these functions has yielded, with its processor. -/
structure PolicyState where
  native : EngineState
  yielded : List (Edge PyStr)
  statistics : Option EdgeCounts

abbrev PolicyM := EStateM NativePolicyError PolicyState

/-- `_call`. -/
def call {α : Type} (operation : EngineM α) : PolicyM α := fun s =>
  match operation s.native with
  | .ok a native => .ok a { s with native := native }
  | .error e native => .error e.translated { s with native := native }

def yieldAll (values : List (Edge PyStr)) : PolicyM Unit :=
  modify fun s => { s with yielded := s.yielded ++ values }

variable (allocates : Nat → Bool)

/-- `_push`. -/
def pushValues (batch : List (Edge PyStr)) : PolicyM Unit := do
  let values ← call (pushBatch allocates batch)
  yieldAll values

/-- One turn of the loop over the edges, which hands full batches to `send`. -/
def policyStep (send : List (Edge PyStr) → PolicyM Unit) (batchEdges : Nat)
    (batch : List (Edge PyStr)) (edge : Edge PyStr) : PolicyM (List (Edge PyStr)) := do
  let batch := batch ++ [edge]
  if batch.length = batchEdges then do
    send batch
    pure []
  else pure batch

/-- The loop that drains the processor; every turn takes an edge at least. -/
def drainValues (batchEdges : Nat) : Nat → PolicyM Unit
  | 0 => do
    let s ← get
    raiseIf (s.native.engine.drained = false) .outOfFuel
  | turns + 1 => do
    let s ← get
    if s.native.engine.drained then pure ()
    else do
      let values ← call (drainBatch allocates batchEdges)
      yieldAll values
      drainValues batchEdges turns

/-- `_copy_statistics`. -/
def copyStatistics (wanted : Bool) : PolicyM Unit :=
  modify fun s => if wanted then { s with statistics := some s.native.engine.stats } else s

def newProcessor (order : EdgeOrder) (duplicates : DuplicatePolicy) : PolicyM Unit :=
  modify fun s =>
    { s with native := { s.native with engine := .new order duplicates none } }

def policyBody (batchEdges : Nat) (statistics : Bool) (edges : List (Edge PyStr)) :
    PolicyM Unit := do
  let batch ← edges.foldlM (policyStep (pushValues allocates) batchEdges) []
  runIf (batch ≠ []) (pushValues allocates batch)
  call EdgeEngine.finish
  let s ← get
  drainValues allocates batchEdges s.native.engine.canonical.length
  copyStatistics statistics

def iterNativePolicy (duplicates : DuplicatePolicy) (order : EdgeOrder) (batchEdges : Nat)
    (statistics : Bool) (edges : List (Edge PyStr)) : PolicyM Unit := do
  newProcessor order duplicates
  tryCatch (policyBody allocates batchEdges statistics edges) fun e => do
    call EdgeEngine.cancel
    throw e

/-- One bounded transfer of raw edges. -/
def transfer (batchEdges : Nat) (batch : List (Edge PyStr)) : PolicyM Unit :=
  iterNativePolicy allocates .preserve .encounter batchEdges false batch

def iterNativePassthrough (batchEdges : Nat) : List (Edge PyStr) → PolicyM Unit
  | [] => pure ()
  | first :: rest => do
    transfer allocates 1 [first]
    let batch ← rest.foldlM (policyStep (transfer allocates batchEdges) batchEdges) []
    runIf (batch ≠ []) (transfer allocates batchEdges batch)

end Driver

end Projector.Native
