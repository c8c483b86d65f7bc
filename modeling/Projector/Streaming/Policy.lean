import Projector.Streaming.Runs

namespace Projector.Streaming
open Lib

/-- What one call of `iter_edge_policy` is given besides its edges. -/
structure PolicyOptions where
  duplicates : DuplicatePolicy
  order : EdgeOrder
  bufferEdges : Nat
  tempDirectory : Option String
  limits : StreamingLimits

section
variable {τ : Type} [DecidableEq τ] [PyText τ]

/-- The locals and statistics of the in-memory encounter loop. -/
structure Encountered (τ : Type) where
  seen : List (Edge τ)
  counts : EdgeCounts
  yielded : List (Edge τ)

def encounterStep (duplicates : DuplicatePolicy) (s : Encountered τ) (edge : Edge τ) :
    Encountered τ :=
  let duplicate := decide (edge ∈ s.seen)
  let raw := s.counts.rawEdges + 1
  { seen := if duplicate then s.seen else s.seen ++ [edge]
    counts :=
      if duplicate then ⟨raw, s.counts.distinctEdges, s.counts.duplicateEdges + 1⟩
      else ⟨raw, s.counts.distinctEdges + 1, s.counts.duplicateEdges⟩
    yielded := if duplicates = .preserve ∨ duplicate = false then s.yielded ++ [edge]
      else s.yielded }

/-- The in-memory policy over a prepared compilation: the edges it yields, with the
counts it leaves in the compilation's statistics. -/
def iterProjectedEdges (duplicates : DuplicatePolicy) (order : EdgeOrder) (raw : List (Edge τ)) :
    Except PyError (List (Edge τ) × EdgeCounts) :=
  match order with
  | .encounter =>
    let s := raw.foldl (encounterStep duplicates) ⟨[], ⟨0, 0, 0⟩, []⟩
    .ok (s.yielded, s.counts)
  | .canonical =>
    let distinct := raw.eraseDups.length
    let counts : EdgeCounts := ⟨raw.length, distinct, raw.length - distinct⟩
    let edges := match duplicates with
      | .unique => raw.eraseDups
      | .preserve => raw
    if edges.all Edge.encodable then .ok (sortOn Edge.canonicalKey edges, counts)
    else .error .unicodeEncode

variable (env : Environment) (limits : StreamingLimits)

/-- `except (MemoryError, OverflowError)` around one stage. -/
def allocationFailed (stage : String) (e : PyError) : M τ Unit :=
  match e with
  | .io .memory => throw (allocationResourceError stage "MemoryError")
  | .io .overflow => throw (allocationResourceError stage "OverflowError")
  | e => throw e

def recordMetrics (metrics : SpillMetrics) : M τ Unit :=
  modify (fun w => { w with metrics := w.metrics ++ [metrics] })

section Canonical
variable (duplicates : DuplicatePolicy) (bufferEdges : Nat)

/-- The locals of the collecting loop. -/
structure Collected (τ : Type) where
  rawCount : Nat
  buffer : List (Edge τ)
  runs : List Run

def collect (c : Collected τ) (edge : Edge τ) : M τ (Collected τ) := do
  let rawCount := c.rawCount + 1
  enforceEdgeLimit limits rawCount
  pollCancel env limits rawCount
  let buffer := c.buffer ++ [edge]
  if buffer.length = bufferEdges then do
    let run ← writeSortedRun env limits duplicates buffer
    pure ⟨rawCount, [], c.runs ++ [run]⟩
  else pure ⟨rawCount, buffer, c.runs⟩

/-- The last loop: count what differs from its predecessor and yield by policy. -/
def deliver (s : Nat × Option (Edge τ)) (edge : Edge τ) : M τ (Nat × Option (Edge τ)) := do
  let (distinctCount, last) := s
  let isDistinct := last ≠ some edge
  runIf (duplicates = .preserve ∨ isDistinct) (yieldEdge edge)
  pure (if isDistinct then distinctCount + 1 else distinctCount, some edge)

/-- The run of the edges left in the buffer. -/
def flush (c : Collected τ) : M τ (List Run) :=
  if c.buffer = [] then pure c.runs
  else do
    let run ← writeSortedRun env limits duplicates c.buffer
    pure (c.runs ++ [run])

def canonicalBody (edges : List (Edge τ)) : M τ Unit := do
  checkCancel env
  let c ← edges.foldlM (collect env limits duplicates bufferEdges) ⟨0, [], []⟩
  let runs ← flush env limits duplicates c
  if runs = [] then setStatistics 0 0
  else do
    let finalRuns ← reduce env limits duplicates runs
    let (distinctCount, _) ← (merge env limits finalRuns).fold (deliver duplicates) (0, none)
    setStatistics c.rawCount distinctCount

def canonicalFinish : M τ Unit := do
  let w ← get
  let metrics := w.workspace.metrics
  cleanup env
  recordMetrics metrics

def iterCanonical (tempDirectory : Option String) (edges : List (Edge τ)) : M τ Unit := do
  openWorkspace env tempDirectory
  andFinally
    (tryCatch (canonicalBody env limits duplicates bufferEdges edges)
      (allocationFailed "canonical"))
    (canonicalFinish env)

end Canonical

section Encounter

def distinctStage : String := "encounter-distinct-index"

/-- One call into SQLite. -/
def sqliteCall : M τ Unit := do
  let now ← tick
  match env.sqliteFault now with
  | some error => throw (.sqlite error)
  | none => pure ()

def checkSize : M τ Unit := do
  let now ← tick
  match env.fault now with
  | some (.os error) => throw (osResourceError distinctStage error)
  | some fault => throw (.io fault)
  | none => do
    let size := env.databaseSize now
    modify (fun w => { w with
      index := { w.index with peakBytes := max w.index.peakBytes size } })
    enforceBytes "max_temporary_bytes" limits.maxTemporaryBytes size distinctStage
    enforceBytes "max_spill_bytes" limits.maxSpillBytes size distinctStage

/-- `INSERT OR IGNORE`: a key that is present stays, and nothing is inserted. -/
def insertKey (keys : List Bytes) (key : Bytes) : List Bytes :=
  if key ∈ keys then keys else keys ++ [key]

/-- The `executemany` over the memory front; the statement has no `OR IGNORE`. -/
def insertAll : List Bytes → List (Edge τ) → M τ (List Bytes)
  | keys, [] => pure keys
  | keys, edge :: edges => do
    let record ← liftExcept (encodeEdge edge)
    sqliteCall env
    raiseIf (record ∈ keys) (.sqlite ⟨"IntegrityError", "SQLITE_CONSTRAINT_PRIMARYKEY"⟩)
    insertAll (keys ++ [record]) edges

/-- Create the table and copy the memory front into it. -/
def fillDatabase (memory : List (Edge τ)) : M τ (List Bytes) := do
  io env
  sqliteCall env
  insertAll env [] memory

/-- The handler knows I/O and database errors; an encoding error passes through. -/
def spillFailed (e : PyError) : M τ (List Bytes) :=
  match e with
  | .io (.os error) => do
    cleanup env
    throw (osResourceError distinctStage error)
  | .sqlite error => do
    cleanup env
    throw (sqliteResourceError error)
  | e => throw e

def spill (tempDirectory : Option String) : M τ Unit := do
  openWorkspace env tempDirectory
  let w ← get
  let keys ← tryCatch (fillDatabase env w.index.memory) (spillFailed env)
  modify (fun w => { w with index := { w.index with connection := some keys, memory := [] } })
  checkSize env limits

/-- The part of `add` that runs against the open database. -/
def insertEdge (edge : Edge τ) : M τ Bool := do
  let record ← liftExcept (encodeEdge edge)
  tryCatch (sqliteCall env) (fun e => match e with
    | .sqlite error => throw (sqliteResourceError error)
    | e => throw e)
  let w ← get
  let keys := w.index.connection.getD []
  let inserted := decide (record ∉ keys)
  let count := if inserted then w.index.count + 1 else w.index.count
  modify (fun w => { w with
    index := { w.index with connection := some (insertKey keys record), count := count } })
  runIf (count % limits.cancellationCheckInterval = 0) (checkSize env limits)
  pure inserted

def add (tempDirectory : Option String) (edge : Edge τ) : M τ Bool := do
  let w ← get
  match w.index.connection with
  | none =>
    if edge ∈ w.index.memory then pure false
    else if w.index.memory.length < w.index.memoryEdges then do
      modify (fun w => { w with index := { w.index with
        memory := w.index.memory ++ [edge], count := w.index.count + 1 } })
      pure true
    else do
      spill env limits tempDirectory
      insertEdge env limits edge
  | some _ => insertEdge env limits edge

def closeIndex : M τ Unit := do
  let w ← get
  runIf (w.index.connection.isSome = true) (cleanup env)
  modify (fun w => { w with index := { w.index with connection := none, memory := [] } })

def indexMetrics : M τ Unit := do
  let w ← get
  runIf (w.index.connection.isSome = true) (checkSize env limits)

def encounterEdge (duplicates : DuplicatePolicy) (tempDirectory : Option String) (rawCount : Nat)
    (edge : Edge τ) : M τ Nat := do
  let rawCount := rawCount + 1
  enforceEdgeLimit limits rawCount
  pollCancel env limits rawCount
  let added ← add env limits tempDirectory edge
  let duplicate := !added
  runIf (duplicates = .preserve ∨ duplicate = false) (yieldEdge edge)
  pure rawCount

def encounterBody (duplicates : DuplicatePolicy) (tempDirectory : Option String)
    (edges : List (Edge τ)) : M τ Unit := do
  checkCancel env
  let rawCount ← edges.foldlM (encounterEdge env limits duplicates tempDirectory) 0
  checkCancel env
  let w ← get
  setStatistics rawCount w.index.count

def encounterFinish : M τ Unit := do
  andFinally (indexMetrics env limits) (closeIndex env)
  let w ← get
  recordMetrics ⟨0, 0, w.index.peakBytes, w.index.peakBytes⟩

def iterEncounter (duplicates : DuplicatePolicy) (bufferEdges : Nat)
    (tempDirectory : Option String) (edges : List (Edge τ)) : M τ Unit := do
  modify (fun w => { w with index := DistinctIndex.empty τ bufferEdges })
  andFinally
    (tryCatch (encounterBody env limits duplicates tempDirectory edges)
      (allocationFailed "encounter"))
    (encounterFinish env limits)

end Encounter

/-- Apply deterministic policies with bounded canonical spill and cleanup. -/
@[irreducible]
def iterEdgePolicy (options : PolicyOptions) (edges : List (Edge τ)) : M τ Unit := do
  raiseIf (options.bufferEdges < 1) (.invalidOptions "buffer_edges must be an int >= 1" [])
  match options.order with
  | .encounter =>
    iterEncounter env options.limits options.duplicates options.bufferEdges
      options.tempDirectory edges
  | .canonical =>
    iterCanonical env options.limits options.duplicates options.bufferEdges
      options.tempDirectory edges

end

end Projector.Streaming
