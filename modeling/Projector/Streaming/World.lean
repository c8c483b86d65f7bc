import Projector.Lib.Effects
import Projector.Edge

namespace Projector.Streaming
open Lib

/-- What an I/O call of the operating system raises. -/
structure OSError where
  typeName : String
  errno : Option Int
  deriving DecidableEq, Repr

structure SqliteError where
  typeName : String
  errorName : String
  deriving DecidableEq, Repr

/-- Failures an I/O primitive may run into. -/
inductive IoFault where
  | os (error : OSError)
  | memory
  | overflow
  deriving DecidableEq, Repr

inductive Detail where
  | text (s : String)
  | number (n : Int)
  deriving DecidableEq, Repr

inductive PyError where
  /-- `ProjectionResourceError` -/
  | resource (message : String) (details : List (String × Detail))
  /-- `InvalidProjectionOptionsError` -/
  | invalidOptions (message : String) (details : List (String × Detail))
  | io (fault : IoFault)
  | sqlite (error : SqliteError)
  /-- raised by the caller's cancellation token -/
  | cancelled
  | unicodeEncode
  /-- `struct.error`: a value outside its packed field -/
  | struct
  | assertion (message : String)
  /-- never raised by the source: a bound of the model's own recursion was too small -/
  | outOfFuel
  deriving DecidableEq, Repr

def limitError (name : String) (observed allowed : Nat) (stage : String) : PyError :=
  .resource ("projection exceeded " ++ name)
    [("limit", .text name), ("observed", .number observed), ("allowed", .number allowed),
      ("stage", .text stage)]

def osResourceError (stage : String) (error : OSError) : PyError :=
  .resource "projection temporary I/O failed"
    [("stage", .text stage), ("cause", .text error.typeName),
      ("errno", .number (error.errno.getD (-1)))]

def corruptRun (cause : String) : PyError :=
  .resource "projection encountered a corrupt private run"
    [("stage", .text "run-read"), ("cause", .text cause)]

def sqliteResourceError (error : SqliteError) : PyError :=
  .resource "encounter duplicate-index I/O failed"
    [("stage", .text "encounter-distinct-index"), ("cause", .text error.typeName),
      ("sqlite_error", .text error.errorName)]

def allocationResourceError (stage cause : String) : PyError :=
  .resource "projection could not allocate its bounded streaming state"
    [("stage", .text stage), ("cause", .text cause)]

def runBufferError (cause : String) : PyError :=
  .resource "projection could not allocate its bounded run buffer"
    [("stage", .text "run-write"), ("cause", .text cause)]

def spaceExhausted (stage : String) (required available : Nat) : PyError :=
  .resource "projection temporary space is exhausted"
    [("stage", .text stage), ("required", .number required), ("available", .number available)]

def maxFieldBytes : Nat := 4294967295

def fieldBoundError : PyError :=
  .resource "an edge field exceeds the private run-format bound"
    [("stage", .text "run-encode"), ("max_field_bytes", .number maxFieldBytes)]

def tempDirectoryError : PyError :=
  .resource "projection temporary directory is not an existing directory"
    [("stage", .text "temporary-directory")]

/-- Resource bounds of one edge iterator. A value that exists has passed the
source's own validation. -/
structure StreamingLimits where
  mergeFanIn : Nat
  maxOpenFiles : Nat
  maxTotalEdges : Option Nat
  maxSpillBytes : Option Nat
  maxTemporaryBytes : Option Nat
  cancellationCheckInterval : Nat
  fanIn_ge : 2 ≤ mergeFanIn
  openFiles_ge : 3 ≤ maxOpenFiles
  interval_pos : 1 ≤ cancellationCheckInterval
  fanIn_fits : mergeFanIn + 1 ≤ maxOpenFiles

def StreamingLimits.default : StreamingLimits where
  mergeFanIn := 32
  maxOpenFiles := 64
  maxTotalEdges := none
  maxSpillBytes := none
  maxTemporaryBytes := none
  cancellationCheckInterval := 4096
  fanIn_ge := by decide
  openFiles_ge := by decide
  interval_pos := by decide
  fanIn_fits := by decide

inductive DuplicatePolicy where
  | preserve
  | unique
  deriving DecidableEq, Repr

inductive EdgeOrder where
  | encounter
  | canonical
  deriving DecidableEq, Repr

structure SpillMetrics where
  runsCreated : Nat
  mergePasses : Nat
  peakLiveBytes : Nat
  totalSpillBytes : Nat
  deriving DecidableEq, Repr

structure EdgeCounts where
  rawEdges : Nat
  distinctEdges : Nat
  duplicateEdges : Nat
  deriving DecidableEq, Repr

/-- Names of private files; `mkstemp` hands out a new one at every call. -/
abbrev Path := Nat

structure Run where
  path : Path
  edgeCount : Nat
  payloadBytes : Nat
  sizeBytes : Nat
  deriving DecidableEq, Repr

/-- The attributes of `_SpillWorkspace`. The source keeps the peak only; `liveHistory` is every
value that its `live_bytes` has had, the latest first. -/
structure Workspace where
  liveBytes : Nat
  peakLiveBytes : Nat
  totalWritten : Nat
  runsCreated : Nat
  mergePasses : Nat
  availableEstimate : Nat
  runs : List (Path × Nat)
  liveHistory : List Nat

def Workspace.metrics (w : Workspace) : SpillMetrics :=
  ⟨w.runsCreated, w.mergePasses, w.peakLiveBytes, w.totalWritten⟩

/-- The locals of a `_write_run` in progress that its handlers read. -/
structure PartialRun where
  path : Option Path
  accounted : Nat

/-- The attributes of `_DistinctIndex`. The database is the set of the keys in
its table, in insertion order. -/
structure DistinctIndex (τ : Type) where
  memoryEdges : Nat
  memory : List (Edge τ)
  connection : Option (List Bytes)
  count : Nat
  peakBytes : Nat

/-- Everything the streaming layer reads and writes. `clock` counts the calls made
to the outside, so the environment can answer each of them on its own. -/
structure World (τ : Type) where
  clock : Nat
  files : Path → Option Bytes
  nextPath : Path
  workspace : Workspace
  partialRun : Option PartialRun
  index : DistinctIndex τ
  yielded : List (Edge τ)
  statistics : Option EdgeCounts
  metrics : List SpillMetrics

def Workspace.empty : Workspace := ⟨0, 0, 0, 0, 0, 0, [], [0]⟩

def DistinctIndex.empty (τ : Type) (memoryEdges : Nat) : DistinctIndex τ :=
  ⟨memoryEdges, [], none, 0, 0⟩

def World.initial (τ : Type) : World τ :=
  ⟨0, fun _ => none, 0, Workspace.empty, none, DistinctIndex.empty τ 0, [], none, []⟩

/-- The answers of the outside, one for every call. A digest has 32 bytes. -/
structure Environment where
  fault : Nat → Option IoFault
  unlinkFault : Nat → Option OSError
  sqliteFault : Nat → Option SqliteError
  cancelled : Nat → Bool
  diskFree : Nat → Nat
  databaseSize : Nat → Nat
  isDirectory : String → Bool
  sha256 : Bytes → Bytes
  sha256_length : ∀ bytes, (sha256 bytes).length = 32

/-- An environment in which no call fails, with `digest` for the hash of a run. -/
def Environment.quiet (digest : Bytes → Bytes) (h : ∀ bytes, (digest bytes).length = 32) :
    Environment where
  fault _ := none
  unlinkFault _ := none
  sqliteFault _ := none
  cancelled _ := false
  diskFree _ := 1099511627776
  databaseSize _ := 8192
  isDirectory _ := true
  sha256 := digest
  sha256_length := h

abbrev M (τ : Type) := EStateM PyError (World τ)

section Primitives
variable {τ : Type} (env : Environment)

def tick : M τ Nat := modifyGet (fun w => (w.clock, { w with clock := w.clock + 1 }))

/-- One call that does I/O. -/
def io : M τ Unit := do
  let now ← tick
  match env.fault now with
  | some fault => throw (.io fault)
  | none => pure ()

/-- One call to `unlink`; `false` when it raised `OSError`. -/
def unlink (path : Path) : M τ Bool := do
  let now ← tick
  match env.unlinkFault now with
  | some _ => pure false
  | none => do
    modify (fun w => { w with files := Function.update w.files path none })
    pure true

def checkCancel : M τ Unit := do
  let now ← tick
  raiseIf (env.cancelled now = true) .cancelled

/-- The periodic check of a loop that has done `count` turns. -/
def pollCancel (limits : StreamingLimits) (count : Nat) : M τ Unit :=
  runIf (count % limits.cancellationCheckInterval = 0) (checkCancel env)

def diskUsage (stage : String) : M τ Nat := do
  let now ← tick
  match env.fault now with
  | some (.os error) => throw (osResourceError stage error)
  | some fault => throw (.io fault)
  | none => pure (env.diskFree now)

def yieldEdge (edge : Edge τ) : M τ Unit :=
  modify (fun w => { w with yielded := w.yielded ++ [edge] })

def setStatistics (rawCount distinctCount : Nat) : M τ Unit :=
  modify (fun w => { w with
    statistics := some ⟨rawCount, distinctCount, rawCount - distinctCount⟩ })

def enforceEdgeLimit (limits : StreamingLimits) (observed : Nat) : M τ Unit :=
  match limits.maxTotalEdges with
  | some allowed =>
    raiseIf (observed > allowed) (limitError "max_total_edges" observed allowed "edge-compile")
  | none => pure ()

end Primitives

/-- The text form of `type(error).__name__` for a fault that is not an `OSError`. -/
def IoFault.typeName : IoFault → String
  | .os error => error.typeName
  | .memory => "MemoryError"
  | .overflow => "OverflowError"

end Projector.Streaming
