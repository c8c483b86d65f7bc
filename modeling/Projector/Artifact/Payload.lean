import Projector.Streaming.World
import Projector.Artifact.Json

namespace Projector.Artifact
open Lib
open Streaming (IoFault OSError PyError StreamingLimits)

inductive ArtifactError where
  | py (error : PyError)
  /-- `RuntimeError` -/
  | runtime (message : String)
  /-- `TypeError` -/
  | typeError (message : String)
  deriving DecidableEq, Repr

/-- The calls to the outside, each under the place of the source that makes it. -/
inductive Call where
  -- `_EdgePayload.__init__`
  | makeDirectory | chmod | makeFile | restrict | close | measure
  /-- `os.close` in the handler of `__init__` -/
  | closeAgain
  -- the other methods of `_EdgePayload`
  | encode | scan | space | open | seekEnd | write | flush | seek | read
  /-- `stream.close` in `cleanup` -/
  | closeStream
  -- `_write_destination`
  | makeTemporary | restrictTemporary | openTemporary | writeTemporary | flushTemporary
  | syncTemporary | closeTemporary | replaceTarget | writeTarget
  /-- `os.close` in the `finally` of `_write_destination` -/
  | closeDescriptor
  | cancellation
  deriving DecidableEq, Repr

/-- What the `write` of the caller's destination does. -/
inductive WriterAnswer where
  | count (n : Int)
  | nothing
  /-- a result that is not an `int` -/
  | other
  | raises (fault : IoFault)
  deriving DecidableEq, Repr

structure Environment extends Streaming.Environment where
  accepts : Nat → WriterAnswer
  /-- the bytes of the other files in the private directory -/
  otherBytes : Nat → Nat

/-- The attributes of `_EdgePayload`; `stream` is the position of the open stream and
`digest` is what has been hashed. -/
structure EdgePayload where
  directory : Bool
  path : Bool
  stream : Option Nat
  bytesWritten : Nat
  edgeCount : Nat
  digest : Bytes
  externalBytes : Nat
  available : Nat

def EdgePayload.empty : EdgePayload := ⟨false, false, none, 0, 0, [], 0, 0⟩

/-- The files around one `write_edge_artifact`, its payload, and the calls it has made
with the fault each met. -/
structure World where
  clock : Nat
  calls : List (Call × Option IoFault)
  /-- the file at the target path -/
  target : Option Bytes
  /-- the private file next to the target -/
  temporary : Option Bytes
  /-- the private directory -/
  directory : Bool
  /-- the payload file in it -/
  file : Option Bytes
  /-- the local `descriptor` is not `None` -/
  descriptor : Bool
  /-- what the caller's writer has accepted -/
  delivered : Bytes
  payload : EdgePayload

abbrev M := EStateM ArtifactError World

def artifactIoError (stage : String) (error : OSError) : ArtifactError :=
  .py (.resource "edge artifact I/O failed"
    [("stage", .text stage), ("cause", .text error.typeName),
      ("errno", .number (error.errno.getD (-1)))])

def payloadClosed : ArtifactError := .runtime "artifact payload is closed"

/-- `except OSError`. -/
def exceptOs {α : Type} (x : M α) (handler : OSError → M α) : M α :=
  tryCatch x fun
    | .py (.io (.os error)) => handler error
    | e => throw e

def guardIo {α : Type} (stage : String) (x : M α) : M α :=
  exceptOs x (fun error => throw (artifactIoError stage error))

def setPayload (f : EdgePayload → EdgePayload) : M Unit :=
  modify (fun w => { w with payload := f w.payload })

def copyChunk : Nat := 1048576

section
variable (env : Environment)

/-- Record one call and what it meets. -/
def tick (call : Call) (fault : Nat → Option IoFault) : M Nat :=
  modifyGet (fun w => (w.clock,
    { w with clock := w.clock + 1, calls := w.calls ++ [(call, fault w.clock)] }))

def perform (call : Call) : M Nat := do
  let now ← tick call env.fault
  match env.fault now with
  | some fault => throw (.py (.io fault))
  | none => pure now

def checkCancel (token : Bool) : M Unit :=
  runIf (token = true) do
    let now ← tick .cancellation (fun _ => none)
    raiseIf (env.cancelled now = true) (.py .cancelled)

/-- What `_write_all` raises: the messages of the three cases are not kept by its
callers. -/
def writerError : ArtifactError := .py (.io (.os ⟨"OSError", none⟩))

/-- `_write_all`. Every turn of its loop makes progress, so one turn for each byte is
enough. -/
def writeAll (write : Bytes → M WriterAnswer) : Nat → Bytes → M Unit
  | _, [] => pure ()
  | 0, _ :: _ => pure ()
  | fuel + 1, b :: value => do
    match ← write (b :: value) with
    | .raises fault => throw (.py (.io fault))
    | .nothing => throw writerError
    | .other => throw writerError
    | .count n =>
      if n ≤ 0 then throw writerError
      else if n > (b :: value).length then throw writerError
      else writeAll write fuel ((b :: value).drop n.toNat)

/-- Bytes written into a file at a position. -/
def spliceAt (content : Bytes) (position : Nat) (value : Bytes) : Bytes :=
  content.take position ++ value ++ content.drop (position + value.length)

/-- `write` of the buffered payload stream, which takes everything. -/
def payloadWrite (value : Bytes) : M WriterAnswer := do
  let _ ← perform env .write
  modify (fun w => { w with
    file := w.file.map (fun content => spliceAt content (w.payload.stream.getD 0) value)
    payload := { w.payload with stream := w.payload.stream.map (· + value.length) } })
  pure (.count value.length)

namespace EdgePayload

/-- The first part of `cleanup`. -/
def closeStream : M Unit := do
  let stream := (← get).payload.stream
  setPayload (fun p => { p with stream := none })
  runIf (stream.isSome = true) (exceptOs (discard (perform env .closeStream)) fun _ => pure ())

/-- The rest of `cleanup`. -/
def removeFiles : M Unit := do
  let path := (← get).payload.path
  setPayload (fun p => { p with path := false })
  runIf (path = true) (modify (fun w => { w with file := none }))
  let directory := (← get).payload.directory
  setPayload (fun p => { p with directory := false })
  runIf (directory = true) (modify (fun w => { w with directory := false, file := none }))

def cleanup : M Unit := do
  closeStream env
  removeFiles

/-- `__init__` -/
def init (parent : Option String) : M Unit := do
  raiseIf (∃ directory ∈ parent, env.isDirectory directory = false) (.py (.resource
    "artifact temporary directory is not an existing directory"
    [("stage", .text "artifact-temporary-directory")]))
  modify (fun w => { w with payload := empty, descriptor := false })
  exceptOs (do
    let _ ← perform env .makeDirectory
    modify (fun w => { w with directory := true, payload := { w.payload with directory := true } })
    let _ ← perform env .chmod
    let _ ← perform env .makeFile
    modify (fun w => { w with file := some [], descriptor := true })
    let _ ← perform env .restrict
    setPayload (fun p => { p with path := true })
    let _ ← perform env .close
    modify (fun w => { w with descriptor := false })
    let now ← perform env .measure
    setPayload (fun p => { p with available := env.diskFree now }))
    fun error => do
      runIf ((← get).descriptor = true) (discard (perform env .closeAgain))
      cleanup env
      throw (artifactIoError "artifact-payload-open" error)

/-- `_open_stream` -/
def openStream : M Unit := do
  let payload := (← get).payload
  match payload.stream with
  | some _ => pure ()
  | none => do
    raiseIf (payload.path = false) payloadClosed
    guardIo "artifact-payload-open" do
      let _ ← perform env .open
      let _ ← perform env .seekEnd
      modify (fun w => { w with
        payload := { w.payload with stream := some (w.file.getD []).length } })

/-- `_other_private_bytes` -/
def otherPrivateBytes : M Nat := do
  if (← get).payload.directory then
    guardIo "artifact-payload-space" do
      let now ← perform env .scan
      pure (env.otherBytes now)
  else pure 0

def enforceLimit (combined : Nat) (name : String) (allowed : Option Nat) : M Unit :=
  match allowed with
  | some allowed => raiseIf (combined > allowed) (.py (.resource ("artifact exceeded " ++ name)
      [("limit", .text name), ("observed", .number combined), ("allowed", .number allowed),
        ("stage", .text "artifact-payload-write")]))
  | none => pure ()

/-- `_enforce` -/
def enforce (limits : StreamingLimits) (following amount : Nat) : M Unit := do
  runIf ((← get).payload.edgeCount % limits.cancellationCheckInterval = 0) do
    let total ← otherPrivateBytes env
    setPayload (fun p => { p with externalBytes := total })
  let combined := following + (← get).payload.externalBytes
  enforceLimit combined "max_temporary_bytes" limits.maxTemporaryBytes
  enforceLimit combined "max_spill_bytes" limits.maxSpillBytes
  runIf (amount > (← get).payload.available) do
    raiseIf ((← get).payload.directory = false) payloadClosed
    guardIo "artifact-payload-space" do
      let now ← perform env .space
      setPayload (fun p => { p with available := env.diskFree now })
  let available := (← get).payload.available
  raiseIf (amount > available) (.py (.resource "artifact temporary space is exhausted"
    [("required", .number amount), ("available", .number available),
      ("stage", .text "artifact-payload-write")]))

def encodeFailed (cause : String) : ArtifactError :=
  .py (.resource "artifact could not allocate one bounded edge record"
    [("stage", .text "artifact-edge-encode"), ("cause", .text cause)])

/-- The record of an edge, with the failures of its allocation. -/
def encodeEdge (edge : Edge PyStr) : M Bytes :=
  tryCatch (do
    let _ ← perform env .encode
    match edgeJsonRecord edge with
    | some record => pure record
    | none => throw (.py .unicodeEncode)) fun
    | .py (.io .memory) => throw (encodeFailed "MemoryError")
    | .py (.io .overflow) => throw (encodeFailed "OverflowError")
    | e => throw e

def write (limits : StreamingLimits) (edge : Edge PyStr) : M Unit := do
  let record ← encodeEdge env edge
  let following := (← get).payload.bytesWritten + record.length
  enforce env limits following record.length
  openStream env
  guardIo "artifact-payload-write" (writeAll (payloadWrite env) record.length record)
  setPayload (fun p => { p with
    digest := p.digest ++ record
    bytesWritten := following
    edgeCount := p.edgeCount + 1
    available := p.available - record.length })

def rewind : M Unit := do
  openStream env
  guardIo "artifact-payload-rewind" do
    let _ ← perform env .flush
    let _ ← perform env .seek
    setPayload (fun p => { p with stream := some 0 })

/-- `stream.read(_COPY_CHUNK)` -/
def readChunk : M Bytes := do
  let _ ← perform env .read
  modifyGet (fun w =>
    let position := w.payload.stream.getD 0
    let chunk := ((w.file.getD []).drop position).take copyChunk
    (chunk, { w with payload := { w.payload with stream := some (position + chunk.length) } }))

/-- The loop of both readers of the payload: a cancellation check, a chunk, and what
the reader does with it. The loop ends by itself within `turns`. -/
def foldChunks {β : Type} (token : Bool) (body : β → Bytes → M β) : Nat → β → M β
  | 0, b => pure b
  | fuel + 1, b => do
    checkCancel env token
    let chunk ← readChunk env
    if chunk = [] then pure b
    else do
      let b ← body b chunk
      foldChunks token body fuel b

/-- The turns that loop can take. -/
def turns : M Nat := do
  pure (((← get).file.getD []).length + 1)

end EdgePayload

end

end Projector.Artifact
