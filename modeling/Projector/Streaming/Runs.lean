import Projector.Streaming.World

namespace Projector.Streaming
open Lib

def runMagic : Bytes :=
  [80, 89, 79, 87, 76, 50, 86, 69, 67, 45, 82, 85, 78, 0, 1]

def runHeaderSize : Nat := 63

def fieldLengthsSize : Nat := 12

section
variable {τ : Type} [PyText τ]

/-- The spill record of one edge: three big-endian lengths, then the three fields. -/
def encodeRecord (s r d : Bytes) : Bytes :=
  bigEndian 4 s.length ++ bigEndian 4 r.length ++ bigEndian 4 d.length ++ (s ++ r ++ d)

def encodeEdge (edge : Edge τ) : Except PyError Bytes :=
  match edge.encoded? with
  | none => .error .unicodeEncode
  | some (s, r, d) =>
    if s.length > maxFieldBytes ∨ r.length > maxFieldBytes ∨ d.length > maxFieldBytes then
      .error fieldBoundError
    else .ok (encodeRecord s r d)

/-- `_RUN_HEADER.pack`: both counts are 64-bit fields. -/
def packHeader (count payloadBytes : Nat) (digest : Bytes) : Except PyError Bytes :=
  if count < 256 ^ 8 ∧ payloadBytes < 256 ^ 8 then
    .ok (runMagic ++ bigEndian 8 count ++ bigEndian 8 payloadBytes ++ digest)
  else .error .struct

def liftExcept {α : Type} : Except PyError α → M τ α
  | .ok a => pure a
  | .error e => throw e

end

section Workspace
variable {τ : Type} (env : Environment) (limits : StreamingLimits)

def checkParent (parent : Option String) : M τ Unit :=
  match parent with
  | some directory => raiseIf (env.isDirectory directory = false) tempDirectoryError
  | none => pure ()

def openWorkspace (parent : Option String) : M τ Unit := do
  checkParent env parent
  tryCatch (io env) (fun e => match e with
    | .io (.os error) => throw (osResourceError "temporary-directory" error)
    | e => throw e)
  let free ← diskUsage env "temporary-directory"
  modify (fun w => { w with workspace := { Workspace.empty with availableEstimate := free } })

def enforceBytes (name : String) (allowed : Option Nat) (observed : Nat) (stage : String) :
    M τ Unit :=
  match allowed with
  | some allowed => raiseIf (observed > allowed) (limitError name observed allowed stage)
  | none => pure ()

/-- The free space to hold `amount` against: the estimate, renewed when it falls short. -/
def availableFor (amount : Nat) (stage : String) : M τ Nat := do
  let w ← get
  if amount > w.workspace.availableEstimate then do
    let free ← diskUsage env stage
    modify (fun w => { w with workspace := { w.workspace with availableEstimate := free } })
    pure free
  else pure w.workspace.availableEstimate

/-- Reserve `amount` bytes before they are written. -/
def grow (amount : Nat) (stage : String) : M τ Unit := do
  let w ← get
  let newLive := w.workspace.liveBytes + amount
  let newTotal := w.workspace.totalWritten + amount
  enforceBytes "max_temporary_bytes" limits.maxTemporaryBytes newLive stage
  enforceBytes "max_spill_bytes" limits.maxSpillBytes newTotal stage
  let available ← availableFor env amount stage
  raiseIf (amount > available) (spaceExhausted stage amount available)
  modify (fun w => { w with workspace := { w.workspace with
    liveBytes := newLive
    totalWritten := newTotal
    peakLiveBytes := max w.workspace.peakLiveBytes newLive
    availableEstimate := w.workspace.availableEstimate - amount
    liveHistory := newLive :: w.workspace.liveHistory } })

/-- `_forget_partial` with the locals of the interrupted write. -/
def forgetPartial : M τ Unit := do
  let w ← get
  match w.partialRun with
  | none => pure ()
  | some p => do
    modify (fun w => { w with
      partialRun := none
      workspace := { w.workspace with
        liveBytes := w.workspace.liveBytes - p.accounted
        availableEstimate := w.workspace.availableEstimate + p.accounted
        liveHistory := (w.workspace.liveBytes - p.accounted) :: w.workspace.liveHistory } })
    match p.path with
    | none => pure ()
    | some path => do
      let _ ← unlink env path
      pure ()

def delete (run : Run) : M τ Unit := do
  let w ← get
  let size := (w.workspace.runs.lookup run.path).getD 0
  let others := w.workspace.runs.filter (fun entry => entry.1 ≠ run.path)
  modify (fun w => { w with workspace := { w.workspace with runs := others } })
  let unlinked ← unlink env run.path
  if unlinked then
    modify (fun w => { w with workspace := { w.workspace with
      liveBytes := w.workspace.liveBytes - size
      availableEstimate := w.workspace.availableEstimate + size
      liveHistory := (w.workspace.liveBytes - size) :: w.workspace.liveHistory } })
  else if size ≠ 0 then
    modify (fun w => { w with workspace := { w.workspace with
      runs := w.workspace.runs ++ [(run.path, size)] } })

def unlinkAll : List (Path × Nat) → M τ Unit
  | [] => pure ()
  | entry :: entries => do
    let _ ← unlink env entry.1
    unlinkAll entries

/-- Removal of the workspace directory; an `OSError` of `rmtree` leaves it behind. -/
def cleanup : M τ Unit := do
  let w ← get
  unlinkAll env w.workspace.runs
  modify (fun w => { w with workspace := { w.workspace with
    runs := []
    liveBytes := 0
    liveHistory := 0 :: w.workspace.liveHistory } })
  let now ← tick
  match env.fault now with
  | some _ => pure ()
  | none => modify (fun w => { w with files := fun _ => none })

end Workspace

section Writing
variable {τ : Type} [PyText τ] (env : Environment) (limits : StreamingLimits)

def account (amount : Nat) : M τ Unit :=
  modify (fun w => { w with
    partialRun := w.partialRun.map (fun p => { p with accounted := p.accounted + amount }) })

def appendFile (path : Path) (bytes : Bytes) : M τ Unit := do
  io env
  modify (fun w => { w with
    files := Function.update w.files path (some ((w.files path).getD [] ++ bytes)) })

/-- `seek(0)`, then a write over the first bytes of the file. -/
def overwriteStart (path : Path) (bytes : Bytes) : M τ Unit := do
  io env
  modify (fun w => { w with
    files := Function.update w.files path
      (some (bytes ++ ((w.files path).getD []).drop bytes.length)) })

/-- The locals of the write loop: edges written, payload size, bytes hashed. -/
structure RunProgress where
  count : Nat
  payloadBytes : Nat
  hashed : Bytes

def writeEdge (path : Path) (p : RunProgress) (edge : Edge τ) : M τ RunProgress := do
  pollCancel env limits p.count
  let record ← liftExcept (encodeEdge edge)
  grow env limits record.length "run-write"
  account record.length
  appendFile env path record
  pure ⟨p.count + 1, p.payloadBytes + record.length, p.hashed ++ record⟩

def writeRunBody (edges : Producer PyError (World τ) (Edge τ)) : M τ Run := do
  io env
  let path ← modifyGet (fun w => (w.nextPath, { w with
    nextPath := w.nextPath + 1
    files := Function.update w.files w.nextPath (some [])
    partialRun := some ⟨some w.nextPath, 0⟩ }))
  io env
  grow env limits runHeaderSize "run-header"
  account runHeaderSize
  appendFile env path (List.replicate runHeaderSize 0)
  let p ← edges.fold (writeEdge env limits path) ⟨0, 0, []⟩
  checkCancel env
  let header ← liftExcept (packHeader p.count p.payloadBytes (env.sha256 p.hashed))
  overwriteStart env path header
  io env
  modifyGet (fun w =>
    let accounted := (w.partialRun.map PartialRun.accounted).getD 0
    (⟨path, p.count, p.payloadBytes, accounted⟩, { w with
      partialRun := none
      workspace := { w.workspace with
        runs := w.workspace.runs ++ [(path, accounted)]
        runsCreated := w.workspace.runsCreated + 1 } }))

/-- Only resource errors, I/O errors and allocation errors undo the partial run; a
cancellation, an encoding error or a packing error passes through. -/
def writeRunFailed (e : PyError) : M τ Run :=
  match e with
  | .resource message details => do
    forgetPartial env
    throw (.resource message details)
  | .io (.os error) => do
    forgetPartial env
    throw (osResourceError "run-write" error)
  | .io fault => do
    forgetPartial env
    throw (runBufferError fault.typeName)
  | e => throw e

def writeRun (edges : Producer PyError (World τ) (Edge τ)) : M τ Run := do
  modify (fun w => { w with partialRun := some ⟨none, 0⟩ })
  tryCatch (writeRunBody env limits edges) (writeRunFailed env)

def byPolicy [DecidableEq τ] (duplicates : DuplicatePolicy)
    (values : Producer PyError (World τ) (Edge τ)) : Producer PyError (World τ) (Edge τ) :=
  match duplicates with
  | .unique => values.coalesce
  | .preserve => values

def writeSortedRun [DecidableEq τ] (duplicates : DuplicatePolicy) (edges : List (Edge τ)) :
    M τ Run := do
  -- The sort computes every key first, and a key needs the UTF-8 form of each field.
  raiseIf (edges.all Edge.encodable = false) .unicodeEncode
  writeRun env limits (byPolicy duplicates (Producer.ofList (sortOn Edge.canonicalKey edges)))

end Writing

section Reading
variable {τ : Type} [PyText τ] (env : Environment)

/-- `_read_exact`: a short read is an end-of-file error. -/
def readExact (stream : Bytes) (amount : Nat) : Except String (Bytes × Bytes) :=
  if amount ≤ stream.length then .ok (stream.take amount, stream.drop amount)
  else .error "EOFError"

structure RunReader where
  run : Run
  stream : Option Bytes
  count : Nat
  payloadBytes : Nat
  hashed : Bytes
  verified : Bool
  expectedCount : Nat
  expectedPayloadBytes : Nat
  expectedDigest : Bytes

/-- `_RUN_HEADER.unpack`: magic, edge count, payload size and digest. -/
def unpackHeader (header : Bytes) : Bytes × Nat × Nat × Bytes :=
  (header.take 15, fromBigEndian ((header.drop 15).take 8),
    fromBigEndian ((header.drop 23).take 8), header.drop 31)

/-- I/O on an open run: an `OSError` makes the run corrupt. -/
def readIo : M τ Unit := do
  let now ← tick
  match env.fault now with
  | some (.os error) => throw (corruptRun error.typeName)
  | some fault => throw (.io fault)
  | none => pure ()

def RunReader.open (run : Run) : M τ RunReader := do
  readIo env
  let w ← get
  match w.files run.path with
  | none => throw (corruptRun "FileNotFoundError")
  | some content =>
    match readExact content runHeaderSize with
    | .error cause => throw (corruptRun cause)
    | .ok (header, stream) =>
      let (magic, count, payloadBytes, digest) := unpackHeader header
      if magic ≠ runMagic ∨ count ≠ run.edgeCount ∨ payloadBytes ≠ run.payloadBytes ∨
          digest = List.replicate 32 0 ∨ content.length ≠ runHeaderSize + payloadBytes then
        throw (corruptRun "ValueError")
      else
        pure ⟨run, some stream, 0, 0, [], false, count, payloadBytes, digest⟩

/-- One record off the stream: the edge, the bytes it took, and what is left. -/
def readRecord (remaining : Nat) (stream : Bytes) : Except String (Edge τ × Bytes × Bytes) := do
  let (lengths, stream) ← readExact stream fieldLengthsSize
  let sLength := fromBigEndian (lengths.take 4)
  let rLength := fromBigEndian ((lengths.drop 4).take 4)
  let dLength := fromBigEndian (lengths.drop 8)
  if fieldLengthsSize + (sLength + rLength + dLength) > remaining then .error "EOFError"
  else do
    let (s, stream) ← readExact stream sLength
    let (r, stream) ← readExact stream rLength
    let (d, stream) ← readExact stream dLength
    match PyText.decode s, PyText.decode r, PyText.decode d with
    | some source, some relation, some destination =>
      pure (⟨source, relation, destination⟩, lengths ++ (s ++ r ++ d), stream)
    | _, _, _ => .error "UnicodeDecodeError"

def RunReader.verify (reader : RunReader) : M τ Unit := do
  if reader.verified then pure () else
    match reader.stream with
    | none => throw (corruptRun "ValueError")
    | some stream => do
      readIo env
      raiseIf (stream ≠ [] ∨ reader.payloadBytes ≠ reader.expectedPayloadBytes ∨
        env.sha256 reader.hashed ≠ reader.expectedDigest) (corruptRun "ValueError")

/-- `__next__`; `none` is `StopIteration`. -/
def RunReader.next (reader : RunReader) : M τ (Option (Edge τ × RunReader)) := do
  if reader.count = reader.expectedCount then do
    reader.verify env
    pure none
  else
    match reader.stream with
    | none => pure none
    | some stream => do
      readIo env
      match readRecord (reader.expectedPayloadBytes - reader.payloadBytes) stream with
      | .error cause => throw (corruptRun cause)
      | .ok (edge, record, stream) =>
        pure (some (edge, { reader with
          stream := some stream
          count := reader.count + 1
          payloadBytes := reader.payloadBytes + record.length
          hashed := reader.hashed ++ record }))

end Reading

section Merging
variable {τ : Type} [PyText τ] (env : Environment) (limits : StreamingLimits)

/-- The heap orders its entries by canonical key and then by reader. An entry keeps
the reader and the edge; its key is that of the edge. -/
abbrev MergeHeap (τ : Type) := List (Nat × Edge τ)

def push (heap : MergeHeap τ) (index : Nat) (edge : Edge τ) : M τ (MergeHeap τ) :=
  if edge.encodable then pure (heap ++ [(index, edge)]) else throw .unicodeEncode

def openReaders : List Run → List RunReader → MergeHeap τ → M τ (List RunReader × MergeHeap τ)
  | [], readers, heap => pure (readers, heap)
  | run :: runs, readers, heap => do
    let reader ← RunReader.open env run
    match ← reader.next env with
    | none => openReaders runs (readers ++ [reader]) heap
    | some (edge, reader) => do
      let heap ← push heap readers.length edge
      openReaders runs (readers ++ [reader]) heap

/-- The merge loop. Each turn consumes one edge of one reader, so the edges still
expected bound the turns. -/
def mergeFrom {β : Type} (body : β → Edge τ → M τ β) :
    Nat → List RunReader → MergeHeap τ → Nat → β → M τ β
  | turns, readers, heap, emitted, b =>
    match popLeast (headKey Edge.canonicalKey) heap with
    | none => do
      checkCancel env
      pure b
    | some ((index, edge), heap) =>
      match turns with
      | 0 => throw .outOfFuel
      | turns + 1 => do
        pollCancel env limits emitted
        let b ← body b edge
        match readers[index]? with
        | none => throw .outOfFuel
        | some reader => do
          match ← reader.next env with
          | none => mergeFrom body turns readers heap (emitted + 1) b
          | some (successor, reader) => do
            let heap ← push heap index successor
            mergeFrom body turns (readers.set index reader) heap (emitted + 1) b

def merge (runs : List Run) : Producer PyError (World τ) (Edge τ) where
  fold body b := do
    let (readers, heap) ← openReaders env runs [] []
    mergeFrom env limits body (runs.map Run.edgeCount).sum readers heap 0 b

def deleteAll : List Run → M τ Unit
  | [] => pure ()
  | run :: runs => do
    delete env run
    deleteAll runs

def writeMergedRun [DecidableEq τ] (duplicates : DuplicatePolicy) (runs : List Run) :
    M τ Run := do
  raiseIf (runs.length > limits.mergeFanIn)
    (.assertion "merge group exceeds validated fan-in")
  let created ← writeRun env limits (byPolicy duplicates (merge env limits runs))
  deleteAll env runs
  pure created

/-- A group of one run is carried over. -/
def mergeGroup [DecidableEq τ] (duplicates : DuplicatePolicy) : List Run → M τ Run
  | [run] => pure run
  | group => writeMergedRun env limits duplicates group

/-- One pass over the groups `current[offset : offset + fan_in]`. -/
def reducePass [DecidableEq τ] (duplicates : DuplicatePolicy) :
    Nat → List Run → M τ (List Run)
  | 0, _ => pure []
  | _, [] => pure []
  | groups + 1, current => do
    let created ← mergeGroup env limits duplicates (current.take limits.mergeFanIn)
    let following ← reducePass duplicates groups (current.drop limits.mergeFanIn)
    pure (created :: following)

def reduceFrom [DecidableEq τ] (duplicates : DuplicatePolicy) :
    Nat → List Run → M τ (List Run)
  | passes, current =>
    if current.length ≤ limits.mergeFanIn then pure current
    else
      match passes with
      | 0 => throw .outOfFuel
      | passes + 1 => do
        modify (fun w => { w with workspace := { w.workspace with
          mergePasses := w.workspace.mergePasses + 1 } })
        let following ← reducePass env limits duplicates current.length current
        reduceFrom duplicates passes following

def reduce [DecidableEq τ] (duplicates : DuplicatePolicy) (runs : List Run) : M τ (List Run) :=
  reduceFrom env limits duplicates runs.length runs

end Merging

end Projector.Streaming
