import Projector.Compiler.Compilation
import Projector.Artifact.Payload

namespace Projector.Artifact
open Lib
open Streaming (PyError StreamingLimits DuplicatePolicy EdgeOrder)

inductive Backend where
  | auto
  | native
  | python
  deriving DecidableEq, Repr

/-- All options of a projection; the profile has one value. -/
structure ProjectionOptions extends Compiler.ProjectionOptions where
  duplicates : DuplicatePolicy
  order : EdgeOrder
  backend : Backend

def referenceProfile : String := "mowl-d993536-v1"

def ProjectionOptions.toDict (options : ProjectionOptions) : List (PyStr × Json) :=
  [(ascii "profile", .str (ascii referenceProfile)),
    (ascii "bidirectional_taxonomy", .bool options.bidirectionalTaxonomy),
    (ascii "only_taxonomy", .bool options.onlyTaxonomy),
    (ascii "include_literals", .bool options.includeLiterals),
    (ascii "duplicates", .str (ascii (match options.duplicates with
      | .preserve => "preserve"
      | .unique => "unique"))),
    (ascii "order", .str (ascii (match options.order with
      | .canonical => "canonical"
      | .encounter => "encounter"))),
    (ascii "compatibility_state", .str (ascii (match options.compatibilityState with
      | .isolated => "isolated"
      | .scalaInstance => "scala-instance"))),
    (ascii "backend", .str (ascii (match options.backend with
      | .auto => "auto"
      | .native => "native"
      | .python => "python")))]

structure CoreProvenance where
  packageVersion : PyStr
  apiVersion : Int × Int
  modelSchemaVersion : Int
  wireFormatVersion : Int × Int
  adapterProtocolVersion : Int
  structuralFingerprint : PyStr
  logicalFingerprint : PyStr
  signatureFingerprint : PyStr
  importManifestDigest : PyStr
  closureDocumentIdentities : List PyStr
  loaderDiagnosticsDigest : PyStr

structure ProjectionCounts where
  edges : Nat
  duplicates : Nat
  skippedAxioms : Nat
  ignoredShapes : Nat

inductive Severity where
  | info
  | warning
  deriving DecidableEq, Repr

structure Diagnostic where
  code : PyStr
  severity : Severity
  count : Nat

/-- The parts of a `ProjectionReport` that reach an artifact. -/
structure ProjectionReport where
  options : ProjectionOptions
  core : CoreProvenance
  counts : ProjectionCounts
  compilerCacheSchema : PyStr
  diagnosticsDigest : PyStr
  invocationCount : Nat
  callHistoryDigest : PyStr
  diagnostics : List Diagnostic

/-- `warnings[code] = warnings.get(code, 0) + count` for every warning. -/
def warningSummary (diagnostics : List Diagnostic) : List (PyStr × Nat) :=
  diagnostics.foldl (fun warnings diagnostic =>
    if diagnostic.severity = .warning then
      if warnings.any (fun entry => entry.1 = diagnostic.code) then
        warnings.map (fun entry =>
          if entry.1 = diagnostic.code then (entry.1, entry.2 + diagnostic.count) else entry)
      else warnings ++ [(diagnostic.code, diagnostic.count)]
    else warnings) []

def pair (versions : Int × Int) : Json := .arr [.int versions.1, .int versions.2]

def projectorVersion : String := "0.2.0"

def artifactMetadata (report : ProjectionReport) (canonicalEdgesSha256 : PyStr) :
    List (PyStr × Json) :=
  let core := report.core
  let semanticOptions := report.options.toDict.filter (fun entry => entry.1 ≠ ascii "backend")
  let warnings := warningSummary report.diagnostics
  let semanticWarningCount := (warnings.map (·.2)).sum
  [(ascii "schema", .str (ascii "pyowl-projector.edge-list/1")),
    (ascii "profile", .str (ascii referenceProfile)),
    (ascii "options", .obj semanticOptions),
    (ascii "snapshot", .obj [
      (ascii "structural_fingerprint", .str core.structuralFingerprint),
      (ascii "logical_fingerprint", .str core.logicalFingerprint),
      (ascii "signature_fingerprint", .str core.signatureFingerprint),
      (ascii "import_manifest_digest", .str core.importManifestDigest),
      (ascii "closure_document_identities",
        .arr (core.closureDocumentIdentities.map Json.str)),
      (ascii "loader_diagnostics_digest", .str core.loaderDiagnosticsDigest)]),
    (ascii "provenance", .obj [
      (ascii "projector_version", .str (ascii projectorVersion)),
      (ascii "projector_api_version", .int 1),
      (ascii "compiler_cache_schema", .str report.compilerCacheSchema),
      (ascii "backend_versions", .obj [
        (ascii "python", .str (ascii projectorVersion)),
        (ascii "native_semantic_api", .int 1)]),
      (ascii "core_package_version", .str core.packageVersion),
      (ascii "core_api_version", pair core.apiVersion),
      (ascii "core_model_schema_version", .int core.modelSchemaVersion),
      (ascii "core_wire_format_version", pair core.wireFormatVersion),
      (ascii "core_adapter_protocol_version", .int core.adapterProtocolVersion),
      (ascii "diagnostics_digest", .str report.diagnosticsDigest),
      (ascii "invocation_count", .int report.invocationCount),
      (ascii "call_history_digest", .str report.callHistoryDigest)]),
    (ascii "counts", .obj [
      (ascii "edges", .int report.counts.edges),
      (ascii "duplicates", .int report.counts.duplicates),
      (ascii "skipped_axioms", .int report.counts.skippedAxioms),
      (ascii "ignored_shapes", .int report.counts.ignoredShapes),
      (ascii "warnings", .int semanticWarningCount)]),
    (ascii "warning_summary", .obj (warnings.map fun entry => (entry.1, .int entry.2))),
    (ascii "canonical_edges_sha256", .str canonicalEdgesSha256),
    (ascii "artifact_hash_preimage", .str (ascii "metadata-without-artifact_sha256+edge-records"))]

def hexDigest (digest : Bytes) : PyStr :=
  digest.flatMap fun b =>
    [.scalar (hexDigit (b.toNat / 16)), .scalar (hexDigit (b.toNat % 16))]

/-- What the projector's `iter_edges` does: the edges it yields, what it raises after
them, and the report it leaves. -/
structure Projection where
  edges : List (Edge PyStr)
  raised : Option ArtifactError
  lastReport : Option ProjectionReport

inductive Destination where
  /-- an object with an attribute `write` -/
  | writer (callable : Bool)
  /-- a path, with the directory it is in -/
  | path (parent : String)

structure EdgeArtifactResult where
  artifactSha256 : PyStr
  canonicalEdgesSha256 : PyStr
  edgeCount : Nat
  duplicateCount : Nat
  bytesWritten : Nat
  metadata : List (PyStr × Json)
  report : ProjectionReport

/-- What a call of `write_edge_artifact` is given besides the projection. -/
structure Request where
  destination : Destination
  tempDirectory : Option String
  limits : StreamingLimits
  cancellationToken : Bool

section
variable (env : Environment)

/-- `write` of the caller's destination. -/
def destinationWrite (value : Bytes) : M WriterAnswer := do
  let now ← tick .writeTarget fun now =>
    match env.accepts now with
    | .raises fault => some fault
    | _ => none
  match env.accepts now with
  | .raises fault => throw (.py (.io fault))
  | .count n => do
    modify (fun w => { w with delivered := w.delivered ++ value.take n.toNat })
    pure (.count n)
  | answer => pure answer

/-- `write` of the buffered stream over the private file. -/
def temporaryWrite (value : Bytes) : M WriterAnswer := do
  let _ ← perform env .writeTemporary
  modify (fun w => { w with temporary := w.temporary.map (· ++ value) })
  pure (.count value.length)

def copyArtifact (write : Bytes → M WriterAnswer) (metadata : Bytes) (token : Bool) : M Nat :=
  guardIo "artifact-destination-write" do
    writeAll write metadata.length metadata
    EdgePayload.rewind env
    let turns ← EdgePayload.turns
    EdgePayload.foldChunks env token (fun written chunk => do
      writeAll write chunk.length chunk
      pure (written + chunk.length)) turns metadata.length

/-- The body of `with os.fdopen(...) as writer`, and the replacement after it. -/
def publish (metadata : Bytes) (token : Bool) : M Nat := do
  let _ ← perform env .makeTemporary
  modify (fun w => { w with descriptor := true, temporary := some [] })
  let _ ← perform env .restrictTemporary
  let _ ← perform env .openTemporary
  let written ← andFinally (do
    modify (fun w => { w with descriptor := false })
    let written ← copyArtifact env (temporaryWrite env) metadata token
    let _ ← perform env .flushTemporary
    let _ ← perform env .syncTemporary
    pure written) (discard (perform env .closeTemporary))
  let _ ← perform env .replaceTarget
  modify (fun w => { w with target := w.temporary, temporary := none })
  pure written

def writeDestination (request : Request) (metadata : Bytes) : M Nat :=
  match request.destination with
  | .writer callable => do
    raiseIf (callable = false) (.typeError "destination must be a path or binary writer")
    copyArtifact env (destinationWrite env) metadata request.cancellationToken
  | .path parent => do
    raiseIf (env.isDirectory parent = false) (.py (.resource
      "artifact destination parent is not an existing directory"
      [("stage", .text "artifact-destination")]))
    modify (fun w => { w with descriptor := false })
    andFinally (guardIo "artifact-destination-write" (publish env metadata
        request.cancellationToken)) do
      runIf ((← get).descriptor = true) (discard (perform env .closeDescriptor))
      modify (fun w => { w with temporary := none })

/-- `_hash_payload`: the bytes the digest is fed. -/
def hashPayload (token : Bool) : M Bytes := do
  EdgePayload.rewind env
  let turns ← EdgePayload.turns
  EdgePayload.foldChunks env token (fun hashed chunk => pure (hashed ++ chunk)) turns []

def encodeRecord (fields : List (PyStr × Json)) : M Bytes :=
  match jsonRecord fields with
  | some record => pure record
  | none => throw (.py .unicodeEncode)

/-- The loop over the projector's edges. -/
def consume (limits : StreamingLimits) (projection : Projection) : M Unit := do
  projection.edges.foldlM (fun _ edge => EdgePayload.write env limits edge) ()
  match projection.raised with
  | some e => throw e
  | none => pure ()

/-- The body of the `try` of `write_edge_artifact`. -/
def composeArtifact (request : Request) (projection : Projection) : M EdgeArtifactResult := do
  consume env request.limits projection
  match projection.lastReport with
  | none => throw (.runtime "artifact projection completed without a report")
  | some report => do
    raiseIf ((← get).payload.edgeCount ≠ report.counts.edges)
      (.runtime "artifact edge count disagrees with projection report")
    let canonical := hexDigest (env.sha256 (← get).payload.digest)
    let metadata := artifactMetadata report canonical
    let provisional ← encodeRecord metadata
    let hashed ← hashPayload env request.cancellationToken
    let artifactSha256 := hexDigest (env.sha256 (provisional ++ hashed))
    let metadata := setField metadata (ascii "artifact_sha256") (.str artifactSha256)
    let metadataRecord ← encodeRecord metadata
    let bytesWritten ← writeDestination env request metadataRecord
    let payload := (← get).payload
    pure {
      artifactSha256
      canonicalEdgesSha256 := hexDigest (env.sha256 payload.digest)
      edgeCount := payload.edgeCount
      duplicateCount := report.counts.duplicates
      bytesWritten
      metadata
      report }

def writeEdgeArtifact (request : Request) (projection : Projection) : M EdgeArtifactResult := do
  EdgePayload.init env request.tempDirectory
  andFinally (composeArtifact env request projection) (EdgePayload.cleanup env)

end

end Projector.Artifact
