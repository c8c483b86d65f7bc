import Projector.Artifact.Atomic

namespace Projector.Artifact
open Lib
open Streaming (IoFault OSError PyError StreamingLimits)

variable {env : Environment} {target : Option Bytes} {delivered content : Bytes} {count : Nat}

/-- The finished payload before it is written out. -/
structure Ready (target : Option Bytes) (delivered content : Bytes) (count : Nat) (w : World) :
    Prop where
  isPrivate : Private target false false w
  filled : Filled content count w
  delivered : w.delivered = delivered

theorem Recorded.ready {lines : List Bytes} {w : World} (h : Recorded target delivered lines w) :
    Ready target delivered lines.flatten lines.length w :=
  ⟨h.isPrivate, h.filled, h.delivered⟩

theorem Private.noTemporary {descriptor : Bool} {w : World}
    (h : Private target false descriptor w) : w.temporary = none := by
  have ht := h.temporary
  cases hw : w.temporary with
  | none => rfl
  | some bytes =>
    rw [hw] at ht
    cases ht

/-- A failure while the temporary file is written: an open descriptor has its file. -/
def Unpublished (target : Option Bytes) (w : World) : Prop :=
  ∃ temporary descriptor, Private target temporary descriptor w ∧
    (descriptor = true → temporary = true)

/-- Publishing ends normally only with the target replaced by all of the bytes. -/
theorem publish_spec {metadata : Bytes} {token : Bool} {w : World}
    (h : Ready target delivered content count w) :
    wp (publish env metadata token)
      (fun written v => written = (metadata ++ content).length ∧
        Ready (some (metadata ++ content)) delivered content count v)
      (fun _ => Unpublished target) w := by
  simp only [publish, wp_bind, wp_modify]
  refine perform_safe ?_ (fun fault => ⟨false, false, h.isPrivate.after _ _ rfl, id⟩)
  have hp := h.isPrivate.after .makeTemporary none rfl
  have hmade : Private target true true { w.after .makeTemporary none with
      descriptor := true
      temporary := some [] } :=
    ⟨hp.target, rfl, rfl, hp.directory, hp.owned, hp.path, hp.tight⟩
  refine perform_safe ?_ (fun fault => ⟨true, true, hmade.after _ _ rfl, id⟩)
  have hmade := hmade.after .restrictTemporary none rfl
  refine perform_safe ?_ (fun fault => ⟨true, true, hmade.after _ _ rfl, id⟩)
  have hmade := hmade.after .openTemporary none rfl
  refine wp_finally ?_
  simp only [wp_bind, wp_modify]
  have hcopy : Copying target true false content count (fun taken => (delivered, some taken)) []
      { ((({ w.after .makeTemporary none with
          descriptor := true
          temporary := some [] } : World).after .restrictTemporary none).after .openTemporary none) with
        descriptor := false } :=
    ⟨⟨hmade.target, hmade.temporary, rfl, hmade.directory, hmade.owned, hmade.path, hmade.tight⟩,
      ⟨h.filled.file, h.filled.digest, h.filled.edgeCount⟩, Prod.ext h.delivered rfl⟩
  have hclosed : ∀ v, Private target true false v →
      wp (discard (perform env .closeTemporary)) (fun _ => Unpublished target)
        (fun _ => Unpublished target) v := by
    intro v hv
    simp only [wp_discard]
    exact perform_safe ⟨true, false, hv.after _ _ rfl, fun _ => rfl⟩
      (fun fault => ⟨true, false, hv.after _ _ rfl, fun _ => rfl⟩)
  refine wp_mono (copyArtifact_spec (temporaryWrite_feeds delivered) hcopy) ?_
    (fun _ v hv => hclosed v hv)
  intro written v hv
  obtain ⟨hwritten, hv⟩ := hv
  refine perform_safe ?_ (fun fault => hclosed _ (hv.isPrivate.after _ _ rfl))
  have hv := hv.after .flushTemporary none rfl
  refine perform_safe ?_ (fun fault => hclosed _ (hv.isPrivate.after _ _ rfl))
  have hv := hv.after .syncTemporary none rfl
  simp only [wp_pure, wp_discard]
  refine perform_safe ?_ (fun fault => ⟨true, false, hv.isPrivate.after _ _ rfl, fun _ => rfl⟩)
  have hv := hv.after .closeTemporary none rfl
  refine perform_safe ?_ (fun fault => ⟨true, false, hv.isPrivate.after _ _ rfl, fun _ => rfl⟩)
  have hv := hv.after .replaceTarget none rfl
  have hp := hv.isPrivate
  have hs := Prod.mk.inj hv.sink
  exact ⟨hwritten, ⟨hs.2, rfl, hp.descriptor, hp.directory, hp.owned, hp.path, hp.tight⟩,
    ⟨hv.filled.file, hv.filled.digest, hv.filled.edgeCount⟩, hs.1⟩

/-- What a call has to deliver, and where. -/
def Delivers (destination : Destination) (target : Option Bytes) (delivered bytes : Bytes)
    (w : World) : Prop :=
  match destination with
  | .writer _ => w.delivered = delivered ++ bytes ∧ w.target = target
  | .path _ => w.target = some bytes ∧ w.delivered = delivered

/-- A failure before the end: the target is as before, and what is left is the private
directory, or more than it with a call to account for it. -/
def Failing (target : Option Bytes) (w : World) : Prop :=
  (∃ descriptor, Private target false descriptor w) ∨
    (w.temporary.isSome = true ∧ ¬Tight w)

theorem writeDestination_spec {request : Request} {metadata : Bytes} {w : World}
    (h : Ready target delivered content count w) :
    wp (writeDestination env request metadata)
      (fun written v => written = (metadata ++ content).length ∧
        Delivers request.destination target delivered (metadata ++ content) v ∧
        (∃ target, Private target false false v) ∧ Filled content count v)
      (fun _ => Failing target) w := by
  unfold writeDestination Delivers
  cases request.destination with
  | writer callable =>
    simp only [wp_bind]
    refine wp_raiseIf (fun _ => Or.inl ⟨false, h.isPrivate⟩) (fun _ => ?_)
    have hcopy : Copying target false false content count (fun taken => (delivered ++ taken, none))
        [] w :=
      ⟨h.isPrivate, h.filled,
        Prod.ext (h.delivered.trans (List.append_nil _).symm) h.isPrivate.noTemporary⟩
    refine wp_mono (copyArtifact_spec (destinationWrite_feeds delivered) hcopy) ?_
      (fun _ v hv => Or.inl ⟨false, hv⟩)
    intro written v hv
    obtain ⟨hwritten, hv⟩ := hv
    exact ⟨hwritten, ⟨(Prod.mk.inj hv.sink).1, hv.isPrivate.target⟩, ⟨target, hv.isPrivate⟩,
      hv.filled⟩
  | path parent =>
    simp only [wp_bind, wp_modify]
    refine wp_raiseIf (fun _ => Or.inl ⟨false, h.isPrivate⟩) (fun _ => ?_)
    have hp := h.isPrivate
    have hready : Ready target delivered content count { w with descriptor := false } :=
      ⟨⟨hp.target, hp.temporary, rfl, hp.directory, hp.owned, hp.path, hp.tight⟩,
        ⟨h.filled.file, h.filled.digest, h.filled.edgeCount⟩, h.delivered⟩
    refine wp_finally ?_
    refine wp_mono (guardIo_spec (publish_spec hready)) ?_ ?_
    · intro written v hv
      obtain ⟨hwritten, hv⟩ := hv
      have hp := hv.isPrivate
      simp only [wp_bind, wp_get, wp_modify]
      refine wp_runIf (fun hd => ?_) (fun _ => ?_)
      · rw [hp.descriptor] at hd
        cases hd
      · exact ⟨hwritten, ⟨hp.target, hv.delivered⟩, ⟨_, hp.target, rfl, hp.descriptor,
          hp.directory, hp.owned, hp.path, hp.tight⟩, hv.filled.file, hv.filled.digest,
          hv.filled.edgeCount⟩
    · intro e v hv
      obtain ⟨temporary, descriptor, hp, hd⟩ := hv
      simp only [wp_bind, wp_get, wp_modify]
      refine wp_runIf (fun hopen => ?_) (fun _ => ?_)
      · simp only [wp_discard]
        have hpa := hp.after .closeDescriptor none rfl
        refine perform_spec (Or.inl ⟨descriptor, hpa.target, rfl, hpa.descriptor, hpa.directory,
          hpa.owned, hpa.path, hpa.tight⟩) (fun fault => Or.inr ⟨?_, not_tight_of_leaks rfl⟩)
        exact hp.temporary.trans (hd (hp.descriptor.symm.trans hopen))
      · exact Or.inl ⟨descriptor, hp.target, rfl, hp.descriptor, hp.directory, hp.owned, hp.path,
          hp.tight⟩

/-- `metadata[name]` -/
def field (fields : List (PyStr × Json)) (name : PyStr) : Option Json :=
  (fields.find? (fun entry => entry.1 = name)).map (·.2)

def countsEdges (metadata : List (PyStr × Json)) : Option Json :=
  match field metadata (ascii "counts") with
  | some (.obj counts) => field counts (ascii "edges")
  | _ => none

def metadataNames : List PyStr :=
  [ascii "schema", ascii "profile", ascii "options", ascii "snapshot", ascii "provenance",
    ascii "counts", ascii "warning_summary", ascii "canonical_edges_sha256",
    ascii "artifact_hash_preimage"]

theorem artifactMetadata_names (report : ProjectionReport) (canonical : PyStr) :
    ∀ entry ∈ artifactMetadata report canonical, entry.1 ≠ ascii "artifact_sha256" := by
  have hnames : (artifactMetadata report canonical).map Prod.fst = metadataNames := rfl
  have hne : ∀ name ∈ metadataNames, name ≠ ascii "artifact_sha256" := by decide
  intro entry hm
  exact hne entry.1 (hnames ▸ List.mem_map_of_mem hm)

theorem setField_append {fields : List (PyStr × Json)} {name : PyStr} (value : Json)
    (h : ∀ entry ∈ fields, entry.1 ≠ name) : setField fields name value = fields ++ [(name, value)] := by
  have hany : (fields.any fun entry => decide (entry.1 = name)) = false := by
    rw [List.any_eq_false]
    intro entry hm
    simpa using h entry hm
  simp [setField, hany]

theorem field_append_of_some {fields rest : List (PyStr × Json)} {name : PyStr} {value : Json}
    (h : field fields name = some value) : field (fields ++ rest) name = some value := by
  simp only [field, Option.map_eq_some_iff] at h ⊢
  obtain ⟨entry, hentry, rfl⟩ := h
  exact ⟨entry, by rw [List.find?_append, hentry]; rfl, rfl⟩

theorem field_append_of_absent {fields : List (PyStr × Json)} {name : PyStr} (value : Json)
    (h : ∀ entry ∈ fields, entry.1 ≠ name) :
    field (fields ++ [(name, value)]) name = some value := by
  have hnone : fields.find? (fun entry => entry.1 = name) = none := by
    rw [List.find?_eq_none]
    intro entry hm
    simpa using h entry hm
  simp [field, List.find?_append, hnone]

/-- An artifact of `edges`: a first line of metadata, and the records of the edges in
their order, with the counts and digests that are true of them. -/
structure IsArtifact (env : Environment) (edges : List (Edge PyStr)) (result : EdgeArtifactResult)
    (head : Bytes) (lines : List Bytes) : Prop where
  records : RecordsOf edges lines
  metadata : jsonRecord result.metadata = some head
  headLine : ∃ text, head = text ++ [10] ∧ (10 : UInt8) ∉ text
  edgeLines : ∀ line ∈ lines, ∃ text, line = text ++ [10] ∧ (10 : UInt8) ∉ text
  bytesWritten : result.bytesWritten = (head ++ lines.flatten).length
  edgeCount : result.edgeCount = lines.length
  counts : countsEdges result.metadata = some (.int lines.length)
  canonicalDigest : result.canonicalEdgesSha256 = hexDigest (env.sha256 lines.flatten)
  canonicalField : field result.metadata (ascii "canonical_edges_sha256") =
    some (.str result.canonicalEdgesSha256)
  artifactDigest : ∃ provisional,
    jsonRecord (eraseField result.metadata (ascii "artifact_sha256")) = some provisional ∧
      result.artifactSha256 = hexDigest (env.sha256 (provisional ++ lines.flatten))
  artifactField : field result.metadata (ascii "artifact_sha256") =
    some (.str result.artifactSha256)

theorem RecordsOf.lines {edges : List (Edge PyStr)} {lines : List Bytes}
    (h : RecordsOf edges lines) :
    ∀ line ∈ lines, ∃ text, line = text ++ [10] ∧ (10 : UInt8) ∉ text := by
  induction h with
  | nil => exact fun line hm => (List.not_mem_nil hm).elim
  | cons hedge _ ih =>
    intro line hm
    cases hm with
    | head => exact edgeJsonRecord_line hedge
    | tail _ hm => exact ih line hm

theorem isArtifact_of {edges : List (Edge PyStr)} {report : ProjectionReport} {lines : List Bytes}
    {head provisional : Bytes} {canonical artifact : PyStr} (duplicates : Nat)
    (hlines : RecordsOf edges lines)
    (hcanonical : canonical = hexDigest (env.sha256 lines.flatten))
    (hprovisional : jsonRecord (artifactMetadata report canonical) = some provisional)
    (hartifact : artifact = hexDigest (env.sha256 (provisional ++ lines.flatten)))
    (hhead : jsonRecord (setField (artifactMetadata report canonical) (ascii "artifact_sha256")
      (.str artifact)) = some head)
    (hcount : report.counts.edges = lines.length) :
    IsArtifact env edges ⟨artifact, canonical, lines.length, duplicates,
      (head ++ lines.flatten).length,
      setField (artifactMetadata report canonical) (ascii "artifact_sha256") (.str artifact),
      report⟩ head lines where
  records := hlines
  metadata := hhead
  headLine := jsonRecord_line hhead
  edgeLines := by
    intro line hm
    exact hlines.lines line hm
  bytesWritten := rfl
  edgeCount := rfl
  counts := by
    have hfield : field (artifactMetadata report canonical) (ascii "counts") = some (.obj [
        (ascii "edges", .int report.counts.edges),
        (ascii "duplicates", .int report.counts.duplicates),
        (ascii "skipped_axioms", .int report.counts.skippedAxioms),
        (ascii "ignored_shapes", .int report.counts.ignoredShapes),
        (ascii "warnings", .int ((warningSummary report.diagnostics).map (·.2)).sum)]) := rfl
    rw [← hcount]
    simp only [countsEdges, setField_append _ (artifactMetadata_names report canonical),
      field_append_of_some hfield]
    rfl
  canonicalDigest := hcanonical
  canonicalField := by
    rw [setField_append _ (artifactMetadata_names report canonical)]
    exact field_append_of_some rfl
  artifactDigest := by
    refine ⟨provisional, ?_, hartifact⟩
    rw [eraseField_setField _ (artifactMetadata_names report canonical)]
    exact hprovisional
  artifactField := by
    rw [setField_append _ (artifactMetadata_names report canonical)]
    exact field_append_of_absent _ (artifactMetadata_names report canonical)

theorem encodeRecord_spec {fields : List (PyStr × Json)} {w : World} {Q : Bytes → World → Prop}
    {E : ArtifactError → World → Prop} (hok : ∀ record, jsonRecord fields = some record → Q record w)
    (hfail : E (.py .unicodeEncode) w) : wp (encodeRecord fields) Q E w := by
  unfold encodeRecord
  cases hr : jsonRecord fields with
  | none => exact hfail
  | some record => exact hok record hr

/-- The body of the call delivers an artifact of the projection's edges, or fails with
the target untouched. -/
theorem composeArtifact_spec {request : Request} {projection : Projection} {w : World}
    (h : Recorded target delivered [] w) :
    wp (composeArtifact env request projection)
      (fun result v => ∃ head lines, IsArtifact env projection.edges result head lines ∧
        Delivers request.destination target delivered (head ++ lines.flatten) v ∧
        ∃ target, Private target false false v)
      (fun _ => Failing target) w := by
  simp only [composeArtifact, wp_bind]
  refine wp_mono (consume_spec h) ?_ (fun _ _ hp => Or.inl ⟨false, hp⟩)
  intro _ v hv
  obtain ⟨lines, hlines, hv⟩ := hv
  have hfailing : Failing target v := Or.inl ⟨false, hv.isPrivate⟩
  cases projection.lastReport with
  | none => exact hfailing
  | some report =>
    simp only [wp_bind, wp_get]
    refine wp_raiseIf (fun _ => hfailing) (fun hcount => ?_)
    have hedges : report.counts.edges = lines.length := by
      rw [← hv.filled.edgeCount]
      omega
    refine encodeRecord_spec (fun provisional hprovisional => ?_) hfailing
    have hcopy : Copying target false false lines.flatten lines.length
        (fun _ => (delivered, none)) [] v :=
      ⟨hv.isPrivate, hv.filled, Prod.ext hv.delivered hv.isPrivate.noTemporary⟩
    refine wp_mono (hashPayload_spec hcopy) ?_ (fun _ _ hp => Or.inl ⟨false, hp⟩)
    intro hashed u hu
    obtain ⟨rfl, hu⟩ := hu
    refine encodeRecord_spec (fun head hhead => ?_) (Or.inl ⟨false, hu.isPrivate⟩)
    have hready : Ready target delivered lines.flatten lines.length u :=
      ⟨hu.isPrivate, hu.filled, (Prod.mk.inj hu.sink).1⟩
    refine wp_mono (writeDestination_spec hready) ?_ (fun _ _ hp => hp)
    intro written t ht
    obtain ⟨rfl, hdelivers, hprivate, hfilled⟩ := ht
    refine ⟨head, lines, ?_, hdelivers, hprivate⟩
    rw [hv.filled.digest] at hprovisional hhead
    have hartifact := isArtifact_of report.counts.duplicates hlines
      (rfl : _ = hexDigest (env.sha256 lines.flatten)) hprovisional rfl hhead hedges
    rw [hv.filled.digest, hfilled.digest, hfilled.edgeCount]
    exact hartifact

theorem cleanup_settled {w : World} (h : Failing target w) :
    wp (EdgePayload.cleanup env) (fun _ => Settled target) (fun _ => Settled target) w := by
  refine wp_mono (EdgePayload.cleanup_spec w) ?_ ?_
  · intro _ v hv
    rcases h with ⟨descriptor, hp⟩ | ⟨hleft, hcalls⟩
    · refine Or.inl ⟨⟨hv.target.trans hp.target, hv.temporary.trans hp.noTemporary, ?_, ?_⟩,
        hv.tight.mpr hp.tight⟩
      · rw [hv.directory, hp.owned, hp.directory]
        rfl
      · rw [hv.file, hp.owned]
        rfl
    · refine Or.inr ⟨Or.inr ?_, fun ht => hcalls (hv.tight.mp ht)⟩
      rw [hv.temporary]
      exact hleft
  · intro _ v hv
    obtain ⟨htemporary, hdirectory, -, hcalls⟩ := hv
    rcases h with ⟨descriptor, hp⟩ | ⟨hleft, -⟩
    · exact Or.inr ⟨Or.inl (hdirectory.trans hp.directory), hcalls⟩
    · exact Or.inr ⟨Or.inr (htemporary ▸ hleft), hcalls⟩

/-- A normal end delivers the artifact and leaves nothing private; a failure leaves the
files as they were, or a call accounts for what is left. -/
theorem writeEdgeArtifact_spec (request : Request) (projection : Projection) :
    wp (writeEdgeArtifact env request projection)
      (fun result v => (∃ head lines, IsArtifact env projection.edges result head lines ∧
        Delivers request.destination target delivered (head ++ lines.flatten) v) ∧
        Untouched v.target v ∧ Tight v)
      (fun _ => Settled target) (World.initial target delivered) := by
  simp only [writeEdgeArtifact, wp_bind]
  refine wp_mono (init_spec request.tempDirectory) ?_ (fun _ _ h => h)
  intro _ w hw
  refine wp_finally ?_
  refine wp_mono (composeArtifact_spec hw) ?_ (fun _ v hv => cleanup_settled hv)
  intro result v hv
  obtain ⟨head, lines, hartifact, hdelivers, replaced, hp⟩ := hv
  refine wp_mono (EdgePayload.cleanup_spec v) ?_ ?_
  · intro _ u hu
    refine ⟨⟨head, lines, hartifact, ?_⟩, ⟨rfl, hu.temporary.trans hp.noTemporary, ?_, ?_⟩,
      hu.tight.mpr hp.tight⟩
    · unfold Delivers at hdelivers ⊢
      cases hd : request.destination with
      | writer callable =>
        rw [hd] at hdelivers
        exact ⟨hu.delivered.trans hdelivers.1, hu.target.trans hdelivers.2⟩
      | path parent =>
        rw [hd] at hdelivers
        exact ⟨hu.target.trans hdelivers.1, hu.delivered.trans hdelivers.2⟩
    · rw [hu.directory, hp.owned, hp.directory]
      rfl
    · rw [hu.file, hp.owned]
      rfl
  · intro _ u hu
    exact Or.inr ⟨Or.inl (hu.2.1.trans hp.directory), hu.2.2.2⟩

def Request.toPath (request : Request) : Prop := ∃ parent, request.destination = .path parent

/-- What a call promises: the artifact on success, and for a path that a failure leaves
the target and no private file. -/
def ArtifactContract (env : Environment) (request : Request) (projection : Projection)
    (target : Option Bytes) (delivered : Bytes) : Prop :=
  match writeEdgeArtifact env request projection (World.initial target delivered) with
  | .ok result v => (∃ head lines, IsArtifact env projection.edges result head lines ∧
      Delivers request.destination target delivered (head ++ lines.flatten) v) ∧
      Untouched v.target v
  | .error _ v => request.toPath → Untouched target v

/-- The calls to the outside that a call makes, with what each meets. -/
def outsideCalls (env : Environment) (request : Request) (projection : Projection)
    (target : Option Bytes) (delivered : Bytes) : List (Call × Option IoFault) :=
  match writeEdgeArtifact env request projection (World.initial target delivered) with
  | .ok _ v => v.calls
  | .error _ v => v.calls

/-- The disk fails at the first `os.close`, and the descriptor is gone at the second. -/
def closeFails : Environment where
  toEnvironment := { Streaming.Environment.quiet (fun _ => List.replicate 32 0) (fun _ => rfl) with
    fault := fun now =>
      if now = 4 then some (.os ⟨"OSError", some 5⟩)
      else if now = 5 then some (.os ⟨"OSError", some 9⟩)
      else none }
  accepts _ := .nothing
  otherBytes _ := 0

end Projector.Artifact
