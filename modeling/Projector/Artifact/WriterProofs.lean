import Projector.Artifact.Writer
import Projector.Artifact.PayloadProofs

namespace Projector.Artifact
open Lib
open Streaming (IoFault PyError StreamingLimits)

variable {env : Environment} {target : Option Bytes} {delivered : Bytes}

/-- While the edges are collected: the payload holds `lines` so far. -/
structure Recorded (target : Option Bytes) (delivered : Bytes) (lines : List Bytes) (w : World) :
    Prop where
  isPrivate : Private target false false w
  filled : Filled lines.flatten lines.length w
  delivered : w.delivered = delivered
  bytesWritten : w.payload.bytesWritten = lines.flatten.length
  stream : w.payload.stream = none ∨ w.payload.stream = some lines.flatten.length

namespace Recorded

variable {lines : List Bytes} {w : World}

theorem after (h : Recorded target delivered lines w) (call : Call) (fault : Option IoFault)
    (hleak : leaks (call, fault) = false) : Recorded target delivered lines (w.after call fault) :=
  ⟨h.isPrivate.after _ _ hleak, h.filled.after _ _, h.delivered, h.bytesWritten, h.stream⟩

theorem account (h : Recorded target delivered lines w) (externalBytes available : Nat) :
    Recorded target delivered lines { w with
      payload := { w.payload with externalBytes := externalBytes, available := available } } :=
  ⟨⟨h.isPrivate.target, h.isPrivate.temporary, h.isPrivate.descriptor, h.isPrivate.directory,
    h.isPrivate.owned, h.isPrivate.path, h.isPrivate.tight⟩,
    ⟨h.filled.file, h.filled.digest, h.filled.edgeCount⟩, h.delivered, h.bytesWritten,
    h.stream⟩

end Recorded

namespace EdgePayload

theorem otherPrivateBytes_spec {lines : List Bytes} {w : World}
    (h : Recorded target delivered lines w) :
    wp (otherPrivateBytes env) (fun _ => Recorded target delivered lines)
      (fun _ => Private target false false) w := by
  simp only [otherPrivateBytes, wp_bind, wp_get, h.isPrivate.owned, if_true]
  refine guardIo_spec ?_
  simp only [wp_bind]
  refine perform_safe ?_ (fun fault => h.isPrivate.after _ _ rfl)
  exact h.after _ _ rfl

theorem enforceLimit_spec {combined : Nat} {name : String} {allowed : Option Nat} {w : World}
    {Q : World → Prop} {I : World → Prop} (hq : Q w) (hi : I w) :
    wp (enforceLimit combined name allowed) (fun _ => Q) (fun _ => I) w := by
  cases allowed with
  | none => exact hq
  | some allowed => exact wp_raiseIf (fun _ => hi) (fun _ => hq)

theorem enforce_spec {limits : StreamingLimits} {following amount : Nat} {lines : List Bytes}
    {w : World} (h : Recorded target delivered lines w) :
    wp (enforce env limits following amount) (fun _ => Recorded target delivered lines)
      (fun _ => Private target false false) w := by
  have hscan : wp (runIf (w.payload.edgeCount % limits.cancellationCheckInterval = 0) (do
        let total ← otherPrivateBytes env
        setPayload (fun p => { p with externalBytes := total })))
      (fun _ => Recorded target delivered lines) (fun _ => Private target false false) w := by
    refine wp_runIf (fun _ => ?_) (fun _ => h)
    simp only [wp_bind]
    refine wp_mono (otherPrivateBytes_spec h) ?_ (fun _ _ h => h)
    intro total v hv
    exact hv.account total _
  simp only [enforce, wp_bind, wp_get]
  refine wp_mono hscan ?_ (fun _ _ h => h)
  intro _ v hv
  refine enforceLimit_spec ?_ hv.isPrivate
  refine enforceLimit_spec ?_ hv.isPrivate
  have hspace : wp (runIf (amount > v.payload.available) (do
        raiseIf ((← get).payload.directory = false) payloadClosed
        guardIo "artifact-payload-space" do
          let now ← perform env .space
          setPayload (fun p => { p with available := env.diskFree now })))
      (fun _ => Recorded target delivered lines) (fun _ => Private target false false) v := by
    refine wp_runIf (fun _ => ?_) (fun _ => hv)
    simp only [wp_bind, wp_get]
    refine wp_raiseIf (fun _ => hv.isPrivate) (fun _ => ?_)
    refine guardIo_spec ?_
    simp only [wp_bind]
    refine perform_safe ?_ (fun fault => hv.isPrivate.after _ _ rfl)
    exact (hv.after _ _ rfl).account _ _
  refine wp_mono hspace ?_ (fun _ _ h => h)
  intro _ u hu
  exact wp_raiseIf (fun _ => hu.isPrivate) (fun _ => hu)

theorem encodeEdge_spec {edge : Edge PyStr} {lines : List Bytes} {w : World}
    (h : Recorded target delivered lines w) :
    wp (encodeEdge env edge)
      (fun record v => edgeJsonRecord edge = some record ∧ Recorded target delivered lines v)
      (fun _ => Private target false false) w := by
  simp only [encodeEdge, wp_tryCatch, wp_bind]
  refine perform_spec ?_ (fun fault => ?_)
  · cases he : edgeJsonRecord edge with
    | none => exact (h.after _ _ rfl).isPrivate
    | some record => exact ⟨rfl, h.after _ _ rfl⟩
  · have hafter : Private target false false (w.after .encode (some fault)) :=
      h.isPrivate.after _ _ rfl
    cases fault <;> exact hafter

/-- What the payload holds while one more record is written to it. -/
structure Appending (target : Option Bytes) (delivered : Bytes) (lines : List Bytes)
    (taken : Bytes) (w : World) : Prop where
  isPrivate : Private target false false w
  file : w.file = some (lines.flatten ++ taken)
  stream : w.payload.stream = some (lines.flatten ++ taken).length
  digest : w.payload.digest = lines.flatten
  edgeCount : w.payload.edgeCount = lines.length
  delivered : w.delivered = delivered

theorem payloadWrite_spec {lines : List Bytes} (value taken : Bytes) (w : World)
    (h : Appending target delivered lines taken w) :
    wp (payloadWrite env value)
      (fun answer v => Private target false false v ∧ ∀ n : Int, answer = .count n → 0 < n →
        n ≤ value.length → Appending target delivered lines (taken ++ value.take n.toNat) v)
      (fun _ => Private target false false) w := by
  simp only [payloadWrite, wp_bind]
  refine perform_safe ?_ (fun fault => h.isPrivate.after _ _ rfl)
  simp only [wp_modify, wp_pure]
  have hp : Private target false false (w.after .write none) := h.isPrivate.after _ _ rfl
  have hpriv := (hp.seekTo ((w.after .write none).payload.stream.map (· + value.length)))
  refine ⟨⟨hpriv.target, hpriv.temporary, hpriv.descriptor, hpriv.directory, hpriv.owned,
    hpriv.path, hpriv.tight⟩, ?_⟩
  intro n hn _ _
  obtain rfl : (value.length : Int) = n := by simpa using hn
  refine ⟨⟨hpriv.target, hpriv.temporary, hpriv.descriptor, hpriv.directory, hpriv.owned,
    hpriv.path, hpriv.tight⟩, ?_, ?_, h.digest, h.edgeCount, h.delivered⟩
  · have hsplice : spliceAt (lines.flatten ++ taken) (lines.flatten ++ taken).length value =
        lines.flatten ++ (taken ++ value) := by
      rw [spliceAt, List.take_length, List.drop_eq_nil_of_le (Nat.le_add_right _ _),
        List.append_nil, List.append_assoc]
    simp only [World.after, h.file, h.stream, Option.map_some, Option.getD_some, hsplice,
      Int.toNat_natCast, List.take_length]
  · simp only [World.after, h.stream, Option.map_some, Int.toNat_natCast, List.take_length,
      List.length_append]
    congr 1
    omega

/-- Writing an edge appends its record to the payload, or fails with the private files
still in place. -/
theorem write_spec {limits : StreamingLimits} {edge : Edge PyStr} {lines : List Bytes} {w : World}
    (h : Recorded target delivered lines w) :
    wp (write env limits edge)
      (fun _ v => ∃ record, edgeJsonRecord edge = some record ∧
        Recorded target delivered (lines ++ [record]) v)
      (fun _ => Private target false false) w := by
  simp only [write, wp_bind, wp_get]
  refine wp_mono (encodeEdge_spec h) ?_ (fun _ _ h => h)
  intro record v hv
  obtain ⟨hrecord, hv⟩ := hv
  refine wp_mono (enforce_spec hv) ?_ (fun _ _ h => h)
  intro _ u hu
  refine wp_mono (openStream_spec hu.isPrivate) ?_ (fun _ _ h => h)
  intro _ t ht
  obtain ⟨calls, clock, rfl, ht⟩ := ht
  have hstart : Appending target delivered lines [] { u with
      clock := clock
      calls := calls
      payload := { u.payload with
        stream := u.payload.stream.or (some (u.file.getD []).length) } } := by
    refine ⟨ht, ?_, ?_, hu.filled.digest, hu.filled.edgeCount, hu.delivered⟩
    · rw [List.append_nil]
      exact hu.filled.file
    · rw [List.append_nil]
      rcases hu.stream with hs | hs
      · simp only [hs, hu.filled.file]
        rfl
      · simp only [hs]
        rfl
  refine wp_mono (guardIo_spec (writeAll_spec payloadWrite_spec record.length record [] _
    (le_refl _) hstart)) ?_ (fun _ _ h => h)
  intro _ s hs
  simp only [setPayload, wp_modify]
  have hp := hs.isPrivate
  have hflat : (lines ++ [record]).flatten = lines.flatten ++ record := by simp
  refine ⟨record, hrecord, ⟨hp.target, hp.temporary, hp.descriptor, hp.directory, hp.owned,
    hp.path, hp.tight⟩, ⟨?_, ?_, ?_⟩, hs.delivered, ?_, Or.inr ?_⟩
  · rw [hflat]
    simpa using hs.file
  · rw [hflat]
    exact congrArg (· ++ record) hs.digest
  · rw [List.length_append]
    exact congrArg (· + 1) hs.edgeCount
  · rw [hflat, List.length_append]
    exact congrArg (· + record.length) hv.bytesWritten
  · rw [hflat]
    simpa using hs.stream

end EdgePayload

/-- The records of the edges, one line each. -/
abbrev RecordsOf (edges : List (Edge PyStr)) (lines : List Bytes) : Prop :=
  List.Forall₂ (fun edge line => edgeJsonRecord edge = some line) edges lines

/-- Collecting the edges ends normally only with every record in the payload. -/
theorem consume_spec {limits : StreamingLimits} {projection : Projection} {w : World}
    (h : Recorded target delivered [] w) :
    wp (consume env limits projection)
      (fun _ v => ∃ lines, RecordsOf projection.edges lines ∧ Recorded target delivered lines v)
      (fun _ => Private target false false) w := by
  simp only [consume, wp_bind]
  refine wp_mono (wp_foldlM (E := fun _ => Private target false false)
    (fun done (_ : Unit) v => ∃ lines, RecordsOf done lines ∧ Recorded target delivered lines v) ?_
    ⟨[], List.Forall₂.nil, h⟩) ?_ (fun _ _ h => h)
  · intro done edge rest _ v _ hv
    obtain ⟨lines, hlines, hv⟩ := hv
    refine wp_mono (EdgePayload.write_spec hv) ?_ (fun _ _ h => h)
    intro _ u hu
    obtain ⟨record, hrecord, hu⟩ := hu
    exact ⟨lines ++ [record],
      List.rel_append hlines (List.Forall₂.cons hrecord List.Forall₂.nil), hu⟩
  · intro _ v hv
    cases projection.raised with
    | none => exact hv
    | some e =>
      obtain ⟨lines, -, hv⟩ := hv
      exact hv.isPrivate

end Projector.Artifact
