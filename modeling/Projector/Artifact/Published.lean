import Projector.Artifact.WriterProofs

namespace Projector.Artifact
open Lib
open Streaming (IoFault PyError StreamingLimits)

variable {env : Environment} {target : Option Bytes} {temporary descriptor : Bool}
  {content : Bytes} {count : Nat}

/-- While the finished payload is hashed or copied. `sink taken` is the pair of what the
caller's writer and the temporary file have got after `taken` was written. -/
structure Copying (target : Option Bytes) (temporary descriptor : Bool) (content : Bytes)
    (count : Nat) (sink : Bytes → Bytes × Option Bytes) (taken : Bytes) (w : World) : Prop where
  isPrivate : Private target temporary descriptor w
  filled : Filled content count w
  sink : (w.delivered, w.temporary) = sink taken

namespace Copying

variable {sink : Bytes → Bytes × Option Bytes} {taken : Bytes} {w : World}

theorem after (h : Copying target temporary descriptor content count sink taken w) (call : Call)
    (fault : Option IoFault) (hleak : leaks (call, fault) = false) :
    Copying target temporary descriptor content count sink taken (w.after call fault) :=
  ⟨h.isPrivate.after _ _ hleak, h.filled.after _ _, h.sink⟩

theorem seekTo (h : Copying target temporary descriptor content count sink taken w)
    (position : Option Nat) :
    Copying target temporary descriptor content count sink taken (w.seekTo position) :=
  ⟨h.isPrivate.seekTo _, h.filled.seekTo _, h.sink⟩

theorem rewind (h : Copying target temporary descriptor content count sink taken w) :
    wp (EdgePayload.rewind env) (fun _ v => v.payload.stream = some 0 ∧
        Copying target temporary descriptor content count sink taken v)
      (fun _ => Private target temporary descriptor) w := by
  refine wp_mono (EdgePayload.rewind_spec h.isPrivate
    (P := fun v => Filled content count v ∧ (v.delivered, v.temporary) = sink taken) ?_)
    ?_ (fun _ _ h => h)
  · intro clock calls stream
    exact ⟨⟨h.filled.file, h.filled.digest, h.filled.edgeCount⟩, h.sink⟩
  · intro _ v hv
    obtain ⟨hstream, hprivate, hfilled, hsink⟩ := hv
    exact ⟨hstream, hprivate, hfilled, hsink⟩

end Copying

/-- The digest is fed the whole payload. -/
theorem hashPayload_spec {sink : Bytes → Bytes × Option Bytes} {taken : Bytes} {token : Bool}
    {w : World} (h : Copying target temporary descriptor content count sink taken w) :
    wp (hashPayload env token)
      (fun hashed v => hashed = content ∧
        Copying target temporary descriptor content count sink taken v)
      (fun _ => Private target temporary descriptor) w := by
  simp only [hashPayload, EdgePayload.turns, wp_bind]
  refine wp_mono h.rewind ?_ (fun _ _ h => h)
  intro _ v hv
  obtain ⟨hstream, hv⟩ := hv
  simp only [wp_get, wp_pure]
  refine EdgePayload.foldChunks_spec (Q := fun hashed done u => hashed = done ∧
      Copying target temporary descriptor content count sink taken u)
    (fun _ _ _ hq => hq.2.isPrivate) (fun _ _ _ hq => hq.2.filled.file) ?_
    (fun _ _ _ position hq => ⟨hq.1, hq.2.seekTo position⟩) ?_ _ [] content [] v rfl ?_ hstream
    ⟨rfl, hv⟩
  · intro hashed done u call fault hq hcall
    refine ⟨hq.1, hq.2.after _ _ ?_⟩
    rcases hcall with rfl | rfl <;> cases fault <;> rfl
  · intro hashed done chunk u hq
    obtain ⟨rfl, hq⟩ := hq
    exact ⟨rfl, rfl, hq⟩
  · rw [hv.filled.file]
    exact Nat.lt_succ_self _

/-- A writer that feeds `sink` and leaves the payload alone. -/
def Feeds (target : Option Bytes) (temporary descriptor : Bool)
    (content : Bytes) (count : Nat) (sink : Bytes → Bytes × Option Bytes)
    (write : Bytes → M WriterAnswer) : Prop :=
  ∀ value taken w, Copying target temporary descriptor content count sink taken w →
    wp (write value)
      (fun answer v => Private target temporary descriptor v ∧
        v.payload.stream = w.payload.stream ∧
        ∀ n : Int, answer = .count n → 0 < n → n ≤ value.length →
          Copying target temporary descriptor content count sink (taken ++ value.take n.toNat) v)
      (fun _ => Private target temporary descriptor) w

theorem feeds_writeAll {sink : Bytes → Bytes × Option Bytes} {write : Bytes → M WriterAnswer}
    (hwrite : Feeds target temporary descriptor content count sink write)
    (value taken : Bytes) (w : World)
    (h : Copying target temporary descriptor content count sink taken w) :
    wp (writeAll write value.length value) (fun _ v => v.payload.stream = w.payload.stream ∧
        Copying target temporary descriptor content count sink (taken ++ value) v)
      (fun _ => Private target temporary descriptor) w := by
  refine writeAll_spec (P := fun taken v => v.payload.stream = w.payload.stream ∧
    Copying target temporary descriptor content count sink taken v) ?_ value.length value taken w
    (le_refl _) ⟨rfl, h⟩
  intro value taken u hu
  obtain ⟨hstream, hu⟩ := hu
  refine wp_mono (hwrite value taken u hu) ?_ (fun _ _ h => h)
  intro answer v hv
  obtain ⟨hprivate, hsame, hcount⟩ := hv
  exact ⟨hprivate, fun n hn hpos hle => ⟨hsame.trans hstream, hcount n hn hpos hle⟩⟩

/-- Copying ends normally only when the sink has the metadata and the whole payload. -/
theorem copyArtifact_spec {sink : Bytes → Bytes × Option Bytes} {write : Bytes → M WriterAnswer}
    (hwrite : Feeds target temporary descriptor content count sink write)
    {metadata : Bytes} {token : Bool} {w : World}
    (h : Copying target temporary descriptor content count sink [] w) :
    wp (copyArtifact env write metadata token)
      (fun written v => written = (metadata ++ content).length ∧
        Copying target temporary descriptor content count sink (metadata ++ content) v)
      (fun _ => Private target temporary descriptor) w := by
  refine guardIo_spec ?_
  simp only [EdgePayload.turns, wp_bind]
  refine wp_mono (feeds_writeAll hwrite metadata [] w h) ?_ (fun _ _ h => h)
  intro _ u hu
  refine wp_mono hu.2.rewind ?_ (fun _ _ h => h)
  intro _ v hv
  obtain ⟨hstream, hv⟩ := hv
  simp only [wp_get, wp_pure]
  refine EdgePayload.foldChunks_spec (Q := fun written done u => written = (metadata ++ done).length ∧
      Copying target temporary descriptor content count sink (metadata ++ done) u)
    (fun _ _ _ hq => hq.2.isPrivate) (fun _ _ _ hq => hq.2.filled.file) ?_
    (fun _ _ _ position hq => ⟨hq.1, hq.2.seekTo position⟩) ?_ _ [] content _ v rfl ?_ hstream
    ⟨by rw [List.append_nil], by rwa [List.append_nil]⟩
  · intro written done u call fault hq hcall
    refine ⟨hq.1, hq.2.after _ _ ?_⟩
    rcases hcall with rfl | rfl <;> cases fault <;> rfl
  · intro written done chunk u hq
    obtain ⟨rfl, hq⟩ := hq
    simp only [wp_bind]
    refine wp_mono (feeds_writeAll hwrite chunk _ u hq) ?_ (fun _ _ h => h)
    intro _ t ht
    refine ⟨ht.1, ?_, ?_⟩
    · simp only [List.length_append]
      omega
    · rw [← List.append_assoc]
      exact ht.2
  · rw [hv.filled.file]
    exact Nat.lt_succ_self _

theorem destinationWrite_feeds (before : Bytes) :
    Feeds target false descriptor content count (fun taken => (before ++ taken, none))
      (destinationWrite env) := by
  intro value taken w h
  have hafter : ∀ fault, Copying target false descriptor content count
      (fun taken => (before ++ taken, none)) taken (w.after .writeTarget fault) :=
    fun fault => h.after _ _ (by cases fault <;> rfl)
  simp only [destinationWrite, tick, wp_bind, wp_modifyGet]
  cases hanswer : env.accepts w.clock with
  | raises fault => exact (hafter (some fault)).isPrivate
  | nothing => exact ⟨(hafter none).isPrivate, rfl, fun n hn => by cases hn⟩
  | other => exact ⟨(hafter none).isPrivate, rfl, fun n hn => by cases hn⟩
  | count n =>
    have hp := (hafter none).isPrivate
    have hf := (hafter none).filled
    have hs := Prod.mk.inj (hafter none).sink
    simp only [wp_bind, wp_modify, wp_pure]
    refine ⟨⟨hp.target, hp.temporary, hp.descriptor, hp.directory, hp.owned, hp.path, hp.tight⟩,
      trivial, ?_⟩
    intro m hm _ _
    obtain rfl : n = m := by simpa using hm
    refine ⟨⟨hp.target, hp.temporary, hp.descriptor, hp.directory, hp.owned, hp.path, hp.tight⟩,
      ⟨hf.file, hf.digest, hf.edgeCount⟩, Prod.ext ?_ hs.2⟩
    exact (congrArg (· ++ value.take n.toNat) hs.1).trans (List.append_assoc _ _ _)

theorem temporaryWrite_feeds (before : Bytes) :
    Feeds target true descriptor content count (fun taken => (before, some taken))
      (temporaryWrite env) := by
  intro value taken w h
  simp only [temporaryWrite, wp_bind]
  refine perform_safe ?_ (fun fault => h.isPrivate.after _ _ rfl)
  have hafter := h.after .writeTemporary none rfl
  have hp := hafter.isPrivate
  have hf := hafter.filled
  have hs := Prod.mk.inj hafter.sink
  have hgrown : (w.after .writeTemporary none).temporary.map (· ++ value) =
      some (taken ++ value) := by
    rw [hs.2]
    rfl
  simp only [wp_modify, wp_pure]
  refine ⟨⟨hp.target, ?_, hp.descriptor, hp.directory, hp.owned, hp.path, hp.tight⟩, rfl, ?_⟩
  · rw [hgrown]
    rfl
  intro n hn _ _
  obtain rfl : (value.length : Int) = n := by simpa using hn
  refine ⟨⟨hp.target, ?_, hp.descriptor, hp.directory, hp.owned, hp.path, hp.tight⟩,
    ⟨hf.file, hf.digest, hf.edgeCount⟩, Prod.ext hs.1 ?_⟩
  · rw [hgrown]
    rfl
  · rw [Int.toNat_natCast, List.take_length]
    exact hgrown

end Projector.Artifact
