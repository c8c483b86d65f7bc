import Projector.Artifact.Published

namespace Projector.Artifact
open Lib
open Streaming (IoFault OSError PyError StreamingLimits)

variable {env : Environment} {target : Option Bytes} {delivered : Bytes}

/-- The target has its previous content and nothing private is left. -/
structure Untouched (target : Option Bytes) (w : World) : Prop where
  target : w.target = target
  temporary : w.temporary = none
  directory : w.directory = false
  file : w.file = none

/-- A private file was left behind, and a call accounts for it. -/
def Leaked (w : World) : Prop := (w.directory = true ∨ w.temporary.isSome = true) ∧ ¬Tight w

/-- How a failed step leaves the files. -/
def Settled (target : Option Bytes) (w : World) : Prop :=
  (Untouched target w ∧ Tight w) ∨ Leaked w

theorem Settled.untouched_iff {w : World} (h : Settled target w) :
    Untouched target w ↔ Tight w := by
  rcases h with ⟨hun, ht⟩ | ⟨hleft, ht⟩
  · exact iff_of_true hun ht
  · refine iff_of_false (fun hun => ?_) ht
    rcases hleft with hd | hs
    · rw [hun.directory] at hd
      cases hd
    · rw [hun.temporary] at hs
      cases hs

theorem exceptOs_spec {α : Type} {x : M α} {handler : OSError → M α} {w : World}
    {Q : α → World → Prop} {P : OSError → World → Prop} {E : ArtifactError → World → Prop}
    (hx : wp x Q (fun e v => (∃ error, e = .py (.io (.os error)) ∧ P error v) ∨
      ((∀ error, e ≠ .py (.io (.os error))) ∧ E e v)) w)
    (hhandler : ∀ error v, P error v → wp (handler error) Q E v) :
    wp (exceptOs x handler) Q E w := by
  simp only [exceptOs, wp_tryCatch]
  refine wp_mono hx (fun _ _ h => h) ?_
  intro e v he
  rcases he with ⟨error, rfl, hp⟩ | ⟨hother, he⟩
  · exact hhandler error v hp
  · split
    · rename_i error
      exact absurd rfl (hother error)
    · exact he

namespace EdgePayload

/-- What `cleanup` leaves of a world. -/
structure Cleaned (w v : World) : Prop where
  target : v.target = w.target
  temporary : v.temporary = w.temporary
  delivered : v.delivered = w.delivered
  directory : v.directory = (w.directory && !w.payload.directory)
  file : v.file = if w.payload.directory = true ∨ w.payload.path = true then none else w.file
  edgeCount : v.payload.edgeCount = w.payload.edgeCount
  tight : Tight v ↔ Tight w

theorem removeFiles_spec {E : ArtifactError → World → Prop} (w : World) :
    wp removeFiles (fun _ v => Cleaned w v) E w := by
  simp only [removeFiles, setPayload, wp_bind, wp_get, wp_modify]
  refine wp_runIf (fun hpath => ?_) (fun hpath => ?_)
  · simp only [wp_modify]
    refine wp_runIf (fun (hdir : w.payload.directory = true) => ?_)
      (fun (hdir : ¬w.payload.directory = true) => ?_)
    · exact ⟨rfl, rfl, rfl, by simp [hdir], by simp [hdir], rfl, Iff.rfl⟩
    · exact ⟨rfl, rfl, rfl, by simp [hdir], by simp [hpath], rfl, Iff.rfl⟩
  · refine wp_runIf (fun (hdir : w.payload.directory = true) => ?_)
      (fun (hdir : ¬w.payload.directory = true) => ?_)
    · exact ⟨rfl, rfl, rfl, by simp [hdir], by simp [hdir], rfl, Iff.rfl⟩
    · exact ⟨rfl, rfl, rfl, by simp [hdir], by simp [hpath, hdir], rfl, Iff.rfl⟩

/-- Closing the stream fails only with a failure that is not handled. -/
theorem closeStream_spec (w : World) :
    wp (closeStream env)
      (fun _ v => ∃ clock calls, v = { w with
          clock := clock
          calls := calls
          payload := { w.payload with stream := none } } ∧ (Tight v ↔ Tight w))
      (fun _ v => v.temporary = w.temporary ∧ v.directory = w.directory ∧
        w.payload.stream.isSome = true ∧ ¬Tight v) w := by
  simp only [closeStream, setPayload, wp_bind, wp_get, wp_modify]
  refine wp_runIf (fun hopen => ?_) (fun _ => ⟨w.clock, w.calls, rfl, Iff.rfl⟩)
  have hcalls : ∀ fault, leaks (.closeStream, fault) = false →
      (Tight ((w.seekTo none).after .closeStream fault) ↔ Tight w) := by
    intro fault hleak
    constructor
    · intro ht
      by_contra hn
      exact not_tight_after (w := w.seekTo none) .closeStream fault hn ht
    · intro ht
      exact Tight.after (w := w.seekTo none) .closeStream fault ht hleak
  have hunhandled : ∀ fault, leaks (.closeStream, some fault) = true →
      ¬Tight ((w.seekTo none).after .closeStream (some fault)) :=
    fun fault hleak => not_tight_of_leaks hleak
  refine exceptOs_spec (P := fun _ v => ∃ clock calls, v = { w with
        clock := clock
        calls := calls
        payload := { w.payload with stream := none } } ∧ (Tight v ↔ Tight w)) ?_
    (fun error v hv => hv)
  simp only [wp_discard]
  refine perform_spec ⟨_, _, rfl, hcalls none rfl⟩ ?_
  intro fault
  cases fault with
  | os error => exact Or.inl ⟨error, rfl, _, _, rfl, hcalls _ rfl⟩
  | memory => exact Or.inr ⟨fun _ h => (by cases h), rfl, rfl, hopen, hunhandled _ rfl⟩
  | overflow => exact Or.inr ⟨fun _ h => (by cases h), rfl, rfl, hopen, hunhandled _ rfl⟩

theorem cleanup_spec (w : World) :
    wp (cleanup env) (fun _ v => Cleaned w v)
      (fun _ v => v.temporary = w.temporary ∧ v.directory = w.directory ∧
        w.payload.stream.isSome = true ∧ ¬Tight v) w := by
  simp only [cleanup, wp_bind]
  refine wp_mono (closeStream_spec w) ?_ (fun _ _ h => h)
  intro _ v hv
  obtain ⟨clock, calls, rfl, htight⟩ := hv
  refine wp_mono (removeFiles_spec _) ?_ (fun _ _ h => h)
  intro _ u hu
  exact ⟨hu.target, hu.temporary, hu.delivered, hu.directory, hu.file, hu.edgeCount,
    hu.tight.trans htight⟩

/-- How far the payload is set up; nothing is there before the directory. -/
structure Setup where
  made : Bool
  descriptor : Bool
  path : Bool
  file : Option Bytes
  descriptor_made : descriptor = true → made = true
  file_made : made = false → file = none

/-- While the payload is being set up. -/
structure Opening (target : Option Bytes) (delivered : Bytes) (s : Setup) (w : World) : Prop where
  target : w.target = target
  temporary : w.temporary = none
  delivered : w.delivered = delivered
  descriptor : w.descriptor = s.descriptor
  directory : w.directory = s.made
  file : w.file = s.file
  owned : w.payload.directory = s.made
  path : w.payload.path = s.path
  stream : w.payload.stream = none
  fresh : w.payload.digest = [] ∧ w.payload.edgeCount = 0 ∧ w.payload.bytesWritten = 0
  tight : Tight w

theorem Opening.after {s : Setup} {w : World} (h : Opening target delivered s w) (call : Call)
    (fault : Option IoFault) (hleak : leaks (call, fault) = false) :
    Opening target delivered s (w.after call fault) :=
  ⟨h.target, h.temporary, h.delivered, h.descriptor, h.directory, h.file, h.owned, h.path, h.stream,
    h.fresh, h.tight.after _ _ hleak⟩

theorem Opening.cleanup {s : Setup} {w : World} (h : Opening target delivered s w)
    {E : ArtifactError → World → Prop} :
    wp (EdgePayload.cleanup env) (fun _ => Settled target) E w := by
  refine wp_mono (cleanup_spec w) ?_ ?_
  · intro _ v hv
    refine Or.inl ⟨⟨hv.target.trans h.target, hv.temporary.trans h.temporary, ?_, ?_⟩,
      hv.tight.mpr h.tight⟩
    · rw [hv.directory, h.directory, h.owned]
      cases s.made <;> rfl
    · rw [hv.file, h.owned, h.file]
      cases hmade : s.made with
      | false =>
        rw [s.file_made hmade]
        split <;> rfl
      | true => rfl
  · intro _ v hv
    rw [h.stream] at hv
    cases hv.2.2.1

/-- The handler of `__init__`: everything is removed, unless its own `os.close` fails. -/
theorem init_handler {s : Setup} {w : World} (error : OSError) {Q : Unit → World → Prop}
    (h : Opening target delivered s w) :
    wp (do
      runIf ((← get).descriptor = true) (discard (perform env .closeAgain))
      EdgePayload.cleanup env
      throw (artifactIoError "artifact-payload-open" error)) Q (fun _ => Settled target) w := by
  simp only [wp_bind, wp_get, wp_throw]
  have hclose : wp (runIf (w.descriptor = true) (discard (perform env .closeAgain)))
      (fun _ => Opening target delivered s) (fun _ => Settled target) w := by
    refine wp_runIf (fun hd => ?_) (fun _ => h)
    simp only [wp_discard]
    refine perform_spec (h.after _ _ rfl) (fun fault => ?_)
    have hexists : w.directory = true :=
      h.directory.trans (s.descriptor_made (h.descriptor.symm.trans hd))
    exact Or.inr ⟨Or.inl hexists, not_tight_of_leaks rfl⟩
  refine wp_mono hclose ?_ (fun _ _ h => h)
  intro _ v hv
  exact hv.cleanup

/-- How a step of `__init__` may fail: with an `OSError` for the handler, or past it. -/
def SetupFailed (target : Option Bytes) (delivered : Bytes) (e : ArtifactError) (w : World) :
    Prop :=
  (∃ error, e = .py (.io (.os error)) ∧ ∃ s, Opening target delivered s w) ∨
    ((∀ error, e ≠ .py (.io (.os error))) ∧ Settled target w)

/-- A step of `__init__` after the directory is made: a failure that is no `OSError`
leaves the directory behind. -/
theorem setup_spec {s : Setup} {call : Call} {w : World} {Q : Nat → World → Prop}
    (h : Opening target delivered s w) (hmade : s.made = true)
    (hok : leaks (call, none) = false)
    (hos : ∀ error, leaks (call, some (.os error)) = false)
    (hmemory : leaks (call, some .memory) = true)
    (hoverflow : leaks (call, some .overflow) = true)
    (hnext : ∀ now v, Opening target delivered s v → Q now v) :
    wp (perform env call) Q (SetupFailed target delivered) w := by
  have hleft : ∀ fault, leaks (call, some fault) = true → Leaked (w.after call (some fault)) :=
    fun fault hleak => ⟨Or.inl (h.directory.trans hmade), not_tight_of_leaks hleak⟩
  refine perform_spec (hnext _ _ (h.after _ _ hok)) (fun fault => ?_)
  cases fault with
  | os error => exact Or.inl ⟨error, rfl, s, h.after _ _ (hos error)⟩
  | memory => exact Or.inr ⟨fun _ he => (by cases he), Or.inr (hleft _ hmemory)⟩
  | overflow => exact Or.inr ⟨fun _ he => (by cases he), Or.inr (hleft _ hoverflow)⟩

end EdgePayload

/-- The files before the call. -/
def World.initial (target : Option Bytes) (delivered : Bytes) : World where
  clock := 0
  calls := []
  target := target
  temporary := none
  directory := false
  file := none
  descriptor := false
  delivered := delivered
  payload := EdgePayload.empty

open EdgePayload in
theorem init_spec (parent : Option String) :
    wp (EdgePayload.init env parent) (fun _ => Recorded target delivered [])
      (fun _ => Settled target) (World.initial target delivered) := by
  have hstart : Tight (World.initial target delivered) := fun _ h => by cases h
  simp only [EdgePayload.init, wp_bind]
  refine wp_raiseIf (fun _ => Or.inl ⟨⟨rfl, rfl, rfl, rfl⟩, hstart⟩) (fun _ => ?_)
  simp only [wp_modify]
  refine exceptOs_spec (P := fun _ v => ∃ s, Opening target delivered s v) ?_ ?_
  · simp only [wp_bind, setPayload]
    have h₀ : Opening target delivered ⟨false, false, false, none, by decide, fun _ => rfl⟩
        (World.initial target delivered) :=
      ⟨rfl, rfl, rfl, rfl, rfl, rfl, rfl, rfl, rfl, ⟨rfl, rfl, rfl⟩, hstart⟩
    refine perform_spec ?_ (fun fault => ?_)
    swap
    · -- without the directory there is nothing to leave behind
      have hclean : Untouched target ((World.initial target delivered).after .makeDirectory
        (some fault)) ∧ Tight ((World.initial target delivered).after .makeDirectory (some fault)) :=
        ⟨⟨rfl, rfl, rfl, rfl⟩, hstart.after _ _ (by cases fault <;> rfl)⟩
      cases fault with
      | os error => exact Or.inl ⟨error, rfl, _, h₀.after _ _ rfl⟩
      | memory => exact Or.inr ⟨fun _ h => (by cases h), Or.inl hclean⟩
      | overflow => exact Or.inr ⟨fun _ h => (by cases h), Or.inl hclean⟩
    have h₁ : Opening target delivered ⟨true, false, false, none, by decide, by decide⟩
        { (World.initial target delivered).after .makeDirectory none with
          directory := true
          payload := { EdgePayload.empty with directory := true } } :=
      ⟨rfl, rfl, rfl, rfl, rfl, rfl, rfl, rfl, rfl, ⟨rfl, rfl, rfl⟩, hstart.after _ _ rfl⟩
    refine setup_spec h₁ rfl rfl (fun _ => rfl) rfl rfl ?_
    intro _ w₁ h₁
    refine setup_spec h₁ rfl rfl (fun _ => rfl) rfl rfl ?_
    intro _ w₂ h₂
    have h₃ : Opening target delivered ⟨true, true, false, some [], by decide, by decide⟩
        { w₂ with file := some [], descriptor := true } :=
      ⟨h₂.target, h₂.temporary, h₂.delivered, rfl, h₂.directory, rfl, h₂.owned, h₂.path, h₂.stream,
        h₂.fresh, h₂.tight⟩
    refine setup_spec h₃ rfl rfl (fun _ => rfl) rfl rfl ?_
    intro _ w₃ h₃
    have h₄ : Opening target delivered ⟨true, true, true, some [], by decide, by decide⟩
        { w₃ with payload := { w₃.payload with path := true } } :=
      ⟨h₃.target, h₃.temporary, h₃.delivered, h₃.descriptor, h₃.directory, h₃.file, h₃.owned, rfl,
        h₃.stream, h₃.fresh, h₃.tight⟩
    refine setup_spec h₄ rfl rfl (fun _ => rfl) rfl rfl ?_
    intro _ w₄ h₄
    have h₅ : Opening target delivered ⟨true, false, true, some [], by decide, by decide⟩
        { w₄ with descriptor := false } :=
      ⟨h₄.target, h₄.temporary, h₄.delivered, rfl, h₄.directory, h₄.file, h₄.owned, h₄.path,
        h₄.stream, h₄.fresh, h₄.tight⟩
    refine setup_spec h₅ rfl rfl (fun _ => rfl) rfl rfl ?_
    intro now w₅ h₅
    simp only [wp_modify]
    exact ⟨⟨h₅.target, by rw [h₅.temporary]; rfl, h₅.descriptor, h₅.directory, h₅.owned, h₅.path,
      h₅.tight⟩, ⟨h₅.file, h₅.fresh.1, h₅.fresh.2.1⟩, h₅.delivered, h₅.fresh.2.2, Or.inl h₅.stream⟩
  · intro error v hv
    obtain ⟨s, hs⟩ := hv
    exact init_handler error hs

end Projector.Artifact
