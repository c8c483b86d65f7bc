import Projector.Artifact.Payload

namespace Projector.Artifact
open Lib
open Streaming (IoFault PyError StreamingLimits)

/-- The answers after which a private file stays behind: a failed `os.close` that
skips the rest of its handler, and a failure other than `OSError` where only
`OSError` is handled. -/
def leaks : Call × Option IoFault → Bool
  | (.closeAgain, some _) => true
  | (.closeDescriptor, some _) => true
  | (.chmod, some (.os _)) => false
  | (.chmod, some _) => true
  | (.makeFile, some (.os _)) => false
  | (.makeFile, some _) => true
  | (.restrict, some (.os _)) => false
  | (.restrict, some _) => true
  | (.close, some (.os _)) => false
  | (.close, some _) => true
  | (.measure, some (.os _)) => false
  | (.measure, some _) => true
  | (.closeStream, some (.os _)) => false
  | (.closeStream, some _) => true
  | _ => false

/-- No call so far has left a private file behind. -/
def Tight (w : World) : Prop := ∀ call ∈ w.calls, leaks call = false

/-- The world after one more call. -/
def World.after (w : World) (call : Call) (fault : Option IoFault) : World :=
  { w with clock := w.clock + 1, calls := w.calls ++ [(call, fault)] }

def World.seekTo (w : World) (position : Option Nat) : World :=
  { w with payload := { w.payload with stream := position } }

theorem Tight.after {w : World} (call : Call) (fault : Option IoFault) (h : Tight w)
    (hleak : leaks (call, fault) = false) : Tight (w.after call fault) := by
  intro c hc
  rcases List.mem_append.mp hc with hc | hc
  · exact h c hc
  · rw [List.mem_singleton.mp hc]
    exact hleak

theorem not_tight_after {w : World} (call : Call) (fault : Option IoFault) (h : ¬Tight w) :
    ¬Tight (w.after call fault) :=
  fun ht => h fun c hc => ht c (List.mem_append_left _ hc)

theorem not_tight_of_leaks {w : World} {call : Call} {fault : Option IoFault}
    (hleak : leaks (call, fault) = true) : ¬Tight (w.after call fault) := by
  intro ht
  have h := ht (call, fault) (by simp [World.after])
  rw [hleak] at h
  cases h

/-- While an artifact is composed: the private directory with its payload file is there,
and the target is what it was. -/
structure Private (target : Option Bytes) (temporary descriptor : Bool) (w : World) : Prop where
  target : w.target = target
  temporary : w.temporary.isSome = temporary
  descriptor : w.descriptor = descriptor
  directory : w.directory = true
  owned : w.payload.directory = true
  path : w.payload.path = true
  tight : Tight w

/-- The payload file holds `content`, the records of `count` edges. -/
structure Filled (content : Bytes) (count : Nat) (w : World) : Prop where
  file : w.file = some content
  digest : w.payload.digest = content
  edgeCount : w.payload.edgeCount = count

section
variable {target : Option Bytes} {temporary descriptor : Bool} {content : Bytes} {count : Nat}
  {w : World}

theorem Private.after (h : Private target temporary descriptor w) (call : Call)
    (fault : Option IoFault) (hleak : leaks (call, fault) = false) :
    Private target temporary descriptor (w.after call fault) :=
  ⟨h.target, h.temporary, h.descriptor, h.directory, h.owned, h.path, h.tight.after _ _ hleak⟩

theorem Private.seekTo (h : Private target temporary descriptor w) (position : Option Nat) :
    Private target temporary descriptor (w.seekTo position) :=
  ⟨h.target, h.temporary, h.descriptor, h.directory, h.owned, h.path, h.tight⟩

theorem Filled.after (h : Filled content count w) (call : Call) (fault : Option IoFault) :
    Filled content count (w.after call fault) :=
  ⟨h.file, h.digest, h.edgeCount⟩

theorem Filled.seekTo (h : Filled content count w) (position : Option Nat) :
    Filled content count (w.seekTo position) :=
  ⟨h.file, h.digest, h.edgeCount⟩

end

section
variable {env : Environment} {α : Type}

theorem perform_spec {call : Call} {w : World} {Q : Nat → World → Prop}
    {E : ArtifactError → World → Prop} (hok : Q w.clock (w.after call none))
    (hfault : ∀ fault, E (.py (.io fault)) (w.after call (some fault))) :
    wp (perform env call) Q E w := by
  simp only [perform, tick, wp_bind, wp_modifyGet]
  cases hf : env.fault w.clock with
  | none => simpa [World.after] using hok
  | some fault => simpa [World.after] using hfault fault

/-- A call whose failures leave nothing behind. -/
theorem perform_safe {call : Call} {w : World} {Q : Nat → World → Prop}
    {I : World → Prop} (hok : Q w.clock (w.after call none))
    (hsafe : ∀ fault, I (w.after call (some fault))) :
    wp (perform env call) Q (fun _ => I) w :=
  perform_spec hok hsafe

theorem checkCancel_spec {token : Bool} {w : World} {I : World → Prop}
    (hskip : I w) (hcall : I (w.after .cancellation none)) :
    wp (checkCancel env token) (fun _ => I) (fun _ => I) w := by
  refine wp_runIf (fun _ => ?_) (fun _ => hskip)
  simp only [tick, wp_bind, wp_modifyGet]
  exact wp_raiseIf (fun _ => hcall) (fun _ => hcall)

theorem guardIo_spec {stage : String} {x : M α} {w : World} {Q : α → World → Prop}
    {I : World → Prop} (h : wp x Q (fun _ => I) w) : wp (guardIo stage x) Q (fun _ => I) w := by
  simp only [guardIo, exceptOs, wp_tryCatch]
  refine wp_mono h (fun _ _ hq => hq) ?_
  intro e v hi
  split <;> exact hi

/-- The loop of `_write_all` over any writer: it ends only when the writer has taken
everything, in whatever portions. `P taken` is what the writer has taken. -/
theorem writeAll_spec {write : Bytes → M WriterAnswer} {P : Bytes → World → Prop}
    {I : World → Prop}
    (hwrite : ∀ value taken w, P taken w → wp (write value)
      (fun answer v => I v ∧ ∀ n : Int, answer = .count n → 0 < n → n ≤ value.length →
        P (taken ++ value.take n.toNat) v) (fun _ => I) w) :
    ∀ (fuel : Nat) (value taken : Bytes) (w : World), value.length ≤ fuel → P taken w →
      wp (writeAll write fuel value) (fun _ v => P (taken ++ value) v) (fun _ => I) w := by
  intro fuel
  induction fuel with
  | zero =>
    intro value taken w hfuel hp
    obtain rfl : value = [] := List.length_eq_zero_iff.mp (by omega)
    simpa [writeAll] using hp
  | succ fuel ih =>
    intro value taken w hfuel hp
    cases value with
    | nil => simpa [writeAll] using hp
    | cons b value =>
      simp only [writeAll, wp_bind]
      refine wp_mono (hwrite (b :: value) taken w hp) ?_ (fun _ _ h => h)
      intro answer v hanswer
      obtain ⟨hi, hcount⟩ := hanswer
      cases answer with
      | raises fault => exact hi
      | nothing => exact hi
      | other => exact hi
      | count n =>
        by_cases hzero : n ≤ 0
        · simpa [hzero] using hi
        by_cases hmany : n > (b :: value).length
        · simp only [hzero, hmany, if_false, if_true]
          exact hi
        simp only [hzero, hmany, if_false]
        have hp' := hcount n rfl (by omega) (by omega)
        have hrest := ih ((b :: value).drop n.toNat) _ v
          (by simp only [List.length_drop, List.length_cons] at hfuel ⊢; omega) hp'
        rwa [List.append_assoc, List.take_append_drop] at hrest

namespace EdgePayload

variable {target : Option Bytes} {temporary descriptor : Bool} {content : Bytes} {count : Nat}

/-- Opening the stream moves it to the end of the payload unless it is open. -/
theorem openStream_spec {w : World} (hp : Private target temporary descriptor w) :
    wp (openStream env) (fun _ v => ∃ calls clock, v = { w with
        clock := clock
        calls := calls
        payload := { w.payload with
          stream := w.payload.stream.or (some (w.file.getD []).length) } } ∧
        Private target temporary descriptor v)
      (fun _ => Private target temporary descriptor) w := by
  unfold openStream
  simp only [wp_bind, wp_get]
  cases hs : w.payload.stream with
  | some position =>
    have hopen : w.payload.stream.or (some (w.file.getD []).length) = w.payload.stream := by
      rw [hs]
      rfl
    refine ⟨w.calls, w.clock, ?_, hp⟩
    rw [hs] at hopen
    rw [hopen, ← hs]
  | none =>
    simp only [wp_bind]
    refine wp_raiseIf (fun hc => ?_) (fun _ => ?_)
    · rw [hp.path] at hc
      cases hc
    refine guardIo_spec ?_
    simp only [wp_bind]
    refine perform_safe ?_ (fun fault => hp.after _ _ rfl)
    refine perform_safe ?_ (fun fault => (hp.after _ _ rfl).after _ _ rfl)
    simp only [wp_modify]
    exact ⟨_, _, rfl, ((hp.after _ _ rfl).after _ _ rfl).seekTo _⟩

theorem rewind_spec {w : World} (hp : Private target temporary descriptor w)
    {P : World → Prop} (hstable : ∀ clock calls stream, P { w with
      clock := clock
      calls := calls
      payload := { w.payload with stream := stream } }) :
    wp (rewind env)
      (fun _ v => v.payload.stream = some 0 ∧ Private target temporary descriptor v ∧ P v)
      (fun _ => Private target temporary descriptor) w := by
  unfold rewind
  simp only [wp_bind]
  refine wp_mono (openStream_spec hp) ?_ (fun _ _ h => h)
  intro _ v hv
  obtain ⟨calls, clock, rfl, hv⟩ := hv
  refine guardIo_spec ?_
  simp only [wp_bind]
  refine perform_safe ?_ (fun fault => hv.after _ _ rfl)
  refine perform_safe ?_ (fun fault => (hv.after _ _ rfl).after _ _ rfl)
  simp only [setPayload, wp_modify]
  exact ⟨trivial, ((hv.after _ _ rfl).after _ _ rfl).seekTo _, hstable _ _ _⟩

/-- Both readers of the payload see all of it, chunk after chunk. `Q b done` is what the
reader has after the first `done`. -/
theorem foldChunks_spec {β : Type} {token : Bool} {body : β → Bytes → M β}
    {Q : β → Bytes → World → Prop} {I : World → Prop}
    (hinv : ∀ b done w, Q b done w → I w)
    (hfile : ∀ b done w, Q b done w → w.file = some content)
    (hcall : ∀ b done w call fault, Q b done w → call = .read ∨ call = .cancellation →
      Q b done (w.after call fault))
    (hseek : ∀ b done w position, Q b done w → Q b done (w.seekTo position))
    (hbody : ∀ b done chunk w, Q b done w → wp (body b chunk)
      (fun b' v => v.payload.stream = w.payload.stream ∧ Q b' (done ++ chunk) v) (fun _ => I) w) :
    ∀ (fuel : Nat) (done rest : Bytes) (b : β) (w : World), content = done ++ rest →
      rest.length < fuel → w.payload.stream = some done.length → Q b done w →
      wp (foldChunks env token body fuel b) (fun b' v => Q b' content v) (fun _ => I) w := by
  intro fuel
  induction fuel with
  | zero =>
    intro done rest b w _ hfuel
    omega
  | succ fuel ih =>
    intro done rest b w hcontent hfuel hstream hq
    simp only [foldChunks, wp_bind]
    have hcheck : wp (checkCancel env token)
        (fun _ v => v.payload.stream = some done.length ∧ Q b done v) (fun _ => I) w := by
      refine wp_mono (checkCancel_spec
        (I := fun v => v.payload.stream = some done.length ∧ Q b done v) ⟨hstream, hq⟩
        ⟨hstream, hcall _ _ _ _ _ hq (Or.inr rfl)⟩) (fun _ _ h => h) ?_
      intro _ v hv
      exact hinv _ _ _ hv.2
    refine wp_mono hcheck ?_ (fun _ _ h => h)
    intro _ u hu
    obtain ⟨hstream, hq⟩ := hu
    simp only [readChunk, wp_bind]
    refine perform_safe ?_ (fun fault => hinv _ _ _ (hcall _ _ _ _ _ hq (Or.inl rfl)))
    have hq := hcall b done u .read none hq (Or.inl rfl)
    simp only [wp_modifyGet]
    have hread : (((u.after .read none).file.getD []).drop
        ((u.after .read none).payload.stream.getD 0)).take copyChunk = rest.take copyChunk := by
      have hs : (u.after .read none).payload.stream = some done.length := hstream
      rw [hfile _ _ _ hq, hs, hcontent]
      simp
    have hs : (u.after .read none).payload.stream.getD 0 = done.length := by
      rw [show (u.after .read none).payload.stream = some done.length from hstream]
      rfl
    rw [hread, hs]
    have hnext := hseek b done _ (some (done.length + (rest.take copyChunk).length)) hq
    by_cases hend : rest.take copyChunk = []
    · have hrest : rest = [] := by
        cases rest with
        | nil => rfl
        | cons x xs => simp [copyChunk] at hend
      rw [if_pos hend]
      simp only [wp_pure]
      rw [hrest, List.append_nil] at hcontent
      rw [hcontent]
      exact hnext
    · rw [if_neg hend]
      simp only [wp_bind]
      refine wp_mono (hbody b done (rest.take copyChunk) _ hnext) ?_ (fun _ _ h => h)
      intro b' v hv
      obtain ⟨hstream', hq'⟩ := hv
      refine ih (done ++ rest.take copyChunk) (rest.drop copyChunk) b' v ?_ ?_ ?_ hq'
      · rw [hcontent, List.append_assoc, List.take_append_drop]
      · have hlen : (rest.take copyChunk).length ≠ 0 := by
          intro h
          exact hend (List.length_eq_zero_iff.mp h)
        simp only [List.length_take, List.length_drop] at hlen ⊢
        omega
      · rw [hstream', List.length_append]

end EdgePayload

end

end Projector.Artifact
