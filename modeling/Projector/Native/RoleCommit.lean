import Projector.Native.LifeCycleProofs

namespace Projector.Native
open Lib

variable {ρ : Type} {prepare : CompileCall → Option ρ → ρ}

/-- The call `id` made its claim when `roles` were retained, and has not returned since. -/
def ClaimedAt (prepare : CompileCall → Option ρ → ρ) (start : Shared ρ) (events : List CompileEvent)
    (id : CompileId) (call : CompileCall) (roles : ρ) : Prop :=
  ∃ before after u, events = before ++ .claimed id call :: after ∧
    (∀ other result, .returned id other result ∉ after) ∧
    Run (CompileStep prepare) start before u ∧ u.roles = roles

theorem ClaimedAt.snoc {start : Shared ρ} {roles : ρ} {events : List CompileEvent} {id : CompileId}
    {call : CompileCall} {event : CompileEvent} (h : ClaimedAt prepare start events id call roles)
    (hevent : ∀ other result, event ≠ .returned id other result) :
    ClaimedAt prepare start (events ++ [event]) id call roles := by
  obtain ⟨before, after, u, rfl, hafter, hrun, hroles⟩ := h
  refine ⟨before, after ++ [event], u, by simp, ?_, hrun, hroles⟩
  intro other result hm
  rcases List.mem_append.mp hm with hm | hm
  · exact hafter other result hm
  · exact hevent other result (List.mem_singleton.mp hm).symm

/-- A step leaves a call with a claim as it was, or is the claim, or returns from it. -/
theorem CompileStep.claims {s t : Shared ρ} {event : CompileEvent}
    (h : CompileStep prepare s event t) {id : CompileId} {p : Compiling ρ} {roles : ρ}
    (hp : t.calls id = some p) (hc : p.claim = some roles) :
    (event = .claimed id p.call ∧ s.roles = roles) ∨
      (∃ q, s.calls id = some q ∧ q.call = p.call ∧ q.claim = some roles) ∧
        ∀ other result, event ≠ .returned id other result := by
  -- A step of another call, or one that keeps the call and the claim of `id`.
  have hkeep : ∀ {other call claim phase next} {s' : Shared ρ}, s'.calls = s.calls →
      s.calls other = some ⟨call, claim, phase⟩ →
      (s'.setCall other (some ⟨call, claim, next⟩)).calls id = some p →
      ∃ q, s.calls id = some q ∧ q.call = p.call ∧ q.claim = some roles := by
    intro other call claim phase next s' hsame hother hid
    rcases Shared.setCall_cases hid with ⟨rfl, hq⟩ | ⟨-, hid⟩
    · obtain rfl := Option.some.inj hq
      exact ⟨_, hother, rfl, hc⟩
    · exact ⟨p, hsame ▸ hid, rfl, hc⟩
  -- A step that drops another call.
  have hdrop : ∀ {other call result} {s' : Shared ρ}, s'.calls = s.calls →
      (s'.setCall other none).calls id = some p →
      (∃ q, s.calls id = some q ∧ q.call = p.call ∧ q.claim = some roles) ∧
        ∀ other' result', CompileEvent.returned other call result ≠ .returned id other' result' := by
    intro other call result s' hsame hid
    rcases Shared.setCall_cases hid with ⟨-, hq⟩ | ⟨hne, hid⟩
    · cases hq
    · refine ⟨⟨p, hsame ▸ hid, rfl, hc⟩, ?_⟩
      intro other' result' he
      simp only [CompileEvent.returned.injEq] at he
      exact hne he.1.symm
  cases h with
  | invalid => exact Or.inr ⟨⟨p, hp, rfl, hc⟩, by simp⟩
  | refused => exact Or.inr ⟨⟨p, hp, rfl, hc⟩, by simp⟩
  | cancelled => exact Or.inr ⟨⟨p, hp, rfl, hc⟩, by simp⟩
  | began =>
    rcases Shared.setCall_cases hp with ⟨-, hq⟩ | ⟨-, hid⟩
    · obtain rfl := Option.some.inj hq
      cases hc
    · exact Or.inr ⟨⟨p, hid, rfl, hc⟩, by simp⟩
  | planFailed => exact Or.inr (hdrop rfl hp)
  | returned => exact Or.inr (hdrop rfl hp)
  | claimed =>
    rcases Shared.setCall_cases hp with ⟨rfl, hq⟩ | ⟨-, hid⟩
    · obtain rfl := Option.some.inj hq
      exact Or.inl ⟨rfl, Option.some.inj hc⟩
    · exact Or.inr ⟨⟨p, hid, rfl, hc⟩, by simp⟩
  | inUse hother _ _ => exact Or.inr ⟨hkeep rfl hother hp, by simp⟩
  | unclaimed hother _ => exact Or.inr ⟨hkeep rfl hother hp, by simp⟩
  | prepared hother => exact Or.inr ⟨hkeep rfl hother hp, by simp⟩
  | unprepared hother => exact Or.inr ⟨hkeep rfl hother hp, by simp⟩
  | built hother => exact Or.inr ⟨hkeep rfl hother hp, by simp⟩
  | unbuilt hother => exact Or.inr ⟨hkeep rfl hother hp, by simp⟩
  | poisoned hother => exact Or.inr ⟨hkeep rfl hother hp, by simp⟩
  | finished hother _ => exact Or.inr ⟨hkeep rfl hother hp, by simp⟩
  | overtaken hother _ => exact Or.inr ⟨hkeep rfl hother hp, by simp⟩
  | failed hother _ => exact Or.inr ⟨hkeep rfl hother hp, by simp⟩

theorem claims_recorded {composite : CompilerId → Bool} {initial : ρ} {events : List CompileEvent} {s : Shared ρ}
    (h : Run (CompileStep prepare) (Shared.start composite initial) events s) {id : CompileId}
    {p : Compiling ρ} {roles : ρ} (hp : s.calls id = some p) (hc : p.claim = some roles) :
    ClaimedAt prepare (Shared.start composite initial) events id p.call roles := by
  induction h generalizing p roles with
  | nil => simp [Shared.start] at hp
  | @snoc u v events event hrun hstep ih =>
    rcases hstep.claims hp hc with ⟨rfl, hroles⟩ | ⟨⟨q, hq, hcall, hclaim⟩, hevent⟩
    · exact ⟨events, [], u, rfl, by simp, hrun, hroles⟩
    · exact hcall ▸ (ih hq hclaim).snoc hevent

/-- Only the step that settles a call well touches the retained maps. -/
theorem CompileStep.roles_unchanged {s t : Shared ρ} {event : CompileEvent}
    (h : CompileStep prepare s event t) (hevent : ∀ id call, event ≠ .settled id call (.ok ())) :
    t.roles = s.roles := by
  cases h with
  | finished => exact absurd rfl (hevent _ _)
  | _ => rfl

/-- The life cycle of the compilers that share a role state, seen at one point of a run. -/
structure LifeCycle (prepare : CompileCall → Option ρ → ρ) (start : Shared ρ)
    (events : List CompileEvent) (s : Shared ρ) : Prop where
  /-- no compiler is run twice -/
  once : (events.filterMap CompileEvent.begun?).Nodup
  moves : ∀ event t, CompileStep prepare s event t → ∀ c, (s.states c).Moves (t.states c)
  /-- a compiler is running only while its call is in progress -/
  attended : ∀ c, s.states c = .running →
    ∃ id p, s.calls id = some p ∧ p.call.compiler = c
  left : ∀ id call result t, CompileStep prepare s (.returned id call result) t →
    CompileEvent.planned (.returned id call result) → t.states call.compiler ≠ .running
  unchanged : ∀ event t, CompileStep prepare s event t →
    (∀ id call, event ≠ .settled id call (.ok ())) → t.roles = s.roles
  commit : ∀ id call t, CompileStep prepare s (.settled id call (.ok ())) t →
    s.states call.compiler = .running ∧ t.states call.compiler = .finished ∧
      (call.commits = false → t.roles = s.roles) ∧
      (call.commits = true → ∃ roles, ClaimedAt prepare start events id call roles ∧
        t.roles = prepare call (some roles))
  /-- after a cancellation nothing of that compiler succeeds or commits -/
  cancelled : ∀ before after c, events = before ++ .cancelled c true :: after →
    ∀ id call, call.compiler = c →
      .settled id call (.ok ()) ∉ after ∧ .returned id call (.ok ()) ∉ after
  exclusive : ∀ id id' p p', s.calls id = some p → s.calls id' = some p' →
    p.claim.isSome → p'.claim.isSome → id = id'

theorem attended_run {composite : CompilerId → Bool} {initial : ρ} {events : List CompileEvent} {s : Shared ρ}
    (h : Run (CompileStep prepare) (Shared.start composite initial) events s)
    (hplan : ∀ event ∈ events, event.planned) : Ordered prepare events s ∧ Attended s :=
  h.invariant_of (I := fun events s => Ordered prepare events s ∧ Attended s) hplan
    ⟨Ordered.initial composite initial, Attended.initial composite initial⟩
    (fun _ _ _ _ hi hp hs => ⟨hi.1.step hs, hi.2.step hi.1 hp hs⟩)

/-- A call that returns well has settled its compiler, and one that settles well finds it
running: neither happens to a cancelled compiler. -/
theorem cancelled_silent {s t : Shared ρ} {event : CompileEvent} (hattended : Attended s)
    (h : CompileStep prepare s event t) {c : CompilerId} (hc : s.states c = .cancelled)
    {id : CompileId} {call : CompileCall} (hcall : call.compiler = c) :
    event ≠ .settled id call (.ok ()) ∧ event ≠ .returned id call (.ok ()) := by
  constructor
  · rintro rfl
    cases h with
    | finished hp hfinish =>
      have hrunning := (CompilerState.finishResult_ok hfinish).1
      rw [hcall, hc] at hrunning
      cases hrunning
    | failed hp hfinish => exact CompilerState.finishResult_error hfinish
  · rintro rfl
    cases h with
    | returned hp =>
      have hfinished := hattended.finished _ _ hp rfl
      rw [hcall, hc] at hfinished
      cases hfinished

theorem commit_step {composite : CompilerId → Bool} {initial : ρ} {events : List CompileEvent} {s t : Shared ρ}
    (hrun : Run (CompileStep prepare) (Shared.start composite initial) events s) {id : CompileId}
    {call : CompileCall} (h : CompileStep prepare s (.settled id call (.ok ())) t) :
    s.states call.compiler = .running ∧ t.states call.compiler = .finished ∧
      (call.commits = false → t.roles = s.roles) ∧
      (call.commits = true → ∃ roles, ClaimedAt prepare (Shared.start composite initial) events id call roles ∧
        t.roles = prepare call (some roles)) := by
  cases h with
  | failed _ hfinish => exact (CompilerState.finishResult_error hfinish).elim
  | finished hp hfinish =>
    obtain ⟨hrunning, rfl⟩ := CompilerState.finishResult_ok hfinish
    obtain ⟨hclaim, hnext⟩ := (Ordered.run hrun).fits _ _ hp
    simp only at hclaim hnext
    refine ⟨hrunning, by simp [Shared.setCall, Shared.setState], ?_, ?_⟩
    · intro hcommits
      rw [hcommits] at hnext
      simp [hnext]
    · intro hcommits
      rw [if_pos hcommits] at hnext
      simp only [CompileCall.commits, Bool.and_eq_true] at hcommits
      rw [if_pos hcommits.1] at hclaim
      exact ⟨s.roles, claims_recorded hrun hp hclaim, by simp [hnext, hclaim]⟩

theorem left_running {events : List CompileEvent} {s t : Shared ρ} (ho : Ordered prepare events s)
    (ha : Attended s) {id : CompileId} {call : CompileCall} {result : Except CompilerError Unit}
    (h : CompileStep prepare s (.returned id call result) t)
    (hplan : CompileEvent.planned (.returned id call result)) :
    t.states call.compiler ≠ .running := by
  cases h with
  | planFailed => exact hplan.elim
  | returned hp =>
    intro hrunning
    obtain ⟨other, p, hother, hpc, hps⟩ := ha.running _ hrunning
    obtain rfl := ho.single other id p _ hother hp hpc
    obtain rfl := Option.some.inj (hp.symm.trans hother)
    cases hps

theorem cancelled_for_good {composite : CompilerId → Bool} {initial : ρ} {before after : List CompileEvent} {s : Shared ρ}
    {c : CompilerId}
    (h : Run (CompileStep prepare) (Shared.start composite initial) (before ++ .cancelled c true :: after) s)
    (hplan : ∀ event ∈ before ++ .cancelled c true :: after, event.planned) {id : CompileId}
    {call : CompileCall} (hcall : call.compiler = c) :
    .settled id call (.ok ()) ∉ after ∧ .returned id call (.ok ()) ∉ after := by
  have hsilent : ∀ event ∈ after,
      event ≠ .settled id call (.ok ()) ∧ event ≠ .returned id call (.ok ()) := by
    intro event hm
    obtain ⟨early, late, rfl⟩ := List.append_of_mem hm
    rw [← List.cons_append, ← List.append_assoc] at h
    obtain ⟨u, u', hu, hstep, -⟩ := h.around
    have hattended : Attended u :=
      (attended_run hu (fun e he => hplan e (by
        rcases List.mem_append.mp he with he | he
        · exact List.mem_append_left _ he
        · exact List.mem_append_right _ (by
            rw [← List.cons_append]
            exact List.mem_append_left _ he)))).2
    obtain ⟨t, t', -, hcancel, hafter⟩ := hu.around
    have hcancelled : t'.states c = .cancelled := by
      generalize he : CompileEvent.cancelled c true = e at hcancel
      cases hcancel with
      | cancelled =>
        simp only [CompileEvent.cancelled.injEq] at he
        obtain ⟨rfl, htrue⟩ := he
        simpa [Shared.setState] using CompilerState.cancel_true htrue.symm
      | _ => cases he
    have hstays := hafter.stable (P := fun s => s.states c = .cancelled) hcancelled
      (fun v e w hv hs => by
        have hmove := hs.moves c
        rw [hv] at hmove
        exact hmove.of_cancelled)
    exact cancelled_silent hattended hstep hstays hcall
  exact ⟨fun hm => (hsilent _ hm).1 rfl, fun hm => (hsilent _ hm).2 rfl⟩

/-- Roles are committed exactly on success: in every interleaving in which every call got
its column plan built. -/
theorem roles_commit_on_success (prepare : CompileCall → Option ρ → ρ)
    (composite : CompilerId → Bool) (initial : ρ) (events : List CompileEvent) (s : Shared ρ)
    (hrun : Run (CompileStep prepare) (Shared.start composite initial) events s)
    (hplan : ∀ event ∈ events, event.planned) :
    LifeCycle prepare (Shared.start composite initial) events s := by
  obtain ⟨ho, ha⟩ := attended_run hrun hplan
  refine ⟨ho.once, fun _ _ h c => h.moves c, ?_, ?_, fun _ _ h hevent => h.roles_unchanged hevent,
    fun _ _ _ h => commit_step hrun h, ?_, ho.exclusive⟩
  · intro c hc
    obtain ⟨id, p, hp, hpc, -⟩ := ha.running c hc
    exact ⟨id, p, hp, hpc⟩
  · exact fun _ _ _ _ h hplanned => left_running ho ha h hplanned
  · rintro before after c rfl id call hcall
    exact cancelled_for_good hrun hplan hcall

def sampleCall : CompileCall :=
  ⟨0, .compileBatch, ⟨false, false, false, false, 1, 1⟩, true⟩

/-- The maps of the sample are lists; a preparation adds one entry. -/
def samplePrepare (_ : CompileCall) (roles : Option (List Nat)) : List Nat := 0 :: roles.getD []

/-- A call from its start to its return. -/
def sampleEvents : List CompileEvent :=
  [.began 0 sampleCall, .claimed 0 sampleCall, .worked 0 sampleCall, .worked 0 sampleCall,
    .settled 0 sampleCall (.ok ()), .returned 0 sampleCall (.ok ())]

theorem sample_run : ∃ s, Run (CompileStep samplePrepare) (Shared.start (fun _ => true) [])
    sampleEvents s ∧ s.states 0 = .finished ∧ s.roles = [0] :=
  ⟨_, .cons (.began rfl rfl rfl) (.cons (.claimed rfl rfl rfl) (.cons (.prepared rfl)
    (.cons (.built rfl) (.cons (.finished rfl rfl) (.cons (.returned rfl) (.nil _)))))), rfl, rfl⟩

theorem roles_commit_on_success_sample : ∃ s,
    LifeCycle samplePrepare (Shared.start (fun _ => true) []) sampleEvents s ∧
      s.states 0 = .finished ∧ s.roles = [0] := by
  obtain ⟨s, hrun, hstate, hroles⟩ := sample_run
  refine ⟨s, roles_commit_on_success samplePrepare (fun _ => true) [] sampleEvents s hrun ?_,
    hstate, hroles⟩
  intro event h
  simp only [sampleEvents, List.mem_cons, List.not_mem_nil, or_false] at h
  rcases h with rfl | rfl | rfl | rfl | rfl | rfl <;> trivial

/-- A composite whose plan cannot be allocated: the call has returned and no other is in
progress, but the compiler is running and stays so. -/
theorem plan_failure_stuck : ∃ s, Run (CompileStep samplePrepare)
    (Shared.start (fun _ => true) [])
      [.began 0 sampleCall, .returned 0 sampleCall (.error .plan)] s ∧
      s.states 0 = .running ∧ (∀ id, s.calls id = none) ∧
      ¬LifeCycle samplePrepare (Shared.start (fun _ => true) [])
        [.began 0 sampleCall, .returned 0 sampleCall (.error .plan)] s := by
  have hcalls : ∀ progress : Option (Compiling (List Nat)), ∀ id,
      Function.update (Function.update (fun _ : CompileId => none) 0 progress) 0 none id = none := by
    intro progress id
    by_cases hid : id = 0
    · simp [hid]
    · simp [Function.update_of_ne hid]
  refine ⟨_, .cons (.began rfl rfl rfl) (.cons (.planFailed rfl rfl) (.nil _)), rfl, hcalls _, ?_⟩
  intro h
  obtain ⟨id, p, hp, -⟩ := h.attended 0 rfl
  have hnone := hcalls (some ⟨sampleCall, none, .begun⟩) id
  exact Option.some_ne_none p (hp.symm.trans hnone)

end Projector.Native
