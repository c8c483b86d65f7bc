import Projector.Native.LifeCycle

namespace Projector.Native
open Lib

variable {ρ : Type} {prepare : CompileCall → Option ρ → ρ}

/-- The moves of a compiler's state. -/
inductive CompilerState.Moves : CompilerState → CompilerState → Prop where
  | stay (state) : Moves state state
  | begin : Moves .idle .running
  | finish : Moves .running .finished
  | fail : Moves .running .failed
  | cancelRunning : Moves .running .cancelled
  | cancelIdle : Moves .idle .cancelled

namespace CompilerState

theorem start_ok {state next : CompilerState} (h : state.start = .ok next) :
    state = idle ∧ next = running := by
  cases state with
  | idle => exact ⟨rfl, (Except.ok.inj h).symm⟩
  | _ => cases h

theorem finishResult_ok {result : Except CompilerError Unit} {state next : CompilerState}
    (h : state.finishResult result = (.ok (), next)) : state = running ∧ next = finished := by
  cases result with
  | ok =>
    cases state with
    | running => exact ⟨rfl, (Prod.ext_iff.mp h).2.symm⟩
    | _ => simp [finishResult] at h
  | error => cases state <;> simp [finishResult] at h

theorem finishResult_error {error : CompilerError} {state next : CompilerState} :
    state.finishResult (.error error) ≠ (.ok (), next) := by
  cases state <;> simp [finishResult]

theorem finishResult_moves (result : Except CompilerError Unit) (state : CompilerState) :
    Moves state (state.finishResult result).2 := by
  cases result with
  | ok =>
    cases state with
    | running => exact .finish
    | _ => exact .stay _
  | error =>
    cases state with
    | running => exact .fail
    | _ => exact .stay _

theorem finishResult_ne_running (result : Except CompilerError Unit) (state : CompilerState) :
    (state.finishResult result).2 ≠ running := by
  cases result <;> cases state <;> simp [finishResult]

theorem moves_of_finish {result ended : Except CompilerError Unit} {state next : CompilerState}
    (h : state.finishResult result = (ended, next)) : Moves state next := by
  have hmove := finishResult_moves result state
  rwa [h] at hmove

theorem ne_running_of_finish {result ended : Except CompilerError Unit}
    {state next : CompilerState} (h : state.finishResult result = (ended, next)) :
    next ≠ running := by
  have hne := finishResult_ne_running result state
  rwa [h] at hne

theorem cancel_moves (state : CompilerState) : Moves state state.cancel.2 := by
  cases state with
  | idle => exact .cancelIdle
  | running => exact .cancelRunning
  | _ => exact .stay _

theorem cancel_true {state : CompilerState} (h : state.cancel.1 = true) :
    state.cancel.2 = cancelled := by
  cases state <;> simp_all [cancel]

theorem cancel_ne_running (state : CompilerState) : state.cancel.2 ≠ running := by
  cases state <;> simp [cancel]

/-- No move leads back to idle, and a cancelled compiler stays cancelled. -/
theorem Moves.ne_idle {a b : CompilerState} (h : Moves a b) (ha : a ≠ idle) : b ≠ idle := by
  cases h <;> simp_all

theorem Moves.of_cancelled {b : CompilerState} (h : Moves cancelled b) : b = cancelled := by
  cases h
  rfl

end CompilerState

def Compiling.settled (p : Compiling ρ) : Bool :=
  match p.phase with
  | .ended _ => true
  | _ => false

/-- What a call in progress holds, when `roles` are the retained maps. -/
def Compiling.Fits (prepare : CompileCall → Option ρ → ρ) (roles : ρ) (p : Compiling ρ) : Prop :=
  match p.phase with
  | .begun => p.claim = none
  | .claimed => p.claim = if p.call.roleState then some roles else none
  | .prepared next => p.claim = (if p.call.roleState then some roles else none) ∧
      next = prepare p.call p.claim
  | .built next => p.claim = (if p.call.roleState then some roles else none) ∧
      next = if p.call.commits then some (prepare p.call p.claim) else none
  | .failing _ => True
  | .ended _ => True

/-- What holds after every history. -/
structure Ordered (prepare : CompileCall → Option ρ → ρ) (events : List CompileEvent)
    (s : Shared ρ) : Prop where
  once : (events.filterMap CompileEvent.begun?).Nodup
  started : ∀ c ∈ events.filterMap CompileEvent.begun?, s.states c ≠ .idle
  listed : ∀ id p, s.calls id = some p →
    p.call.compiler ∈ events.filterMap CompileEvent.begun?
  single : ∀ id id' p p', s.calls id = some p → s.calls id' = some p' →
    p.call.compiler = p'.call.compiler → id = id'
  held : ∀ id p, s.calls id = some p → p.claim.isSome → s.inUse = true
  exclusive : ∀ id id' p p', s.calls id = some p → s.calls id' = some p' →
    p.claim.isSome → p'.claim.isSome → id = id'
  fits : ∀ id p, s.calls id = some p → p.Fits prepare s.roles

theorem Shared.setCall_same (s : Shared ρ) (id : CompileId) (progress : Option (Compiling ρ)) :
    (s.setCall id progress).calls id = progress := by
  simp [setCall]

/-- A call read after an update is the updated one, or was there before. -/
theorem Shared.setCall_cases {s : Shared ρ} {id other : CompileId}
    {progress : Option (Compiling ρ)} {p : Compiling ρ}
    (h : (s.setCall id progress).calls other = some p) :
    (other = id ∧ progress = some p) ∨ (other ≠ id ∧ s.calls other = some p) := by
  by_cases ho : other = id
  · subst ho
    exact Or.inl ⟨rfl, by simpa [setCall] using h⟩
  · exact Or.inr ⟨ho, by simpa [setCall, Function.update_of_ne ho] using h⟩

namespace Ordered
variable {events : List CompileEvent} {s : Shared ρ} {id : CompileId}

theorem initial (composite : CompilerId → Bool) (roles : ρ) :
    Ordered prepare [] (Shared.start composite roles) where
  once := by simp
  started := by simp
  listed := by simp [Shared.start]
  single := by simp [Shared.start]
  held := by simp [Shared.start]
  exclusive := by simp [Shared.start]
  fits := by simp [Shared.start]

/-- A step that begins nothing adds nothing to the history that matters. -/
theorem quiet {event : CompileEvent} (h : Ordered prepare events s)
    (hevent : event.begun? = none) : Ordered prepare (events ++ [event]) s := by
  have hsame : (events ++ [event]).filterMap CompileEvent.begun? =
      events.filterMap CompileEvent.begun? := by simp [hevent]
  exact ⟨hsame ▸ h.once, hsame ▸ h.started, hsame ▸ h.listed, h.single, h.held, h.exclusive,
    h.fits⟩

theorem setState {c : CompilerId} {state : CompilerState} (h : Ordered prepare events s)
    (hmove : (s.states c).Moves state) : Ordered prepare events (s.setState c state) where
  once := h.once
  started c' hc' := by
    by_cases hc : c' = c
    · subst hc
      simpa [Shared.setState] using hmove.ne_idle (h.started c' hc')
    · simpa [Shared.setState, Function.update_of_ne hc] using h.started c' hc'
  listed := h.listed
  single := h.single
  held := h.held
  exclusive := h.exclusive
  fits := h.fits

/-- A call goes on to its next phase and keeps its claim. -/
theorem progress {call : CompileCall} {claim : Option ρ} {phase next : Phase ρ}
    (h : Ordered prepare events s) (hp : s.calls id = some ⟨call, claim, phase⟩)
    (hfits : (⟨call, claim, next⟩ : Compiling ρ).Fits prepare s.roles) :
    Ordered prepare events (s.setCall id (some ⟨call, claim, next⟩)) := by
  -- Every call after the step stands for one before it, with the same compiler and claim.
  have hback : ∀ other r, (s.setCall id (some ⟨call, claim, next⟩)).calls other = some r →
      ∃ r', s.calls other = some r' ∧ r.call = r'.call ∧ r.claim = r'.claim := by
    intro other r hr
    rcases Shared.setCall_cases hr with ⟨rfl, hq⟩ | ⟨-, hr⟩
    · obtain rfl := Option.some.inj hq
      exact ⟨_, hp, rfl, rfl⟩
    · exact ⟨r, hr, rfl, rfl⟩
  refine ⟨h.once, h.started, ?_, ?_, ?_, ?_, ?_⟩
  · intro other r hr
    obtain ⟨r', hr', hc, -⟩ := hback other r hr
    exact hc ▸ h.listed other r' hr'
  · intro a b r t hr ht he
    obtain ⟨r', hr', hc, -⟩ := hback a r hr
    obtain ⟨t', ht', hc', -⟩ := hback b t ht
    exact h.single a b r' t' hr' ht' (by rw [← hc, ← hc', he])
  · intro other r hr hs
    obtain ⟨r', hr', -, hcl⟩ := hback other r hr
    exact h.held other r' hr' (hcl ▸ hs)
  · intro a b r t hr ht hs hs'
    obtain ⟨r', hr', -, hcl⟩ := hback a r hr
    obtain ⟨t', ht', -, hcl'⟩ := hback b t ht
    exact h.exclusive a b r' t' hr' ht' (hcl ▸ hs) (hcl' ▸ hs')
  · intro other r hr
    rcases Shared.setCall_cases hr with ⟨rfl, hq⟩ | ⟨-, hr⟩
    · obtain rfl := Option.some.inj hq
      exact hfits
    · exact h.fits other r hr

/-- A call that returned holds nothing any more. -/
theorem remove (h : Ordered prepare events s) :
    Ordered prepare events (s.setCall id none) := by
  have hback : ∀ other r, (s.setCall id none).calls other = some r → s.calls other = some r := by
    intro other r hr
    rcases Shared.setCall_cases hr with ⟨-, hq⟩ | ⟨-, hr⟩
    · cases hq
    · exact hr
  exact ⟨h.once, h.started, fun other r hr => h.listed other r (hback other r hr),
    fun a b r t hr ht => h.single a b r t (hback a r hr) (hback b t ht),
    fun other r hr => h.held other r (hback other r hr),
    fun a b r t hr ht => h.exclusive a b r t (hback a r hr) (hback b t ht),
    fun other r hr => h.fits other r (hback other r hr)⟩

theorem begin {call : CompileCall} (h : Ordered prepare events s) (hid : s.calls id = none)
    (hidle : s.states call.compiler = .idle) :
    Ordered prepare (events ++ [CompileEvent.began id call])
      ((s.setState call.compiler .running).setCall id (some ⟨call, none, .begun⟩)) := by
  have hnew : call.compiler ∉ events.filterMap CompileEvent.begun? :=
    fun hm => h.started _ hm hidle
  have hlist : (events ++ [CompileEvent.began id call]).filterMap CompileEvent.begun? =
      events.filterMap CompileEvent.begun? ++ [call.compiler] := by
    simp [CompileEvent.begun?]
  have hback : ∀ other r, ((s.setState call.compiler .running).setCall id
      (some ⟨call, none, .begun⟩)).calls other = some r →
      (other = id ∧ r = ⟨call, none, .begun⟩) ∨ s.calls other = some r := by
    intro other r hr
    rcases Shared.setCall_cases hr with ⟨ho, hq⟩ | ⟨-, hr⟩
    · exact Or.inl ⟨ho, (Option.some.inj hq).symm⟩
    · exact Or.inr hr
  refine ⟨?_, ?_, ?_, ?_, ?_, ?_, ?_⟩
  · rw [hlist]
    exact List.nodup_append.mpr ⟨h.once, List.pairwise_singleton _ _, fun a ha b hb =>
      fun he => hnew (by rw [← List.mem_singleton.mp hb, ← he]; exact ha)⟩
  · intro c hc
    rw [hlist, List.mem_append, List.mem_singleton] at hc
    by_cases he : c = call.compiler
    · subst he
      simp [Shared.setCall, Shared.setState]
    · have hold := h.started c (hc.resolve_right he)
      simpa [Shared.setCall, Shared.setState, Function.update_of_ne he] using hold
  · intro other r hr
    rw [hlist, List.mem_append, List.mem_singleton]
    rcases hback other r hr with ⟨-, rfl⟩ | hr
    · exact Or.inr rfl
    · exact Or.inl (h.listed other r hr)
  · intro a b r t hr ht he
    rcases hback a r hr with ⟨rfl, rfl⟩ | hr' <;> rcases hback b t ht with ⟨rfl, rfl⟩ | ht'
    · rfl
    · exact absurd (he ▸ h.listed b t ht') hnew
    · exact absurd (he ▸ h.listed a r hr') hnew
    · exact h.single a b r t hr' ht' he
  · intro other r hr hs
    rcases hback other r hr with ⟨-, rfl⟩ | hr
    · cases hs
    · exact h.held other r hr hs
  · intro a b r t hr ht hs hs'
    rcases hback a r hr with ⟨-, rfl⟩ | hr'
    · cases hs
    rcases hback b t ht with ⟨-, rfl⟩ | ht'
    · cases hs'
    · exact h.exclusive a b r t hr' ht' hs hs'
  · intro other r hr
    rcases hback other r hr with ⟨-, rfl⟩ | hr
    · exact rfl
    · exact h.fits other r hr

theorem claim {call : CompileCall} {claim : Option ρ} (h : Ordered prepare events s)
    (hp : s.calls id = some ⟨call, claim, .begun⟩) (hrole : call.roleState = true)
    (hfree : s.inUse = false) :
    Ordered prepare events
      { s.setCall id (some ⟨call, some s.roles, .claimed⟩) with inUse := true } := by
  have hnone : ∀ other r, s.calls other = some r → r.claim.isSome → False := by
    intro other r hr hs
    rw [h.held other r hr hs] at hfree
    cases hfree
  have hback : ∀ other r, (s.setCall id (some ⟨call, some s.roles, .claimed⟩)).calls other =
      some r → (other = id ∧ r = ⟨call, some s.roles, .claimed⟩) ∨ s.calls other = some r := by
    intro other r hr
    rcases Shared.setCall_cases hr with ⟨ho, hq⟩ | ⟨-, hr⟩
    · exact Or.inl ⟨ho, (Option.some.inj hq).symm⟩
    · exact Or.inr hr
  refine ⟨h.once, h.started, ?_, ?_, fun _ _ _ _ => rfl, ?_, ?_⟩
  · intro other r hr
    rcases hback other r hr with ⟨rfl, rfl⟩ | hr
    · exact h.listed other ⟨call, claim, .begun⟩ hp
    · exact h.listed other r hr
  · intro a b r t hr ht he
    rcases hback a r hr with ⟨rfl, rfl⟩ | hr' <;> rcases hback b t ht with ⟨rfl, rfl⟩ | ht'
    · rfl
    · exact h.single a b _ t hp ht' he
    · exact h.single a b r _ hr' hp he
    · exact h.single a b r t hr' ht' he
  · intro a b r t hr ht hs hs'
    rcases hback a r hr with ⟨rfl, -⟩ | hr'
    · rcases hback b t ht with ⟨rfl, -⟩ | ht'
      · rfl
      · exact (hnone b t ht' hs').elim
    · exact (hnone a r hr' hs).elim
  · intro other r hr
    rcases hback other r hr with ⟨-, rfl⟩ | hr
    · simp [Compiling.Fits, hrole, Shared.setCall]
    · exact h.fits other r hr

/-- A call publishes its maps; nobody else holds the claim, so nobody else has looked at
the maps it replaces. -/
theorem publish {call : CompileCall} {claim next : Option ρ} (h : Ordered prepare events s)
    (hp : s.calls id = some ⟨call, claim, .built next⟩) :
    Ordered prepare events
      { s.setCall id (some ⟨call, claim, .ended (.ok ())⟩) with roles := next.getD s.roles } := by
  have hmove : Ordered prepare events (s.setCall id (some ⟨call, claim, .ended (.ok ())⟩)) :=
    h.progress hp trivial
  refine ⟨hmove.once, hmove.started, hmove.listed, hmove.single, hmove.held, hmove.exclusive, ?_⟩
  intro other r hr
  cases hn : next with
  | none => exact hmove.fits other r hr
  | some roles =>
    -- What is published was prepared under the claim.
    obtain ⟨hclaim, hnext⟩ := h.fits id _ hp
    have hsome : claim.isSome := by
      simp only [hn] at hnext
      split at hnext
      · rename_i hc
        simp only [CompileCall.commits, Bool.and_eq_true] at hc
        simp only at hclaim
        rw [hclaim, if_pos hc.1]
        rfl
      · cases hnext
    rcases Shared.setCall_cases hr with ⟨rfl, hq⟩ | ⟨hne, hr⟩
    · obtain rfl := Option.some.inj hq
      exact trivial
    · have hfree : r.claim = none := by
        cases hrc : r.claim with
        | none => rfl
        | some m => exact absurd (h.exclusive other id r _ hr hp (by simp [hrc]) hsome) hne
      have hfits := h.fits other r hr
      -- Without a claim the call was not given the retained maps, so it does not mind.
      have hrole : ∀ m : ρ, r.claim = (if r.call.roleState then some m else none) →
          r.claim = (if r.call.roleState then some roles else none) := by
        intro m hm
        rw [hfree] at hm ⊢
        cases hb : r.call.roleState with
        | true => simp [hb] at hm
        | false => rfl
      unfold Compiling.Fits at hfits ⊢
      split at hfits
      · exact hfits
      · exact hrole _ hfits
      · exact ⟨hrole _ hfits.1, hfits.2⟩
      · exact ⟨hrole _ hfits.1, hfits.2⟩
      · exact trivial
      · exact trivial

/-- A call returns and drops its claim, if it has one. -/
theorem release {p : Compiling ρ} (h : Ordered prepare events s) (hp : s.calls id = some p) :
    Ordered prepare events
      { s.setCall id none with inUse := if p.claim.isSome then false else s.inUse } := by
  have hmove : Ordered prepare events (s.setCall id none) := h.remove
  refine ⟨hmove.once, hmove.started, hmove.listed, hmove.single, ?_, hmove.exclusive, hmove.fits⟩
  intro other r hr hs
  rcases Shared.setCall_cases hr with ⟨-, hq⟩ | ⟨hne, hr⟩
  · cases hq
  · have hnone : p.claim.isSome = false := by
      cases hc : p.claim.isSome with
      | false => rfl
      | true => exact absurd (h.exclusive other id r p hr hp hs hc) hne
    simpa [hnone] using h.held other r hr hs

/-- One step keeps all of it. -/
theorem step {event : CompileEvent} {t : Shared ρ} (h : Ordered prepare events s)
    (hstep : CompileStep prepare s event t) : Ordered prepare (events ++ [event]) t := by
  cases hstep with
  | invalid => exact h.quiet rfl
  | refused => exact h.quiet rfl
  | began _ hid hstart =>
    obtain ⟨hidle, rfl⟩ := CompilerState.start_ok hstart
    exact h.begin hid hidle
  | planFailed hp _ => exact h.remove.quiet rfl
  | claimed hp hrole hfree => exact (h.claim hp hrole hfree).quiet rfl
  | inUse hp _ _ =>
    refine quiet ?_ rfl
    exact h.progress hp trivial
  | unclaimed hp hrole =>
    refine quiet (h.progress hp ?_) rfl
    have hfits := h.fits _ _ hp
    simpa [Compiling.Fits, hrole] using hfits
  | prepared hp =>
    refine quiet (h.progress hp ?_) rfl
    have hclaim := h.fits _ _ hp
    simp only [Compiling.Fits] at hclaim
    exact ⟨hclaim, by rw [hclaim]⟩
  | unprepared hp =>
    refine quiet ?_ rfl
    exact h.progress hp trivial
  | built hp =>
    refine quiet (h.progress hp ?_) rfl
    obtain ⟨hclaim, hroles⟩ := h.fits _ _ hp
    exact ⟨hclaim, by rw [hroles]⟩
  | unbuilt hp =>
    refine quiet ?_ rfl
    exact h.progress hp trivial
  | poisoned hp =>
    refine quiet ?_ rfl
    exact h.progress hp trivial
  | finished hp hfinish =>
    exact quiet (publish (h.setState (CompilerState.moves_of_finish hfinish)) hp) rfl
  | overtaken hp hfinish =>
    exact quiet (progress (h.setState (CompilerState.moves_of_finish hfinish)) hp trivial) rfl
  | failed hp hfinish =>
    exact quiet (progress (h.setState (CompilerState.moves_of_finish hfinish)) hp trivial) rfl
  | returned hp =>
    refine quiet ?_ rfl
    exact h.release hp
  | cancelled => exact (h.setState (CompilerState.cancel_moves _)).quiet rfl

theorem run {composite : CompilerId → Bool} {roles : ρ}
    (h : Run (CompileStep prepare) (Shared.start composite roles) events s) :
    Ordered prepare events s :=
  h.invariant (initial composite roles) (fun _ _ _ _ hi hs => hi.step hs)

end Ordered

theorem CompileStep.moves {s t : Shared ρ} {event : CompileEvent}
    (h : CompileStep prepare s event t) (c : CompilerId) : (s.states c).Moves (t.states c) := by
  have hset : ∀ compiler state, (s.states compiler).Moves state →
      (s.states c).Moves ((s.setState compiler state).states c) := by
    intro compiler state hmove
    by_cases hc : c = compiler
    · subst hc
      simpa [Shared.setState] using hmove
    · simpa [Shared.setState, Function.update_of_ne hc] using .stay (s.states c)
  cases h with
  | began _ _ hstart =>
    obtain ⟨hidle, rfl⟩ := CompilerState.start_ok hstart
    exact hset _ _ (hidle ▸ .begin)
  | finished _ hfinish => exact hset _ _ (CompilerState.moves_of_finish hfinish)
  | overtaken _ hfinish => exact hset _ _ (CompilerState.moves_of_finish hfinish)
  | failed _ hfinish => exact hset _ _ (CompilerState.moves_of_finish hfinish)
  | cancelled => exact hset _ _ (CompilerState.cancel_moves _)
  | _ => exact .stay _

/-- Every running compiler has a call in progress that will settle it, and a call that
ended well has settled it. -/
structure Attended (s : Shared ρ) : Prop where
  running : ∀ c, s.states c = .running →
    ∃ id p, s.calls id = some p ∧ p.call.compiler = c ∧ p.settled = false
  finished : ∀ id p, s.calls id = some p → p.phase = .ended (.ok ()) →
    s.states p.call.compiler = .finished

namespace Attended
variable {s : Shared ρ} {id : CompileId} {call : CompileCall} {claim claim' : Option ρ}
  {phase next : Phase ρ}

/-- A call goes on without settling. -/
theorem progress (h : Attended s) (hp : s.calls id = some ⟨call, claim, phase⟩)
    (hnext : (⟨call, claim', next⟩ : Compiling ρ).settled = false) :
    Attended (s.setCall id (some ⟨call, claim', next⟩)) := by
  refine ⟨?_, ?_⟩
  · intro c hc
    obtain ⟨other, p, hother, hpc, hps⟩ := h.running c hc
    by_cases ho : other = id
    · subst ho
      obtain rfl := Option.some.inj (hp.symm.trans hother)
      exact ⟨other, _, s.setCall_same _ _, hpc, hnext⟩
    · exact ⟨other, p, by simpa [Shared.setCall, Function.update_of_ne ho] using hother, hpc, hps⟩
  · intro other p hother hphase
    rcases Shared.setCall_cases hother with ⟨-, hq⟩ | ⟨-, hother⟩
    · obtain rfl := Option.some.inj hq
      simp only at hphase
      simp [Compiling.settled, hphase] at hnext
    · exact h.finished other p hother hphase

/-- A call settles its compiler. -/
theorem settle {state : CompilerState} {result : Except CompilerError Unit} (h : Attended s)
    (hp : s.calls id = some ⟨call, claim, phase⟩)
    (hsingle : ∀ other p, s.calls other = some p → p.call.compiler = call.compiler → other = id)
    (hstate : state ≠ .running) (hresult : result = .ok () → state = .finished) :
    Attended ((s.setState call.compiler state).setCall id (some ⟨call, claim, .ended result⟩)) := by
  refine ⟨?_, ?_⟩
  · intro c hc
    have hne : c ≠ call.compiler := by
      rintro rfl
      exact hstate (by simpa [Shared.setCall, Shared.setState] using hc)
    have hold : s.states c = .running := by
      simpa [Shared.setCall, Shared.setState, Function.update_of_ne hne] using hc
    obtain ⟨other, p, hother, hpc, hps⟩ := h.running c hold
    have ho : other ≠ id := by
      rintro rfl
      obtain rfl := Option.some.inj (hp.symm.trans hother)
      exact hne hpc.symm
    exact ⟨other, p, by simpa [Shared.setCall, Shared.setState, Function.update_of_ne ho] using
      hother, hpc, hps⟩
  · intro other p hother hphase
    rcases Shared.setCall_cases hother with ⟨-, hq⟩ | ⟨hne, hother⟩
    · obtain rfl := Option.some.inj hq
      simp only [Phase.ended.injEq] at hphase
      simpa [Shared.setCall, Shared.setState] using hresult hphase
    · have hpc : p.call.compiler ≠ call.compiler := fun he => hne (hsingle other p hother he)
      have hfin := h.finished other p hother hphase
      simpa [Shared.setCall, Shared.setState, Function.update_of_ne hpc] using hfin

theorem initial (composite : CompilerId → Bool) (roles : ρ) :
    Attended (Shared.start composite roles) :=
  ⟨fun _ hc => by simp [Shared.start] at hc, fun _ _ hp => by simp [Shared.start] at hp⟩

/-- A settled call is forgotten. -/
theorem remove {result : Except CompilerError Unit} (h : Attended s)
    (hp : s.calls id = some ⟨call, claim, .ended result⟩) (inUse : Bool) :
    Attended { s.setCall id none with inUse := inUse } := by
  refine ⟨?_, ?_⟩
  · intro c hc
    obtain ⟨other, p, hother, hpc, hps⟩ := h.running c hc
    have ho : other ≠ id := by
      rintro rfl
      obtain rfl := Option.some.inj (hp.symm.trans hother)
      cases hps
    exact ⟨other, p, by simpa [Shared.setCall, Function.update_of_ne ho] using hother, hpc, hps⟩
  · intro other p hother hphase
    rcases Shared.setCall_cases hother with ⟨-, hq⟩ | ⟨-, hother⟩
    · cases hq
    · exact h.finished other p hother hphase

/-- A call begins on a compiler that no call has begun on. -/
theorem begin (h : Attended s) (hid : s.calls id = none)
    (hfree : ∀ other p, s.calls other = some p → p.call.compiler ≠ call.compiler) :
    Attended ((s.setState call.compiler .running).setCall id (some ⟨call, none, .begun⟩)) := by
  refine ⟨?_, ?_⟩
  · intro c hc
    by_cases he : c = call.compiler
    · exact ⟨id, _, Shared.setCall_same _ _ _, he.symm, rfl⟩
    · have hold : s.states c = .running := by
        simpa [Shared.setCall, Shared.setState, Function.update_of_ne he] using hc
      obtain ⟨other, p, hother, hpc, hps⟩ := h.running c hold
      have ho : other ≠ id := by
        rintro rfl
        rw [hid] at hother
        cases hother
      exact ⟨other, p, by simpa [Shared.setCall, Shared.setState, Function.update_of_ne ho] using
        hother, hpc, hps⟩
  · intro other p hother hphase
    rcases Shared.setCall_cases hother with ⟨-, hq⟩ | ⟨-, hother⟩
    · obtain rfl := Option.some.inj hq
      cases hphase
    · have hold := h.finished other p hother hphase
      simpa [Shared.setCall, Shared.setState, Function.update_of_ne (hfree other p hother)] using
        hold

/-- A cancellation takes a compiler out of running and leaves a finished one alone. -/
theorem cancel (h : Attended s) (compiler : CompilerId) :
    Attended (s.setState compiler (s.states compiler).cancel.2) := by
  refine ⟨?_, ?_⟩
  · intro c hc
    have hne : c ≠ compiler := by
      rintro rfl
      exact CompilerState.cancel_ne_running _ (by simpa [Shared.setState] using hc)
    exact h.running c (by simpa [Shared.setState, Function.update_of_ne hne] using hc)
  · intro other p hother hphase
    have hfin := h.finished other p hother hphase
    by_cases he : p.call.compiler = compiler
    · subst he
      simp [Shared.setState, hfin, CompilerState.cancel]
    · simpa [Shared.setState, Function.update_of_ne he] using hfin

/-- A step keeps every running compiler attended, unless it gives up a plan. -/
theorem step {events : List CompileEvent} {t : Shared ρ} {event : CompileEvent}
    (h : Attended s) (ho : Ordered prepare events s) (hplan : event.planned)
    (hstep : CompileStep prepare s event t) : Attended t := by
  cases hstep with
  | invalid => exact h
  | refused => exact h
  | began _ hid hstart =>
    obtain ⟨hidle, rfl⟩ := CompilerState.start_ok hstart
    exact h.begin hid (fun other p hother he => ho.started _ (ho.listed other p hother) (he ▸ hidle))
  | planFailed => exact hplan.elim
  | @claimed id call _ hp _ _ =>
    have hprogress : Attended (s.setCall id (some ⟨call, some s.roles, .claimed⟩)) :=
      h.progress hp rfl
    exact ⟨hprogress.running, hprogress.finished⟩
  | inUse hp _ _ => exact h.progress hp rfl
  | unclaimed hp _ => exact h.progress hp rfl
  | prepared hp => exact h.progress hp rfl
  | unprepared hp => exact h.progress hp rfl
  | built hp => exact h.progress hp rfl
  | unbuilt hp => exact h.progress hp rfl
  | poisoned hp => exact h.progress hp rfl
  | @finished id call claim next _ hp hfinish =>
    obtain ⟨-, rfl⟩ := CompilerState.finishResult_ok hfinish
    have hsettle : Attended ((s.setState call.compiler .finished).setCall id
        (some ⟨call, claim, .ended (.ok ())⟩)) :=
      h.settle hp (fun other p hother he => ho.single other _ p _ hother hp he) (by simp)
        (fun _ => rfl)
    exact ⟨hsettle.running, hsettle.finished⟩
  | overtaken hp hfinish =>
    exact h.settle hp (fun other p hother he => ho.single other _ p _ hother hp he)
      (CompilerState.ne_running_of_finish hfinish) (fun he => by cases he)
  | failed hp hfinish =>
    refine h.settle hp (fun other p hother he => ho.single other _ p _ hother hp he)
      (CompilerState.ne_running_of_finish hfinish) ?_
    rintro rfl
    exact (CompilerState.finishResult_ok hfinish).2
  | returned hp => exact h.remove hp _
  | cancelled => exact h.cancel _

end Attended

end Projector.Native
