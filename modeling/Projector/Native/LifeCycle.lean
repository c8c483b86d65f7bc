import Projector.Lib.Runs

namespace Projector.Native
open Lib

/-- The values of the compiler's state atomic. -/
inductive CompilerState where
  | idle
  | running
  | finished
  | cancelled
  | failed
  deriving DecidableEq, Repr

inductive CompilerError where
  | invalidArgument (message : String)
  | cancelled
  | alreadyRunning
  | alreadyFinished
  | permanentlyFailed
  | changedState
  /-- the column plan of a composite could not be allocated -/
  | plan
  | roleStateInUse
  /-- the kernel refused the table, ran out of memory or panicked under `guarded` -/
  | preparation
  /-- raised while the results were built -/
  | output
  /-- a mutex that a panic poisoned -/
  | poisoned
  deriving DecidableEq, Repr

namespace CompilerState

/-- `begin` -/
def start : CompilerState → Except CompilerError CompilerState
  | idle => .ok running
  | cancelled => .error .cancelled
  | running => .error .alreadyRunning
  | finished => .error .alreadyFinished
  | failed => .error .permanentlyFailed

/-- `finish_result` of a result. -/
def finishResult (result : Except CompilerError Unit) (state : CompilerState) :
    Except CompilerError Unit × CompilerState :=
  match result, state with
  | .ok (), running => (.ok (), finished)
  | .ok (), cancelled => (.error .cancelled, cancelled)
  | .ok (), state => (.error .changedState, state)
  | .error error, running => (.error error, failed)
  | .error _, cancelled => (.error .cancelled, cancelled)
  | .error error, state => (.error error, state)

def cancel : CompilerState → Bool × CompilerState
  | idle => (true, cancelled)
  | running => (true, cancelled)
  | state => (false, state)

end CompilerState

structure DirectCompileOptions where
  bidirectional : Bool
  assertedTaxonomyOnly : Bool
  onlyTaxonomy : Bool
  includeLiterals : Bool
  maxEdges : Nat
  maxIriBytes : Nat
  deriving DecidableEq, Repr

inductive EntryPoint where
  | compileBatch
  | compileBatches (batchEdges : Nat)
  deriving DecidableEq, Repr

abbrev CompilerId := Nat

abbrev CompileId := Nat

/-- One call of `compile_batch` or `compile_batches`. -/
structure CompileCall where
  compiler : CompilerId
  entry : EntryPoint
  options : DirectCompileOptions
  /-- whether the retained role state is passed -/
  roleState : Bool
  deriving DecidableEq, Repr

def EntryPoint.check : EntryPoint → Except CompilerError Unit
  | compileBatch => .ok ()
  | compileBatches 0 => .error (.invalidArgument "batch_edges must be positive")
  | compileBatches _ => .ok ()

def CompileCall.check (call : CompileCall) : Except CompilerError Unit :=
  if call.options.maxEdges = 0 then .error (.invalidArgument "max_edges must be positive")
  else if call.options.maxIriBytes = 0 then
    .error (.invalidArgument "max_iri_bytes must be positive")
  else call.entry.check

/-- Whether a call publishes the role maps it prepared. -/
def CompileCall.commits (call : CompileCall) : Bool :=
  call.roleState && !call.options.assertedTaxonomyOnly

inductive Phase (ρ : Type) where
  /-- running, with the claim still to make -/
  | begun
  | claimed
  | prepared (roles : ρ)
  /-- every fallible step is done; the maps to publish, if any -/
  | built (next : Option ρ)
  | failing (error : CompilerError)
  /-- settled by `finish_result`; the claim is dropped on return -/
  | ended (result : Except CompilerError Unit)

/-- A call in progress. `claim` is what was retained when it made its claim. -/
structure Compiling (ρ : Type) where
  call : CompileCall
  claim : Option ρ
  phase : Phase ρ

/-- Compilers that share one retained role state. `composite` are those built over the
members of a composite. -/
structure Shared (ρ : Type) where
  composite : CompilerId → Bool
  states : CompilerId → CompilerState
  inUse : Bool
  roles : ρ
  calls : CompileId → Option (Compiling ρ)

inductive CompileEvent where
  | began (id : CompileId) (call : CompileCall)
  /-- a step of `call` that only it can see -/
  | worked (id : CompileId) (call : CompileCall)
  | claimed (id : CompileId) (call : CompileCall)
  | settled (id : CompileId) (call : CompileCall) (result : Except CompilerError Unit)
  | returned (id : CompileId) (call : CompileCall) (result : Except CompilerError Unit)
  /-- raised without having moved to running -/
  | refused (call : CompileCall) (error : CompilerError)
  | cancelled (compiler : CompilerId) (result : Bool)

variable {ρ : Type}

namespace Shared

def start (composite : CompilerId → Bool) (roles : ρ) : Shared ρ :=
  ⟨composite, fun _ => .idle, false, roles, fun _ => none⟩

def setState (s : Shared ρ) (compiler : CompilerId) (state : CompilerState) : Shared ρ :=
  { s with states := Function.update s.states compiler state }

def setCall (s : Shared ρ) (id : CompileId) (progress : Option (Compiling ρ)) : Shared ρ :=
  { s with calls := Function.update s.calls id progress }

end Shared

/-- The atomic steps of any number of calls and cancellations. `prepare` gives the role
maps a call prepares from the maps it is shown. -/
inductive CompileStep (prepare : CompileCall → Option ρ → ρ) :
    Shared ρ → CompileEvent → Shared ρ → Prop where
  | invalid {s call error} : call.check = .error error →
      CompileStep prepare s (.refused call error) s
  | refused {s call error} : (s.states call.compiler).start = .error error →
      CompileStep prepare s (.refused call error) s
  | began {s id call state} : call.check = .ok () → s.calls id = none →
      (s.states call.compiler).start = .ok state →
      CompileStep prepare s (.began id call)
        ((s.setState call.compiler state).setCall id (some ⟨call, none, .begun⟩))
  -- The plan of a composite is built with `?` right after `begin`: where its allocation
  -- fails, the call returns without `finish_result`.
  | planFailed {s id call claim} : s.calls id = some ⟨call, claim, .begun⟩ →
      s.composite call.compiler = true →
      CompileStep prepare s (.returned id call (.error .plan)) (s.setCall id none)
  | claimed {s id call claim} : s.calls id = some ⟨call, claim, .begun⟩ →
      call.roleState = true → s.inUse = false →
      CompileStep prepare s (.claimed id call)
        { s.setCall id (some ⟨call, some s.roles, .claimed⟩) with inUse := true }
  | inUse {s id call claim} : s.calls id = some ⟨call, claim, .begun⟩ →
      call.roleState = true → s.inUse = true →
      CompileStep prepare s (.worked id call)
        (s.setCall id (some ⟨call, claim, .failing .roleStateInUse⟩))
  | unclaimed {s id call claim} : s.calls id = some ⟨call, claim, .begun⟩ →
      call.roleState = false →
      CompileStep prepare s (.worked id call) (s.setCall id (some ⟨call, claim, .claimed⟩))
  | prepared {s id call claim} : s.calls id = some ⟨call, claim, .claimed⟩ →
      CompileStep prepare s (.worked id call) (s.setCall id (some ⟨call, claim,
        .prepared (prepare call (if call.roleState then some s.roles else none))⟩))
  | unprepared {s id call claim} : s.calls id = some ⟨call, claim, .claimed⟩ →
      CompileStep prepare s (.worked id call)
        (s.setCall id (some ⟨call, claim, .failing .preparation⟩))
  | built {s id call claim roles} : s.calls id = some ⟨call, claim, .prepared roles⟩ →
      CompileStep prepare s (.worked id call) (s.setCall id (some ⟨call, claim,
        .built (if call.commits then some roles else none)⟩))
  | unbuilt {s id call claim roles} : s.calls id = some ⟨call, claim, .prepared roles⟩ →
      CompileStep prepare s (.worked id call)
        (s.setCall id (some ⟨call, claim, .failing .output⟩))
  | poisoned {s id call claim next} : s.calls id = some ⟨call, claim, .built next⟩ →
      CompileStep prepare s (.worked id call)
        (s.setCall id (some ⟨call, claim, .failing .poisoned⟩))
  -- The role mutex is held across the state change, so both happen in one step.
  | finished {s id call claim next state} : s.calls id = some ⟨call, claim, .built next⟩ →
      (s.states call.compiler).finishResult (.ok ()) = (.ok (), state) →
      CompileStep prepare s (.settled id call (.ok ()))
        { (s.setState call.compiler state).setCall id (some ⟨call, claim, .ended (.ok ())⟩) with
          roles := next.getD s.roles }
  | overtaken {s id call claim next error state} :
      s.calls id = some ⟨call, claim, .built next⟩ →
      (s.states call.compiler).finishResult (.ok ()) = (.error error, state) →
      CompileStep prepare s (.settled id call (.error error))
        ((s.setState call.compiler state).setCall id (some ⟨call, claim, .ended (.error error)⟩))
  | failed {s id call claim error result state} :
      s.calls id = some ⟨call, claim, .failing error⟩ →
      (s.states call.compiler).finishResult (.error error) = (result, state) →
      CompileStep prepare s (.settled id call result)
        ((s.setState call.compiler state).setCall id (some ⟨call, claim, .ended result⟩))
  | returned {s id call claim result} : s.calls id = some ⟨call, claim, .ended result⟩ →
      CompileStep prepare s (.returned id call result)
        { s.setCall id none with inUse := if claim.isSome then false else s.inUse }
  | cancelled {s compiler} : CompileStep prepare s
      (.cancelled compiler (s.states compiler).cancel.1)
      (s.setState compiler (s.states compiler).cancel.2)

/-- The compiler a call moved to running. -/
def CompileEvent.begun? : CompileEvent → Option CompilerId
  | .began _ call => some call.compiler
  | _ => none

/-- The plan of the call was built. -/
def CompileEvent.planned : CompileEvent → Prop
  | .returned _ _ (.error .plan) => False
  | _ => True

end Projector.Native
