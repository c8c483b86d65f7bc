import Projector.Lib.ByteStream

namespace Projector.Lib

/-- A computation that shares the memory `μ` with others. One that does not answer runs out
of fuel. -/
structure Shared (μ ε α : Type) where
  run : μ → Option (Except ε (μ × α))

namespace Shared
variable {μ ε α γ : Type} {x : Shared μ ε α} {f : α → Shared μ ε γ} {memory memory' : μ} {a : α} {e : ε}

/-- What follows a result: an error is passed on. -/
def follow (f : α → Shared μ ε γ) : Option (Except ε (μ × α)) → Option (Except ε (μ × γ))
  | none => none
  | some (.error e) => some (.error e)
  | some (.ok (memory, a)) => (f a).run memory

instance : Monad (Shared μ ε) where
  pure a := ⟨fun memory => some (.ok (memory, a))⟩
  bind x f := ⟨fun memory => follow f (x.run memory)⟩

/-- The run has no fuel left. -/
def exhausted : Shared μ ε α := ⟨fun _ => none⟩

def lift (x : Except ε α) : Shared μ ε α := ⟨fun memory => some (x.map (memory, ·))⟩

theorem bind_ok (h : x.run memory = some (.ok (memory', a))) :
    (x >>= f).run memory = (f a).run memory' := by
  change follow f (x.run memory) = _
  rw [h]
  rfl

theorem bind_error (h : x.run memory = some (.error e)) :
    (x >>= f).run memory = some (.error e) := by
  change follow f (x.run memory) = _
  rw [h]
  rfl

theorem follow_pure (r : Option (Except ε (μ × α))) : follow (pure : α → Shared μ ε α) r = r := by
  cases r with
  | none => rfl
  | some r => cases r <;> rfl

theorem follow_follow {δ : Type} (g : γ → Shared μ ε δ) (r : Option (Except ε (μ × α))) :
    follow g (follow f r) = follow (fun a => f a >>= g) r := by
  cases r with
  | none => rfl
  | some r => cases r <;> rfl

instance : LawfulMonad (Shared μ ε) := LawfulMonad.mk' _
  (fun x => congrArg Shared.mk (funext fun memory => follow_pure (x.run memory)))
  (fun _ _ => rfl)
  (fun x _ g => congrArg Shared.mk (funext fun memory => follow_follow g (x.run memory)))

/-- What came before a result that is a value. -/
theorem ok_of_bind {c : γ} (h : (x >>= f).run memory = some (.ok (memory', c))) :
    ∃ a between, x.run memory = some (.ok (between, a)) ∧
      (f a).run between = some (.ok (memory', c)) := by
  change follow f (x.run memory) = _ at h
  unfold follow at h
  split at h
  · cases h
  · cases h
  · rename_i between a hx
    exact ⟨a, between, hx, h⟩

end Shared

/-- A result that is as expected, unless it is refused. -/
def Concludes {μ ε α : Type} (Keeps : μ → Prop) (Refused : ε → Prop)
    (result : Option (Except ε (μ × α))) : Except ε α → Prop
  | .ok a => Answers Keeps Refused result a
  | .error e => result = some (.error e) ∨ ∃ e', Refused e' ∧ result = some (.error e')

/-- With enough fuel a run ends as expected, from any memory that is kept. -/
def Settles {μ ε α : Type} (Keeps : μ → Prop) (Refused : ε → Prop) (x : Nat → Shared μ ε α)
    (result : Except ε α) : Prop :=
  ∃ enough, ∀ fuel, enough ≤ fuel → ∀ memory, Keeps memory →
    Concludes Keeps Refused ((x fuel).run memory) result

section Rules
variable {μ ε α γ : Type} {Keeps : μ → Prop} {Refused : ε → Prop} {x : Nat → Shared μ ε α}
  {f : Nat → α → Shared μ ε γ} {a : α} {e : ε} {result : Except ε γ}

theorem Settles.pure : Settles Keeps Refused (fun _ => (Pure.pure a : Shared μ ε α)) (.ok a) :=
  ⟨0, fun _ _ memory hm => .inl ⟨memory, hm, rfl⟩⟩

theorem Settles.lift (y : Except ε α) : Settles Keeps Refused (fun _ => Shared.lift y) y := by
  refine ⟨0, fun _ _ memory hm => ?_⟩
  cases y with
  | ok a => exact .inl ⟨memory, hm, rfl⟩
  | error e => exact .inl rfl

theorem Settles.bind (hx : Settles Keeps Refused x (.ok a))
    (hf : Settles Keeps Refused (fun fuel => f fuel a) result) :
    Settles Keeps Refused (fun fuel => x fuel >>= f fuel) result := by
  obtain ⟨enough, hx⟩ := hx
  obtain ⟨more, hf⟩ := hf
  refine ⟨max enough more, fun fuel hfuel memory hm => ?_⟩
  have hfirst : enough ≤ fuel := le_trans (Nat.le_max_left _ _) hfuel
  have hsecond : more ≤ fuel := le_trans (Nat.le_max_right _ _) hfuel
  rcases hx fuel hfirst memory hm with ⟨memory', hm', hok⟩ | ⟨e, he, herror⟩
  · rw [Shared.bind_ok hok]
    exact hf fuel hsecond memory' hm'
  · rw [Shared.bind_error herror]
    cases result with
    | ok c => exact .inr ⟨e, he, rfl⟩
    | error _ => exact .inr ⟨e, he, rfl⟩

theorem Settles.bindError (hx : Settles Keeps Refused x (.error e)) :
    Settles Keeps Refused (fun fuel => x fuel >>= f fuel) (.error e) := by
  obtain ⟨enough, hx⟩ := hx
  refine ⟨enough, fun fuel hfuel memory hm => ?_⟩
  rcases hx fuel hfuel memory hm with herror | ⟨e', he', herror⟩
  · rw [Shared.bind_error herror]
    exact .inl rfl
  · rw [Shared.bind_error herror]
    exact .inr ⟨e', he', rfl⟩

/-- A run that takes its turn only with some fuel left. -/
theorem Settles.later {y : Nat → Shared μ ε α} {expected : Except ε α}
    (hy : Settles Keeps Refused y expected) (h : ∀ fuel, x (fuel + 1) = y fuel) :
    Settles Keeps Refused x expected := by
  obtain ⟨enough, hy⟩ := hy
  refine ⟨enough + 1, fun fuel hfuel memory hm => ?_⟩
  obtain ⟨fuel, rfl⟩ := Nat.exists_eq_add_of_le' (Nat.le_of_add_left_le hfuel)
  rw [h fuel]
  exact hy fuel (by omega) memory hm

end Rules

/-- A run that answers gives the same answer with more fuel. -/
def Steady {μ ε α : Type} (x : Nat → Shared μ ε α) : Prop :=
  ∀ fuel more : Nat, fuel ≤ more → ∀ (memory : μ) (r : Except ε (μ × α)),
    (x fuel).run memory = some r → (x more).run memory = some r

section Steadiness
variable {μ ε α γ : Type} {Keeps : μ → Prop} {Refused : ε → Prop} {x : Nat → Shared μ ε α}
  {f : Nat → α → Shared μ ε γ}

theorem Steady.const (y : Shared μ ε α) : Steady fun _ => y := fun _ _ _ _ _ h => h

theorem Steady.bind (hx : Steady x) (hf : ∀ a, Steady fun fuel => f fuel a) :
    Steady fun fuel => x fuel >>= f fuel := by
  intro fuel more hle memory r h
  change Shared.follow (f fuel) ((x fuel).run memory) = some r at h
  change Shared.follow (f more) ((x more).run memory) = some r
  cases hfirst : (x fuel).run memory with
  | none =>
    rw [hfirst] at h
    cases h
  | some result =>
    rw [hfirst] at h
    rw [hx fuel more hle memory result hfirst]
    cases result with
    | error e => exact h
    | ok result => exact hf result.2 fuel more hle result.1 r h

/-- A value that is given with some fuel is the one that the run settles on. -/
theorem Steady.settled {fuel : Nat} {memory memory' : μ} {a b : α} (hx : Steady x)
    (hsettles : Settles Keeps Refused x (.ok a)) (hm : Keeps memory)
    (h : (x fuel).run memory = some (.ok (memory', b))) : b = a := by
  obtain ⟨enough, hall⟩ := hsettles
  have hmore := hx fuel _ (Nat.le_max_right enough fuel) memory _ h
  rcases hall _ (Nat.le_max_left enough fuel) memory hm with ⟨_, _, hok⟩ | ⟨_, _, herror⟩
  · rw [hmore] at hok
    cases hok
    rfl
  · rw [hmore] at herror
    cases herror

end Steadiness

end Projector.Lib
