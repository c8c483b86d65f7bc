import Mathlib.Data.Nat.Basic

namespace Projector.Lib

section Search
variable {M : Type → Type} [Monad M] (below : Nat → M Bool)

/-- The binary search for the first position that is not below what is sought. -/
def lowerBound : Nat → Nat → Nat → M Nat
  | 0, start, _ => pure start
  | fuel + 1, start, stop =>
    if start < stop then do
      let middle := start + (stop - start) / 2
      if ← below middle then lowerBound fuel (middle + 1) stop
      else lowerBound fuel start middle
    else pure start

/-- `position` divides the positions from `start` to `stop` into those below and the others. -/
structure Divides (isBelow : Nat → Bool) (start stop position : Nat) : Prop where
  inside : start ≤ position ∧ position ≤ stop
  before : ∀ i, start ≤ i → i < position → isBelow i = true
  after : ∀ i, position ≤ i → i < stop → isBelow i = false

variable {isBelow : Nat → Bool} {start stop position : Nat}

/-- Once a position is not below, no later one is. -/
def Falls (isBelow : Nat → Bool) (stop : Nat) : Prop :=
  ∀ i j, i ≤ j → j < stop → isBelow j = true → isBelow i = true

theorem Falls.of_not {i j : Nat} (h : Falls isBelow stop) (hle : i ≤ j) (hj : j < stop)
    (hi : isBelow i = false) : isBelow j = false := by
  cases hbelow : isBelow j with
  | false => rfl
  | true =>
    rw [h i j hle hj hbelow] at hi
    cases hi

/-- The search on any answers that fall. -/
theorem lowerBound_eq [LawfulMonad M] (below : Nat → M Bool) (isBelow : Nat → Bool)
    (hfalls : Falls isBelow stop) (hbelow : ∀ i < stop, below i = pure (isBelow i)) {fuel : Nat}
    (hle : start ≤ stop) (hfuel : stop - start ≤ fuel) :
    ∃ position, lowerBound below fuel start stop = pure position ∧
      Divides isBelow start stop position := by
  induction fuel generalizing start stop with
  | zero =>
    obtain rfl : start = stop := by omega
    exact ⟨start, rfl, ⟨Nat.le_refl _, Nat.le_refl _⟩, fun i _ _ => by omega, fun i _ _ => by omega⟩
  | succ fuel ih =>
    unfold lowerBound
    by_cases hlt : start < stop
    · rw [if_pos hlt]
      dsimp only
      generalize hmiddle : start + (stop - start) / 2 = middle
      rw [hbelow middle (by omega), pure_bind]
      cases hcase : isBelow middle with
      | true =>
        obtain ⟨position, hposition, hdivides⟩ := ih hfalls hbelow
          (show middle + 1 ≤ stop by omega) (by omega)
        have hinside := hdivides.inside
        refine ⟨position, hposition, ⟨by omega, by omega⟩, fun i _ hi => ?_, hdivides.after⟩
        by_cases hpast : middle + 1 ≤ i
        · exact hdivides.before i hpast hi
        · exact hfalls i middle (by omega) (by omega) hcase
      | false =>
        have hfalls' : Falls isBelow middle := fun i j hij hj => hfalls i j hij (by omega)
        obtain ⟨position, hposition, hdivides⟩ := ih hfalls' (fun i hi => hbelow i (by omega))
          (show start ≤ middle by omega) (by omega)
        have hinside := hdivides.inside
        refine ⟨position, hposition, ⟨by omega, by omega⟩, hdivides.before, fun i hi hstop => ?_⟩
        by_cases hpast : i < middle
        · exact hdivides.after i hi hpast
        · exact hfalls.of_not (by omega) hstop hcase
    · rw [if_neg hlt]
      exact ⟨start, rfl, ⟨Nat.le_refl _, by omega⟩, fun i _ _ => by omega, fun i _ _ => by omega⟩

end Search

end Projector.Lib
