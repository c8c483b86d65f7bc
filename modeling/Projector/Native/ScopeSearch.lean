import Mathlib.Data.List.Lex
import Projector.Native.BuiltTable

namespace Projector.Native
open Lib Projector.Core Projector.Encoded

section Search
variable {value : Bytes}

/-- The sources of the rows of a scope map ascend. -/
def AscendingSources (value : Bytes) : Prop :=
  ∀ i j, i < j → j < value.length / 64 → scopeSource value i < scopeSource value j

theorem checkScopeRow_ok {previous next : Option Bytes} {index : Nat}
    (h : checkScopeRow value previous index = .ok next) :
    next = some (scopeSource value index) ∧
    ∀ p, previous = some p → p < scopeSource value index := by
  unfold checkScopeRow at h
  dsimp only at h
  split at h
  · cases h
  · cases previous with
    | none =>
      cases h
      exact ⟨rfl, fun p he => (by cases he)⟩
    | some p =>
      dsimp only at h
      split at h
      · cases h
      · rename_i hfollows
        cases h
        refine ⟨rfl, fun q he => ?_⟩
        cases he
        simpa [scopeSource] using hfollows

theorem ascending_of_valid {u : Unit} (h : validateScopeMap value = .ok u) :
    AscendingSources value := by
  unfold validateScopeMap at h
  obtain ⟨last, hrows, -⟩ := bind_ok h
  rw [List.range_eq_range'] at hrows
  have hsteps := foldlM_range_ok
    (fun i previous => (∀ k, k + 1 < i → scopeSource value k < scopeSource value (k + 1)) ∧
      previous = if i = 0 then none else some (scopeSource value (i - 1)))
    (value.length / 64) 0 none last hrows ⟨fun k hk => by omega, rfl⟩ (by
      intro k previous next _ _ hinv hstep
      obtain ⟨hsorted, hprevious⟩ := hinv
      obtain ⟨rfl, hfollows⟩ := checkScopeRow_ok hstep
      refine ⟨fun i hi => ?_, rfl⟩
      by_cases hlast : i + 1 = k
      · subst hlast
        exact hfollows _ hprevious
      · exact hsorted i (by omega))
  rw [Nat.zero_add] at hsteps
  intro i j hij hj
  induction j with
  | zero => omega
  | succ j ih =>
    have hstep := hsteps.1 j hj
    by_cases heq : i = j
    · exact heq ▸ hstep
    · exact (ih (by omega) (by omega)).trans hstep

/-- A row of a scope map is found through its source. -/
theorem scopeMapOf_row (hsorted : AscendingSources value) {i : Nat} (hi : i < value.length / 64) :
    scopeMapOf value (scopeSource value i) = some (scopeTarget value i) := by
  unfold scopeMapOf
  have hfind : (List.range (value.length / 64)).find?
      (fun k => scopeSource value k == scopeSource value i) = some i := by
    rw [List.find?_range_eq_some]
    refine ⟨by simp, List.mem_range.mpr hi, fun k hk => ?_⟩
    have hlt := hsorted k i hk hi
    have hne : scopeSource value k ≠ scopeSource value i := fun he => lt_irrefl _ (he ▸ hlt)
    simpa using hne
  rw [hfind]
  rfl

theorem scopeMapOf_none {scope : Bytes}
    (h : ∀ i < value.length / 64, scopeSource value i ≠ scope) : scopeMapOf value scope = none := by
  unfold scopeMapOf
  rw [Option.map_eq_none_iff, List.find?_eq_none]
  intro i hi
  simpa using h i (List.mem_range.mp hi)

/-- No row is left between the rows before and after a scope. -/
theorem scopeMapOf_between {scope : Bytes} {start stop : Nat} (hdone : ¬start < stop)
    (hbefore : ∀ i < start, scopeSource value i < scope)
    (hafter : ∀ i, stop ≤ i → i < value.length / 64 → scope < scopeSource value i) :
    (scopeMapOf value scope).getD scope = scope := by
  rw [scopeMapOf_none]
  · rfl
  · intro i hi he
    by_cases hlow : i < start
    · exact lt_irrefl _ (he ▸ hbefore i hlow)
    · exact lt_irrefl _ (he ▸ hafter i (by omega) hi)

/-- The binary search finds what the mapping holds. -/
theorem searchScope_eq (hsorted : AscendingSources value) {scope : Bytes} {fuel start stop : Nat}
    (hfuel : stop - start ≤ fuel) (hstop : stop ≤ value.length / 64)
    (hbefore : ∀ i < start, scopeSource value i < scope)
    (hafter : ∀ i, stop ≤ i → i < value.length / 64 → scope < scopeSource value i) :
    DirectColumns.searchScope value scope fuel start stop = (scopeMapOf value scope).getD scope := by
  induction fuel generalizing start stop with
  | zero => exact (scopeMapOf_between (by omega) hbefore hafter).symm
  | succ fuel ih =>
    unfold DirectColumns.searchScope
    by_cases hopen : start < stop
    · rw [if_pos hopen]
      dsimp only
      have hmiddle : start + (stop - start) / 2 < stop := by omega
      split
      · rename_i hlt
        refine ih (by omega) hstop (fun i hi => ?_) hafter
        by_cases heq : i = start + (stop - start) / 2
        · exact heq ▸ hlt
        · exact (hsorted i _ (by omega) (by omega)).trans hlt
      · split
        · rename_i hgt
          refine ih (by omega) (by omega) hbefore (fun i hi hrow => ?_)
          by_cases heq : i = start + (stop - start) / 2
          · exact heq ▸ hgt
          · exact hgt.trans (hsorted _ i (by omega) hrow)
        · rename_i hle hge
          have heq : scopeSource value (start + (stop - start) / 2) = scope :=
            le_antisymm (not_lt.mp hge) (not_lt.mp hle)
          have hrow := scopeMapOf_row hsorted (i := start + (stop - start) / 2) (by omega)
          rw [heq] at hrow
          rw [hrow]
          rfl
    · rw [if_neg hopen, scopeMapOf_between hopen hbefore hafter]

/-- Remapping applies the mapping that the buffer spells out. -/
theorem remapAnonymousScope_eq (columns : Columns) (hsorted : AscendingSources value)
    (scope : Bytes) : (DirectColumns.ofTable columns value).remapAnonymousScope scope =
      (scopeMapOf value scope).getD scope := by
  unfold DirectColumns.ofTable DirectColumns.remapAnonymousScope
  by_cases hempty : value.isEmpty = true
  · obtain rfl := List.isEmpty_iff.mp hempty
    rfl
  · simp only [if_neg hempty, List.foldl_cons, List.foldl_nil]
    exact searchScope_eq hsorted (by omega) (Nat.le_refl _) (fun i hi => by omega)
      (fun i hlow hhigh => by omega)

theorem rows32_scopeMapOf (value : Bytes) : Rows32 (scopeMapOf value) := by
  intro source target h
  unfold scopeMapOf at h
  obtain ⟨i, hfind, rfl⟩ := Option.map_eq_some_iff.mp h
  have hi := List.mem_range.mp (List.mem_of_find?_eq_some hfind)
  have hsource : scopeSource value i = source := by simpa using List.find?_some hfind
  have hinside : i * 64 + 64 ≤ value.length := by omega
  refine ⟨?_, ?_⟩
  · rw [← hsource]
    simp only [scopeSource, rowAt, List.length_take, List.length_drop]
    omega
  · simp only [scopeTarget, rowAt, List.length_take, List.length_drop]
    omega

end Search

end Projector.Native
