import Projector.Lib.Retain
import Projector.Native.Metered

namespace Projector.Native
open Lib

section Sorting
variable {β α : Type} (m : Meter β)

/-- Every 256th step looks at the cancellation flag. -/
def checkCancel (index : Nat) : Metered β Unit :=
  if index % 256 = 0 then m.consumed 0 else pure ()

/-- The work counter of a sort, which counts its comparisons. -/
def pollWork (env : β × Nat) : Except KernelError (β × Nat) := do
  let work ← checkedAdd env.2 1 "encoded sort-work counter overflow"
  let (_, b) ← checkCancel m work env.1
  .ok (b, work)

def sortHost : SortHost KernelError (β × Nat) where
  poll := pollWork m
  check env := do
    let (_, b) ← checkCancel m 0 env.1
    .ok (b, env.2)
  limit := usizeLimit
  overflow := .resource "encoded sort index overflow"
  outOfBounds := .malformed "index out of bounds"

def cancellableSort (cmp : α → α → Ordering) (values : List α) : Metered β (List α) := fun b =>
  match HeapSort.sort (sortHost m) cmp ⟨values.toArray, (b, 0)⟩ with
  | .ok _ s => .ok (s.values.toList, s.env.1)
  | .error e _ => .error e

variable {m}

theorem Gives.checkCancel (index : Nat) : Gives m (checkCancel m index) () := by
  unfold Native.checkCancel
  split
  · exact Gives.consumed 0
  · exact Gives.pure

theorem checkCancel_error {index : Nat} {b : β} {e : KernelError}
    (h : checkCancel m index b = .error e) : Refusal m e := by
  rcases Gives.checkCancel (m := m) index b with ⟨b', hb⟩ | ⟨e', he, hb⟩
  · rw [hb] at h
    cases h
  · rw [hb] at h
    cases h
    exact he

/-- A sort is refused by the meter or by its own work counter. -/
theorem sortHost_refused {e : KernelError} (h : HeapSort.Refused (sortHost m) e) :
    Refusal m e ∨ e = .resource "encoded sort-work counter overflow" := by
  rcases h with ⟨env, hpoll | hcheck⟩
  · change pollWork m env = _ at hpoll
    unfold pollWork checkedAdd at hpoll
    split at hpoll
    · rw [ok_bind _ rfl] at hpoll
      cases hflag : checkCancel m (env.2 + 1) env.1 with
      | ok r =>
        rw [hflag] at hpoll
        cases hpoll
      | error e' =>
        rw [hflag] at hpoll
        cases hpoll
        exact .inl (checkCancel_error hflag)
    · cases hpoll
      exact .inr rfl
  · change (checkCancel m 0 env.1 >>= fun r => _) = _ at hcheck
    cases hflag : checkCancel m 0 env.1 with
    | ok r =>
      rw [hflag] at hcheck
      cases hcheck
    | error e' =>
      rw [hflag] at hcheck
      cases hcheck
      exact .inl (checkCancel_error hflag)

theorem sortHost_stopped {size : Nat} {e : KernelError}
    (h : HeapSort.Refused (sortHost m) e ∨ HeapSort.Oversized (sortHost m) size e) :
    Stopped m e := by
  rcases h with hrefused | ⟨rfl, -⟩
  · rcases sortHost_refused hrefused with hmeter | rfl
    · exact .inl hmeter
    · exact .inr ⟨_, rfl⟩
  · exact .inr ⟨_, rfl⟩

/-- The sort gives the one ascending list, if a key tells the values apart. -/
theorem Meets.cancellableSort {κ : Type} [LinearOrder κ] {key : α → κ}
    {cmp : α → α → Ordering} (hcmp : ∀ a b, cmp a b = .lt ↔ key a < key b) {values : List α}
    (hinj : ∀ a ∈ values, ∀ b ∈ values, key a = key b → a = b) :
    Meets m (cancellableSort m cmp values) (fun sorted => sorted = sortOn key values) := by
  intro b
  have hsort : wp (HeapSort.sort (sortHost m) cmp) _ _ ⟨values.toArray, (b, 0)⟩ :=
    HeapSort.sort_spec (HeapSort.totalPreorder_of_key hcmp) _
  unfold wp at hsort
  unfold Native.cancellableSort
  cases hrun : HeapSort.sort (sortHost m) cmp ⟨values.toArray, (b, 0)⟩ with
  | ok u s =>
    rw [hrun] at hsort
    refine .inl ⟨_, _, rfl, ?_⟩
    have hinj' : ∀ a ∈ values.toArray.toList, ∀ b ∈ values.toArray.toList, key a = key b → a = b := by
      simpa using hinj
    have hsorted := HeapSort.ascending_eq_sortOn hcmp hinj' hsort.1 hsort.2
    rw [List.toList_toArray] at hsorted
    exact hsorted
  | error e s =>
    rw [hrun] at hsort
    exact .inr ⟨e, sortHost_stopped hsort.1, rfl⟩

end Sorting

section Retaining
variable {β α : Type} (m : Meter β)

def lookAt (index : Nat) (b : β) : Except KernelError β := (checkCancel m index b).map Prod.snd

/-- Retaining counts nothing but the places it writes to. -/
def retainHost : SortHost KernelError β where
  poll := .ok
  check := .ok
  limit := usizeLimit
  overflow := .resource "encoded retain counter overflow"
  outOfBounds := .malformed "index out of bounds"

def cancellableSortUnstableBy (cmp : α → α → Ordering) : SortM KernelError α (β × Nat) Unit :=
  HeapSort.sort (sortHost m) cmp

def cancellableRetain (keep : α → Bool) : SortM KernelError α β Unit :=
  Retain.retain retainHost (lookAt m) keep

/-- The cancellation flag alone: whether it is set when it is looked at for the n-th time. -/
def flagMeter (flag : Nat → Bool) : Meter Nat where
  consume _ looks := if flag looks then .error .cancelled else .ok (looks + 1)
  grow _ looks := .ok looks

variable {m}

theorem lookAt_error {index : Nat} {b : β} {e : KernelError} (h : lookAt m index b = .error e) :
    Refusal m e := by
  unfold lookAt at h
  cases hflag : checkCancel m index b with
  | ok r =>
    rw [hflag] at h
    cases h
  | error e' =>
    rw [hflag] at h
    cases h
    exact checkCancel_error hflag

theorem flag_refusal {flag : Nat → Bool} {e : KernelError} (h : Refusal (flagMeter flag) e) :
    e = .cancelled := by
  obtain ⟨_, looks, hconsume | hgrow⟩ := h
  · change (if flag looks then _ else _) = _ at hconsume
    split at hconsume
    · cases hconsume
      rfl
    · cases hconsume
  · cases hgrow

/-- What a sort may be ended with: the flag, its work counter, or more values than have
indices. -/
inductive SortEnds (size : Nat) : KernelError → Prop where
  | cancelled : SortEnds size .cancelled
  | work : SortEnds size (.resource "encoded sort-work counter overflow")
  | index (h : usizeLimit < 2 * size) : SortEnds size (.resource "encoded sort index overflow")

inductive RetainEnds (size : Nat) : KernelError → Prop where
  | cancelled : RetainEnds size .cancelled
  | counter (h : usizeLimit ≤ size) :
      RetainEnds size (.resource "encoded retain counter overflow")

theorem sortEnds_of_refused {flag : Nat → Bool} {size : Nat} {e : KernelError}
    (h : HeapSort.Refused (sortHost (flagMeter flag)) e ∨
      HeapSort.Oversized (sortHost (flagMeter flag)) size e) : SortEnds size e := by
  rcases h with hrefused | ⟨rfl, hsize⟩
  · rcases sortHost_refused hrefused with hflag | rfl
    · rw [flag_refusal hflag]
      exact .cancelled
    · exact .work
  · exact .index hsize

@[irreducible] def samples : List Nat := [2, 3, 1]

end Retaining

end Projector.Native
