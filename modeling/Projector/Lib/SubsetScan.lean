import Projector.Lib.Sorting

namespace Projector.Lib

section Scan
variable {α β κ : Type} [LinearOrder κ] (key : α → κ) (key' : β → κ)

/-- Find every wanted value further on in a list than the one before, stopping at a value that
is greater. -/
def intersectScan : List α → List β → Option (List α)
  | _, [] => some []
  | [], _ :: _ => none
  | x :: xs, y :: ys =>
    if key x < key' y then intersectScan xs (y :: ys)
    else if key x = key' y then (intersectScan xs ys).map (x :: ·)
    else none

/-- Find every wanted value further on in a list than the one before. -/
def forwardScan : List α → List β → Option (List α)
  | _, [] => some []
  | [], _ :: _ => none
  | x :: xs, y :: ys =>
    if key x = key' y then (forwardScan xs ys).map (x :: ·) else forwardScan xs (y :: ys)

/-- The values of a list that are wanted, if all that is wanted is there. -/
def subsetOf (xs : List α) (ys : List β) : Option (List α) :=
  if ∀ y ∈ ys, key' y ∈ xs.map key then
    some (xs.filter fun x => decide (key x ∈ ys.map key'))
  else none

variable {key key'} {x : α} {xs : List α} {y : β} {ys : List β}

theorem subsetOf_some (h : ∀ y ∈ ys, key' y ∈ xs.map key) :
    ∃ found, subsetOf key key' xs ys = some found ∧ found.Sublist xs ∧
      ∀ x, x ∈ found ↔ x ∈ xs ∧ key x ∈ ys.map key' := by
  refine ⟨_, if_pos h, List.filter_sublist, fun x => ?_⟩
  rw [List.mem_filter, decide_eq_true_eq]

theorem subsetOf_none (h : ¬∀ y ∈ ys, key' y ∈ xs.map key) : subsetOf key key' xs ys = none :=
  if_neg h

theorem forwardScan_nil (xs : List α) : forwardScan key key' xs ([] : List β) = some [] := by
  cases xs <;> rfl

theorem forwardScan_take (h : key x = key' y) :
    forwardScan key key' (x :: xs) (y :: ys) = (forwardScan key key' xs ys).map (x :: ·) :=
  if_pos h

theorem forwardScan_pass (h : key x ≠ key' y) :
    forwardScan key key' (x :: xs) (y :: ys) = forwardScan key key' xs (y :: ys) :=
  if_neg h

theorem subsetOf_nil (xs : List α) : subsetOf key key' xs ([] : List β) = some [] := by
  unfold subsetOf
  rw [if_pos fun _ h => absurd h List.not_mem_nil]
  simp

theorem subsetOf_empty (y : β) (ys : List β) : subsetOf key key' ([] : List α) (y :: ys) = none :=
  if_neg fun h => absurd (h y List.mem_cons_self) List.not_mem_nil

/-- A value that is not wanted can be passed over. -/
theorem subsetOf_skip (h : key x ∉ ys.map key') :
    subsetOf key key' (x :: xs) ys = subsetOf key key' xs ys := by
  have hiff : (∀ z ∈ ys, key' z ∈ (x :: xs).map key) ↔ ∀ z ∈ ys, key' z ∈ xs.map key := by
    refine forall₂_congr fun z hz => ?_
    rw [List.map_cons, List.mem_cons]
    constructor
    · rintro (heq | hin)
      · exact absurd (List.mem_map.mpr ⟨z, hz, heq⟩) h
      · exact hin
    · exact .inr
  unfold subsetOf
  rw [if_congr hiff rfl rfl, List.filter_cons_of_neg (by simpa using h)]

/-- A value that is wanted first is found first. -/
theorem subsetOf_take (hx : StrictOn key (x :: xs)) (hy : StrictOn key' (y :: ys))
    (heq : key x = key' y) :
    subsetOf key key' (x :: xs) (y :: ys) = (subsetOf key key' xs ys).map (x :: ·) := by
  obtain ⟨hafter, -⟩ := List.pairwise_cons.mp hx
  obtain ⟨hafter', -⟩ := List.pairwise_cons.mp hy
  have hiff : (∀ z ∈ y :: ys, key' z ∈ (x :: xs).map key) ↔ ∀ z ∈ ys, key' z ∈ xs.map key := by
    constructor
    · intro h z hz
      rcases List.mem_cons.mp (h z (List.mem_cons_of_mem y hz)) with hsame | hin
      · exact absurd (hafter' z hz) (by rw [hsame, heq]; exact lt_irrefl _)
      · exact hin
    · intro h z hz
      rcases List.mem_cons.mp hz with rfl | hz
      · exact List.mem_cons.mpr (.inl heq.symm)
      · exact List.mem_cons_of_mem _ (h z hz)
  have hfilter : xs.filter (fun z => decide (key z ∈ (y :: ys).map key')) =
      xs.filter fun z => decide (key z ∈ ys.map key') := by
    refine List.filter_congr fun z hz => ?_
    have hne : key z ≠ key' y := by
      rw [← heq]
      exact ne_of_gt (hafter z hz)
    rw [List.map_cons, decide_eq_decide, List.mem_cons]
    exact or_iff_right hne
  have hwanted : key x ∈ (y :: ys).map key' := List.mem_cons.mpr (.inl heq)
  unfold subsetOf
  rw [if_congr hiff rfl rfl, List.filter_cons_of_pos (by simpa using hwanted), hfilter]
  split <;> rfl

/-- What is wanted but passed is not found. -/
theorem subsetOf_passed (hx : StrictOn key (x :: xs)) (hlt : key' y < key x) :
    subsetOf key key' (x :: xs) (y :: ys) = none := by
  refine if_neg fun h => ?_
  obtain ⟨z, hz, heq⟩ := List.mem_map.mp (h y List.mem_cons_self)
  rw [← heq] at hlt
  rcases List.mem_cons.mp hz with rfl | hz
  · exact lt_irrefl _ hlt
  · exact lt_asymm hlt ((List.pairwise_cons.mp hx).1 z hz)

theorem intersectScan_eq (hx : StrictOn key xs) (hy : StrictOn key' ys) :
    intersectScan key key' xs ys = subsetOf key key' xs ys := by
  induction xs generalizing ys with
  | nil =>
    cases ys with
    | nil => exact (subsetOf_nil []).symm
    | cons y ys => exact (subsetOf_empty y ys).symm
  | cons x xs ih =>
    obtain ⟨-, hrest⟩ := List.pairwise_cons.mp hx
    cases ys with
    | nil => exact (subsetOf_nil _).symm
    | cons y ys =>
      obtain ⟨hafter, hrest'⟩ := List.pairwise_cons.mp hy
      unfold intersectScan
      rcases lt_trichotomy (key x) (key' y) with hlt | heq | hgt
      · rw [if_pos hlt, ih hrest hy, subsetOf_skip]
        intro hin
        obtain ⟨z, hz, hsame⟩ := List.mem_map.mp hin
        rw [← hsame] at hlt
        rcases List.mem_cons.mp hz with rfl | hz
        · exact lt_irrefl _ hlt
        · exact lt_asymm hlt (hafter z hz)
      · rw [if_neg (by rw [heq]; exact lt_irrefl _), if_pos heq, ih hrest hrest',
          subsetOf_take hx hy heq]
      · rw [if_neg (lt_asymm hgt), if_neg (ne_of_gt hgt), subsetOf_passed hx hgt]

theorem forwardScan_eq (hx : StrictOn key xs) (hy : StrictOn key' ys) :
    forwardScan key key' xs ys = subsetOf key key' xs ys := by
  induction xs generalizing ys with
  | nil =>
    cases ys with
    | nil => exact (subsetOf_nil []).symm
    | cons y ys => exact (subsetOf_empty y ys).symm
  | cons x xs ih =>
    obtain ⟨hbefore, hrest⟩ := List.pairwise_cons.mp hx
    cases ys with
    | nil => exact (subsetOf_nil _).symm
    | cons y ys =>
      obtain ⟨hafter, hrest'⟩ := List.pairwise_cons.mp hy
      rcases lt_trichotomy (key x) (key' y) with hlt | heq | hgt
      · rw [forwardScan_pass (ne_of_lt hlt), ih hrest hy, subsetOf_skip]
        intro hin
        obtain ⟨z, hz, hsame⟩ := List.mem_map.mp hin
        rw [← hsame] at hlt
        rcases List.mem_cons.mp hz with rfl | hz
        · exact lt_irrefl _ hlt
        · exact lt_asymm hlt (hafter z hz)
      · rw [forwardScan_take heq, ih hrest hrest', subsetOf_take hx hy heq]
      · rw [forwardScan_pass (ne_of_gt hgt), ih hrest hy, subsetOf_passed hx hgt]
        refine if_neg fun h => ?_
        obtain ⟨z, hz, hsame⟩ := List.mem_map.mp (h y List.mem_cons_self)
        rw [← hsame] at hgt
        exact lt_asymm hgt (hbefore z hz)

end Scan

end Projector.Lib
