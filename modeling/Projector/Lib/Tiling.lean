import Mathlib.Data.List.Basic
import Mathlib.Algebra.GroupWithZero.Nat
import Mathlib.Logic.ExistsUnique

namespace Projector.Lib

variable {α β : Type}

/-- A range of an arena: a start and a length. -/
abbrev Span := Nat × Nat

def Span.Has (s : Span) (p : Nat) : Prop := s.1 ≤ p ∧ p < s.1 + s.2

/-- The spans of `xs` lie one after the other from `lo` to `hi`. -/
def Tiles (span : α → Span) : Nat → List α → Nat → Prop
  | lo, [], hi => lo = hi
  | lo, x :: xs, hi => (span x).1 = lo ∧ Tiles span (lo + (span x).2) xs hi

namespace Tiles

variable {span : α → Span} {lo mid hi : Nat} {xs ys : List α}

theorem append (h : Tiles span lo xs mid) (h' : Tiles span mid ys hi) :
    Tiles span lo (xs ++ ys) hi := by
  induction xs generalizing lo with
  | nil =>
    obtain rfl : lo = mid := h
    exact h'
  | cons x xs ih => exact ⟨h.1, ih h.2⟩

theorem single {x : α} (h : (span x).1 = lo) : Tiles span lo [x] (lo + (span x).2) := ⟨h, rfl⟩

theorem le (h : Tiles span lo xs hi) : lo ≤ hi := by
  induction xs generalizing lo with
  | nil => exact Nat.le_of_eq h
  | cons x xs ih => exact Nat.le_trans (Nat.le_add_right _ _) (ih h.2)

/-- Every span lies within the arena. -/
theorem within (h : Tiles span lo xs hi) {x : α} (hx : x ∈ xs) :
    lo ≤ (span x).1 ∧ (span x).1 + (span x).2 ≤ hi := by
  induction xs generalizing lo with
  | nil => cases hx
  | cons y xs ih =>
    obtain ⟨hstart, hrest⟩ := h
    cases hx with
    | head => exact ⟨Nat.le_of_eq hstart.symm, hstart ▸ hrest.le⟩
    | tail _ hx =>
      have hx := ih hrest hx
      exact ⟨Nat.le_trans (Nat.le_add_right _ _) hx.1, hx.2⟩

theorem cover (h : Tiles span lo xs hi) {p : Nat} (hlo : lo ≤ p) (hhi : p < hi) :
    ∃ x ∈ xs, (span x).Has p := by
  induction xs generalizing lo with
  | nil =>
    have heq : lo = hi := h
    omega
  | cons x xs ih =>
    obtain ⟨hstart, hrest⟩ := h
    by_cases hp : p < lo + (span x).2
    · exact ⟨x, List.mem_cons_self, ⟨by omega, by omega⟩⟩
    · obtain ⟨y, hy, hspan⟩ := ih hrest (by omega)
      exact ⟨y, List.mem_cons_of_mem x hy, hspan⟩

theorem unique (h : Tiles span lo xs hi) {p : Nat} {x y : α} (hx : x ∈ xs) (hy : y ∈ xs)
    (hpx : (span x).Has p) (hpy : (span y).Has p) : x = y := by
  induction xs generalizing lo with
  | nil => cases hx
  | cons z xs ih =>
    obtain ⟨hstart, hrest⟩ := h
    have hlater : ∀ w ∈ xs, (span w).Has p → lo + (span z).2 ≤ p :=
      fun w hw hp => Nat.le_trans (hrest.within hw).1 hp.1
    unfold Span.Has at hpx hpy
    cases hx with
    | head =>
      cases hy with
      | head => rfl
      | tail _ hy =>
        have := hlater y hy hpy
        omega
    | tail _ hx =>
      cases hy with
      | head =>
        have := hlater x hx hpx
        omega
      | tail _ hy => exact ih hrest hx hy

/-- The spans part the arena: every place of it is in the span of exactly one owner. -/
theorem partition (h : Tiles span 0 xs hi) {p : Nat} (hp : p < hi) :
    ∃! x, x ∈ xs ∧ (span x).Has p := by
  obtain ⟨x, hx, hspan⟩ := h.cover (Nat.zero_le p) hp
  exact ⟨x, ⟨hx, hspan⟩, fun y hy => h.unique hy.1 hx hy.2 hspan⟩

/-- What is summed over the places of all spans is summed over the arena. -/
theorem sum_places (h : Tiles span lo xs hi) (weight : Nat → Nat) :
    (xs.map fun x => ((List.range' (span x).1 (span x).2).map weight).sum).sum =
      ((List.range' lo (hi - lo)).map weight).sum := by
  induction xs generalizing lo with
  | nil =>
    obtain rfl : lo = hi := h
    rw [Nat.sub_self]
    rfl
  | cons x xs ih =>
    obtain ⟨hstart, hrest⟩ := h
    have hle := hrest.le
    have hsplit : hi - lo = (span x).2 + (hi - (lo + (span x).2)) := by omega
    rw [List.map_cons, List.sum_cons, ih hrest, hstart, hsplit, ← List.range'_append_1,
      List.map_append, List.sum_append]

/-- The spans are together as long as the arena. -/
theorem sum_lengths (h : Tiles span lo xs hi) : lo + (xs.map fun x => (span x).2).sum = hi := by
  induction xs generalizing lo with
  | nil => exact h
  | cons x xs ih =>
    have hrest := ih h.2
    rw [List.map_cons, List.sum_cons, ← Nat.add_assoc]
    exact hrest

end Tiles

end Projector.Lib
