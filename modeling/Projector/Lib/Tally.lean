import Projector.Lib.Dict

namespace Projector.Lib

variable {κ ν : Type} [DecidableEq κ]

namespace Dict

/-- How often each key is in a list. -/
def tally (keys : List κ) : Dict κ Nat := keys.foldl increment ∅

theorem getOr_tally (keys : List κ) (k : κ) : (tally keys).getOr k 0 = keys.count k := by
  unfold tally
  rw [foldl_increment_getOr]
  exact Nat.zero_add _

theorem total_tally (keys : List κ) : (tally keys).total = keys.length := by
  unfold tally
  rw [foldl_increment_total]
  exact Nat.zero_add _

theorem mem_increment (d : Dict κ Nat) (k k' : κ) : k' ∈ d.increment k ↔ k' = k ∨ k' ∈ d := by
  unfold increment
  exact AList.mem_insert d

theorem mem_foldl_increment (keys : List κ) (d : Dict κ Nat) (k : κ) :
    k ∈ keys.foldl increment d ↔ k ∈ keys ∨ k ∈ d := by
  induction keys generalizing d with
  | nil => simp
  | cons a rest ih =>
    rw [List.foldl_cons, ih, mem_increment, List.mem_cons]
    tauto

theorem mem_tally {keys : List κ} {k : κ} : k ∈ tally keys ↔ k ∈ keys := by
  unfold tally
  rw [mem_foldl_increment]
  simp

/-- The keys of a tally are the counted ones, under their counts. -/
theorem lookup_tally (keys : List κ) (k : κ) :
    (tally keys).lookup k = if k ∈ keys then some (keys.count k) else none := by
  split
  · rename_i hk
    have hcount := getOr_tally keys k
    unfold getOr at hcount
    obtain ⟨n, hn⟩ := Option.isSome_iff_exists.mp (AList.lookup_isSome.mpr (mem_tally.mpr hk))
    rw [hn, Option.getD_some] at hcount
    rw [hn, hcount]
  · rename_i hk
    exact AList.lookup_eq_none.mpr (mt mem_tally.mp hk)

theorem tally_of_perm {keys keys' : List κ} (h : keys.Perm keys') :
    Same (tally keys) (tally keys') := by
  intro k
  rw [lookup_tally, lookup_tally, h.count_eq]
  simp only [h.mem_iff]

/-- One more of a key. -/
theorem Same.count {d : Dict κ Nat} {keys : List κ} (h : Same d (tally keys)) (k : κ) :
    Same (d.increment k) (tally (k :: keys)) := by
  have hlast : Same (d.increment k) (tally (keys ++ [k])) := by
    unfold tally
    rw [List.foldl_append]
    exact h.increment k
  exact hlast.trans (tally_of_perm (List.perm_append_singleton k keys))

theorem mem_items {d : Dict κ ν} {k : κ} {v : ν} : (k, v) ∈ d.items ↔ d.lookup k = some v := by
  unfold items
  rw [← Option.mem_def, AList.mem_lookup_iff, List.mem_map]
  constructor
  · rintro ⟨⟨k', v'⟩, hmem, he⟩
    cases he
    exact hmem
  · intro hmem
    exact ⟨⟨k, v⟩, hmem, rfl⟩

theorem mem_items_tally {d : Dict κ Nat} {keys : List κ} (h : Same d (tally keys)) {k : κ}
    {n : Nat} : (k, n) ∈ d.items ↔ k ∈ keys ∧ n = keys.count k := by
  rw [mem_items, h k, lookup_tally]
  split
  · rename_i hk
    simp only [hk, true_and, Option.some.injEq]
    exact eq_comm
  · rename_i hk
    simp only [hk, false_and, reduceCtorEq]

end Dict

end Projector.Lib
