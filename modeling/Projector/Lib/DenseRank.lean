import Projector.Lib.UnionMerge

namespace Projector.Lib

variable {α κ : Type} [LinearOrder κ]

/-- The distinct keys of a list, in ascending order. -/
def distinctKeys (keys : List κ) : List κ := sortOn id keys.dedup

/-- The place of a key among the distinct keys of a list. -/
def rank (keys : List κ) (k : κ) : Nat := (distinctKeys keys).idxOf k

section Rank
variable {keys : List κ} {k : κ} {i : Nat}

theorem distinct_strict (keys : List κ) : StrictOn id (distinctKeys keys) :=
  strict_of_sorted_nodup (fun _ _ _ _ h => h) (sortOn_sorted id _)
    ((sortOn_perm id _).nodup_iff.mpr (List.nodup_dedup _))

theorem mem_distinct : k ∈ distinctKeys keys ↔ k ∈ keys := by
  unfold distinctKeys
  rw [mem_sortOn, List.mem_dedup]

/-- The distinct keys depend on which keys there are, not on their order or how often they occur. -/
theorem distinctKeys_congr {keys' : List κ} (h : ∀ j, j ∈ keys ↔ j ∈ keys') :
    distinctKeys keys = distinctKeys keys' :=
  strict_unique (distinct_strict keys) (distinct_strict keys') fun j => by
    rw [mem_distinct, mem_distinct, h j]

theorem length_distinct_le (keys : List κ) : (distinctKeys keys).length ≤ keys.length := by
  unfold distinctKeys
  rw [(sortOn_perm id _).length_eq]
  exact (List.dedup_sublist keys).length_le

theorem rank_getElem (hi : i < (distinctKeys keys).length) :
    rank keys (distinctKeys keys)[i] = i :=
  (distinct_strict keys).nodup.idxOf_getElem i hi

theorem rank_lt (hk : k ∈ keys) : rank keys k < (distinctKeys keys).length :=
  List.idxOf_lt_length_iff.mpr (mem_distinct.mpr hk)

theorem getElem_rank (hk : rank keys k < (distinctKeys keys).length) :
    (distinctKeys keys)[rank keys k] = k := List.getElem_idxOf _

theorem rank_inj {j : κ} (hj : j ∈ keys) (hk : k ∈ keys) (h : rank keys j = rank keys k) :
    j = k := by
  rw [← getElem_rank (rank_lt hj), ← getElem_rank (rank_lt hk)]
  congr

/-- Ranks follow the order of the keys. -/
theorem rank_lt_rank {j : κ} (hj : j ∈ keys) (hk : k ∈ keys) :
    rank keys j < rank keys k ↔ j < k := by
  have hlj := rank_lt hj
  have hlk := rank_lt hk
  have hstrict := List.pairwise_iff_getElem.mp (distinct_strict keys)
  constructor
  · intro hlt
    have horder := hstrict _ _ hlj hlk hlt
    rw [getElem_rank, getElem_rank] at horder
    exact horder
  · intro hlt
    by_contra hge
    rcases Nat.eq_or_lt_of_le (Nat.le_of_not_lt hge) with heq | hgt
    · exact absurd (rank_inj hk hj heq) (ne_of_gt hlt)
    · have horder := hstrict _ _ hlk hlj hgt
      rw [getElem_rank, getElem_rank] at horder
      exact lt_asymm hlt horder

/-- The least of the keys from a rank on has that rank. -/
theorem rank_of_least (hk : k ∈ keys) (hi : i ≤ rank keys k)
    (hle : ∀ j ∈ keys, i ≤ rank keys j → k ≤ j) : rank keys k = i := by
  have hlt := rank_lt hk
  have hin : i < (distinctKeys keys).length := by omega
  have hmem : (distinctKeys keys)[i] ∈ keys := mem_distinct.mp (List.getElem_mem hin)
  have hplace := rank_getElem hin
  rcases Nat.eq_or_lt_of_le hi with heq | hgt
  · exact heq.symm
  · have hfirst := hle _ hmem (le_of_eq hplace.symm)
    have hsecond := (rank_lt_rank hmem hk).mp (by omega)
    exact absurd hsecond (not_lt.mpr hfirst)

end Rank

section Rounds
variable {key : α → κ} {xss : List (List α)}

/-- A round uses up the values at the heads with its key, and leaves the others. -/
theorem round_perm (key : α → κ) (k : κ) (xss : List (List α)) :
    ((xss.map (headWith key k)).reduceOption ++ (xss.map (tailWith key k)).flatten).Perm
      xss.flatten := by
  induction xss with
  | nil => exact .nil
  | cons xs xss ih =>
    cases xs with
    | nil => exact ih
    | cons x xs =>
      rw [List.map_cons, List.map_cons, headWith_cons, tailWith_cons, List.flatten_cons,
        List.flatten_cons]
      by_cases hx : key x = k
      · rw [if_pos hx, if_pos hx, List.reduceOption_cons_of_some, List.cons_append, List.cons_append]
        refine List.Perm.cons x ?_
        rw [← List.append_assoc]
        exact (List.perm_append_comm.append_right _).trans
          (by rw [List.append_assoc]; exact ih.append_left xs)
      · rw [if_neg hx, if_neg hx, List.reduceOption_cons_of_none, ← List.append_assoc]
        exact (List.perm_append_comm.append_right _).trans
          (by rw [List.append_assoc]; exact ih.append_left (x :: xs))

/-- The rounds use up every value once. -/
theorem unionRounds_perm {rounds : Nat} (hrounds : xss.flatten.length < rounds) :
    ((unionRounds key rounds xss).map List.reduceOption).flatten.Perm xss.flatten := by
  induction rounds generalizing xss with
  | zero => exact absurd hrounds (Nat.not_lt_zero _)
  | succ rounds ih =>
    unfold unionRounds
    cases hk : leastKey key xss with
    | none =>
      rw [List.flatten_eq_nil_iff.mpr (leastKey_none hk)]
      exact .nil
    | some k =>
      obtain ⟨⟨x, xs, hmem, hx⟩, -⟩ := leastKey_some hk
      have hshorter := flatten_tails_lt hmem hx
      rw [List.map_cons, List.flatten_cons]
      exact ((ih (by omega)).append_left _).trans (round_perm key k xss)

/-- What a round finds has its key, and there is some of it. -/
theorem occurrences_reduced {k : κ} (hk : k ∈ unionKeys key xss) :
    (occurrences key xss k).reduceOption ≠ [] ∧
      ∀ x ∈ (occurrences key xss k).reduceOption, key x = k := by
  constructor
  · obtain ⟨root, hroot, -, -⟩ := representative_some (mem_unionKeys.mp hk)
    intro hnil
    unfold representative at hroot
    rw [hnil] at hroot
    cases hroot
  · intro x hx
    obtain ⟨xs, -, hfind⟩ := List.mem_map.mp (List.reduceOption_mem_iff.mp hx)
    simpa using List.find?_some hfind

end Rounds

end Projector.Lib
