import Mathlib.Algebra.GroupWithZero.Nat
import Mathlib.Algebra.Order.BigOperators.Group.List
import Mathlib.Data.List.AList

namespace Projector.Lib

/-- A finite map with insertion-ordered entries. Nothing in this development reads
the order back. -/
abbrev Dict (κ ν : Type) := AList (fun _ : κ => ν)

namespace Dict
variable {κ ν : Type} [DecidableEq κ]

def getOr (d : Dict κ ν) (k : κ) (fallback : ν) : ν := (d.lookup k).getD fallback

def increment (d : Dict κ Nat) (k : κ) : Dict κ Nat := d.insert k (d.getOr k 0 + 1)

/-- Add `v` to the list kept under `k`. -/
def addTo (d : Dict κ (List ν)) (k : κ) (v : ν) : Dict κ (List ν) :=
  d.insert k (d.getOr k [] ++ [v])

def items (d : Dict κ ν) : List (κ × ν) := d.entries.map (fun e => (e.1, e.2))

/-- The sum of the counters. -/
def total (d : Dict κ Nat) : Nat := (d.items.map Prod.snd).sum

/-- Equality as finite maps. -/
def Same (d e : Dict κ ν) : Prop := ∀ k, d.lookup k = e.lookup k

theorem Same.refl (d : Dict κ ν) : Same d d := fun _ => rfl

theorem Same.symm {d e : Dict κ ν} (h : Same d e) : Same e d := fun k => (h k).symm

theorem Same.trans {d e f : Dict κ ν} (h : Same d e) (h' : Same e f) : Same d f :=
  fun k => (h k).trans (h' k)

theorem lookup_insert_eq (d : Dict κ ν) (k k' : κ) (v : ν) :
    AList.lookup k' (d.insert k v) = if k' = k then some v else d.lookup k' := by
  split
  · rename_i h
    rw [h, AList.lookup_insert]
  · rename_i h
    rw [AList.lookup_insert_ne h]

theorem Same.insert {d e : Dict κ ν} (h : Same d e) (k : κ) (v : ν) :
    Same (d.insert k v) (e.insert k v) := by
  intro k'
  rw [lookup_insert_eq, lookup_insert_eq, h k']

theorem Same.getOr {d e : Dict κ ν} (h : Same d e) (k : κ) (v : ν) :
    getOr d k v = getOr e k v := by
  simp only [Dict.getOr, h k]

theorem Same.increment {d e : Dict κ Nat} (h : Same d e) (k : κ) :
    Same (increment d k) (Dict.increment e k) := by
  unfold Dict.increment
  rw [h.getOr]
  exact Same.insert h k _

/-- Counting does not depend on the order of what is counted. -/
theorem increment_comm (d : Dict κ Nat) (k l : κ) :
    Same (increment (increment d k) l) (increment (increment d l) k) := by
  intro k'
  simp only [increment, getOr, lookup_insert_eq]
  by_cases hkl : k = l
  · subst hkl
    rfl
  · by_cases hk : k' = k <;> by_cases hl : k' = l <;>
      simp_all [eq_comm]

theorem Same.items_perm {d e : Dict κ ν} (h : Same d e) : (items d).Perm (items e) := by
  refine List.Perm.map _ (List.lookup_ext d.nodupKeys e.nodupKeys ?_)
  intro k v
  have hk : List.dlookup k d.entries = List.dlookup k e.entries := h k
  simp only [hk]

theorem getOr_increment (d : Dict κ Nat) (k k' : κ) :
    getOr (increment d k) k' 0 = getOr d k' 0 + if k' = k then 1 else 0 := by
  simp only [getOr, increment, lookup_insert_eq]
  split
  · rename_i h
    rw [h]
    rfl
  · rfl

/-- Counting keys one after the other. -/
theorem foldl_increment_getOr (keys : List κ) (d : Dict κ Nat) (k : κ) :
    getOr (keys.foldl increment d) k 0 = getOr d k 0 + keys.count k := by
  induction keys generalizing d with
  | nil => simp
  | cons n rest ih =>
    rw [List.foldl_cons, ih, getOr_increment, List.count_cons]
    by_cases h : n = k
    · simp only [h, if_true, beq_self_eq_true]
      omega
    · have h' : k ≠ n := fun he => h he.symm
      simp [h, h']

theorem total_increment (d : Dict κ Nat) (k : κ) : total (increment d k) = total d + 1 := by
  simp only [total, items, increment, AList.entries_insert, getOr, AList.lookup, List.map_cons,
    List.sum_cons]
  by_cases h : k ∈ d.entries.keys
  · obtain ⟨n, front, back, hfront, hentries, herase⟩ := List.exists_of_kerase h
    have hlook : List.dlookup k d.entries = some n := by
      rw [hentries, List.dlookup_append, List.dlookup_eq_none.mpr hfront]
      simp
    rw [hlook, herase, hentries]
    simp only [Option.getD_some, List.map_append, List.map_cons, List.sum_append, List.sum_cons]
    omega
  · rw [List.dlookup_eq_none.mpr h, List.kerase_of_notMem_keys h]
    simp only [Option.getD_none]
    omega

theorem foldl_increment_total (keys : List κ) (d : Dict κ Nat) :
    total (keys.foldl increment d) = total d + keys.length := by
  induction keys generalizing d with
  | nil => rfl
  | cons n rest ih =>
    rw [List.foldl_cons, ih, total_increment, List.length_cons]
    omega

omit [DecidableEq κ] in
theorem items_keys_nodup (d : Dict κ ν) : ((items d).map Prod.fst).Nodup := by
  have hn : d.keys.Nodup := d.keys_nodup
  simpa [items, AList.keys, List.keys, Function.comp_def] using hn

end Dict

namespace Pairs
variable {κ ν : Type} [DecidableEq κ]

/-- Overwrite the value of the first pair with this key, or append a pair. -/
def assign (k : κ) (v : ν) : List (κ × ν) → List (κ × ν)
  | [] => [(k, v)]
  | (k', v') :: rest => if k' = k then (k', v) :: rest else (k', v') :: assign k v rest

theorem lookup_cons_eq (p : κ × ν) (rest : List (κ × ν)) (k : κ) :
    (p :: rest).lookup k = if k = p.1 then some p.2 else rest.lookup k := by
  rw [List.lookup_cons]
  by_cases h : k = p.1
  · rw [if_pos h, beq_iff_eq.mpr h]
  · rw [if_neg h, beq_eq_false_iff_ne.mpr h]

theorem lookup_assign (pairs : List (κ × ν)) (k k' : κ) (v : ν) :
    (assign k v pairs).lookup k' = if k' = k then some v else pairs.lookup k' := by
  induction pairs with
  | nil => exact lookup_cons_eq (k, v) [] k'
  | cons p rest ih =>
    unfold assign
    by_cases hp : p.1 = k
    · rw [if_pos hp, lookup_cons_eq, lookup_cons_eq, hp]
      split <;> rfl
    · rw [if_neg hp, lookup_cons_eq, lookup_cons_eq, ih]
      by_cases hk : k' = p.1
      · have hne : ¬k' = k := fun he => hp (hk.symm.trans he)
        rw [if_pos hk, if_neg hne, if_pos hk]
      · rw [if_neg hk, if_neg hk]

theorem keys_assign (pairs : List (κ × ν)) (k : κ) (v : ν) :
    (assign k v pairs).map Prod.fst =
      if k ∈ pairs.map Prod.fst then pairs.map Prod.fst else pairs.map Prod.fst ++ [k] := by
  induction pairs with
  | nil => rfl
  | cons p rest ih =>
    unfold assign
    by_cases hp : p.1 = k
    · simp [hp]
    · have hne : ¬k = p.1 := fun he => hp he.symm
      rw [if_neg hp, List.map_cons, ih, List.map_cons]
      by_cases hrest : k ∈ rest.map Prod.fst
      · rw [if_pos hrest, if_pos (List.mem_cons_of_mem p.1 hrest)]
      · have hnone : k ∉ p.1 :: rest.map Prod.fst := fun hk =>
          (List.mem_cons.mp hk).elim hne hrest
        rw [if_neg hrest, if_neg hnone, List.cons_append]

/-- No key is doubled. -/
theorem keys_assign_nodup {pairs : List (κ × ν)} (h : (pairs.map Prod.fst).Nodup) (k : κ) (v : ν) :
    ((assign k v pairs).map Prod.fst).Nodup := by
  rw [keys_assign]
  split
  · exact h
  · rename_i hk
    rw [List.nodup_append]
    refine ⟨h, List.nodup_singleton k, ?_⟩
    intro a ha b hb he
    rw [List.mem_singleton.mp hb] at he
    exact hk (he ▸ ha)

end Pairs

end Projector.Lib
