import Mathlib.Data.List.ReduceOption
import Projector.Lib.Sorting

namespace Projector.Lib

variable {α κ : Type} [LinearOrder κ] (key : α → κ)

/-- The keys that occur in some lists, in ascending order. -/
def unionKeys (xss : List (List α)) : List κ := sortOn id (xss.flatten.map key).dedup

/-- Where a key occurs: in each list its first value with that key. -/
def occurrences (xss : List (List α)) (k : κ) : List (Option α) :=
  xss.map fun xs => xs.find? fun x => decide (key x = k)

/-- The least key that begins a list. -/
def leastKey : List (List α) → Option κ
  | [] => none
  | [] :: xss => leastKey xss
  | (x :: _) :: xss =>
    match leastKey xss with
    | none => some (key x)
    | some k => some (min (key x) k)

def headWith (k : κ) : List α → Option α
  | [] => none
  | x :: _ => if key x = k then some x else none

def tailWith (k : κ) : List α → List α
  | [] => []
  | x :: xs => if key x = k then xs else x :: xs

theorem headWith_cons (k : κ) (x : α) (xs : List α) :
    headWith key k (x :: xs) = if key x = k then some x else none := rfl

theorem tailWith_cons (k : κ) (x : α) (xs : List α) :
    tailWith key k (x :: xs) = if key x = k then xs else x :: xs := rfl

/-- One round after another: the lists that begin with the least key move on together. -/
def unionRounds : Nat → List (List α) → List (List (Option α))
  | 0, _ => []
  | n + 1, xss =>
    match leastKey key xss with
    | none => []
    | some k => xss.map (headWith key k) :: unionRounds n (xss.map (tailWith key k))

section Keys
variable {key} {xss : List (List α)} {k : κ}

theorem unionKeys_strict (key : α → κ) (xss : List (List α)) : StrictOn id (unionKeys key xss) :=
  strict_of_sorted_nodup (fun _ _ _ _ h => h) (sortOn_sorted id _)
    ((sortOn_perm id _).nodup_iff.mpr (List.nodup_dedup _))

theorem mem_unionKeys : k ∈ unionKeys key xss ↔ ∃ xs ∈ xss, k ∈ xs.map key := by
  unfold unionKeys
  rw [mem_sortOn, List.mem_dedup, List.mem_map]
  constructor
  · rintro ⟨x, hx, rfl⟩
    obtain ⟨xs, hxs, hx⟩ := List.mem_flatten.mp hx
    exact ⟨xs, hxs, List.mem_map_of_mem hx⟩
  · rintro ⟨xs, hxs, hk⟩
    obtain ⟨x, hx, rfl⟩ := List.mem_map.mp hk
    exact ⟨x, List.mem_flatten.mpr ⟨xs, hxs, hx⟩, rfl⟩

theorem leastKey_none (h : leastKey key xss = none) : ∀ xs ∈ xss, xs = [] := by
  induction xss with
  | nil => exact fun xs hxs => absurd hxs List.not_mem_nil
  | cons ys xss ih =>
    cases ys with
    | nil =>
      intro xs hxs
      rcases List.mem_cons.mp hxs with rfl | hxs
      · rfl
      · exact ih h xs hxs
    | cons y ys =>
      unfold leastKey at h
      split at h <;> cases h

/-- The least key begins a list, and no list begins with less. -/
theorem leastKey_some (h : leastKey key xss = some k) :
    (∃ x xs, x :: xs ∈ xss ∧ key x = k) ∧ ∀ x xs, x :: xs ∈ xss → k ≤ key x := by
  induction xss generalizing k with
  | nil => cases h
  | cons ys xss ih =>
    cases ys with
    | nil =>
      obtain ⟨⟨x, xs, hmem, hx⟩, hle⟩ := ih h
      refine ⟨⟨x, xs, List.mem_cons_of_mem _ hmem, hx⟩, fun x xs hmem => ?_⟩
      rcases List.mem_cons.mp hmem with hnil | hmem
      · cases hnil
      · exact hle x xs hmem
    | cons y ys =>
      unfold leastKey at h
      split at h
      · rename_i hnone
        cases h
        refine ⟨⟨y, ys, List.mem_cons_self, rfl⟩, fun x xs hmem => ?_⟩
        rcases List.mem_cons.mp hmem with hfirst | hmem
        · cases hfirst
          exact le_refl _
        · cases leastKey_none hnone _ hmem
      · rename_i least hsome
        cases h
        obtain ⟨⟨x, xs, hmem, hx⟩, hle⟩ := ih hsome
        constructor
        · rcases le_total (key y) least with hy | hy
          · exact ⟨y, ys, List.mem_cons_self, (min_eq_left hy).symm⟩
          · exact ⟨x, xs, List.mem_cons_of_mem _ hmem, by rw [hx, min_eq_right hy]⟩
        · intro z zs hz
          rcases List.mem_cons.mp hz with hfirst | hz
          · cases hfirst
            exact min_le_left _ _
          · exact le_trans (min_le_right _ _) (hle z zs hz)

end Keys

section Step
variable {key} {xss : List (List α)} {k : κ} {xs : List α}

theorem tailWith_subset {x : α} (h : x ∈ tailWith key k xs) : x ∈ xs := by
  cases xs with
  | nil => exact h
  | cons y ys =>
    rw [tailWith_cons] at h
    split at h
    · exact List.mem_cons_of_mem y h
    · exact h

theorem tailWith_strict (h : StrictOn key xs) : StrictOn key (tailWith key k xs) := by
  cases xs with
  | nil => exact h
  | cons y ys =>
    rw [tailWith_cons]
    split
    · exact (List.pairwise_cons.mp h).2
    · exact h

variable (hstrict : StrictOn key xs) (hle : ∀ x rest, xs = x :: rest → k ≤ key x)
include hstrict hle

/-- What is left has greater keys. -/
theorem tailWith_above {x : α} (hx : x ∈ tailWith key k xs) : k < key x := by
  cases xs with
  | nil => cases hx
  | cons y ys =>
    obtain ⟨hfirst, -⟩ := List.pairwise_cons.mp hstrict
    have hy := hle y ys rfl
    rw [tailWith_cons] at hx
    split at hx
    · rename_i heq
      rw [← heq]
      exact hfirst x hx
    · rename_i hne
      have hlt : k < key y := lt_of_le_of_ne hy (Ne.symm hne)
      rcases List.mem_cons.mp hx with rfl | hx
      · exact hlt
      · exact lt_trans hlt (hfirst x hx)

theorem mem_tailWith {x : α} (hx : x ∈ xs) (hne : key x ≠ k) : x ∈ tailWith key k xs := by
  cases xs with
  | nil => cases hx
  | cons y ys =>
    rw [tailWith_cons]
    split
    · rename_i heq
      rcases List.mem_cons.mp hx with rfl | hx
      · exact absurd heq hne
      · exact hx
    · exact hx

/-- In an ascending list the least key can only be the first. -/
theorem headWith_eq_find : headWith key k xs = xs.find? fun x => decide (key x = k) := by
  cases xs with
  | nil => rfl
  | cons y ys =>
    obtain ⟨hfirst, -⟩ := List.pairwise_cons.mp hstrict
    rw [headWith_cons]
    split
    · rename_i heq
      rw [List.find?_cons_of_pos (by simpa using heq)]
    · rename_i hne
      have hlt : k < key y := lt_of_le_of_ne (hle y ys rfl) (Ne.symm hne)
      symm
      rw [List.find?_eq_none]
      intro x hx heq
      rw [decide_eq_true_eq] at heq
      rcases List.mem_cons.mp hx with rfl | hx
      · exact hne heq
      · exact absurd (lt_trans hlt (hfirst x hx)) (by rw [heq]; exact lt_irrefl k)

omit hstrict hle in
theorem find_tailWith {k' : κ} (hne : k' ≠ k) :
    ((tailWith key k xs).find? fun x => decide (key x = k')) =
      xs.find? fun x => decide (key x = k') := by
  cases xs with
  | nil => rfl
  | cons y ys =>
    rw [tailWith_cons]
    split
    · rename_i heq
      rw [List.find?_cons_of_neg]
      rw [decide_eq_true_eq, heq]
      exact Ne.symm hne
    · rfl

end Step

section Rounds
variable {key} {xss : List (List α)} {k : κ} (hstrict : ∀ xs ∈ xss, StrictOn key xs)
include hstrict

theorem unionKeys_step (h : leastKey key xss = some k) :
    unionKeys key xss = k :: unionKeys key (xss.map (tailWith key k)) := by
  obtain ⟨⟨x, xs, hmem, hx⟩, hle⟩ := leastKey_some h
  have habove : ∀ ys ∈ xss, ∀ y ∈ tailWith key k ys, k < key y := fun ys hys y hy =>
    tailWith_above (hstrict ys hys) (fun z zs hz => hle z zs (hz ▸ hys)) hy
  apply strict_unique (unionKeys_strict key xss)
  · refine List.pairwise_cons.mpr ⟨fun k' hk' => ?_, unionKeys_strict key _⟩
    obtain ⟨ys, hys, hk'⟩ := mem_unionKeys.mp hk'
    obtain ⟨y, hy, rfl⟩ := List.mem_map.mp hk'
    obtain ⟨zs, hzs, rfl⟩ := List.mem_map.mp hys
    exact habove zs hzs y hy
  · intro k'
    rw [List.mem_cons, mem_unionKeys, mem_unionKeys]
    constructor
    · rintro ⟨ys, hys, hk'⟩
      obtain ⟨y, hy, rfl⟩ := List.mem_map.mp hk'
      by_cases heq : key y = k
      · exact .inl heq
      · have hin := mem_tailWith (hstrict ys hys) (fun z zs hz => hle z zs (hz ▸ hys)) hy heq
        exact .inr ⟨_, List.mem_map_of_mem hys, List.mem_map_of_mem hin⟩
    · rintro (rfl | ⟨ys, hys, hk'⟩)
      · exact ⟨x :: xs, hmem, by rw [← hx]; exact List.mem_map_of_mem List.mem_cons_self⟩
      · obtain ⟨y, hy, rfl⟩ := List.mem_map.mp hk'
        obtain ⟨zs, hzs, rfl⟩ := List.mem_map.mp hys
        exact ⟨zs, hzs, List.mem_map_of_mem (tailWith_subset hy)⟩

theorem occurrences_least (h : leastKey key xss = some k) :
    xss.map (headWith key k) = occurrences key xss k := by
  obtain ⟨-, hle⟩ := leastKey_some h
  exact List.map_congr_left fun xs hxs =>
    headWith_eq_find (hstrict xs hxs) fun z zs hz => hle z zs (hz ▸ hxs)

omit hstrict in
theorem flatten_tails_le (key : α → κ) (k : κ) (xss : List (List α)) :
    (xss.map (tailWith key k)).flatten.length ≤ xss.flatten.length := by
  induction xss with
  | nil => exact le_refl _
  | cons xs xss ih =>
    have hxs : (tailWith key k xs).length ≤ xs.length := by
      cases xs with
      | nil => exact le_refl _
      | cons y ys =>
        rw [tailWith_cons]
        split
        · exact Nat.le_succ _
        · exact le_refl _
    simp only [List.map_cons, List.flatten_cons, List.length_append]
    omega

omit hstrict in
/-- Every round uses up a value. -/
theorem flatten_tails_lt {x : α} {xs : List α} (hmem : x :: xs ∈ xss) (hx : key x = k) :
    (xss.map (tailWith key k)).flatten.length < xss.flatten.length := by
  induction xss with
  | nil => cases hmem
  | cons ys xss ih =>
    have hrest := flatten_tails_le key k xss
    simp only [List.map_cons, List.flatten_cons, List.length_append]
    rcases List.mem_cons.mp hmem with rfl | hmem
    · have hfirst : (tailWith key k (x :: xs)).length = xs.length := by
        rw [tailWith_cons]
        rw [if_pos hx]
      rw [hfirst, List.length_cons]
      omega
    · have hfirst := flatten_tails_le key k [ys]
      simp only [List.map_cons, List.map_nil, List.flatten_cons, List.flatten_nil,
        List.append_nil] at hfirst
      have := ih hmem
      omega

/-- The rounds go through the keys, and each finds all occurrences of its key. -/
theorem unionRounds_eq {n : Nat} (hn : xss.flatten.length ≤ n) :
    unionRounds key (n + 1) xss = (unionKeys key xss).map (occurrences key xss) := by
  induction n generalizing xss with
  | zero =>
    have hempty : xss.flatten = [] := List.length_eq_zero_iff.mp (by omega)
    unfold unionRounds unionKeys
    cases h : leastKey key xss with
    | none => rw [hempty]; simp
    | some k =>
      obtain ⟨⟨x, xs, hmem, -⟩, -⟩ := leastKey_some h
      have hx : x ∈ xss.flatten := List.mem_flatten.mpr ⟨_, hmem, List.mem_cons_self⟩
      rw [hempty] at hx
      cases hx
  | succ n ih =>
    unfold unionRounds
    cases h : leastKey key xss with
    | none =>
      have hempty : unionKeys key xss = [] := by
        apply List.eq_nil_iff_forall_not_mem.mpr
        intro k hk
        obtain ⟨xs, hxs, hk⟩ := mem_unionKeys.mp hk
        rw [leastKey_none h xs hxs] at hk
        cases hk
      rw [hempty]
      rfl
    | some k =>
      obtain ⟨⟨x, xs, hmem, hx⟩, -⟩ := leastKey_some h
      have hstrict' : ∀ xs ∈ xss.map (tailWith key k), StrictOn key xs := by
        intro xs hxs
        obtain ⟨ys, hys, rfl⟩ := List.mem_map.mp hxs
        exact tailWith_strict (hstrict ys hys)
      have hlt := flatten_tails_lt hmem hx
      dsimp only
      rw [unionKeys_step hstrict h, List.map_cons, occurrences_least hstrict h,
        ih hstrict' (by omega)]
      refine congrArg _ (List.map_congr_left fun k' hk' => ?_)
      have hlater : k < k' := by
        have hkeys := unionKeys_strict key xss
        rw [unionKeys_step hstrict h] at hkeys
        exact (List.pairwise_cons.mp hkeys).1 k' hk'
      unfold occurrences
      rw [List.map_map]
      exact List.map_congr_left fun ys _ => find_tailWith (ne_of_gt hlater)

end Rounds

/-- The first list in which a key occurs speaks for it. -/
def representative (found : List (Option α)) : Option α := found.reduceOption.head?

/-- A value stands in the first list in which its key occurs. -/
def IsLowest (groups : List (List α)) (root : α) : Prop :=
  ∃ (i : Nat) (group : List α), groups[i]? = some group ∧ root ∈ group ∧
    ∀ j < i, ∀ other : List α, groups[j]? = some other → key root ∉ other.map key

/-- The sorted union of some lists: every key once, as it occurs in the first list with it. -/
structure IsUnion (groups : List (List α)) (roots : List α) : Prop where
  covers : roots.map key = unionKeys key groups
  lowest : ∀ root ∈ roots, IsLowest key groups root

section Union
variable {key} {xss : List (List α)} {k : κ}

theorem IsUnion.strict {roots : List α} (h : IsUnion key xss roots) : StrictOn key roots := by
  have hkeys := unionKeys_strict key xss
  rw [← h.covers] at hkeys
  exact List.pairwise_map.mp hkeys

/-- A key that occurs is represented in the first list with it. -/
theorem representative_some (h : ∃ xs ∈ xss, k ∈ xs.map key) :
    ∃ root, representative (occurrences key xss k) = some root ∧ key root = k ∧
      IsLowest key xss root := by
  induction xss with
  | nil =>
    obtain ⟨xs, hxs, -⟩ := h
    cases hxs
  | cons xs xss ih =>
    unfold occurrences representative
    rw [List.map_cons]
    cases hfind : xs.find? fun x => decide (key x = k) with
    | some root =>
      have hkey := List.find?_some hfind
      rw [decide_eq_true_eq] at hkey
      refine ⟨root, rfl, hkey, 0, xs, rfl, List.mem_of_find?_eq_some hfind, fun j hj => ?_⟩
      exact absurd hj (Nat.not_lt_zero j)
    | none =>
      have hnone : k ∉ xs.map key := by
        intro hk
        obtain ⟨x, hx, hkey⟩ := List.mem_map.mp hk
        have hout := List.find?_eq_none.mp hfind x hx
        rw [decide_eq_true_eq] at hout
        exact hout hkey
      have hrest : ∃ ys ∈ xss, k ∈ ys.map key := by
        obtain ⟨ys, hys, hk⟩ := h
        rcases List.mem_cons.mp hys with rfl | hys
        · exact absurd hk hnone
        · exact ⟨ys, hys, hk⟩
      obtain ⟨root, hroot, hkey, i, group, hgroup, hmem, hlower⟩ := ih hrest
      refine ⟨root, hroot, hkey, i + 1, group, hgroup, hmem, fun j hj other hother => ?_⟩
      cases j with
      | zero =>
        cases hother
        rw [hkey]
        exact hnone
      | succ j => exact hlower j (Nat.lt_of_succ_lt_succ hj) other hother

/-- The representatives of the keys of some lists are the union of the lists. -/
theorem representatives_union (xss : List (List α)) : IsUnion key xss
    (((unionKeys key xss).map (occurrences key xss)).filterMap representative) := by
  have hall : ∀ ks : List κ, (∀ k ∈ ks, ∃ xs ∈ xss, k ∈ xs.map key) →
      ((ks.map (occurrences key xss)).filterMap representative).map key = ks ∧
        ∀ root ∈ (ks.map (occurrences key xss)).filterMap representative,
          IsLowest key xss root := by
    intro ks
    induction ks with
    | nil => exact fun _ => ⟨rfl, fun root hroot => absurd hroot List.not_mem_nil⟩
    | cons k ks ih =>
      intro hks
      obtain ⟨hkeys, hlowest⟩ := ih fun k hk => hks k (List.mem_cons_of_mem _ hk)
      obtain ⟨root, hroot, hkey, hfirst⟩ := representative_some (hks k List.mem_cons_self)
      rw [List.map_cons, List.filterMap_cons_some hroot, List.map_cons, hkeys, hkey]
      refine ⟨rfl, fun r hr => ?_⟩
      rcases List.mem_cons.mp hr with rfl | hr
      · exact hfirst
      · exact hlowest r hr
  obtain ⟨hcovers, hlowest⟩ := hall _ fun k hk => mem_unionKeys.mp hk
  exact ⟨hcovers, hlowest⟩

/-- A round counts the values that it uses up. -/
theorem round_length (key : α → κ) (k : κ) (xss : List (List α)) :
    (xss.map (headWith key k)).reduceOption.length + (xss.map (tailWith key k)).flatten.length =
      xss.flatten.length := by
  induction xss with
  | nil => rfl
  | cons xs xss ih =>
    have hfirst : ((headWith key k xs) :: xss.map (headWith key k)).reduceOption.length +
        (tailWith key k xs).length =
        (xss.map (headWith key k)).reduceOption.length + xs.length := by
      cases xs with
      | nil => rfl
      | cons x xs =>
        rw [headWith_cons, tailWith_cons]
        by_cases hx : key x = k
        · rw [if_pos hx, if_pos hx, List.reduceOption_cons_of_some, List.length_cons,
            List.length_cons]
          omega
        · rw [if_neg hx, if_neg hx, List.reduceOption_cons_of_none]
    simp only [List.map_cons, List.flatten_cons, List.length_append]
    omega

end Union

end Projector.Lib
