import Projector.Lib.Sorting

namespace Projector.Lib

variable {α κ : Type} [LinearOrder κ]

/-- Extraction from a priority queue kept as an unordered list. The first of
several least items wins, so the result is a function of the list alone. -/
def popLeast (key : α → κ) : List α → Option (α × List α)
  | [] => none
  | x :: xs =>
    match popLeast key xs with
    | none => some (x, [])
    | some (y, ys) => if key x ≤ key y then some (x, y :: ys) else some (y, x :: ys)

theorem popLeast_none {key : α → κ} {xs : List α} (h : popLeast key xs = none) : xs = [] := by
  cases xs with
  | nil => rfl
  | cons x xs =>
    simp only [popLeast] at h
    split at h
    · simp at h
    · split at h <;> simp at h

theorem popLeast_spec {key : α → κ} {xs ys : List α} {y : α}
    (h : popLeast key xs = some (y, ys)) :
    xs.Perm (y :: ys) ∧ ∀ x ∈ xs, key y ≤ key x := by
  induction xs generalizing y ys with
  | nil => simp [popLeast] at h
  | cons x xs ih =>
    simp only [popLeast] at h
    split at h
    · rename_i hn
      simp only [Option.some.injEq, Prod.mk.injEq] at h
      obtain ⟨rfl, rfl⟩ := h
      simp [popLeast_none hn]
    · rename_i z zs hz
      obtain ⟨hp, hl⟩ := ih hz
      split at h
      · rename_i hle
        simp only [Option.some.injEq, Prod.mk.injEq] at h
        obtain ⟨rfl, rfl⟩ := h
        refine ⟨hp.cons x, ?_⟩
        intro w hw
        rcases List.mem_cons.mp hw with rfl | hw
        · exact le_refl _
        · exact le_trans hle (hl w hw)
      · rename_i hle
        simp only [Option.some.injEq, Prod.mk.injEq] at h
        obtain ⟨rfl, rfl⟩ := h
        refine ⟨(hp.cons x).trans (List.Perm.swap z x zs), ?_⟩
        intro w hw
        rcases List.mem_cons.mp hw with rfl | hw
        · exact le_of_lt (not_le.mp hle)
        · exact hl w hw

/-- The key of a queued head: its own key, then the index of its source. -/
def headKey (key : α → κ) (entry : Nat × α) : κ ×ₗ Nat := toLex (key entry.2, entry.1)

theorem headKey_le {key : α → κ} {p q : Nat × α} (h : headKey key p ≤ headKey key q) :
    key p.2 ≤ key q.2 := by
  simp only [headKey, Prod.Lex.toLex_le_toLex] at h
  rcases h with h | h
  · exact le_of_lt h
  · exact le_of_eq h.1

/-- What is left of source `i`. -/
def rest (rests : List (List α)) (i : Nat) : List α := rests.getD i []

/-- The merge loop: emit the least head and replace it by its successor. -/
def mergeLoop (key : α → κ) : Nat → List (Nat × α) → List (List α) → List α
  | 0, _, _ => []
  | n + 1, heap, rests =>
    match popLeast (headKey key) heap with
    | none => []
    | some ((i, a), heap) =>
      match rest rests i with
      | [] => a :: mergeLoop key n heap rests
      | b :: bs => a :: mergeLoop key n (heap ++ [(i, b)]) (rests.set i bs)

/-- The first element of every nonempty source, with its index. -/
def heads (start : Nat) : List (List α) → List (Nat × α)
  | [] => []
  | [] :: xss => heads (start + 1) xss
  | (x :: _) :: xss => (start, x) :: heads (start + 1) xss

def pending (heap : List (Nat × α)) (rests : List (List α)) : Nat :=
  heap.length + rests.flatten.length

/-- Merge sorted sources, ties going to the source with the lower index. -/
def kmerge (key : α → κ) (xss : List (List α)) : List α :=
  mergeLoop key xss.flatten.length (heads 0 xss) (xss.map List.tail)

theorem rest_set {rests : List (List α)} {i j : Nat} {b : α} {bs : List α}
    (h : rest rests i = b :: bs) :
    rest (rests.set i bs) j = if i = j then bs else rest rests j := by
  have hi : i < rests.length := by
    by_contra hn
    simp [rest, List.getD_eq_getElem?_getD, List.getElem?_eq_none (not_lt.mp hn)] at h
  simp only [rest, List.getD_eq_getElem?_getD, List.getElem?_set]
  split <;> simp [*]

theorem flatten_set {rests : List (List α)} {i : Nat} {b : α} {bs : List α}
    (h : rest rests i = b :: bs) :
    rests.flatten.Perm (b :: (rests.set i bs).flatten) := by
  induction rests generalizing i with
  | nil => simp [rest] at h
  | cons xs xss ih =>
    cases i with
    | zero =>
      simp only [rest, List.getD_cons_zero] at h
      simp [h]
    | succ i =>
      have ht : rest xss i = b :: bs := by simpa [rest] using h
      simp only [List.set_cons_succ, List.flatten_cons]
      exact ((ih ht).append_left xs).trans List.perm_middle

/-- With enough fuel the loop emits every queued head and every remaining element once. -/
theorem mergeLoop_perm (key : α → κ) {n : Nat} {heap : List (Nat × α)} {rests : List (List α)}
    (hn : pending heap rests ≤ n)
    (hc : ∀ i, rest rests i ≠ [] → ∃ a, (i, a) ∈ heap) :
    (mergeLoop key n heap rests).Perm (heap.map Prod.snd ++ rests.flatten) := by
  have hdone : heap = [] → rests.flatten = [] := by
    rintro rfl
    apply List.flatten_eq_nil_iff.mpr
    intro xs hxs
    obtain ⟨i, hi, rfl⟩ := List.getElem_of_mem hxs
    by_contra hne
    have hr : rest rests i ≠ [] := by simpa [rest, List.getD_eq_getElem?_getD, hi] using hne
    obtain ⟨a, ha⟩ := hc i hr
    simp at ha
  induction n generalizing heap rests with
  | zero =>
    simp only [pending, Nat.le_zero, Nat.add_eq_zero_iff, List.length_eq_zero_iff] at hn
    simp [mergeLoop, hn.1, hn.2]
  | succ n ih =>
    simp only [mergeLoop]
    split
    · rename_i hp
      have hh := popLeast_none hp
      simp [hh, hdone hh]
    · rename_i i a heap' hp
      obtain ⟨hperm, -⟩ := popLeast_spec hp
      have hlen := hperm.length_eq
      simp only [List.length_cons] at hlen
      have hhead : (heap.map Prod.snd).Perm (a :: heap'.map Prod.snd) := by
        simpa using hperm.map Prod.snd
      have hcover : ∀ j, j ≠ i → rest rests j ≠ [] → ∃ c, (j, c) ∈ heap' := by
        intro j hj hr
        obtain ⟨c, hcm⟩ := hc j hr
        rcases List.mem_cons.mp (hperm.mem_iff.mp hcm) with he | hm
        · simp only [Prod.mk.injEq] at he
          exact absurd he.1 hj
        · exact ⟨c, hm⟩
      split
      · rename_i hr
        have hc' : ∀ j, rest rests j ≠ [] → ∃ c, (j, c) ∈ heap' := by
          intro j hj
          by_cases hji : j = i
          · exact absurd (hji ▸ hr) hj
          · exact hcover j hji hj
        have hd' : heap' = [] → rests.flatten = [] := by
          rintro rfl
          apply List.flatten_eq_nil_iff.mpr
          intro xs hxs
          obtain ⟨j, hj, rfl⟩ := List.getElem_of_mem hxs
          by_contra hne
          obtain ⟨c, hcm⟩ := hc' j (by simpa [rest, List.getD_eq_getElem?_getD, hj] using hne)
          simp at hcm
        have hrec := ih (by simp only [pending] at hn ⊢; omega) hc' hd'
        exact (hrec.cons a).trans ((hhead.append_right _).symm.trans (by simp))
      · rename_i b bs hr
        have hflat := flatten_set hr
        have hflen := hflat.length_eq
        simp only [List.length_cons] at hflen
        have hc' : ∀ j, rest (rests.set i bs) j ≠ [] → ∃ c, (j, c) ∈ heap' ++ [(i, b)] := by
          intro j hj
          by_cases hji : j = i
          · exact ⟨b, by simp [hji]⟩
          · rw [rest_set hr, if_neg (Ne.symm hji)] at hj
            obtain ⟨c, hcm⟩ := hcover j hji hj
            exact ⟨c, by simp [hcm]⟩
        have hn' : pending (heap' ++ [(i, b)]) (rests.set i bs) ≤ n := by
          simp only [pending, List.length_append, List.length_singleton] at hn ⊢; omega
        have hrec := ih hn' hc' (by simp)
        refine (hrec.cons a).trans ?_
        rw [List.map_append, List.append_assoc]
        refine ((hflat.symm.append_left (heap'.map Prod.snd)).cons a).trans ?_
        simpa using (hhead.append_right rests.flatten).symm

/-- The loop invariant: every source is sorted behind its queued head. -/
structure Merging (key : α → κ) (heap : List (Nat × α)) (rests : List (List α)) : Prop where
  covered : ∀ i, rest rests i ≠ [] → ∃ a, (i, a) ∈ heap
  sorted : ∀ i, SortedOn key (rest rests i)
  ahead : ∀ p ∈ heap, ∀ b ∈ rest rests p.1, key p.2 ≤ key b

theorem Merging.dropped {key : α → κ} {heap heap' : List (Nat × α)} {rests : List (List α)}
    {i : Nat} {a : α} (hm : Merging key heap rests) (hp : heap.Perm ((i, a) :: heap'))
    (hr : rest rests i = []) : Merging key heap' rests where
  covered := by
    intro j hj
    obtain ⟨c, hc⟩ := hm.covered j hj
    rcases List.mem_cons.mp (hp.mem_iff.mp hc) with he | hc
    · simp only [Prod.mk.injEq] at he
      exact absurd (he.1 ▸ hr) hj
    · exact ⟨c, hc⟩
  sorted := hm.sorted
  ahead := fun p hpm => hm.ahead p (hp.mem_iff.mpr (List.mem_cons_of_mem _ hpm))

theorem Merging.replaced {key : α → κ} {heap heap' : List (Nat × α)} {rests : List (List α)}
    {i : Nat} {a b : α} {bs : List α} (hm : Merging key heap rests)
    (hp : heap.Perm ((i, a) :: heap')) (hr : rest rests i = b :: bs) :
    Merging key (heap' ++ [(i, b)]) (rests.set i bs) where
  covered := by
    intro j hj
    by_cases hji : j = i
    · exact ⟨b, by simp [hji]⟩
    · rw [rest_set hr, if_neg (Ne.symm hji)] at hj
      obtain ⟨c, hc⟩ := hm.covered j hj
      rcases List.mem_cons.mp (hp.mem_iff.mp hc) with he | hc
      · simp only [Prod.mk.injEq] at he
        exact absurd he.1 hji
      · exact ⟨c, List.mem_append_left _ hc⟩
  sorted := by
    intro j
    rw [rest_set hr]
    split
    · have hs := hm.sorted i
      rw [hr] at hs
      exact (List.pairwise_cons.mp hs).2
    · exact hm.sorted j
  ahead := by
    have hs := hm.sorted i
    rw [hr] at hs
    rintro ⟨j, c⟩ hc d hd
    rw [rest_set hr] at hd
    rcases List.mem_append.mp hc with hc | he
    rotate_left
    · simp only [List.mem_singleton, Prod.mk.injEq] at he
      obtain ⟨rfl, rfl⟩ := he
      simp only [if_true] at hd
      exact (List.pairwise_cons.mp hs).1 d hd
    · have ha := hm.ahead (j, c) (hp.mem_iff.mpr (List.mem_cons_of_mem _ hc))
      split at hd
      · rename_i hij
        simp only at hij
        exact ha d (by simp [← hij, hr, hd])
      · exact ha d hd

theorem mem_flatten_rest {rests : List (List α)} {x : α} (h : x ∈ rests.flatten) :
    ∃ i, x ∈ rest rests i := by
  obtain ⟨xs, hxs, hx⟩ := List.mem_flatten.mp h
  obtain ⟨i, hi, rfl⟩ := List.getElem_of_mem hxs
  exact ⟨i, by simpa [rest, List.getD_eq_getElem?_getD, hi] using hx⟩

/-- The least queued head is below everything still to come. -/
theorem Merging.least {key : α → κ} {heap heap' : List (Nat × α)} {rests : List (List α)}
    {p : Nat × α} (hm : Merging key heap rests)
    (hp : popLeast (headKey key) heap = some (p, heap')) :
    ∀ x ∈ heap.map Prod.snd ++ rests.flatten, key p.2 ≤ key x := by
  obtain ⟨-, hl⟩ := popLeast_spec hp
  intro x hx
  rcases List.mem_append.mp hx with hx | hx
  · obtain ⟨q, hq, rfl⟩ := List.mem_map.mp hx
    exact headKey_le (hl q hq)
  · obtain ⟨i, hi⟩ := mem_flatten_rest hx
    obtain ⟨c, hc⟩ := hm.covered i (List.ne_nil_of_mem hi)
    exact le_trans (headKey_le (hl _ hc)) (hm.ahead _ hc x hi)

theorem mergeLoop_sorted (key : α → κ) {n : Nat} {heap : List (Nat × α)}
    {rests : List (List α)} (hn : pending heap rests ≤ n) (hm : Merging key heap rests) :
    SortedOn key (mergeLoop key n heap rests) := by
  have hall := mergeLoop_perm key hn hm.covered
  induction n generalizing heap rests with
  | zero => exact List.Pairwise.nil
  | succ n ih =>
    simp only [mergeLoop] at hall ⊢
    split at hall
    · exact List.Pairwise.nil
    · rename_i i a heap' hp
      obtain ⟨hperm, -⟩ := popLeast_spec hp
      have hleast := hm.least hp
      have hlen := hperm.length_eq
      simp only [List.length_cons] at hlen
      split at hall
      · rename_i hr
        have hn' : pending heap' rests ≤ n := by simp only [pending] at hn ⊢; omega
        have hm' := hm.dropped hperm hr
        refine List.pairwise_cons.mpr ⟨?_, ih hn' hm' (mergeLoop_perm key hn' hm'.covered)⟩
        intro x hx
        exact hleast x (hall.mem_iff.mp (List.mem_cons_of_mem _ hx))
      · rename_i b bs hr
        have hflen := (flatten_set hr).length_eq
        simp only [List.length_cons] at hflen
        have hn' : pending (heap' ++ [(i, b)]) (rests.set i bs) ≤ n := by
          simp only [pending, List.length_append, List.length_singleton] at hn ⊢; omega
        have hm' := hm.replaced hperm hr
        refine List.pairwise_cons.mpr ⟨?_, ih hn' hm' (mergeLoop_perm key hn' hm'.covered)⟩
        intro x hx
        exact hleast x (hall.mem_iff.mp (List.mem_cons_of_mem _ hx))

theorem heads_pending (start : Nat) (xss : List (List α)) :
    ((heads start xss).map Prod.snd ++ (xss.map List.tail).flatten).Perm xss.flatten := by
  induction xss generalizing start with
  | nil => simp [heads]
  | cons xs xss ih =>
    cases xs with
    | nil => simpa [heads] using ih (start + 1)
    | cons x xs =>
      simp only [heads, List.map_cons, List.tail_cons, List.flatten_cons, List.cons_append]
      refine List.Perm.cons x ?_
      rw [← List.append_assoc]
      refine (List.perm_append_comm.append_right _).trans ?_
      rw [List.append_assoc]
      exact (ih (start + 1)).append_left xs

theorem mem_heads {start : Nat} {xss : List (List α)} {p : Nat × α} :
    p ∈ heads start xss ↔ ∃ i bs, xss[i]? = some (p.2 :: bs) ∧ p.1 = start + i := by
  induction xss generalizing start with
  | nil => simp [heads]
  | cons xs xss ih =>
    have hsucc : (∃ i bs, (xs :: xss)[i]? = some (p.2 :: bs) ∧ p.1 = start + i) ↔
        (∃ bs, xs = p.2 :: bs ∧ p.1 = start) ∨
          ∃ i bs, xss[i]? = some (p.2 :: bs) ∧ p.1 = start + 1 + i := by
      constructor
      · rintro ⟨i, bs, hi, hs⟩
        cases i with
        | zero => exact Or.inl ⟨bs, by simpa using hi, by simpa using hs⟩
        | succ i => exact Or.inr ⟨i, bs, by simpa using hi, by omega⟩
      · rintro (⟨bs, hx, hs⟩ | ⟨i, bs, hi, hs⟩)
        · exact ⟨0, bs, by simp [hx], by simpa using hs⟩
        · exact ⟨i + 1, bs, by simpa using hi, by omega⟩
    rw [hsucc]
    cases xs with
    | nil => simp [heads, ih]
    | cons x xs =>
      rw [heads, List.mem_cons, ih]
      constructor
      · rintro (rfl | h)
        · exact Or.inl ⟨xs, rfl, rfl⟩
        · exact Or.inr h
      · rintro (⟨bs, hx, hs⟩ | h)
        · simp only [List.cons.injEq] at hx
          exact Or.inl (Prod.ext hs hx.1.symm)
        · exact Or.inr h

theorem rest_tails (xss : List (List α)) (i : Nat) :
    rest (xss.map List.tail) i = (rest xss i).tail := by
  simp only [rest, List.getD_eq_getElem?_getD, List.getElem?_map]
  cases xss[i]? <;> rfl

/-- A source that has more to give has its head in the heap. -/
theorem heads_covered {xss : List (List α)} {i : Nat} (hi : rest (xss.map List.tail) i ≠ []) :
    ∃ a, (i, a) ∈ heads 0 xss := by
  rw [rest_tails] at hi
  simp only [rest, List.getD_eq_getElem?_getD] at hi
  cases hx : xss[i]? with
  | none => simp [hx] at hi
  | some xs =>
    cases xs with
    | nil => simp [hx] at hi
    | cons a as => exact ⟨a, mem_heads.mpr ⟨i, as, hx, by simp⟩⟩

theorem merging_heads {key : α → κ} {xss : List (List α)} (hs : ∀ xs ∈ xss, SortedOn key xs) :
    Merging key (heads 0 xss) (xss.map List.tail) where
  covered := fun _ => heads_covered
  sorted := by
    intro i
    rw [rest_tails]
    simp only [rest, List.getD_eq_getElem?_getD]
    cases hx : xss[i]? with
    | none => exact List.Pairwise.nil
    | some xs => exact (hs xs (List.mem_of_getElem? hx)).sublist (List.tail_sublist xs)
  ahead := by
    intro p hp b hb
    obtain ⟨i, bs, hx, hi⟩ := mem_heads.mp hp
    have hpi : p.1 = i := by omega
    rw [hpi, rest_tails] at hb
    simp only [rest, List.getD_eq_getElem?_getD, hx, Option.getD_some, List.tail_cons] at hb
    exact (List.pairwise_cons.mp (hs _ (List.mem_of_getElem? hx))).1 b hb

theorem pending_heads (xss : List (List α)) :
    pending (heads 0 xss) (xss.map List.tail) = xss.flatten.length := by
  have h := (heads_pending 0 xss).length_eq
  simpa [pending] using h

/-- A merge keeps every occurrence of every element. -/
theorem kmerge_perm (key : α → κ) (xss : List (List α)) : (kmerge key xss).Perm xss.flatten :=
  (mergeLoop_perm key (le_of_eq (pending_heads xss)) (fun _ => heads_covered)).trans
    (heads_pending 0 xss)

theorem kmerge_sorted {key : α → κ} {xss : List (List α)} (hs : ∀ xs ∈ xss, SortedOn key xs) :
    SortedOn key (kmerge key xss) :=
  mergeLoop_sorted key (le_of_eq (pending_heads xss)) (merging_heads hs)

/-- Drop every element equal to the one kept before it. -/
def coalesceFrom [DecidableEq α] : Option α → List α → List α
  | _, [] => []
  | last, x :: xs => if last = some x then coalesceFrom last xs else x :: coalesceFrom (some x) xs

def coalesce [DecidableEq α] (xs : List α) : List α := coalesceFrom none xs

section Coalesce
variable [DecidableEq α]

theorem coalesceFrom_sublist (last : Option α) (xs : List α) :
    (coalesceFrom last xs).Sublist xs := by
  induction xs generalizing last with
  | nil => simp [coalesceFrom]
  | cons x xs ih =>
    simp only [coalesceFrom]
    split
    · exact (ih last).cons x
    · exact (ih (some x)).cons_cons x

theorem coalesceFrom_mem {last : Option α} {xs : List α} {a : α} (h : a ∈ xs) :
    a ∈ coalesceFrom last xs ∨ last = some a := by
  induction xs generalizing last with
  | nil => simp at h
  | cons x xs ih =>
    simp only [coalesceFrom]
    split
    · rename_i hl
      rcases List.mem_cons.mp h with rfl | h
      · exact Or.inr hl
      · exact ih h
    · left
      rcases List.mem_cons.mp h with rfl | h
      · simp
      · rcases @ih (some x) h with h | h
        · simp [h]
        · simp only [Option.some.injEq] at h
          simp [h]

theorem mem_coalesce {xs : List α} {a : α} : a ∈ coalesce xs ↔ a ∈ xs := by
  constructor
  · exact fun h => (coalesceFrom_sublist none xs).subset h
  · intro h
    rcases coalesceFrom_mem (a := a) h with h | h
    · exact h
    · simp at h

/-- Coalescing a sorted list leaves strictly ascending keys, provided equal keys
mean equal elements. -/
theorem coalesceFrom_strict {key : α → κ} {last : Option α} {xs : List α}
    (hinj : ∀ a ∈ xs, ∀ b ∈ xs, key a = key b → a = b)
    (hlast : ∀ a, last = some a → ∀ x ∈ xs, key a ≤ key x ∧ (key a = key x → a = x))
    (hs : SortedOn key xs) :
    StrictOn key (coalesceFrom last xs) ∧
      ∀ a, last = some a → ∀ x ∈ coalesceFrom last xs, key a < key x := by
  induction xs generalizing last with
  | nil => simp [coalesceFrom, StrictOn]
  | cons x xs ih =>
    obtain ⟨hx, hs⟩ := List.pairwise_cons.mp hs
    have hinj' : ∀ a ∈ xs, ∀ b ∈ xs, key a = key b → a = b := fun a ha b hb =>
      hinj a (List.mem_cons_of_mem _ ha) b (List.mem_cons_of_mem _ hb)
    simp only [coalesceFrom]
    split
    · exact ih hinj' (fun a ha y hy => hlast a ha y (List.mem_cons_of_mem _ hy)) hs
    · rename_i hne
      have hnext : ∀ a, some x = some a → ∀ y ∈ xs, key a ≤ key y ∧ (key a = key y → a = y) := by
        intro a ha y hy
        simp only [Option.some.injEq] at ha
        subst ha
        exact ⟨hx y hy, hinj x (by simp) y (by simp [hy])⟩
      obtain ⟨hstrict, habove⟩ := ih hinj' hnext hs
      refine ⟨List.pairwise_cons.mpr ⟨habove x rfl, hstrict⟩, ?_⟩
      intro a ha y hy
      have hax : key a < key x := by
        obtain ⟨hle, heq⟩ := hlast a ha x (by simp)
        refine lt_of_le_of_ne hle (fun he => hne ?_)
        rw [ha, heq he]
      rcases List.mem_cons.mp hy with rfl | hy
      · exact hax
      · exact lt_trans hax (habove x rfl y hy)

theorem coalesce_strict {key : α → κ} {xs : List α}
    (hinj : ∀ a ∈ xs, ∀ b ∈ xs, key a = key b → a = b) (hs : SortedOn key xs) :
    StrictOn key (coalesce xs) :=
  (coalesceFrom_strict hinj (by simp) hs).1

end Coalesce

end Projector.Lib
