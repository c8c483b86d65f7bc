import Projector.Lib.LeastHead

namespace Projector.Lib

section Code
variable {μ ε α : Type} (compare : α → α → Shared μ ε Ordering)

/-- Every value of a list comes after the one before it. -/
def checkAscending (e : ε) : List α → Shared μ ε Unit
  | left :: right :: rest => do
    let order ← compare left right
    if order ≠ .lt then Shared.lift (.error e) else checkAscending e (right :: rest)
  | _ => pure ()

def checkAllAscending (e : ε) : List (List α) → Shared μ ε Unit
  | [] => pure ()
  | group :: groups => do
    checkAscending compare e group
    checkAllAscending e groups

/-- The lists from `index` on move on together with the selected one: what is left of them, and
the heads that equal the selected one. -/
def takeHeads (selected : Nat × α) : Nat → List (List α) → Shared μ ε (List (List α) × List α)
  | _, [] => pure ([], [])
  | index, [] :: groups => do
    let (rests, taken) ← takeHeads selected (index + 1) groups
    pure ([] :: rests, taken)
  | index, (head :: rest) :: groups =>
    if index = selected.1 then do
      let (rests, taken) ← takeHeads selected (index + 1) groups
      pure (rest :: rests, taken)
    else do
      let order ← compare head selected.2
      let (rests, taken) ← takeHeads selected (index + 1) groups
      if order = .eq then pure (rest :: rests, head :: taken)
      else pure ((head :: rest) :: rests, taken)

end Code

section Settling
variable {μ ε α γ κ : Type} [LinearOrder κ] {Keeps : μ → Prop} {Refused : ε → Prop}
  {compare : Nat → α → α → Shared μ ε Ordering} {e : ε} {key : γ → κ} {f : γ → α}

/-- Comparisons that settle on the order of the keys. -/
def KeyCompare (Keeps : μ → Prop) (Refused : ε → Prop) (compare : Nat → α → α → Shared μ ε Ordering)
    (key : γ → κ) (f : γ → α) (a b : γ) : Prop :=
  Settles Keeps Refused (fun fuel => compare fuel (f a) (f b)) (.ok (cmp (key a) (key b)))

theorem strict_cons_cons {a b : γ} {rest : List γ} :
    StrictOn key (a :: b :: rest) ↔ key a < key b ∧ StrictOn key (b :: rest) := by
  constructor
  · intro h
    obtain ⟨hfirst, hrest⟩ := List.pairwise_cons.mp h
    exact ⟨hfirst b List.mem_cons_self, hrest⟩
  · rintro ⟨hlt, hrest⟩
    refine List.pairwise_cons.mpr ⟨fun c hc => ?_, hrest⟩
    rcases List.mem_cons.mp hc with rfl | hc
    · exact hlt
    · exact lt_trans hlt ((List.pairwise_cons.mp hrest).1 c hc)

theorem checkAscending_settles (group : List γ)
    (hcompare : ∀ a ∈ group, ∀ b ∈ group, KeyCompare Keeps Refused compare key f a b) :
    Settles Keeps Refused (fun fuel => checkAscending (compare fuel) e (group.map f))
      (if StrictOn key group then .ok () else .error e) := by
  match group with
  | [] => exact Settles.pure
  | [a] =>
    have hone : StrictOn key [a] := List.pairwise_singleton _ a
    rw [if_pos hone]
    exact Settles.pure
  | a :: b :: rest =>
    have hfirst := hcompare a List.mem_cons_self b (List.mem_cons_of_mem _ List.mem_cons_self)
    have hrest := checkAscending_settles (b :: rest) fun x hx y hy =>
      hcompare x (List.mem_cons_of_mem _ hx) y (List.mem_cons_of_mem _ hy)
    refine hfirst.bind ?_
    by_cases hlt : key a < key b
    · rw [(cmp_eq_lt_iff _ _).mpr hlt]
      simp only [ne_eq, not_true_eq_false, if_false]
      by_cases hstrict : StrictOn key (b :: rest)
      · rw [if_pos (strict_cons_cons.mpr ⟨hlt, hstrict⟩)]
        rw [if_pos hstrict] at hrest
        exact hrest
      · rw [if_neg fun h => hstrict (strict_cons_cons.mp h).2]
        rw [if_neg hstrict] at hrest
        exact hrest
    · have hcmp : cmp (key a) (key b) ≠ .lt := fun h => hlt ((cmp_eq_lt_iff _ _).mp h)
      generalize cmp (key a) (key b) = order at hcmp
      simp only [ne_eq, hcmp, not_false_eq_true, if_true]
      rw [if_neg fun h => hlt (strict_cons_cons.mp h).1]
      exact Settles.lift _

theorem checkAllAscending_settles (groups : List (List γ))
    (hcompare : ∀ group ∈ groups, ∀ a ∈ group, ∀ b ∈ group,
      KeyCompare Keeps Refused compare key f a b) :
    Settles Keeps Refused
      (fun fuel => checkAllAscending (compare fuel) e (groups.map (List.map f)))
      (if ∀ group ∈ groups, StrictOn key group then .ok () else .error e) := by
  induction groups with
  | nil =>
    rw [if_pos fun _ h => absurd h List.not_mem_nil]
    exact Settles.pure
  | cons group groups ih =>
    have hfirst : Settles Keeps Refused
        (fun fuel => checkAscending (compare fuel) e (group.map f)) _ :=
      checkAscending_settles group (hcompare group List.mem_cons_self)
    have hrest := ih fun g hg => hcompare g (List.mem_cons_of_mem _ hg)
    rw [List.map_cons]
    by_cases hgroup : StrictOn key group
    · rw [if_pos hgroup] at hfirst
      refine hfirst.bind ?_
      by_cases hgroups : ∀ g ∈ groups, StrictOn key g
      · rw [if_pos hgroups] at hrest
        rw [if_pos (List.forall_mem_cons.mpr ⟨hgroup, hgroups⟩)]
        exact hrest
      · rw [if_neg hgroups] at hrest
        rw [if_neg fun h => hgroups (List.forall_mem_cons.mp h).2]
        exact hrest
    · rw [if_neg hgroup] at hfirst
      rw [if_neg fun h => hgroup (List.forall_mem_cons.mp h).1]
      exact hfirst.bindError

/-- The values with a key that begin lists from `index` on, without the selected list. -/
def othersFrom (key : γ → κ) (k : κ) (selected : Nat) : Nat → List (List γ) → List γ
  | _, [] => []
  | index, [] :: xss => othersFrom key k selected (index + 1) xss
  | index, (x :: _) :: xss =>
    if index = selected then othersFrom key k selected (index + 1) xss
    else if key x = k then x :: othersFrom key k selected (index + 1) xss
    else othersFrom key k selected (index + 1) xss

/-- Every list that begins with the selected key moves on. -/
theorem takeHeads_settles {k : κ} {least : Nat × γ} (hkey : key least.2 = k)
    (groups : List (List γ))
    (hcompare : ∀ group ∈ groups, ∀ a ∈ group, KeyCompare Keeps Refused compare key f a least.2)
    (index : Nat)
    (hat : ∀ x bs, index ≤ least.1 → groups[least.1 - index]? = some (x :: bs) → key x = k) :
    Settles Keeps Refused
      (fun fuel => takeHeads (compare fuel) (least.1, f least.2) index (groups.map (List.map f)))
      (.ok ((groups.map (tailWith key k)).map (List.map f),
        (othersFrom key k least.1 index groups).map f)) := by
  induction groups generalizing index with
  | nil => exact Settles.pure
  | cons group groups ih =>
    have hrest := ih (fun g hg => hcompare g (List.mem_cons_of_mem _ hg)) (index + 1) (by
      intro x bs hle hget
      refine hat x bs (by omega) ?_
      rw [show least.1 - index = least.1 - (index + 1) + 1 by omega, List.getElem?_cons_succ]
      exact hget)
    cases group with
    | nil => exact hrest.bind Settles.pure
    | cons head rest =>
      rw [List.map_cons, List.map_cons, List.map_cons, List.map_cons, tailWith_cons]
      unfold takeHeads othersFrom
      by_cases hindex : index = least.1
      · have hhead : key head = k := hat head rest (by omega) (by rw [hindex, Nat.sub_self]; rfl)
        simp only [if_pos hindex, if_pos hhead]
        exact hrest.bind Settles.pure
      · simp only [if_neg hindex]
        have hfirst := hcompare (head :: rest) List.mem_cons_self head List.mem_cons_self
        refine Settles.bind hfirst (hrest.bind ?_)
        by_cases hhead : key head = k
        · have hcmp : cmp (key head) (key least.2) = .eq :=
            (cmp_eq_eq_iff _ _).mpr (hhead.trans hkey.symm)
          rw [hcmp]
          simp only [if_true, if_pos hhead]
          exact Settles.pure
        · have hcmp : cmp (key head) (key least.2) ≠ .eq := fun h =>
            hhead (((cmp_eq_eq_iff _ _).mp h).trans hkey)
          generalize cmp (key head) (key least.2) = order at hcmp
          simp only [if_neg hcmp, if_neg hhead]
          exact Settles.pure

end Settling

section Others
variable {γ κ : Type} [LinearOrder κ] {key : γ → κ} {k : κ}

theorem othersFrom_past {selected index : Nat} {xss : List (List γ)} (h : selected < index) :
    othersFrom key k selected index xss = (xss.map (headWith key k)).reduceOption := by
  induction xss generalizing index with
  | nil => rfl
  | cons xs xss ih =>
    have hrest := @ih (index + 1) (by omega)
    cases xs with
    | nil => exact hrest
    | cons x xs =>
      unfold othersFrom
      rw [List.map_cons, headWith_cons, hrest, if_neg (by omega)]
      by_cases hx : key x = k
      · rw [if_pos hx, if_pos hx, List.reduceOption_cons_of_some]
      · rw [if_neg hx, if_neg hx, List.reduceOption_cons_of_none]

/-- The first head with a key, and the others, are the values that a round uses up. -/
theorem othersFrom_first {least : Nat × γ} {index : Nat} {xss : List (List γ)}
    (h : (heads index xss).find? (fun p => decide (key p.2 = k)) = some least) :
    least.2 :: othersFrom key k least.1 index xss = (xss.map (headWith key k)).reduceOption := by
  induction xss generalizing index with
  | nil => cases h
  | cons xs xss ih =>
    cases xs with
    | nil => exact ih h
    | cons x xs =>
      unfold othersFrom
      rw [List.map_cons, headWith_cons]
      rw [heads] at h
      by_cases hx : key x = k
      · rw [List.find?_cons_of_pos (by simpa using hx)] at h
        cases h
        rw [if_pos rfl, if_pos hx, othersFrom_past (Nat.lt_succ_self _),
          List.reduceOption_cons_of_some]
      · rw [List.find?_cons_of_neg (by simpa using hx)] at h
        obtain ⟨i, _, -, hi⟩ := mem_heads.mp (List.mem_of_find?_eq_some h)
        rw [if_neg (by omega), if_neg hx, if_neg hx, List.reduceOption_cons_of_none]
        exact ih h

end Others

end Projector.Lib
