import Mathlib.Data.List.Perm.Subperm
import Mathlib.Logic.Relation

namespace Projector.Lib

variable {ε α : Type}

/-- Pop a value off the stack; unless it was seen, remember it and push its children,
the last one on top. -/
def explore [DecidableEq α] (children : α → Except ε (List α)) :
    Nat → List α → List α → Except ε (List α)
  | 0, _, seen => .ok seen
  | _ + 1, [], seen => .ok seen
  | fuel + 1, a :: rest, seen =>
    if a ∈ seen then explore children fuel rest seen
    else do
      let next ← children a
      explore children fuel (next.reverse ++ rest) (a :: seen)

section Explore
variable {children : α → Except ε (List α)} {next : α → List α} {space : List α} {degree : Nat}

/-- On the values of `space` the children can be listed, are few and stay inside. -/
structure Expands (children : α → Except ε (List α)) (next : α → List α) (space : List α)
    (degree : Nat) : Prop where
  lists : ∀ a ∈ space, children a = .ok (next a)
  inside : ∀ a ∈ space, ∀ b ∈ next a, b ∈ space
  few : ∀ a ∈ space, (next a).length ≤ degree

/-- What the loop keeps: a seen value has its children seen or waiting. -/
structure Exploring (next : α → List α) (space stack seen : List α) : Prop where
  nodup : seen.Nodup
  inside : ∀ a ∈ seen, a ∈ space
  waiting : ∀ a ∈ stack, a ∈ space
  closed : ∀ a ∈ seen, ∀ b ∈ next a, b ∈ seen ∨ b ∈ stack

theorem Exploring.room {stack seen : List α} (h : Exploring next space stack seen) :
    seen.length ≤ space.length :=
  (List.subperm_of_subset h.nodup h.inside).length_le

theorem Exploring.skip {a : α} {rest seen : List α} (h : Exploring next space (a :: rest) seen)
    (ha : a ∈ seen) : Exploring next space rest seen where
  nodup := h.nodup
  inside := h.inside
  waiting b hb := h.waiting b (List.mem_cons_of_mem a hb)
  closed b hb c hc := by
    cases h.closed b hb c hc with
    | inl hs => exact Or.inl hs
    | inr hs =>
      cases List.mem_cons.mp hs with
      | inl he => exact Or.inl (he ▸ ha)
      | inr hr => exact Or.inr hr

theorem Exploring.visit (hx : Expands children next space degree) {a : α} {rest seen : List α}
    (h : Exploring next space (a :: rest) seen) (ha : a ∉ seen) :
    Exploring next space ((next a).reverse ++ rest) (a :: seen) where
  nodup := List.nodup_cons.mpr ⟨ha, h.nodup⟩
  inside b hb := by
    cases List.mem_cons.mp hb with
    | inl he => exact he ▸ h.waiting a List.mem_cons_self
    | inr hs => exact h.inside b hs
  waiting b hb := by
    cases List.mem_append.mp hb with
    | inl hn => exact hx.inside a (h.waiting a List.mem_cons_self) b (List.mem_reverse.mp hn)
    | inr hr => exact h.waiting b (List.mem_cons_of_mem a hr)
  closed b hb c hc := by
    simp only [List.mem_cons, List.mem_append, List.mem_reverse]
    cases List.mem_cons.mp hb with
    | inl he => exact Or.inr (Or.inl (he ▸ hc))
    | inr hs =>
      cases h.closed b hs c hc with
      | inl hseen => exact Or.inl (Or.inr hseen)
      | inr hstack =>
        cases List.mem_cons.mp hstack with
        | inl he => exact Or.inl (Or.inl he)
        | inr hr => exact Or.inr (Or.inr hr)

variable [DecidableEq α]

/-- With enough fuel the loop ends on an empty stack. The fuel pays for every value on
the stack and for the children of every value still unseen. -/
theorem explore_run (hx : Expands children next space degree) :
    ∀ fuel stack seen, Exploring next space stack seen →
      stack.length + (space.length - seen.length) * degree ≤ fuel →
      ∃ found, explore children fuel stack seen = .ok found ∧
        Exploring next space [] found ∧ (∀ a ∈ seen, a ∈ found) ∧ (∀ a ∈ stack, a ∈ found) ∧
        ∀ b ∈ found, b ∈ seen ∨ ∃ a ∈ stack, Relation.ReflTransGen (fun x y => y ∈ next x) a b := by
  intro fuel
  induction fuel with
  | zero =>
    intro stack seen h hfuel
    have hempty : stack = [] := List.length_eq_zero_iff.mp (by omega)
    subst hempty
    exact ⟨seen, rfl, h, fun _ ha => ha, by simp, fun b hb => Or.inl hb⟩
  | succ fuel ih =>
    intro stack seen h hfuel
    cases stack with
    | nil => exact ⟨seen, rfl, h, fun _ ha => ha, by simp, fun b hb => Or.inl hb⟩
    | cons a rest =>
      by_cases ha : a ∈ seen
      · have hcost : rest.length + (space.length - seen.length) * degree ≤ fuel := by
          simp only [List.length_cons] at hfuel
          omega
        obtain ⟨found, hrun, hinv, hseen, hstack, hsound⟩ := ih rest seen (h.skip ha) hcost
        refine ⟨found, by simp [explore, ha, hrun], hinv, hseen, ?_, ?_⟩
        · intro b hb
          cases List.mem_cons.mp hb with
          | inl he => exact he ▸ hseen a ha
          | inr hr => exact hstack b hr
        · intro b hb
          cases hsound b hb with
          | inl hs => exact Or.inl hs
          | inr hs =>
            obtain ⟨c, hc, hreach⟩ := hs
            exact Or.inr ⟨c, List.mem_cons_of_mem a hc, hreach⟩
      · have hspace := h.waiting a List.mem_cons_self
        have hvisit := h.visit hx ha
        have hroom := hvisit.room
        have hfew := hx.few a hspace
        have hcost : ((next a).reverse ++ rest).length +
            (space.length - (a :: seen).length) * degree ≤ fuel := by
          simp only [List.length_cons, List.length_append, List.length_reverse] at hfuel hroom ⊢
          have hsplit : (space.length - seen.length) * degree =
              (space.length - (seen.length + 1)) * degree + degree := by
            rw [← Nat.succ_mul]
            congr 1
            omega
          omega
        obtain ⟨found, hrun, hinv, hseen, hstack, hsound⟩ := ih _ _ hvisit hcost
        refine ⟨found, ?_, hinv, ?_, ?_, ?_⟩
        · simp [explore, ha, hx.lists a hspace, hrun, Bind.bind, Except.bind]
        · exact fun b hb => hseen b (List.mem_cons_of_mem a hb)
        · intro b hb
          cases List.mem_cons.mp hb with
          | inl he => exact he ▸ hseen a List.mem_cons_self
          | inr hr => exact hstack b (List.mem_append_right _ hr)
        · intro b hb
          cases hsound b hb with
          | inl hs =>
            cases List.mem_cons.mp hs with
            | inl he => exact Or.inr ⟨a, List.mem_cons_self, he ▸ Relation.ReflTransGen.refl⟩
            | inr hr => exact Or.inl hr
          | inr hs =>
            obtain ⟨c, hc, hreach⟩ := hs
            cases List.mem_append.mp hc with
            | inl hn =>
              have hstep : c ∈ next a := List.mem_reverse.mp hn
              exact Or.inr ⟨a, List.mem_cons_self, Relation.ReflTransGen.head hstep hreach⟩
            | inr hr => exact Or.inr ⟨c, List.mem_cons_of_mem a hr, hreach⟩

/-- The loop finds what is reachable from the stack, each value once. -/
theorem explore_reaches (hx : Expands children next space degree) {stack : List α} {fuel : Nat}
    (hstack : ∀ a ∈ stack, a ∈ space)
    (hfuel : stack.length + space.length * degree ≤ fuel) :
    ∃ found, explore children fuel stack [] = .ok found ∧ found.Nodup ∧
      ∀ b, b ∈ found ↔ ∃ a ∈ stack, Relation.ReflTransGen (fun x y => y ∈ next x) a b := by
  have hstart : Exploring next space stack [] := ⟨List.nodup_nil, by simp, hstack, by simp⟩
  obtain ⟨found, hrun, hinv, -, hroots, hsound⟩ := explore_run hx fuel stack [] hstart hfuel
  refine ⟨found, hrun, hinv.nodup, ?_⟩
  intro b
  constructor
  · intro hb
    cases hsound b hb with
    | inl hs => simp at hs
    | inr hs => exact hs
  · intro ⟨a, ha, hreach⟩
    induction hreach with
    | refl => exact hroots a ha
    | tail _ hstep ih =>
      cases hinv.closed _ ih _ hstep with
      | inl hs => exact hs
      | inr hs => simp at hs

/-- The children of a value, none where they cannot be listed. -/
def listed (children : α → Except ε (List α)) (a : α) : List α :=
  match children a with
  | .ok next => next
  | .error _ => []

omit [DecidableEq α] in
theorem listed_eq {a : α} {next : List α} (h : children a = .ok next) :
    listed children a = next := by
  unfold listed
  rw [h]

/-- A loop that ends well has listed the children of whatever it found. -/
theorem explore_listed {fuel : Nat} {stack seen found : List α}
    (h : explore children fuel stack seen = .ok found) :
    explore (ε := ε) (fun a => .ok (listed children a)) fuel stack seen = .ok found ∧
      ∀ a ∈ found, a ∈ seen ∨ children a = .ok (listed children a) := by
  induction fuel generalizing stack seen with
  | zero =>
    cases h
    exact ⟨rfl, fun a ha => Or.inl ha⟩
  | succ fuel ih =>
    cases stack with
    | nil =>
      cases h
      exact ⟨rfl, fun a ha => Or.inl ha⟩
    | cons a rest =>
      unfold explore at h ⊢
      by_cases ha : a ∈ seen
      · rw [if_pos ha] at h ⊢
        exact ih h
      · rw [if_neg ha] at h ⊢
        cases hchildren : children a with
        | error e =>
          rw [hchildren] at h
          cases h
        | ok next =>
          rw [hchildren] at h
          obtain ⟨hrun, hfound⟩ := ih h
          rw [listed_eq hchildren]
          refine ⟨hrun, fun b hb => ?_⟩
          rcases hfound b hb with hseen | hlisted
          · rcases List.mem_cons.mp hseen with rfl | hseen
            · exact Or.inr (by rw [listed_eq hchildren]; exact hchildren)
            · exact Or.inl hseen
          · exact Or.inr hlisted

/-- A loop that ends well found what is reachable from the stack. -/
theorem explore_found (hx : ∀ a ∈ space, ∀ next, children a = .ok next →
      (∀ b ∈ next, b ∈ space) ∧ next.length ≤ degree)
    {stack found : List α} {fuel : Nat} (hstack : ∀ a ∈ stack, a ∈ space)
    (hfuel : stack.length + space.length * degree ≤ fuel)
    (h : explore children fuel stack [] = .ok found) (b : α) :
    b ∈ found ↔
      ∃ a ∈ stack, Relation.ReflTransGen (fun x y => y ∈ listed children x) a b := by
  obtain ⟨hrun, -⟩ := explore_listed h
  have hexpands : Expands (ε := ε) (fun a => .ok (listed children a)) (listed children) space
      degree := by
    refine ⟨fun _ _ => rfl, ?_, ?_⟩
    · intro a ha b hb
      cases hchildren : children a with
      | ok next =>
        rw [listed_eq hchildren] at hb
        exact (hx a ha next hchildren).1 b hb
      | error e =>
        unfold listed at hb
        rw [hchildren] at hb
        cases hb
    · intro a ha
      cases hchildren : children a with
      | ok next =>
        rw [listed_eq hchildren]
        exact (hx a ha next hchildren).2
      | error e =>
        unfold listed
        rw [hchildren]
        exact Nat.zero_le degree
  obtain ⟨found', hrun', -, hreach⟩ := explore_reaches hexpands hstack hfuel
  obtain rfl : found = found' := Except.ok.inj (hrun.symm.trans hrun')
  exact hreach b

/-- What a loop that ends well found is closed under the children. -/
theorem explore_closed (hx : ∀ a ∈ space, ∀ next, children a = .ok next →
      (∀ b ∈ next, b ∈ space) ∧ next.length ≤ degree)
    {stack found : List α} {fuel : Nat} (hstack : ∀ a ∈ stack, a ∈ space)
    (hfuel : stack.length + space.length * degree ≤ fuel)
    (h : explore children fuel stack [] = .ok found) :
    (∀ a ∈ stack, a ∈ found) ∧
      ∀ a ∈ found, ∃ next, children a = .ok next ∧ ∀ b ∈ next, b ∈ found := by
  have hreach := explore_found hx hstack hfuel h
  refine ⟨fun a ha => (hreach a).mpr ⟨a, ha, .refl⟩, fun a ha => ?_⟩
  rcases (explore_listed h).2 a ha with hnone | hchildren
  · cases hnone
  · refine ⟨_, hchildren, fun b hb => ?_⟩
    obtain ⟨root, hroot, hpath⟩ := (hreach a).mp ha
    exact (hreach b).mpr ⟨root, hroot, hpath.tail hb⟩

/-- The loop finds no value twice. -/
theorem explore_nodup {fuel : Nat} {stack seen found : List α} (hseen : seen.Nodup)
    (h : explore children fuel stack seen = .ok found) : found.Nodup := by
  induction fuel generalizing stack seen with
  | zero =>
    cases h
    exact hseen
  | succ fuel ih =>
    cases stack with
    | nil =>
      cases h
      exact hseen
    | cons a rest =>
      unfold explore at h
      by_cases ha : a ∈ seen
      · rw [if_pos ha] at h
        exact ih hseen h
      · rw [if_neg ha] at h
        cases hchildren : children a with
        | error e =>
          rw [hchildren] at h
          cases h
        | ok next =>
          rw [hchildren] at h
          exact ih (List.nodup_cons.mpr ⟨ha, hseen⟩) h

end Explore

end Projector.Lib
