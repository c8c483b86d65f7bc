import Projector.Lib.Generator

namespace Projector.Lib

variable {ε σ τ β α γ δ ι κ : Type}

namespace Gen

theorem pure_bind (a : α) (f : α → Gen ε σ β γ) : (pure a >>= f) = f a := by
  funext s
  simp only [Bind.bind, andThen, pure, ret, List.nil_append]

theorem bind_unit (g : Gen ε σ β Unit) : (do g; pure ()) = g := by
  funext s
  simp only [Bind.bind, andThen, pure, ret, List.append_nil]
  generalize g s = t
  obtain ⟨yields, outcome, state⟩ := t
  cases outcome <;> rfl

theorem bind_assoc (g : Gen ε σ β α) (f : α → Gen ε σ β γ) (h : γ → Gen ε σ β δ) :
    ((g >>= f) >>= h) = (g >>= fun a => f a >>= h) := by
  funext s
  simp only [Bind.bind, andThen]
  cases (g s).outcome with
  | error e => rfl
  | ok a =>
    simp only
    cases (f a (g s).state).outcome with
    | error e => rfl
    | ok c => simp only [List.append_assoc]

theorem emitAll_append (bs cs : List β) :
    (emitAll (bs ++ cs) : Gen ε σ β Unit) = (do emitAll bs; emitAll cs) := by
  induction bs with
  | nil => exact (pure_bind () fun _ => emitAll cs).symm
  | cons b bs ih =>
    have hturn : (emitAll (b :: bs ++ cs) : Gen ε σ β Unit) =
        (emit b >>= fun _ => emitAll (bs ++ cs)) := rfl
    rw [hturn, ih]
    exact (bind_assoc (emit b) (fun _ => emitAll bs) fun _ => emitAll cs).symm

theorem emitAll_run (bs : List β) (s : σ) :
    (emitAll bs : Gen ε σ β Unit) s = ⟨bs.map fun b => (b, s), .ok (), s⟩ := by
  induction bs with
  | nil => rfl
  | cons b bs ih =>
    unfold emitAll
    simp only [Bind.bind, andThen, emit, ih, List.map_cons, List.singleton_append]

/-- Values listed at once, or value by value. -/
theorem emitAll_flatMap (xs : List ι) (f : ι → List β) :
    (emitAll (xs.flatMap f) : Gen ε σ β Unit) = each xs fun x => emitAll (f x) := by
  induction xs with
  | nil => rfl
  | cons x xs ih =>
    rw [List.flatMap_cons, emitAll_append, ih]
    rfl

theorem each_paired {rel : ι → κ → Prop} {xs : List ι} {ys : List κ} (h : List.Forall₂ rel xs ys)
    {f : ι → Gen ε σ β Unit} {g : κ → Gen ε σ β Unit} (hturn : ∀ x y, rel x y → f x = g y) :
    each xs f = each ys g := by
  induction h with
  | nil => rfl
  | cons hxy _ ih =>
    unfold each
    rw [hturn _ _ hxy, ih]

/-- What a loop does in one pass, where no turn of the second kind comes before one of the first,
can be done in two. -/
theorem each_phases {xs : List ι} {body first second : ι → Gen ε σ β Unit} {p q : ι → Bool}
    (hfirst : ∀ x ∈ xs, p x = true → body x = first x)
    (hsecond : ∀ x ∈ xs, p x = false → q x = true → body x = second x)
    (hskip : ∀ x ∈ xs, p x = false → q x = false → body x = pure ())
    (hdisjoint : ∀ x ∈ xs, p x = true → q x = false)
    (horder : xs.Pairwise fun a b => q a = true → p b = false) :
    each xs body = (do each (xs.filter p) first; each (xs.filter q) second) := by
  induction xs with
  | nil => exact (pure_bind () fun _ => each [] second).symm
  | cons x xs ih =>
    obtain ⟨hafter, hpairs⟩ := List.pairwise_cons.mp horder
    have hrest := ih (fun y hy => hfirst y (List.mem_cons_of_mem x hy))
      (fun y hy => hsecond y (List.mem_cons_of_mem x hy))
      (fun y hy => hskip y (List.mem_cons_of_mem x hy))
      (fun y hy => hdisjoint y (List.mem_cons_of_mem x hy)) hpairs
    have hturn : each (x :: xs) body = (body x >>= fun _ => each xs body) := rfl
    have hmem : x ∈ x :: xs := List.mem_cons_self
    rw [hturn, hrest]
    cases hp : p x with
    | true =>
      have hq := hdisjoint x hmem hp
      rw [List.filter_cons_of_pos hp, List.filter_cons_of_neg (by simp [hq]), hfirst x hmem hp]
      exact (bind_assoc (first x) (fun _ => each (xs.filter p) first) fun _ =>
        each (xs.filter q) second).symm
    | false =>
      rw [List.filter_cons_of_neg (by simp [hp])]
      cases hq : q x with
      | true =>
        -- The first phase is over.
        have hnone : xs.filter p = [] := by
          rw [List.filter_eq_nil_iff]
          intro y hy
          rw [hafter y hy hq]
          exact Bool.false_ne_true
        rw [hnone, List.filter_cons_of_pos hq, hsecond x hmem hp hq]
        rfl
      | false =>
        rw [List.filter_cons_of_neg (by simp [hq]), hskip x hmem hp hq]
        exact pure_bind () _

end Gen

end Projector.Lib
