import Mathlib.Data.List.Forall2
import Projector.Lib.KWayMerge

namespace Projector.Lib

variable {ε σ α β : Type}

/-- What must hold before `x` for a normal end to satisfy `Q` and a raised error
to satisfy `E`. The state reached before the error is kept. -/
def wp (x : EStateM ε σ α) (Q : α → σ → Prop) (E : ε → σ → Prop) (s : σ) : Prop :=
  match x s with
  | .ok a s' => Q a s'
  | .error e s' => E e s'

section Rules
variable {Q Q' : α → σ → Prop} {E E' : ε → σ → Prop} {s : σ}

theorem wp_mono {x : EStateM ε σ α} (h : wp x Q E s)
    (hq : ∀ a t, Q a t → Q' a t) (he : ∀ e t, E e t → E' e t) : wp x Q' E' s := by
  unfold wp at h ⊢
  cases hx : x s with
  | ok a t => exact hq a t (by simpa [hx] using h)
  | error e t => exact he e t (by simpa [hx] using h)

theorem wp_and {x : EStateM ε σ α} (h : wp x Q E s) (h' : wp x Q' E' s) :
    wp x (fun a t => Q a t ∧ Q' a t) (fun e t => E e t ∧ E' e t) s := by
  unfold wp at h h' ⊢
  cases hx : x s with
  | ok a t => exact ⟨by simpa [hx] using h, by simpa [hx] using h'⟩
  | error e t => exact ⟨by simpa [hx] using h, by simpa [hx] using h'⟩

/-- A run that cannot raise ends normally. -/
theorem wp_total {x : EStateM ε σ α} (h : wp x Q (fun _ _ => False) s) :
    ∃ a t, x s = .ok a t ∧ Q a t := by
  unfold wp at h
  cases hx : x s with
  | ok a t => exact ⟨a, t, rfl, by simpa [hx] using h⟩
  | error e t => simp [hx] at h

@[simp]
theorem wp_pure (a : α) : wp (pure a : EStateM ε σ α) Q E s = Q a s := rfl

@[simp]
theorem wp_throw (e : ε) : wp (throw e : EStateM ε σ α) Q E s = E e s := rfl

@[simp]
theorem wp_bind {R : β → σ → Prop} (x : EStateM ε σ α) (f : α → EStateM ε σ β) :
    wp (x >>= f) R E s = wp x (fun a t => wp (f a) R E t) E s := by
  unfold wp
  simp only [bind, EStateM.bind]
  cases x s <;> rfl

@[simp]
theorem wp_map {R : β → σ → Prop} (x : EStateM ε σ α) (f : α → β) :
    wp (f <$> x) R E s = wp x (fun a t => R (f a) t) E s := by
  unfold wp
  simp only [Functor.map, EStateM.map]
  cases x s <;> rfl

@[simp]
theorem wp_discard {R : PUnit → σ → Prop} (x : EStateM ε σ α) :
    wp (discard x) R E s = wp x (fun _ => R ⟨⟩) E s := by
  unfold wp
  simp only [Functor.discard, Functor.mapConst, Function.comp_apply, EStateM.map]
  cases x s <;> rfl

@[simp]
theorem wp_get {R : σ → σ → Prop} : wp (get : EStateM ε σ σ) R E s = R s s := rfl

@[simp]
theorem wp_set {R : PUnit → σ → Prop} (t : σ) :
    wp (set t : EStateM ε σ PUnit) R E s = R ⟨⟩ t := rfl

@[simp]
theorem wp_modify {R : PUnit → σ → Prop} (f : σ → σ) :
    wp (modify f : EStateM ε σ PUnit) R E s = R ⟨⟩ (f s) := rfl

@[simp]
theorem wp_modifyGet (f : σ → α × σ) :
    wp (modifyGet f : EStateM ε σ α) Q E s = Q (f s).1 (f s).2 := rfl

theorem wp_ite {c : Prop} [Decidable c] {x y : EStateM ε σ α} :
    wp (if c then x else y) Q E s = if c then wp x Q E s else wp y Q E s := by
  split <;> rfl

@[simp]
theorem wp_tryCatch (x : EStateM ε σ α) (h : ε → EStateM ε σ α) :
    wp (tryCatch x h) Q E s = wp x Q (fun e t => wp (h e) Q E t) s := by
  unfold wp
  simp only [tryCatch, tryCatchThe, MonadExceptOf.tryCatch, EStateM.tryCatch]
  cases x s <;> rfl

end Rules

/-- A guard that raises. -/
def raiseIf (c : Prop) [Decidable c] (e : ε) : EStateM ε σ Unit :=
  if c then throw e else pure ()

/-- An effect that runs only under a condition. -/
def runIf (c : Prop) [Decidable c] (x : EStateM ε σ Unit) : EStateM ε σ Unit :=
  if c then x else pure ()

section Rules
variable {E : ε → σ → Prop} {s : σ}

theorem wp_raiseIf {R : Unit → σ → Prop} {c : Prop} [Decidable c] {e : ε} (hthrow : c → E e s)
    (hpass : ¬c → R () s) : wp (raiseIf c e) R E s := by
  unfold raiseIf
  split
  · rename_i hc
    exact hthrow hc
  · rename_i hc
    exact hpass hc

theorem wp_runIf {R : Unit → σ → Prop} {c : Prop} [Decidable c] {x : EStateM ε σ Unit}
    (hrun : c → wp x R E s) (hskip : ¬c → R () s) : wp (runIf c x) R E s := by
  unfold runIf
  split
  · rename_i hc
    exact hrun hc
  · rename_i hc
    exact hskip hc

end Rules

/-- Run `f` after `x` however `x` ends; an error of `f` replaces that of `x`. -/
def andFinally (x : EStateM ε σ α) (f : EStateM ε σ Unit) : EStateM ε σ α := do
  let a ← tryCatch x (fun e => do f; throw e)
  f
  pure a

section Rules
variable {Q : α → σ → Prop} {E : ε → σ → Prop} {s : σ}

theorem wp_finally {x : EStateM ε σ α} {f : EStateM ε σ Unit}
    (h : wp x (fun a t => wp f (fun _ => Q a) E t) (fun e t => wp f (fun _ => E e) E t) s) :
    wp (andFinally x f) Q E s := by
  simp only [andFinally, wp_bind, wp_tryCatch, wp_throw, wp_pure]
  exact h

end Rules

/-- A generator, given by the loop over its values: the body runs at each yield,
so the effects of the two interleave. -/
structure Producer (ε σ α : Type) where
  fold : {β : Type} → (β → α → EStateM ε σ β) → β → EStateM ε σ β

/-- The generator of a list. -/
def Producer.ofList (xs : List α) : Producer ε σ α where
  fold body b := xs.foldlM body b

/-- A generator without adjacent repetitions. -/
def Producer.coalesce [DecidableEq α] (p : Producer ε σ α) : Producer ε σ α where
  fold body b := do
    let (_, b) ← p.fold (fun (last, b) a =>
      if last = some a then pure (last, b) else do
        let b ← body b a
        pure (some a, b)) (none, b)
    pure b

/-- From states satisfying `P` the generator yields exactly `xs`. Its own steps
change the state by `own` only, and its own errors satisfy `F`. -/
def Yields (P : σ → Prop) (own : σ → σ → Prop) (F : ε → Prop) (p : Producer ε σ α)
    (xs : List α) : Prop :=
  ∀ {β : Type} (I : List α → β → σ → Prop) (E : ε → σ → Prop) (body : β → α → EStateM ε σ β),
    (∀ done b s t, own s t → I done b s → I done b t) →
    (∀ done b s e, I done b s → F e → E e s) →
    (∀ done a rest b s, xs = done ++ a :: rest → I done b s →
      wp (body b a) (I (done ++ [a])) E s) →
    ∀ b s, P s → I [] b s → wp (p.fold body b) (I xs) E s

theorem wp_foldlM {xs : List α} (I : List α → β → σ → Prop) {E : ε → σ → Prop}
    {body : β → α → EStateM ε σ β}
    (hstep : ∀ done a rest b s, xs = done ++ a :: rest → I done b s →
      wp (body b a) (I (done ++ [a])) E s) {b : β} {s : σ} (hi : I [] b s) :
    wp (xs.foldlM body b) (I xs) E s := by
  suffices h : ∀ rest done b s, xs = done ++ rest → I done b s →
      wp (rest.foldlM body b) (I xs) E s from h xs [] b s rfl hi
  intro rest
  induction rest with
  | nil =>
    intro done b s hx hi
    have hd : done = xs := by simpa using hx.symm
    subst hd
    simpa using hi
  | cons a rest ih =>
    intro done b s hx hi
    simp only [List.foldlM_cons, wp_bind]
    refine wp_mono (hstep done a rest b s hx hi) ?_ (fun _ _ h => h)
    intro b' t hi'
    exact ih (done ++ [a]) b' t (by simpa using hx) hi'

theorem yields_ofList {P : σ → Prop} {own : σ → σ → Prop} {F : ε → Prop} (xs : List α) :
    Yields P own F (Producer.ofList xs) xs := by
  intro β I E body _ _ hstep b s _ hi
  exact wp_foldlM I hstep hi

section Coalesce
variable [DecidableEq α]

theorem coalesceFrom_append (last : Option α) (xs ys : List α) :
    coalesceFrom last (xs ++ ys) =
      coalesceFrom last xs ++ coalesceFrom (xs.getLast?.or last) ys := by
  induction xs generalizing last with
  | nil => simp [coalesceFrom]
  | cons x xs ih =>
    have hlast : (x :: xs).getLast?.or last = xs.getLast?.or (some x) := by
      cases xs with
      | nil => simp
      | cons y ys => simp [List.getLast?_cons]
    simp only [List.cons_append, coalesceFrom]
    split
    · rename_i hl
      rw [ih, hlast, hl]
    · rw [ih, hlast, List.cons_append]

theorem coalesce_snoc (xs : List α) (a : α) :
    coalesce (xs ++ [a]) = if xs.getLast? = some a then coalesce xs else coalesce xs ++ [a] := by
  rw [coalesce, coalesceFrom_append, Option.or_none]
  simp only [coalesceFrom]
  split <;> simp [coalesce]

theorem Yields.coalesce {P : σ → Prop} {own : σ → σ → Prop} {F : ε → Prop}
    {p : Producer ε σ α} {xs : List α} (h : Yields P own F p xs) :
    Yields P own F p.coalesce (Lib.coalesce xs) := by
  intro β I E body hown hfault hstep b s hp hi
  simp only [Producer.coalesce, wp_bind]
  have hrun := h (β := Option α × β)
    (fun done q t => q.1 = done.getLast? ∧ I (Lib.coalesce done) q.2 t) E
    (fun q a => if q.1 = some a then pure (q.1, q.2) else do
      let b ← body q.2 a
      pure (some a, b))
    (fun done q s t ho hq => ⟨hq.1, hown _ _ s t ho hq.2⟩)
    (fun done q s e hq hf => hfault _ _ s e hq.2 hf)
    (by
      rintro done a rest ⟨last, c⟩ t hx ⟨hl, hc⟩
      simp only at hl hc
      subst hl
      rw [coalesce_snoc]
      by_cases ha : done.getLast? = some a
      · simpa [ha] using hc
      · simp only [ha, if_false, wp_bind, wp_pure]
        have hsplit : Lib.coalesce xs = Lib.coalesce done ++ a :: coalesceFrom (some a) rest := by
          rw [hx, Lib.coalesce, coalesceFrom_append, Option.or_none, coalesceFrom, if_neg ha]
          rfl
        refine wp_mono (hstep _ a _ c t hsplit hc) ?_ (fun _ _ h => h)
        intro c' t' hc'
        exact ⟨by simp, hc'⟩)
    (none, b) s hp ⟨rfl, by simpa [Lib.coalesce, coalesceFrom] using hi⟩
  refine wp_mono hrun ?_ (fun _ _ h => h)
  rintro ⟨last, c⟩ t ⟨-, hc⟩
  exact hc

end Coalesce

section Except

theorem bind_ok {x : Except ε α} {f : α → Except ε β} {b : β}
    (h : x >>= f = .ok b) : ∃ a, x = .ok a ∧ f a = .ok b := by
  cases x with
  | error e => cases h
  | ok a => exact ⟨a, rfl, h⟩

theorem ok_bind {x : Except ε α} {a : α} (f : α → Except ε β) (h : x = .ok a) :
    x >>= f = f a := by
  rw [h]
  rfl

/-- What a loop over an interval keeps when it ends normally. -/
theorem foldlM_range_ok {f : β → Nat → Except ε β} (I : Nat → β → Prop) (length : Nat) :
    ∀ start b b', (List.range' start length).foldlM f b = .ok b' → I start b →
      (∀ k c c', start ≤ k → k < start + length → I k c → f c k = .ok c' → I (k + 1) c') →
      I (start + length) b' := by
  induction length with
  | zero =>
    intro start b b' h hi _
    obtain rfl : b = b' := Except.ok.inj h
    exact hi
  | succ length ih =>
    intro start b b' h hi hstep
    rw [List.range'_succ, List.foldlM_cons] at h
    obtain ⟨c, hc, hrest⟩ := bind_ok h
    have hnext := hstep start b c (le_refl _) (by omega) hi hc
    have hdone := ih (start + 1) c b' hrest hnext
      (fun k d d' hlo hhi => hstep k d d' (by omega) (by omega))
    rwa [Nat.add_assoc, Nat.add_comm 1] at hdone

theorem foldlM_ok {f : β → α → Except ε β} (I : β → Prop) :
    ∀ (xs : List α) (b b' : β), xs.foldlM f b = .ok b' → I b →
      (∀ c x c', x ∈ xs → I c → f c x = .ok c' → I c') → I b' := by
  intro xs
  induction xs with
  | nil =>
    intro b b' h hi _
    obtain rfl : b = b' := Except.ok.inj h
    exact hi
  | cons x xs ih =>
    intro b b' h hi hstep
    rw [List.foldlM_cons] at h
    obtain ⟨c, hc, hrest⟩ := bind_ok h
    exact ih c b' hrest (hstep b x c List.mem_cons_self hi hc)
      (fun d y d' hy => hstep d y d' (List.mem_cons_of_mem x hy))

theorem forall₂_of_mapM {f : α → Except ε β} {xs : List α} {ys : List β}
    (h : xs.mapM f = .ok ys) : List.Forall₂ (fun x y => f x = .ok y) xs ys := by
  induction xs generalizing ys with
  | nil =>
    cases h
    exact .nil
  | cons x xs ih =>
    rw [List.mapM_cons] at h
    obtain ⟨y, hy, h⟩ := bind_ok h
    obtain ⟨rest, hrest, h⟩ := bind_ok h
    cases h
    exact .cons hy (ih hrest)

/-- A traversal returns when it does at every element. -/
theorem mapM_total {f : α → Except ε β} {xs : List α} (h : ∀ x ∈ xs, ∃ y, f x = .ok y) :
    ∃ ys, xs.mapM f = .ok ys := by
  induction xs with
  | nil => exact ⟨[], rfl⟩
  | cons x xs ih =>
    obtain ⟨y, hy⟩ := h x List.mem_cons_self
    obtain ⟨ys, hys⟩ := ih fun x' hx' => h x' (List.mem_cons_of_mem x hx')
    refine ⟨y :: ys, ?_⟩
    rw [List.mapM_cons, ok_bind _ hy, ok_bind _ hys]
    rfl

/-- Reading the elements of one list in step with another. -/
theorem mapM_forall₂ {γ : Type} {f : α → Except ε β} {rel : α → γ → Prop}
    {result : β → γ → Prop} {xs : List α} {ys : List γ} (h : List.Forall₂ rel xs ys)
    (hf : ∀ x y, rel x y → ∃ b, f x = .ok b ∧ result b y) :
    ∃ bs, xs.mapM f = .ok bs ∧ List.Forall₂ result bs ys := by
  induction h with
  | nil => exact ⟨[], rfl, List.Forall₂.nil⟩
  | cons hx _ ih =>
    obtain ⟨b, hb, hr⟩ := hf _ _ hx
    obtain ⟨bs, hbs, hrest⟩ := ih
    refine ⟨b :: bs, ?_, List.Forall₂.cons hr hrest⟩
    rw [List.mapM_cons, ok_bind _ hb, ok_bind _ hbs]
    rfl

end Except

end Projector.Lib
