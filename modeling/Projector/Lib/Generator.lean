import Mathlib.Data.List.Forall2

namespace Projector.Lib

variable {ε σ τ β α γ ι κ : Type}

/-- What a generator does when it is run to its end: the values it yields, each
with the state it is suspended in, how it ends, and the state it leaves. -/
structure Trace (ε σ β α : Type) where
  yields : List (β × σ)
  outcome : Except ε α
  state : σ

def Trace.values (t : Trace ε σ β α) : List β := t.yields.map Prod.fst

/-- A generator over a mutable state. Only its own steps change the state while it
is being consumed, so one run determines every suspended prefix of it. -/
def Gen (ε σ β α : Type) := σ → Trace ε σ β α

namespace Gen

def ret (a : α) : Gen ε σ β α := fun s => ⟨[], .ok a, s⟩

def andThen (g : Gen ε σ β α) (f : α → Gen ε σ β γ) : Gen ε σ β γ := fun s =>
  match (g s).outcome with
  | .ok a =>
    let rest := f a (g s).state
    ⟨(g s).yields ++ rest.yields, rest.outcome, rest.state⟩
  | .error e => ⟨(g s).yields, .error e, (g s).state⟩

instance : Monad (Gen ε σ β) where
  pure := ret
  bind := andThen

def emit (b : β) : Gen ε σ β Unit := fun s => ⟨[(b, s)], .ok (), s⟩

def raise (e : ε) : Gen ε σ β α := fun s => ⟨[], .error e, s⟩

def gets (f : σ → α) : Gen ε σ β α := fun s => ⟨[], .ok (f s), s⟩

def modify (f : σ → σ) : Gen ε σ β Unit := fun s => ⟨[], .ok (), f s⟩

def emitAll : List β → Gen ε σ β Unit
  | [] => pure ()
  | b :: rest => do emit b; emitAll rest

def each (xs : List ι) (body : ι → Gen ε σ β Unit) : Gen ε σ β Unit :=
  match xs with
  | [] => pure ()
  | x :: rest => do body x; each rest body

def when (c : Bool) (g : Gen ε σ β Unit) : Gen ε σ β Unit := if c then g else pure ()

/-- Hold yields back until there are `size` of them; what is left at the end is
yielded in the final state, if there is one. -/
def holdBack (size : Nat) (final : Option σ) (batch : List β) : List (β × σ) → List (β × σ)
  | [] =>
    match final with
    | some s => batch.map fun b => (b, s)
    | none => []
  | (b, s) :: rest =>
    if (batch ++ [b]).length = size then
      (batch ++ [b]).map (fun b => (b, s)) ++ holdBack size final [] rest
    else holdBack size final (batch ++ [b]) rest

/-- A generator read ahead in batches. A batch that is not full when it raises is lost. -/
def batched (size : Nat) (g : Gen ε σ β Unit) : Gen ε σ β Unit := fun s =>
  match (g s).outcome with
  | .ok _ => ⟨holdBack size (some (g s).state) [] (g s).yields, .ok (), (g s).state⟩
  | .error e => ⟨holdBack size none [] (g s).yields, .error e, (g s).state⟩

end Gen

section Batches

theorem holdBack_values (size : Nat) (s : σ) (batch : List β) (coming : List (β × σ)) :
    (Gen.holdBack size (some s) batch coming).map Prod.fst = batch ++ coming.map Prod.fst := by
  induction coming generalizing batch with
  | nil => simp [Gen.holdBack, Function.comp_def]
  | cons y rest ih =>
    unfold Gen.holdBack
    split
    · simp [ih, Function.comp_def]
    · simp [ih]

/-- Reading ahead does not change what a run to the end yields. -/
theorem batched_values {g : Gen ε σ β Unit} {s : σ} {size : Nat} (h : (g s).outcome = .ok ()) :
    (Gen.batched size g s).values = (g s).values := by
  simp only [Gen.batched, h, Trace.values, holdBack_values, List.nil_append]

theorem batched_outcome (g : Gen ε σ β Unit) (s : σ) (size : Nat) :
    (Gen.batched size g s).outcome = (g s).outcome := by
  unfold Gen.batched
  cases (g s).outcome <;> rfl

theorem batched_state (g : Gen ε σ β Unit) (s : σ) (size : Nat) :
    (Gen.batched size g s).state = (g s).state := by
  unfold Gen.batched
  cases (g s).outcome <;> rfl

/-- A held-back value is seen in a state of the run. -/
theorem holdBack_states {P : σ → Prop} {size : Nat} {final : Option σ} {batch : List β}
    {coming : List (β × σ)} (hfinal : ∀ s, final = some s → P s) (hcoming : ∀ y ∈ coming, P y.2) :
    ∀ y ∈ Gen.holdBack size final batch coming, P y.2 := by
  induction coming generalizing batch with
  | nil =>
    intro y hy
    cases final with
    | none => simp [Gen.holdBack] at hy
    | some s =>
      obtain ⟨b, -, rfl⟩ := List.mem_map.mp hy
      exact hfinal s rfl
  | cons z rest ih =>
    have hrest : ∀ y ∈ rest, P y.2 := fun y hy => hcoming y (List.mem_cons_of_mem z hy)
    intro y hy
    unfold Gen.holdBack at hy
    split at hy
    · cases List.mem_append.mp hy with
      | inl hb =>
        obtain ⟨b, -, rfl⟩ := List.mem_map.mp hb
        exact hcoming z List.mem_cons_self
      | inr hr => exact ih hrest y hr
    · exact ih hrest y hy

end Batches

/-- From related states the two generators yield the same values and end the same
way; a normal end returns equal results and leaves states related by `Q`. -/
def Agree (P : σ → τ → Prop) (g : Gen ε σ β α) (h : Gen ε τ β α) (Q : α → σ → τ → Prop) : Prop :=
  ∀ s t, P s t → (g s).values = (h t).values ∧
    ((∃ a, (g s).outcome = .ok a ∧ (h t).outcome = .ok a ∧ Q a (g s).state (h t).state) ∨
      ∃ e, (g s).outcome = .error e ∧ (h t).outcome = .error e)

namespace Agree
variable {P P' : σ → τ → Prop} {Q Q' : α → σ → τ → Prop}

theorem mono {g : Gen ε σ β α} {h : Gen ε τ β α} (hg : Agree P g h Q)
    (hp : ∀ s t, P' s t → P s t) (hq : ∀ a s t, Q a s t → Q' a s t) : Agree P' g h Q' := by
  intro s t hst
  obtain ⟨hv, hend⟩ := hg s t (hp s t hst)
  refine ⟨hv, ?_⟩
  rcases hend with ⟨a, ha, hb, hq'⟩ | he
  · exact Or.inl ⟨a, ha, hb, hq a _ _ hq'⟩
  · exact Or.inr he

theorem ret {a : α} (h : ∀ s t, P s t → Q a s t) :
    Agree P (pure a : Gen ε σ β α) (pure a) Q := by
  intro s t hst
  exact ⟨rfl, Or.inl ⟨a, rfl, rfl, h s t hst⟩⟩

theorem bind {M : α → σ → τ → Prop} {R : γ → σ → τ → Prop} {g : Gen ε σ β α}
    {h : Gen ε τ β α} {f : α → Gen ε σ β γ} {k : α → Gen ε τ β γ} (hg : Agree P g h M)
    (hf : ∀ a, Agree (M a) (f a) (k a) R) : Agree P (g >>= f) (h >>= k) R := by
  intro s t hst
  obtain ⟨hv, hend⟩ := hg s t hst
  simp only [Trace.values] at hv ⊢
  rcases hend with ⟨a, ha, hb, hm⟩ | ⟨e, ha, hb⟩
  · obtain ⟨hv', hend'⟩ := hf a _ _ hm
    simp only [Trace.values] at hv'
    simp only [Bind.bind, Gen.andThen, ha, hb, List.map_append, hv, hv', true_and]
    exact hend'
  · simp only [Bind.bind, Gen.andThen, ha, hb, hv, true_and]
    exact Or.inr ⟨e, rfl, rfl⟩

theorem emit {b : β} {R : Unit → σ → τ → Prop} (h : ∀ s t, P s t → R () s t) :
    Agree P (Gen.emit b : Gen ε σ β Unit) (Gen.emit b) R := by
  intro s t hst
  exact ⟨rfl, Or.inl ⟨(), rfl, rfl, h s t hst⟩⟩

theorem raise {e : ε} : Agree P (Gen.raise e : Gen ε σ β α) (Gen.raise e) Q := by
  intro s t _
  exact ⟨rfl, Or.inr ⟨e, rfl, rfl⟩⟩

theorem gets {f : σ → α} {k : τ → α} (heq : ∀ s t, P s t → f s = k t)
    (h : ∀ s t, P s t → Q (f s) s t) : Agree P (Gen.gets f : Gen ε σ β α) (Gen.gets k) Q := by
  intro s t hst
  exact ⟨rfl, Or.inl ⟨f s, rfl, by simp [Gen.gets, heq s t hst], h s t hst⟩⟩

theorem modify {f : σ → σ} {k : τ → τ} {R : Unit → σ → τ → Prop}
    (h : ∀ s t, P s t → R () (f s) (k t)) :
    Agree P (Gen.modify f : Gen ε σ β Unit) (Gen.modify k) R := by
  intro s t hst
  exact ⟨rfl, Or.inl ⟨(), rfl, rfl, h s t hst⟩⟩

theorem emitAll {bs : List β} {R : Unit → σ → τ → Prop} (h : ∀ s t, P s t → R () s t) :
    Agree P (Gen.emitAll bs : Gen ε σ β Unit) (Gen.emitAll bs) R := by
  induction bs with
  | nil => exact ret h
  | cons b rest ih => exact bind (emit (fun _ _ hst => hst)) (fun _ => ih)

/-- One iteration preserves the relation, so the loop does. -/
theorem each {rel : ι → κ → Prop} {xs : List ι} {ys : List κ} {f : ι → Gen ε σ β Unit}
    {k : κ → Gen ε τ β Unit} (hxy : List.Forall₂ rel xs ys)
    (hbody : ∀ x y, rel x y → Agree P (f x) (k y) (fun _ => P)) :
    Agree P (Gen.each xs f) (Gen.each ys k) (fun _ => P) := by
  induction hxy with
  | nil => exact ret (fun _ _ h => h)
  | cons hx _ ih => exact bind (hbody _ _ hx) (fun _ => ih)

theorem each_same {xs : List ι} {f : ι → Gen ε σ β Unit} {k : ι → Gen ε τ β Unit}
    (hbody : ∀ x ∈ xs, Agree P (f x) (k x) (fun _ => P)) :
    Agree P (Gen.each xs f) (Gen.each xs k) (fun _ => P) := by
  have hrel : List.Forall₂ (fun x y => x = y ∧ x ∈ xs) xs xs :=
    List.forall₂_same.mpr (fun x hx => ⟨rfl, hx⟩)
  apply each hrel
  intro x y ⟨hxy, hx⟩
  subst hxy
  exact hbody x hx

/-- Steps that yield nothing. -/
theorem silent {g : Gen ε σ β α} {h : Gen ε τ β α}
    (hs : ∀ s t, P s t → ∃ a s' t', g s = ⟨[], .ok a, s'⟩ ∧ h t = ⟨[], .ok a, t'⟩ ∧ Q a s' t') :
    Agree P g h Q := by
  intro s t hst
  obtain ⟨a, s', t', hg, hh, hq⟩ := hs s t hst
  rw [hg, hh]
  exact ⟨rfl, Or.inl ⟨a, rfl, rfl, hq⟩⟩

/-- One side goes on without a yield after the other has ended. -/
theorem then_silent {M : α → σ → τ → Prop} {g : Gen ε σ β α} {h : Gen ε τ β α}
    {k : α → Gen ε τ β α} (hg : Agree P g h M)
    (hk : ∀ a s t, M a s t → ∃ t', k a t = ⟨[], .ok a, t'⟩ ∧ Q a s t') :
    Agree P g (h >>= k) Q := by
  intro s t hst
  obtain ⟨hv, hend⟩ := hg s t hst
  simp only [Trace.values] at hv ⊢
  rcases hend with ⟨a, ha, hb, hm⟩ | ⟨e, ha, hb⟩
  · obtain ⟨t', hk', hq⟩ := hk a _ _ hm
    simp only [Bind.bind, Gen.andThen, hb, hk', List.append_nil, hv, true_and]
    exact Or.inl ⟨a, ha, rfl, hq⟩
  · simp only [Bind.bind, Gen.andThen, hb, hv, true_and]
    exact Or.inr ⟨e, ha, rfl⟩

/-- One side changes its state first. -/
theorem modify_right {f : τ → τ} {g : Gen ε σ β α} {h : Gen ε τ β α} (hg : Agree P' g h Q)
    (hp : ∀ s t, P s t → P' s (f t)) :
    Agree P g (do Gen.modify f; h) Q := by
  intro s t hst
  have hrun := hg s (f t) (hp s t hst)
  simpa [Bind.bind, Gen.andThen, Gen.modify] using hrun

/-- One side goes on from a result that it comes to without a yield. -/
theorem from_silent {a : α} {g : Gen ε σ β α} {f : α → Gen ε σ β γ} {h : Gen ε τ β γ}
    {R : γ → σ → τ → Prop} (hg : ∀ s t, P s t → ∃ s', g s = ⟨[], .ok a, s'⟩ ∧ P' s' t)
    (hf : Agree P' (f a) h R) : Agree P (g >>= f) h R := by
  intro s t hst
  obtain ⟨s', hrun, hst'⟩ := hg s t hst
  have hrest := hf s' t hst'
  simp only [Trace.values] at hrest ⊢
  simp only [Bind.bind, Gen.andThen, hrun, List.nil_append]
  exact hrest

theorem to_silent {b : γ} {g : Gen ε σ β α} {k : Gen ε τ β γ} {f : γ → Gen ε τ β α}
    (hk : ∀ s t, P s t → ∃ t', k t = ⟨[], .ok b, t'⟩ ∧ P' s t') (hf : Agree P' g (f b) Q) :
    Agree P g (k >>= f) Q := by
  intro s t hst
  obtain ⟨t', hrun, hst'⟩ := hk s t hst
  have hrest := hf s t' hst'
  simp only [Trace.values] at hrest ⊢
  simp only [Bind.bind, Gen.andThen, hrun, List.nil_append]
  exact hrest

theorem when {c : Bool} {g : Gen ε σ β Unit} {h : Gen ε τ β Unit}
    (hg : Agree P g h (fun _ => P)) : Agree P (Gen.when c g) (Gen.when c h) (fun _ => P) := by
  cases c with
  | false => exact ret (fun _ _ hst => hst)
  | true => exact hg

theorem ite {c : Prop} [Decidable c] {g g' : Gen ε σ β α} {h h' : Gen ε τ β α}
    (ht : c → Agree P g h Q) (hf : ¬c → Agree P g' h' Q) :
    Agree P (if c then g else g') (if c then h else h') Q := by
  split
  · exact ht ‹_›
  · exact hf ‹_›

end Agree

/-- A generator that no state makes raise. -/
def Completes (g : Gen ε σ β α) : Prop := ∀ s, ∃ a, (g s).outcome = .ok a

namespace Completes

theorem ret (a : α) : Completes (pure a : Gen ε σ β α) := fun _ => ⟨a, rfl⟩

theorem emit (b : β) : Completes (Gen.emit b : Gen ε σ β Unit) := fun _ => ⟨(), rfl⟩

theorem gets (f : σ → α) : Completes (Gen.gets f : Gen ε σ β α) := fun s => ⟨f s, rfl⟩

theorem modify (f : σ → σ) : Completes (Gen.modify f : Gen ε σ β Unit) := fun _ => ⟨(), rfl⟩

theorem bind {g : Gen ε σ β α} {f : α → Gen ε σ β γ} (hg : Completes g)
    (hf : ∀ a, Completes (f a)) : Completes (g >>= f) := by
  intro s
  obtain ⟨a, ha⟩ := hg s
  obtain ⟨c, hc⟩ := hf a (g s).state
  exact ⟨c, by simp only [Bind.bind, Gen.andThen, ha, hc]⟩

theorem emitAll (bs : List β) : Completes (Gen.emitAll bs : Gen ε σ β Unit) := by
  induction bs with
  | nil => exact ret ()
  | cons b rest ih => exact bind (emit b) (fun _ => ih)

theorem each {xs : List ι} {f : ι → Gen ε σ β Unit} (h : ∀ x ∈ xs, Completes (f x)) :
    Completes (Gen.each xs f) := by
  induction xs with
  | nil => exact ret ()
  | cons x rest ih =>
    apply bind (h x List.mem_cons_self)
    intro _
    exact ih fun y hy => h y (List.mem_cons_of_mem x hy)

/-- A loop over items that are each related to something. -/
theorem each_paired {rel : ι → κ → Prop} {xs : List ι} {ys : List κ} {f : ι → Gen ε σ β Unit}
    (hxy : List.Forall₂ rel xs ys) (hbody : ∀ x y, rel x y → Completes (f x)) :
    Completes (Gen.each xs f) := by
  induction hxy with
  | nil => exact ret ()
  | cons hx _ ih => exact bind (hbody _ _ hx) (fun _ => ih)

theorem when {c : Bool} {g : Gen ε σ β Unit} (h : Completes g) : Completes (Gen.when c g) := by
  cases c with
  | false => exact ret ()
  | true => exact h

theorem ite {c : Prop} [Decidable c] {g h : Gen ε σ β α} (hg : Completes g) (hh : Completes h) :
    Completes (if c then g else h) := by
  split
  · exact hg
  · exact hh

end Completes

/-- Where one side ends normally, agreement leaves the normal end alone. -/
theorem Agree.completes {P : σ → τ → Prop} {Q : α → σ → τ → Prop} {g : Gen ε σ β α}
    {h : Gen ε τ β α} (hg : Agree P g h Q) {s : σ} {t : τ} (hst : P s t)
    (hh : ∃ a, (h t).outcome = .ok a) :
    (g s).values = (h t).values ∧
      ∃ a, (g s).outcome = .ok a ∧ (h t).outcome = .ok a ∧ Q a (g s).state (h t).state := by
  obtain ⟨hvalues, hend⟩ := hg s t hst
  refine ⟨hvalues, ?_⟩
  rcases hend with hok | ⟨e, -, he⟩
  · exact hok
  · obtain ⟨a, ha⟩ := hh
    rw [ha] at he
    cases he

/-- Every state that a consumer can see, at a yield or after the end, satisfies `P`. -/
def Preserves (P : σ → Prop) (g : Gen ε σ β α) : Prop :=
  ∀ s, P s → (∀ y ∈ (g s).yields, P y.2) ∧ P (g s).state

namespace Preserves
variable {P : σ → Prop}

theorem ret (a : α) : Preserves P (pure a : Gen ε σ β α) := fun _ hs => ⟨by simp [pure, Gen.ret], hs⟩

theorem bind {g : Gen ε σ β α} {f : α → Gen ε σ β γ} (hg : Preserves P g)
    (hf : ∀ a, Preserves P (f a)) : Preserves P (g >>= f) := by
  intro s hs
  obtain ⟨hy, hend⟩ := hg s hs
  simp only [Bind.bind, Gen.andThen]
  cases ho : (g s).outcome with
  | error e => exact ⟨hy, hend⟩
  | ok a =>
    obtain ⟨hy', hend'⟩ := hf a _ hend
    refine ⟨?_, hend'⟩
    intro y hm
    rcases List.mem_append.mp hm with hm | hm
    · exact hy y hm
    · exact hy' y hm

theorem emit (b : β) : Preserves P (Gen.emit b : Gen ε σ β Unit) := fun s hs =>
  ⟨by simpa [Gen.emit] using hs, hs⟩

theorem raise (e : ε) : Preserves P (Gen.raise e : Gen ε σ β α) := fun _ hs =>
  ⟨by simp [Gen.raise], hs⟩

theorem gets (f : σ → α) : Preserves P (Gen.gets f : Gen ε σ β α) := fun _ hs =>
  ⟨by simp [Gen.gets], hs⟩

theorem modify {f : σ → σ} (h : ∀ s, P s → P (f s)) :
    Preserves P (Gen.modify f : Gen ε σ β Unit) := fun s hs => ⟨by simp [Gen.modify], h s hs⟩

theorem emitAll (bs : List β) : Preserves P (Gen.emitAll bs : Gen ε σ β Unit) := by
  induction bs with
  | nil => exact ret ()
  | cons b rest ih => exact bind (emit b) (fun _ => ih)

theorem each {xs : List ι} {f : ι → Gen ε σ β Unit} (h : ∀ x ∈ xs, Preserves P (f x)) :
    Preserves P (Gen.each xs f) := by
  induction xs with
  | nil => exact ret ()
  | cons x rest ih =>
    exact bind (h x (by simp)) (fun _ => ih (fun y hy => h y (by simp [hy])))

theorem when {c : Bool} {g : Gen ε σ β Unit} (h : Preserves P g) :
    Preserves P (Gen.when c g) := by
  cases c with
  | false => exact ret ()
  | true => exact h

theorem batched {g : Gen ε σ β Unit} (hg : Preserves P g) (size : Nat) :
    Preserves P (Gen.batched size g) := by
  intro s hs
  obtain ⟨hy, hend⟩ := hg s hs
  rw [batched_state]
  refine ⟨?_, hend⟩
  unfold Gen.batched
  cases h : (g s).outcome with
  | ok a =>
    have hfinal : ∀ t, some (g s).state = some t → P t := by
      intro t ht
      cases ht
      exact hend
    exact holdBack_states hfinal hy
  | error e => exact holdBack_states (by simp) hy

theorem ite {c : Prop} [Decidable c] {g h : Gen ε σ β α} (hg : Preserves P g)
    (hh : Preserves P h) : Preserves P (if c then g else h) := by
  split
  · exact hg
  · exact hh

end Preserves

/-- Whenever `g` ends normally, the state it leaves satisfies `Q`. -/
def Ends (Q : σ → Prop) (g : Gen ε σ β α) : Prop :=
  ∀ s a, (g s).outcome = .ok a → Q (g s).state

/-- What holds after a sequence is what its last part establishes. -/
theorem Ends.bind {Q : σ → Prop} {g : Gen ε σ β α} {f : α → Gen ε σ β γ}
    (hf : ∀ a, Ends Q (f a)) : Ends Q (g >>= f) := by
  intro s c hc
  simp only [Bind.bind, Gen.andThen] at hc ⊢
  cases ho : (g s).outcome with
  | error e => simp [ho] at hc
  | ok a =>
    simp only [ho] at hc ⊢
    exact hf a _ c hc

end Projector.Lib
