import Projector.Native.CanonicalBytes

namespace Projector.Native
open Lib Projector.Encoded

section Results
variable {β α γ : Type} {m : Meter β} {x : Metered β α} {f : α → Metered β γ} {b b' : β}

theorem metered_bind_ok {c : γ} (h : (x >>= f) b = .ok (c, b')) :
    ∃ a b₁, x b = .ok (a, b₁) ∧ f a b₁ = .ok (c, b') := by
  change (x b >>= fun r => f r.1 r.2) = _ at h
  cases hx : x b with
  | error e =>
    rw [hx] at h
    cases h
  | ok r =>
    rw [hx] at h
    exact ⟨r.1, r.2, rfl, h⟩

theorem metered_pure_ok {a c : α} (h : (pure a : Metered β α) b = .ok (c, b')) : c = a := by
  cases h
  rfl

theorem lift_ok {y : Except KernelError α} {a : α} (h : lift y b = .ok (a, b')) : y = .ok a := by
  unfold lift at h
  split at h
  · cases h
    rfl
  · cases h

theorem malformed_ne {message : String} {a : α}
    (h : (malformed message : Metered β α) b = .ok (a, b')) : False := by
  cases h

/-- A loop that adds a size for every element. -/
theorem metered_sizes {R : α → Nat → Prop} {step : Nat → α → Metered β Nat} {xs : List α}
    (hstep : ∀ total x n b b', x ∈ xs → step total x b = .ok (n, b') → ∃ size, R x size ∧ n = total + size)
    {total n : Nat} (h : xs.foldlM step total b = .ok (n, b')) :
    ∃ sizes, List.Forall₂ R xs sizes ∧ n = total + sizes.sum := by
  induction xs generalizing total b with
  | nil =>
    rw [List.foldlM_nil] at h
    exact ⟨[], .nil, metered_pure_ok h⟩
  | cons x xs ih =>
    rw [List.foldlM_cons] at h
    obtain ⟨next, b₁, hx, hrest⟩ := metered_bind_ok h
    obtain ⟨size, hsize, rfl⟩ := hstep total x next b b₁ List.mem_cons_self hx
    obtain ⟨sizes, hsizes, rfl⟩ :=
      ih (fun total x n b b' hx => hstep total x n b b' (List.mem_cons_of_mem _ hx)) hrest
    exact ⟨size :: sizes, .cons hsize hsizes, by rw [List.sum_cons, Nat.add_assoc]⟩

end Results

/-- An error that the meter may answer with. -/
def Refusal {β : Type} (m : Meter β) (e : KernelError) : Prop :=
  ∃ amount b, m.consume amount b = .error e ∨ m.grow amount b = .error e

/-- A meter that never refuses. -/
def freeMeter : Meter Unit := ⟨fun _ _ => .ok (), fun _ _ => .ok ()⟩

/-- A computation that can only give one value, unless the meter refuses. -/
def Gives {β α : Type} (m : Meter β) (x : Metered β α) (a : α) : Prop :=
  ∀ b, (∃ b', x b = .ok (a, b')) ∨ ∃ e, Refusal m e ∧ x b = .error e

section Gives
variable {β α γ : Type} {m : Meter β} {x : Metered β α} {f : α → Metered β γ} {a : α} {c : γ}

theorem Gives.pure : Gives m (Pure.pure a : Metered β α) a := fun b => .inl ⟨b, rfl⟩

theorem Gives.bind (hx : Gives m x a) (hf : Gives m (f a) c) : Gives m (x >>= f) c := by
  intro b
  change (∃ b', (x b >>= fun r => f r.1 r.2) = _) ∨ ∃ e, _ ∧ (x b >>= fun r => f r.1 r.2) = _
  obtain ⟨b', hb⟩ | ⟨e, he, hb⟩ := hx b
  · rw [hb]
    exact hf b'
  · exact .inr ⟨e, he, by rw [hb]; rfl⟩

theorem Gives.lift {y : Except KernelError α} (h : y = .ok a) : Gives m (Native.lift y) a :=
  fun b => .inl ⟨b, by rw [h]; rfl⟩

theorem Gives.consumed (amount : Nat) : Gives m (m.consumed amount) () := by
  intro b
  unfold Meter.consumed
  cases h : m.consume amount b with
  | ok b' => exact .inl ⟨b', rfl⟩
  | error e => exact .inr ⟨e, ⟨amount, b, .inl h⟩, rfl⟩

theorem Gives.grown (height : Nat) : Gives m (m.grown height) () := by
  intro b
  unfold Meter.grown
  cases h : m.grow height b with
  | ok b' => exact .inl ⟨b', rfl⟩
  | error e => exact .inr ⟨e, ⟨height, b, .inr h⟩, rfl⟩

theorem Gives.push (task : EmitTask) (stack : Tasks) : Gives m (Native.push m task stack) (task :: stack) :=
  (Gives.grown stack.length).bind .pure

end Gives

/-- The meter refused or a resource ran out. -/
def Stopped {β : Type} (m : Meter β) (e : KernelError) : Prop :=
  Refusal m e ∨ ∃ message, e = .resource message

/-- A computation that only gives values with `P`, unless it is stopped. -/
def Meets {β α : Type} (m : Meter β) (x : Metered β α) (P : α → Prop) : Prop :=
  ∀ b, (∃ a b', x b = .ok (a, b') ∧ P a) ∨ ∃ e, Stopped m e ∧ x b = .error e

section Meets
variable {β α γ : Type} {m : Meter β} {x : Metered β α} {f : α → Metered β γ} {a : α}
  {P P' : α → Prop} {Q : γ → Prop}

theorem Gives.meets (h : Gives m x a) (ha : P a) : Meets m x P := by
  intro b
  rcases h b with ⟨b', hb⟩ | ⟨e, he, hb⟩
  · exact .inl ⟨a, b', hb, ha⟩
  · exact .inr ⟨e, .inl he, hb⟩

theorem Meets.pure (h : P a) : Meets m (Pure.pure a : Metered β α) P := Gives.pure.meets h

theorem Meets.mono (h : Meets m x P) (hp : ∀ a, P a → P' a) : Meets m x P' := by
  intro b
  rcases h b with ⟨a, b', hb, ha⟩ | hstop
  · exact .inl ⟨a, b', hb, hp a ha⟩
  · exact .inr hstop

theorem Meets.bind (hx : Meets m x P) (hf : ∀ a, P a → Meets m (f a) Q) : Meets m (x >>= f) Q := by
  intro b
  change (∃ c b', (x b >>= fun r => f r.1 r.2) = _ ∧ _) ∨
    ∃ e, _ ∧ (x b >>= fun r => f r.1 r.2) = _
  rcases hx b with ⟨a, b', hb, ha⟩ | ⟨e, he, hb⟩
  · rw [hb]
    exact hf a ha b'
  · exact .inr ⟨e, he, by rw [hb]; rfl⟩

theorem Gives.bindMeets (hx : Gives m x a) (hf : Meets m (f a) Q) : Meets m (x >>= f) Q :=
  (hx.meets (P := fun c => c = a) rfl).bind fun _ hc => hc ▸ hf

theorem Meets.mapM {xs : List α} {f : α → Metered β γ} {g : α → γ}
    (hf : ∀ a ∈ xs, Meets m (f a) (fun c => c = g a)) :
    Meets m (xs.mapM f) (fun cs => cs = xs.map g) := by
  induction xs with
  | nil =>
    rw [List.mapM_nil]
    exact Meets.pure rfl
  | cons a xs ih =>
    rw [List.mapM_cons]
    apply (hf a List.mem_cons_self).bind
    intro c hc
    apply (ih fun a ha => hf a (List.mem_cons_of_mem _ ha)).bind
    intro cs hcs
    rw [hc, hcs]
    exact Meets.pure rfl

/-- A loop that keeps a relation between what is done and the value it carries. -/
theorem Meets.foldlM {xs : List α} {step : γ → α → Metered β γ} (I : List α → γ → Prop)
    (hstep : ∀ done a rest c, xs = done ++ a :: rest → I done c →
      Meets m (step c a) (I (done ++ [a]))) {c : γ} (h : I [] c) :
    Meets m (xs.foldlM step c) (I xs) := by
  suffices hrest : ∀ rest done c, xs = done ++ rest → I done c →
      Meets m (rest.foldlM step c) (I xs) from hrest xs [] c rfl h
  intro rest
  induction rest with
  | nil =>
    intro done c hx hi
    rw [List.append_nil] at hx
    rw [List.foldlM_nil, hx]
    exact Meets.pure hi
  | cons a rest ih =>
    intro done c hx hi
    rw [List.foldlM_cons]
    apply (hstep done a rest c hx hi).bind
    intro c' hi'
    exact ih (done ++ [a]) c' (by rw [hx, List.append_assoc]; rfl) hi'

/-- A sum that may leave the numbers of the machine. -/
theorem Meets.checkedAdd {n k : Nat} {message : String} :
    Meets m (Native.lift (Native.checkedAdd n k message)) (fun sum => sum = n + k) := by
  intro b
  unfold Native.lift Native.checkedAdd
  split
  · rename_i hok
    split at hok
    · cases hok
      exact .inl ⟨_, b, rfl, rfl⟩
    · cases hok
  · rename_i e herror
    split at herror
    · cases herror
    · cases herror
      exact .inr ⟨_, .inr ⟨message, rfl⟩, rfl⟩

end Meets

/-- How a run ends, whatever is left in the meter. -/
def RunsTo {β α : Type} (run : Except KernelError (α × β)) : Except KernelError α → Prop
  | .ok a => ∃ b, run = .ok (a, b)
  | .error e => run = .error e

/-- A computation that ends as expected, unless it is stopped. -/
def Ends {β α : Type} (m : Meter β) (x : Metered β α) (result : Except KernelError α) : Prop :=
  ∀ b, RunsTo (x b) result ∨ ∃ e, Stopped m e ∧ x b = .error e

section Ends
variable {β α γ : Type} {m : Meter β} {x : Metered β α} {f : α → Metered β γ} {a : α}
  {P : α → Prop} {result : Except KernelError γ}

theorem Ends.pure : Ends m (Pure.pure a : Metered β α) (.ok a) := fun b => .inl ⟨b, rfl⟩

theorem Ends.malformed (message : String) :
    Ends m (Native.malformed message : Metered β α) (.error (.malformed message)) :=
  fun _ => .inl rfl

theorem Meets.bindEnds (hx : Meets m x P) (hf : ∀ a, P a → Ends m (f a) result) :
    Ends m (x >>= f) result := by
  intro b
  change RunsTo (x b >>= fun r => f r.1 r.2) result ∨
    ∃ e, _ ∧ (x b >>= fun r => f r.1 r.2) = _
  rcases hx b with ⟨a, b', hb, ha⟩ | ⟨e, he, hb⟩
  · rw [hb]
    exact hf a ha b'
  · rw [hb]
    exact .inr ⟨e, he, rfl⟩

theorem Gives.bindEnds (hx : Gives m x a) (hf : Ends m (f a) result) : Ends m (x >>= f) result :=
  (hx.meets (P := fun c => c = a) rfl).bindEnds fun _ hc => hc ▸ hf

end Ends

end Projector.Native
