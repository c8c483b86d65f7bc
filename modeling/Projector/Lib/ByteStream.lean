import Projector.Lib.Bytes

namespace Projector.Lib

/-- What one turn of a stream does: it moves on, gives out a byte or is at its end. -/
inductive Turn (σ : Type) where
  | silent (next : σ)
  | emit (byte : UInt8) (next : σ)
  | stop

section Running
variable {μ σ τ ε : Type}

/-- One request of a stream whose turns share the memory `μ` with others. A stream that
does not answer runs out of fuel. -/
def pull (step : μ → σ → Except ε (μ × Turn σ)) :
    Nat → μ → σ → Option (Except ε (μ × Option (UInt8 × σ)))
  | 0, _, _ => none
  | fuel + 1, memory, state =>
    match step memory state with
    | .error e => some (.error e)
    | .ok (memory, .stop) => some (.ok (memory, none))
    | .ok (memory, .emit byte next) => some (.ok (memory, some (byte, next)))
    | .ok (memory, .silent next) => pull step fuel memory next

/-- Requests until the stream ends: the bytes it gave out. -/
def drain (step : μ → σ → Except ε (μ × Turn σ)) :
    Nat → μ → σ → Option (Except ε (μ × Bytes))
  | 0, _, _ => none
  | fuel + 1, memory, state =>
    match step memory state with
    | .error e => some (.error e)
    | .ok (memory, .stop) => some (.ok (memory, []))
    | .ok (memory, .emit byte next) =>
      match drain step fuel memory next with
      | some (.ok (memory, bytes)) => some (.ok (memory, byte :: bytes))
      | other => other
    | .ok (memory, .silent next) => drain step fuel memory next

/-- Requests from two streams in turn until their bytes differ or one of them ends.
Every pair of bytes is recorded by `tally`. -/
def compareStreams (left : μ → σ → Except ε (μ × Turn σ))
    (right : μ → τ → Except ε (μ × Turn τ)) (tally : μ → Except ε μ) :
    Nat → μ → σ → τ → Option (Except ε (μ × Ordering))
  | 0, _, _, _ => none
  | fuel + 1, memory, l, r =>
    match pull left fuel memory l with
    | none => none
    | some (.error e) => some (.error e)
    | some (.ok (memory, leftByte)) =>
      match pull right fuel memory r with
      | none => none
      | some (.error e) => some (.error e)
      | some (.ok (memory, rightByte)) =>
        match leftByte, rightByte with
        | none, none => some (.ok (memory, .eq))
        | none, some _ => some (.ok (memory, .lt))
        | some _, none => some (.ok (memory, .gt))
        | some (a, l), some (b, r) =>
          match tally memory with
          | .error e => some (.error e)
          | .ok memory =>
            if a = b then compareStreams left right tally fuel memory l r
            else some (.ok (memory, if a < b then .lt else .gt))

end Running

/-- The order of two byte strings: at the first difference, or the shorter one first. -/
def byteOrder : Bytes → Bytes → Ordering
  | [], [] => .eq
  | [], _ :: _ => .lt
  | _ :: _, [] => .gt
  | a :: as, b :: bs => if a = b then byteOrder as bs else if a < b then .lt else .gt

section Order

theorem byteOrder_eq_iff (a b : Bytes) : byteOrder a b = .eq ↔ a = b := by
  induction a generalizing b with
  | nil => cases b <;> simp [byteOrder]
  | cons x a ih =>
    cases b with
    | nil => simp [byteOrder]
    | cons y b =>
      unfold byteOrder
      by_cases hxy : x = y
      · rw [if_pos hxy, ih b]
        simp [hxy]
      · rw [if_neg hxy]
        have hne : (if x < y then Ordering.lt else Ordering.gt) ≠ .eq := by split <;> simp
        simp [hne, hxy]

theorem byteOrder_lt_iff (a b : Bytes) : byteOrder a b = .lt ↔ a < b := by
  induction a generalizing b with
  | nil => cases b <;> simp [byteOrder]
  | cons x a ih =>
    cases b with
    | nil => simp [byteOrder]
    | cons y b =>
      unfold byteOrder
      rw [List.cons_lt_cons_iff]
      by_cases hxy : x = y
      · subst hxy
        simp [ih b]
      · by_cases hlt : x < y <;> simp [hxy, hlt]

theorem byteOrder_swap (a b : Bytes) : (byteOrder a b).swap = byteOrder b a := by
  induction a generalizing b with
  | nil => cases b <;> rfl
  | cons x a ih =>
    cases b with
    | nil => rfl
    | cons y b =>
      unfold byteOrder
      by_cases hxy : x = y
      · rw [if_pos hxy, if_pos hxy.symm, ih b]
      · rw [if_neg hxy, if_neg (Ne.symm hxy)]
        by_cases h : x < y
        · have hback : ¬y < x := fun hyx => UInt8.lt_irrefl _ (UInt8.lt_trans h hyx)
          rw [if_pos h, if_neg hback]
          rfl
        · have hback : y < x := UInt8.lt_of_le_of_ne (UInt8.not_lt.mp h) (Ne.symm hxy)
          rw [if_neg h, if_pos hback]
          rfl

theorem byteOrder_gt_iff (a b : Bytes) : byteOrder a b = .gt ↔ b < a := by
  rw [← byteOrder_swap, ← byteOrder_lt_iff]
  cases byteOrder b a <;> simp

theorem byteOrder_cons (a b : UInt8) (as bs : Bytes) : byteOrder (a :: as) (b :: bs) =
    if a = b then byteOrder as bs else if a < b then .lt else .gt := rfl

/-- Where neither string begins the other, what follows decides only between equal ones. -/
theorem byteOrder_append {a b : Bytes} (hleft : a <+: b → a = b) (hright : b <+: a → a = b)
    (x y : Bytes) : byteOrder (a ++ x) (b ++ y) = (byteOrder a b).then (byteOrder x y) := by
  induction a generalizing b with
  | nil =>
    obtain rfl := hleft List.nil_prefix
    rfl
  | cons c a ih =>
    cases b with
    | nil => cases hright List.nil_prefix
    | cons d b =>
      rw [List.cons_append, List.cons_append, byteOrder_cons, byteOrder_cons]
      by_cases hcd : c = d
      · subst hcd
        rw [if_pos rfl, if_pos rfl]
        refine ih (fun h => ?_) (fun h => ?_)
        · exact (List.cons.inj (hleft (List.cons_prefix_cons.mpr ⟨rfl, h⟩))).2
        · exact (List.cons.inj (hright (List.cons_prefix_cons.mpr ⟨rfl, h⟩))).2
      · rw [if_neg hcd, if_neg hcd]
        split <;> rfl

theorem byteOrder_append_left (a x y : Bytes) : byteOrder (a ++ x) (a ++ y) = byteOrder x y := by
  rw [byteOrder_append (fun _ => rfl) (fun _ => rfl), (byteOrder_eq_iff a a).mpr rfl]
  rfl

theorem byteOrder_append_width {a b : Bytes} (h : a.length = b.length) (x y : Bytes) :
    byteOrder (a ++ x) (b ++ y) = (byteOrder a b).then (byteOrder x y) :=
  byteOrder_append (fun hp => hp.eq_of_length h) (fun hp => (hp.eq_of_length h.symm).symm) x y

theorem varint_of_begins {m n : Nat} (h : varint m <+: varint n) : varint m = varint n := by
  obtain ⟨rest, hrest⟩ := h
  obtain ⟨rfl, -⟩ := varint_append_inj (hrest.trans (List.append_nil _).symm)
  rfl

theorem byteOrder_append_varint (m n : Nat) (x y : Bytes) :
    byteOrder (varint m ++ x) (varint n ++ y) =
      (byteOrder (varint m) (varint n)).then (byteOrder x y) :=
  byteOrder_append varint_of_begins (fun h => (varint_of_begins h).symm) x y

end Order

section Semantics
variable {μ σ τ ε : Type} (step : μ → σ → Except ε (μ × Turn σ)) (Keeps : μ → Prop)
  (Refused : ε → Prop)

/-- A turn goes one way whatever the shared memory holds, and keeps it, unless it is
refused. -/
def Turns (state : σ) (turn : Turn σ) : Prop :=
  ∀ memory, Keeps memory →
    (∃ memory', Keeps memory' ∧ step memory state = .ok (memory', turn)) ∨
    ∃ e, Refused e ∧ step memory state = .error e

/-- The bytes that a stream still gives out before it ends. -/
inductive Streams : σ → Bytes → Prop where
  | stop {state : σ} (h : Turns step Keeps Refused state .stop) : Streams state []
  | silent {state next : σ} {bytes : Bytes}
      (h : Turns step Keeps Refused state (.silent next)) (rest : Streams next bytes) :
      Streams state bytes
  | emit {state next : σ} {byte : UInt8} {bytes : Bytes}
      (h : Turns step Keeps Refused state (.emit byte next)) (rest : Streams next bytes) :
      Streams state (byte :: bytes)

/-- The answer to a request of a stream that still gives out some bytes. -/
def Continues : Bytes → Option (UInt8 × σ) → Prop
  | [], none => True
  | byte :: rest, some (b, next) => b = byte ∧ Streams step Keeps Refused next rest
  | _, _ => False

/-- An answer that is right, unless it is refused. -/
def Answers {α : Type} (result : Option (Except ε (μ × α))) (a : α) : Prop :=
  (∃ memory, Keeps memory ∧ result = some (.ok (memory, a))) ∨
  ∃ e, Refused e ∧ result = some (.error e)

variable {step Keeps Refused}

theorem Turns.mono {Refused' : ε → Prop} {state : σ} {turn : Turn σ}
    (hrefused : ∀ e, Refused e → Refused' e) (h : Turns step Keeps Refused state turn) :
    Turns step Keeps Refused' state turn := by
  intro memory hm
  rcases h memory hm with hok | ⟨e, he, herror⟩
  · exact .inl hok
  · exact .inr ⟨e, hrefused e he, herror⟩

theorem Streams.mono {Refused' : ε → Prop} {state : σ} {bytes : Bytes}
    (hrefused : ∀ e, Refused e → Refused' e) (h : Streams step Keeps Refused state bytes) :
    Streams step Keeps Refused' state bytes := by
  induction h with
  | stop hturn => exact .stop (hturn.mono hrefused)
  | silent hturn _ ih => exact .silent (hturn.mono hrefused) ih
  | emit hturn _ ih => exact .emit (hturn.mono hrefused) ih

/-- Requested to its end, a stream gives out its bytes. -/
theorem Streams.drained {state : σ} {bytes : Bytes}
    (h : Streams step Keeps Refused state bytes) :
    ∃ enough, ∀ fuel, enough ≤ fuel → ∀ memory, Keeps memory →
      Answers Keeps Refused (drain step fuel memory state) bytes := by
  induction h with
  | stop hturn =>
    refine ⟨1, fun fuel hfuel memory hm => ?_⟩
    obtain ⟨fuel, rfl⟩ := Nat.exists_eq_add_of_le' hfuel
    unfold drain
    obtain ⟨memory', hk, hs⟩ | ⟨e, he, hs⟩ := hturn memory hm
    · exact .inl ⟨memory', hk, by rw [hs]⟩
    · exact .inr ⟨e, he, by rw [hs]⟩
  | silent hturn _ ih =>
    obtain ⟨enough, ih⟩ := ih
    refine ⟨enough + 1, fun fuel hfuel memory hm => ?_⟩
    obtain ⟨fuel, rfl⟩ := Nat.exists_eq_add_of_le' (Nat.le_of_add_left_le hfuel)
    unfold drain
    obtain ⟨memory', hk, hs⟩ | ⟨e, he, hs⟩ := hturn memory hm
    · rw [hs]
      exact ih fuel (by omega) memory' hk
    · exact .inr ⟨e, he, by rw [hs]⟩
  | @emit state next byte bytes hturn _ ih =>
    obtain ⟨enough, ih⟩ := ih
    refine ⟨enough + 1, fun fuel hfuel memory hm => ?_⟩
    obtain ⟨fuel, rfl⟩ := Nat.exists_eq_add_of_le' (Nat.le_of_add_left_le hfuel)
    unfold drain
    obtain ⟨memory', hk, hs⟩ | ⟨e, he, hs⟩ := hturn memory hm
    · rw [hs]
      obtain ⟨last, hl, hd⟩ | ⟨e, he, hd⟩ := ih fuel (by omega) memory' hk
      · exact .inl ⟨last, hl, by simp only [hd]⟩
      · exact .inr ⟨e, he, by simp only [hd]⟩
    · exact .inr ⟨e, he, by rw [hs]⟩

/-- What the next request of a stream answers. -/
theorem Streams.pulled {state : σ} {bytes : Bytes}
    (h : Streams step Keeps Refused state bytes) :
    ∃ answer, Continues step Keeps Refused bytes answer ∧
      ∃ enough, ∀ fuel, enough ≤ fuel → ∀ memory, Keeps memory →
        Answers Keeps Refused (pull step fuel memory state) answer := by
  induction h with
  | stop hturn =>
    refine ⟨none, trivial, 1, fun fuel hfuel memory hm => ?_⟩
    obtain ⟨fuel, rfl⟩ := Nat.exists_eq_add_of_le' hfuel
    unfold pull
    obtain ⟨memory', hk, hs⟩ | ⟨e, he, hs⟩ := hturn memory hm
    · exact .inl ⟨memory', hk, by rw [hs]⟩
    · exact .inr ⟨e, he, by rw [hs]⟩
  | silent hturn _ ih =>
    obtain ⟨answer, hanswer, enough, ih⟩ := ih
    refine ⟨answer, hanswer, enough + 1, fun fuel hfuel memory hm => ?_⟩
    obtain ⟨fuel, rfl⟩ := Nat.exists_eq_add_of_le' (Nat.le_of_add_left_le hfuel)
    unfold pull
    obtain ⟨memory', hk, hs⟩ | ⟨e, he, hs⟩ := hturn memory hm
    · rw [hs]
      exact ih fuel (by omega) memory' hk
    · exact .inr ⟨e, he, by rw [hs]⟩
  | @emit state next byte bytes hturn rest _ =>
    refine ⟨some (byte, next), ⟨rfl, rest⟩, 1, fun fuel hfuel memory hm => ?_⟩
    obtain ⟨fuel, rfl⟩ := Nat.exists_eq_add_of_le' hfuel
    unfold pull
    obtain ⟨memory', hk, hs⟩ | ⟨e, he, hs⟩ := hturn memory hm
    · exact .inl ⟨memory', hk, by rw [hs]⟩
    · exact .inr ⟨e, he, by rw [hs]⟩

/-- Two streams compare as their bytes do. -/
theorem Streams.compared {right : μ → τ → Except ε (μ × Turn τ)} {tally : μ → Except ε μ}
    (htally : ∀ memory, Keeps memory → (∃ memory', Keeps memory' ∧ tally memory = .ok memory') ∨
      ∃ e, Refused e ∧ tally memory = .error e)
    {l : σ} {r : τ} {as bs : Bytes} (hl : Streams step Keeps Refused l as)
    (hr : Streams right Keeps Refused r bs) :
    ∃ enough, ∀ fuel, enough ≤ fuel → ∀ memory, Keeps memory →
      Answers Keeps Refused (compareStreams step right tally fuel memory l r) (byteOrder as bs) := by
  induction as generalizing l r bs with
  | nil =>
    obtain ⟨answer, hanswer, enough, hpull⟩ := hl.pulled
    obtain ⟨answer', hanswer', enough', hpull'⟩ := hr.pulled
    refine ⟨enough + enough' + 1, fun fuel hfuel memory hm => ?_⟩
    obtain ⟨fuel, rfl⟩ := Nat.exists_eq_add_of_le' (Nat.le_of_add_left_le hfuel)
    unfold compareStreams
    obtain ⟨memory, hm, hp⟩ | ⟨e, he, hp⟩ := hpull fuel (by omega) memory hm
    · obtain ⟨memory, hm, hp'⟩ | ⟨e, he, hp'⟩ := hpull' fuel (by omega) memory hm
      · refine .inl ⟨memory, hm, ?_⟩
        simp only [hp, hp']
        cases answer <;> cases bs <;> cases answer' <;>
          first
          | exact absurd hanswer id
          | exact absurd hanswer' id
          | rfl
      · exact .inr ⟨e, he, by simp only [hp, hp']⟩
    · exact .inr ⟨e, he, by simp only [hp]⟩
  | cons a as ih =>
    obtain ⟨answer, hanswer, enough, hpull⟩ := hl.pulled
    obtain ⟨answer', hanswer', enough', hpull'⟩ := hr.pulled
    cases answer with
    | none => exact absurd hanswer id
    | some next =>
      obtain ⟨rfl, hnext⟩ := hanswer
      cases bs with
      | nil =>
        cases answer' with
        | some _ => exact absurd hanswer' id
        | none =>
          refine ⟨enough + enough' + 1, fun fuel hfuel memory hm => ?_⟩
          obtain ⟨fuel, rfl⟩ := Nat.exists_eq_add_of_le' (Nat.le_of_add_left_le hfuel)
          unfold compareStreams
          obtain ⟨memory, hm, hp⟩ | ⟨e, he, hp⟩ := hpull fuel (by omega) memory hm
          · obtain ⟨memory, hm, hp'⟩ | ⟨e, he, hp'⟩ := hpull' fuel (by omega) memory hm
            · exact .inl ⟨memory, hm, by simp only [hp, hp']; rfl⟩
            · exact .inr ⟨e, he, by simp only [hp, hp']⟩
          · exact .inr ⟨e, he, by simp only [hp]⟩
      | cons b bs =>
        cases answer' with
        | none => exact absurd hanswer' id
        | some next' =>
          obtain ⟨rfl, hnext'⟩ := hanswer'
          obtain ⟨more, hrest⟩ := ih hnext hnext'
          refine ⟨enough + enough' + more + 1, fun fuel hfuel memory hm => ?_⟩
          obtain ⟨fuel, rfl⟩ := Nat.exists_eq_add_of_le' (Nat.le_of_add_left_le hfuel)
          unfold compareStreams byteOrder
          obtain ⟨memory, hm, hp⟩ | ⟨e, he, hp⟩ := hpull fuel (by omega) memory hm
          · obtain ⟨memory, hm, hp'⟩ | ⟨e, he, hp'⟩ := hpull' fuel (by omega) memory hm
            · obtain ⟨memory, hm, ht⟩ | ⟨e, he, ht⟩ := htally memory hm
              · simp only [hp, hp', ht]
                split
                · exact hrest fuel (by omega) memory hm
                · exact .inl ⟨memory, hm, rfl⟩
              · exact .inr ⟨e, he, by simp only [hp, hp', ht]⟩
            · exact .inr ⟨e, he, by simp only [hp, hp']⟩
          · exact .inr ⟨e, he, by simp only [hp]⟩

end Semantics

section Fuel
variable {μ σ τ ε : Type} {step : μ → σ → Except ε (μ × Turn σ)}

/-- A request that is answered is answered the same way with more fuel. -/
theorem pull_more {fuel more : Nat} {memory : μ} {state : σ}
    {r : Except ε (μ × Option (UInt8 × σ))} (h : pull step fuel memory state = some r)
    (hle : fuel ≤ more) : pull step more memory state = some r := by
  induction fuel generalizing more memory state with
  | zero => cases h
  | succ fuel ih =>
    obtain ⟨more, rfl⟩ := Nat.exists_eq_add_of_le' (Nat.le_of_add_left_le hle)
    unfold pull at h ⊢
    split at h
    · exact h
    · exact h
    · exact h
    · exact ih h (by omega)

theorem drain_more {fuel more : Nat} {memory : μ} {state : σ} {r : Except ε (μ × Bytes)}
    (h : drain step fuel memory state = some r) (hle : fuel ≤ more) :
    drain step more memory state = some r := by
  induction fuel generalizing more memory state r with
  | zero => cases h
  | succ fuel ih =>
    obtain ⟨more, rfl⟩ := Nat.exists_eq_add_of_le' (Nat.le_of_add_left_le hle)
    unfold drain at h ⊢
    split at h
    · exact h
    · exact h
    · rename_i next _
      cases hnext : drain step fuel _ next with
      | none =>
        rw [hnext] at h
        cases h
      | some answer =>
        rw [hnext] at h
        rw [ih hnext (by omega)]
        exact h
    · exact ih h (by omega)

theorem compareStreams_more {right : μ → τ → Except ε (μ × Turn τ)} {tally : μ → Except ε μ}
    {fuel more : Nat} {memory : μ} {l : σ} {r : τ} {answer : Except ε (μ × Ordering)}
    (h : compareStreams step right tally fuel memory l r = some answer) (hle : fuel ≤ more) :
    compareStreams step right tally more memory l r = some answer := by
  induction fuel generalizing more memory l r with
  | zero => cases h
  | succ fuel ih =>
    obtain ⟨more, rfl⟩ := Nat.exists_eq_add_of_le' (Nat.le_of_add_left_le hle)
    have hle : fuel ≤ more := by omega
    unfold compareStreams at h ⊢
    cases hl : pull step fuel memory l with
    | none =>
      rw [hl] at h
      cases h
    | some first =>
      rw [hl] at h
      rw [pull_more hl hle]
      cases first with
      | error e => exact h
      | ok first =>
        obtain ⟨memory, leftByte⟩ := first
        dsimp only at h ⊢
        cases hr : pull right fuel memory r with
        | none =>
          rw [hr] at h
          cases h
        | some second =>
          rw [hr] at h
          rw [pull_more hr hle]
          cases second with
          | error e => exact h
          | ok second =>
            obtain ⟨memory, rightByte⟩ := second
            dsimp only at h ⊢
            split at h
            · exact h
            · exact h
            · exact h
            · split at h
              · exact h
              · split at h
                · rename_i heq
                  rw [if_pos heq]
                  exact ih h hle
                · rename_i hne
                  rw [if_neg hne]
                  exact h

end Fuel

end Projector.Lib
