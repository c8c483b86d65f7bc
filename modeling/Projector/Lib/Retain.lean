import Projector.Lib.HeapSort

namespace Projector.Lib

variable {ε α β : Type}

namespace Retain
variable (host : SortHost ε β) (look : Nat → β → Except ε β) (keep : α → Bool)

def valueAt (i : Nat) : SortM ε α β α := fun s =>
  match s.values[i]? with
  | some a => .ok a s
  | none => .error host.outOfBounds s

def truncate (length : Nat) : SortM ε α β Unit :=
  modify fun s => { s with values := s.values.take length }

/-- The loop from `read` on: what is kept moves to `write`, and the end of what is kept is
given back. -/
def retainFrom : Nat → Nat → Nat → SortM ε α β Nat
  | 0, _, write => pure write
  | left + 1, read, write => do
    HeapSort.ask (look read)
    let value ← valueAt host read
    if !keep value then retainFrom left (read + 1) write
    else do
      if read ≠ write then HeapSort.swapAt host read write else pure ()
      let write ← HeapSort.index host (write + 1)
      retainFrom left (read + 1) write

def retain : SortM ε α β Unit := do
  let s ← get
  let write ← retainFrom host look keep s.values.size 0 0
  truncate write
  HeapSort.ask (look 0)

end Retain

section Compacting
variable {keep : α → Bool} {xs ys : Array α} {read write : Nat}

/-- The values before `read` have been looked at, and those to keep stand before `write`. -/
structure Compacted (keep : α → Bool) (xs ys : Array α) (read write : Nat) : Prop where
  perm : ys.Perm xs
  kept : ys.toList.take write = (xs.toList.take read).filter keep
  ahead : ys.toList.drop read = xs.toList.drop read
  behind : write ≤ read

theorem Compacted.start (keep : α → Bool) (xs : Array α) : Compacted keep xs xs 0 0 :=
  ⟨Array.Perm.refl xs, rfl, rfl, Nat.le_refl 0⟩

/-- What is read next is still in its place. -/
theorem Compacted.next (h : Compacted keep xs ys read write) (hread : read < xs.size) :
    ∃ hin : read < ys.size, ys[read] = xs[read] := by
  have hin : read < ys.size := by rw [h.perm.size_eq]; exact hread
  refine ⟨hin, ?_⟩
  have hhead := congrArg List.head? h.ahead
  rw [List.head?_drop, List.head?_drop] at hhead
  simpa [hin, hread] using hhead

theorem drop_succ_eq {read : Nat} (h : ys.toList.drop read = xs.toList.drop read) :
    ys.toList.drop (read + 1) = xs.toList.drop (read + 1) := by
  rw [← List.drop_drop, ← List.drop_drop, h]

theorem take_succ_filter (hread : read < xs.size) :
    (xs.toList.take (read + 1)).filter keep =
      (xs.toList.take read).filter keep ++ if keep xs[read] then [xs[read]] else [] := by
  have hlist : read < xs.toList.length := by simpa using hread
  rw [List.take_succ_eq_append_getElem hlist, List.filter_append, Array.getElem_toList]
  split
  · rename_i hkeep
    rw [List.filter_cons_of_pos hkeep, List.filter_nil]
  · rename_i hkeep
    rw [List.filter_cons_of_neg hkeep, List.filter_nil]

/-- A value that is not kept is passed over. -/
theorem Compacted.skip (h : Compacted keep xs ys read write) (hread : read < xs.size)
    (hkeep : keep xs[read] = false) : Compacted keep xs ys (read + 1) write := by
  refine ⟨h.perm, ?_, drop_succ_eq h.ahead, Nat.le_succ_of_le h.behind⟩
  rw [h.kept, take_succ_filter hread, hkeep]
  simp

theorem Compacted.write_lt (h : Compacted keep xs ys read write) (hread : read < xs.size) :
    write < ys.size := by
  have := h.behind
  have := h.perm.size_eq
  omega

/-- A value that is kept changes places with the first one that is not. -/
theorem Compacted.swap (h : Compacted keep xs ys read write) (hread : read < xs.size)
    (hkeep : keep xs[read] = true) (hin : read < ys.size) (hwrite : write < ys.size) :
    Compacted keep xs (ys.swap read write hin hwrite) (read + 1) (write + 1) := by
  obtain ⟨_, hvalue⟩ := h.next hread
  have hbehind := h.behind
  refine ⟨(Array.swap_perm hin hwrite).trans h.perm, ?_, ?_, by omega⟩
  · rw [take_succ_filter hread, hkeep, if_pos rfl, ← h.kept]
    apply List.ext_getElem?
    intro k
    rw [List.getElem?_take, List.getElem?_append, Array.getElem?_toList, getElem?_swapped]
    have hlength : (ys.toList.take write).length = write := by
      rw [List.length_take, Array.length_toList]
      omega
    rw [hlength, List.getElem?_take, Array.getElem?_toList]
    unfold swapped
    rcases Nat.lt_trichotomy k write with hlt | heq | hgt
    · rw [if_pos (by omega), if_neg (by omega), if_neg (by omega), if_pos hlt, if_pos hlt]
    · rw [heq, if_pos (Nat.lt_succ_self write), if_neg (Nat.lt_irrefl write), Nat.sub_self]
      split
      · rename_i hsame
        rw [hsame, Array.getElem?_eq_getElem hin, hvalue]
        rfl
      · rw [if_pos rfl, Array.getElem?_eq_getElem hin, hvalue]
        rfl
    · rw [if_neg (by omega), if_neg (by omega), List.getElem?_eq_none (by simp; omega)]
  · rw [← drop_succ_eq h.ahead]
    apply List.ext_getElem?
    intro k
    rw [List.getElem?_drop, List.getElem?_drop, Array.getElem?_toList, Array.getElem?_toList,
      getElem?_swapped]
    unfold swapped
    rw [if_neg (by omega), if_neg (by omega)]

theorem Compacted.stay (h : Compacted keep xs ys read read) (hread : read < xs.size)
    (hkeep : keep xs[read] = true) : Compacted keep xs ys (read + 1) (read + 1) := by
  obtain ⟨hin, -⟩ := h.next hread
  have hsame : ys.swap read read hin hin = ys := by
    apply Array.ext_getElem?
    intro k
    rw [getElem?_swapped]
    unfold swapped
    split
    · rename_i hk
      rw [hk]
    · rfl
  have hswap := h.swap hread hkeep hin hin
  rw [hsame] at hswap
  exact hswap

end Compacting

namespace Retain
variable {host : SortHost ε β} {look : Nat → β → Except ε β} {keep : α → Bool}

/-- What an error of the loop leaves: all values in some order. -/
def Interrupted (look : Nat → β → Except ε β) (host : SortHost ε β) (xs : Array α) (e : ε)
    (t : Sorting α β) : Prop :=
  ((∃ n env, look n env = .error e) ∨ e = host.overflow ∧ host.limit ≤ xs.size) ∧
    t.values.Perm xs

theorem look_spec {s : Sorting α β} (n : Nat) {Q : Unit → Sorting α β → Prop}
    {E : ε → Sorting α β → Prop} (hok : ∀ env, Q () { s with env := env })
    (herror : ∀ e, look n s.env = .error e → E e s) :
    wp (HeapSort.ask (look n) : SortM ε α β Unit) Q E s := by
  unfold wp HeapSort.ask
  cases hask : look n s.env with
  | ok env => exact hok env
  | error e => exact herror e hask

theorem valueAt_spec {s : Sorting α β} {i : Nat} {Q : α → Sorting α β → Prop}
    {E : ε → Sorting α β → Prop} (hi : i < s.values.size) (hq : Q s.values[i] s) :
    wp (valueAt host i) Q E s := by
  unfold wp valueAt
  rw [Array.getElem?_eq_getElem hi]
  exact hq

theorem retainFrom_spec {xs : Array α} (left : Nat) :
    ∀ (read write : Nat) (s : Sorting α β), Compacted keep xs s.values read write →
      read + left = xs.size →
      wp (retainFrom host look keep left read write)
        (fun write t => Compacted keep xs t.values xs.size write)
        (Interrupted look host xs) s := by
  induction left with
  | zero =>
    intro read write s h hread
    rw [Nat.add_zero] at hread
    subst hread
    exact h
  | succ left ih =>
    intro read write s h hleft
    have hread : read < xs.size := by omega
    obtain ⟨hin, hvalue⟩ := h.next hread
    unfold retainFrom
    rw [wp_bind]
    refine look_spec read (fun env => ?_) (fun e he => ⟨.inl ⟨_, _, he⟩, h.perm⟩)
    rw [wp_bind]
    refine valueAt_spec hin ?_
    rw [hvalue]
    cases hkeep : keep xs[read] with
    | false => exact ih (read + 1) write _ (h.skip hread hkeep) (by omega)
    | true =>
      have hwrite := h.write_lt hread
      have hstep : ∀ ys : Array α, Compacted keep xs ys (read + 1) (write + 1) → ∀ env,
          wp (HeapSort.index host (write + 1) >>= fun write =>
              retainFrom host look keep left (read + 1) write)
            (fun write t => Compacted keep xs t.values xs.size write)
            (Interrupted look host xs) ⟨ys, env⟩ := by
        intro ys hys env
        rw [wp_bind]
        unfold HeapSort.index
        split
        · exact ih (read + 1) (write + 1) _ hys (by omega)
        · have := hys.behind
          exact ⟨.inr ⟨rfl, by omega⟩, hys.perm⟩
      simp only [Bool.not_true, Bool.false_eq_true, if_false]
      split
      · rw [wp_bind]
        refine HeapSort.swapAt_spec hin hwrite ?_
        exact hstep _ (h.swap hread hkeep hin hwrite) env
      · rename_i hsame
        rw [not_not] at hsame
        subst hsame
        exact hstep _ (h.stay hread hkeep) env

/-- What is left after the last look: all values in some order, or those to keep. -/
def Left (keep : α → Bool) (xs ys : Array α) : Prop :=
  ys.Perm xs ∨ ys.toList = xs.toList.filter keep

/-- Keeps the values that pass in their order, and loses none that passes when it is
interrupted. -/
theorem retain_spec (s : Sorting α β) :
    wp (retain host look keep)
      (fun _ t => t.values.toList = s.values.toList.filter keep)
      (fun e t => ((∃ n env, look n env = .error e) ∨
        e = host.overflow ∧ host.limit ≤ s.values.size) ∧ Left keep s.values t.values) s := by
  unfold retain
  rw [wp_bind, wp_get, wp_bind]
  refine wp_mono (retainFrom_spec s.values.size 0 0 s (.start keep s.values) (Nat.zero_add _)) ?_
    (fun e t h => ⟨h.1, .inl h.2⟩)
  intro write t h
  have hkept : (t.values.take write).toList = s.values.toList.filter keep := by
    have htake : (t.values.take write).toList = t.values.toList.take write := by simp
    rw [htake, h.kept, List.take_of_length_le (le_of_eq Array.length_toList)]
  rw [wp_bind]
  refine look_spec 0 (fun env => hkept) (fun e he => ⟨.inl ⟨_, _, he⟩, .inr hkept⟩)

end Retain

end Projector.Lib
