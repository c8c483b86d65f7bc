import Mathlib.Order.Compare
import Projector.Lib.KWayMerge
import Projector.Lib.Shared
import Projector.Lib.UnionMerge

namespace Projector.Lib

section Scan
variable {μ ε α γ κ : Type}

/-- A scan for the least value: the first of several that are equal. -/
def leastOf (compare : α → α → Shared μ ε Ordering) (selected : α) : List α → Shared μ ε α
  | [] => pure selected
  | candidate :: rest => do
    let order ← compare candidate selected
    leastOf compare (if order = .lt then candidate else selected) rest

variable [LinearOrder κ] (key : γ → κ)

def leastFrom (selected : γ) : List γ → γ
  | [] => selected
  | candidate :: rest => leastFrom (if key candidate < key selected then candidate else selected) rest

variable {key} {Keeps : μ → Prop} {Refused : ε → Prop}

theorem leastFrom_mem (key : γ → κ) (selected : γ) (candidates : List γ) :
    leastFrom key selected candidates ∈ selected :: candidates := by
  induction candidates generalizing selected with
  | nil => exact List.mem_cons_self
  | cons candidate rest ih =>
    unfold leastFrom
    split
    · exact List.mem_cons_of_mem _ (ih candidate)
    · rcases List.mem_cons.mp (ih selected) with hfirst | hrest
      · rw [hfirst]
        exact List.mem_cons_self
      · exact List.mem_cons_of_mem _ (List.mem_cons_of_mem _ hrest)

/-- The scan stops at the first value with the least key. -/
theorem leastFrom_find {k : κ} {selected : γ} {candidates : List γ}
    (hle : ∀ c ∈ selected :: candidates, k ≤ key c) (hk : ∃ c ∈ selected :: candidates, key c = k) :
    (selected :: candidates).find? (fun c => decide (key c = k)) =
      some (leastFrom key selected candidates) := by
  induction candidates generalizing selected with
  | nil =>
    obtain ⟨c, hc, hkey⟩ := hk
    rw [List.mem_singleton.mp hc] at hkey
    rw [List.find?_cons_of_pos (by simpa using hkey)]
    rfl
  | cons candidate rest ih =>
    have hselected := hle selected List.mem_cons_self
    have hcandidate := hle candidate (List.mem_cons_of_mem _ List.mem_cons_self)
    unfold leastFrom
    split
    · rename_i hlt
      have hne : key selected ≠ k := ne_of_gt (lt_of_le_of_lt hcandidate hlt)
      rw [List.find?_cons_of_neg (by simpa using hne)]
      apply ih fun c hc => hle c (List.mem_cons_of_mem _ hc)
      obtain ⟨c, hc, hkey⟩ := hk
      rcases List.mem_cons.mp hc with rfl | hc
      · exact absurd hkey hne
      · exact ⟨c, hc, hkey⟩
    · rename_i hge
      have hrest : (selected :: rest).find? (fun c => decide (key c = k)) =
          some (leastFrom key selected rest) := ih ?_ ?_
      · rw [← hrest]
        by_cases hkey : key selected = k
        · rw [List.find?_cons_of_pos (by simpa using hkey),
            List.find?_cons_of_pos (by simpa using hkey)]
        · have hlt : k < key selected := lt_of_le_of_ne hselected (Ne.symm hkey)
          have hne : key candidate ≠ k := ne_of_gt (lt_of_lt_of_le hlt (not_lt.mp hge))
          rw [List.find?_cons_of_neg (by simpa using hkey),
            List.find?_cons_of_neg (by simpa using hne),
            List.find?_cons_of_neg (by simpa using hkey)]
      · intro c hc
        rcases List.mem_cons.mp hc with rfl | hc
        · exact hselected
        · exact hle c (List.mem_cons_of_mem _ (List.mem_cons_of_mem _ hc))
      · obtain ⟨c, hc, hkey⟩ := hk
        rcases List.mem_cons.mp hc with rfl | hc
        · exact ⟨c, List.mem_cons_self, hkey⟩
        · rcases List.mem_cons.mp hc with rfl | hc
          · refine ⟨selected, List.mem_cons_self, le_antisymm ?_ hselected⟩
            rw [← hkey]
            exact not_lt.mp hge
          · exact ⟨c, List.mem_cons_of_mem _ hc, hkey⟩

theorem mem_of_chosen {a candidate selected : γ} {rest : List γ}
    (h : a ∈ (if key candidate < key selected then candidate else selected) :: rest) :
    a ∈ selected :: candidate :: rest := by
  rcases List.mem_cons.mp h with rfl | h
  · split
    · exact List.mem_cons_of_mem _ List.mem_cons_self
    · exact List.mem_cons_self
  · exact List.mem_cons_of_mem _ (List.mem_cons_of_mem _ h)

/-- A scan whose comparisons settle on the order of the keys settles on the least value. -/
theorem leastOf_settles {compare : Nat → α → α → Shared μ ε Ordering} (f : γ → α) {selected : γ}
    {candidates : List γ}
    (hcompare : ∀ a ∈ selected :: candidates, ∀ b ∈ selected :: candidates,
      Settles Keeps Refused (fun fuel => compare fuel (f a) (f b)) (.ok (cmp (key a) (key b)))) :
    Settles Keeps Refused (fun fuel => leastOf (compare fuel) (f selected) (candidates.map f))
      (.ok (f (leastFrom key selected candidates))) := by
  induction candidates generalizing selected with
  | nil => exact .pure
  | cons candidate rest ih =>
    have hfirst := hcompare candidate (List.mem_cons_of_mem _ List.mem_cons_self) selected
      List.mem_cons_self
    have hnext : (if cmp (key candidate) (key selected) = .lt then f candidate else f selected) =
        f (if key candidate < key selected then candidate else selected) := by
      by_cases hlt : key candidate < key selected
      · rw [if_pos hlt, if_pos ((cmp_eq_lt_iff _ _).mpr hlt)]
      · rw [if_neg hlt, if_neg fun hc => hlt ((cmp_eq_lt_iff _ _).mp hc)]
    refine hfirst.bind ?_
    rw [hnext]
    refine ih fun a ha b hb => hcompare a ?_ b ?_
    · exact mem_of_chosen ha
    · exact mem_of_chosen hb

end Scan

section Heads
variable {α κ : Type} [LinearOrder κ] {key : α → κ}

/-- The values that begin lists with a key are those of the heads. -/
theorem reduceOption_headWith (k : κ) (start : Nat) (xss : List (List α)) :
    (xss.map (headWith key k)).reduceOption =
      ((heads start xss).filter fun p => decide (key p.2 = k)).map Prod.snd := by
  induction xss generalizing start with
  | nil => rfl
  | cons xs xss ih =>
    cases xs with
    | nil => exact ih (start + 1)
    | cons x xs =>
      rw [List.map_cons, headWith_cons, heads]
      by_cases hx : key x = k
      · rw [if_pos hx, List.reduceOption_cons_of_some, ih (start + 1),
          List.filter_cons_of_pos (by simpa using hx), List.map_cons]
      · rw [if_neg hx, List.reduceOption_cons_of_none, ih (start + 1),
          List.filter_cons_of_neg (by simpa using hx)]

theorem heads_map {β : Type} (f : α → β) (start : Nat) (xss : List (List α)) :
    heads start (xss.map (List.map f)) = (heads start xss).map (Prod.map id f) := by
  induction xss generalizing start with
  | nil => rfl
  | cons xs xss ih =>
    cases xs with
    | nil => exact ih (start + 1)
    | cons x xs => exact congrArg (_ :: ·) (ih (start + 1))

theorem heads_nil_of_none {start : Nat} {xss : List (List α)} (h : leastKey key xss = none) :
    heads start xss = [] := by
  apply List.eq_nil_iff_forall_not_mem.mpr
  intro p hp
  obtain ⟨i, bs, hget, -⟩ := mem_heads.mp hp
  cases leastKey_none h _ (List.mem_of_getElem? hget)

/-- The scan over the heads finds the least key, in the first list that begins with it. -/
theorem leastFrom_heads_find {k : κ} {xss : List (List α)} {first : Nat × α}
    {others : List (Nat × α)} (hk : leastKey key xss = some k) (hheads : heads 0 xss = first :: others) :
    (heads 0 xss).find? (fun p => decide (key p.2 = k)) =
      some (leastFrom (fun p : Nat × α => key p.2) first others) := by
  obtain ⟨⟨x, xs, hmem, hx⟩, hle⟩ := leastKey_some hk
  rw [hheads]
  apply leastFrom_find
  · intro p hp
    rw [← hheads] at hp
    obtain ⟨i, bs, hget, -⟩ := mem_heads.mp hp
    exact hle p.2 bs (List.mem_of_getElem? hget)
  · obtain ⟨i, hi, hget⟩ := List.getElem_of_mem hmem
    have hin : (i, x) ∈ heads 0 xss :=
      mem_heads.mpr ⟨i, xs, by rw [List.getElem?_eq_getElem hi, hget], (Nat.zero_add i).symm⟩
    rw [hheads] at hin
    exact ⟨(i, x), hin, hx⟩

theorem leastFrom_heads {k : κ} {xss : List (List α)} {first : Nat × α} {others : List (Nat × α)}
    (hk : leastKey key xss = some k) (hheads : heads 0 xss = first :: others) :
    key (leastFrom (fun p : Nat × α => key p.2) first others).2 = k ∧
      representative (xss.map (headWith key k)) =
        some (leastFrom (fun p : Nat × α => key p.2) first others).2 := by
  have hfind := leastFrom_heads_find hk hheads
  have hkey := List.find?_some hfind
  rw [decide_eq_true_eq] at hkey
  refine ⟨hkey, ?_⟩
  unfold representative
  rw [reduceOption_headWith k 0, List.head?_map, List.head?_filter, hfind]
  rfl

/-- Some list has a head with the least key. -/
theorem heads_ne_nil {k : κ} {xss : List (List α)} (hk : leastKey key xss = some k) :
    heads 0 xss ≠ [] := by
  obtain ⟨⟨x, xs, hmem, -⟩, -⟩ := leastKey_some hk
  obtain ⟨i, hi, hget⟩ := List.getElem_of_mem hmem
  have hin : (i, x) ∈ heads 0 xss :=
    mem_heads.mpr ⟨i, xs, by rw [List.getElem?_eq_getElem hi, hget], (Nat.zero_add i).symm⟩
  exact List.ne_nil_of_mem hin

end Heads

end Projector.Lib
