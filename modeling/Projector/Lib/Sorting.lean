import Mathlib.Data.List.Sort
import Mathlib.Data.List.Lex
import Mathlib.Data.List.Dedup
import Mathlib.Data.Prod.Lex
import Mathlib.Order.Lattice
import Projector.Lib.Bytes

namespace Projector.Lib

/-- Bytes are ordered as unsigned numbers. -/
instance instLinearOrderByte : LinearOrder UInt8 where
  le_refl _ := UInt8.le_refl _
  le_trans _ _ _ := UInt8.le_trans
  le_antisymm _ _ := UInt8.le_antisymm
  le_total := UInt8.le_total
  lt_iff_le_not_ge a b := by
    rw [UInt8.lt_iff_toNat_lt, UInt8.le_iff_toNat_le, UInt8.le_iff_toNat_le]
    omega
  toDecidableLE := inferInstance

variable {α κ : Type} [LinearOrder κ]

/-- A stable sort by a key, as a sort function with a `key` argument does it. -/
def sortOn (key : α → κ) (xs : List α) : List α :=
  xs.mergeSort (fun a b => decide (key a ≤ key b))

/-- Ascending keys; equal keys may repeat. -/
def SortedOn (key : α → κ) (xs : List α) : Prop :=
  xs.Pairwise (fun a b => key a ≤ key b)

/-- Strictly ascending keys, so no key occurs twice. -/
def StrictOn (key : α → κ) (xs : List α) : Prop :=
  xs.Pairwise (fun a b => key a < key b)

instance (key : α → κ) (xs : List α) : Decidable (StrictOn key xs) :=
  inferInstanceAs (Decidable (xs.Pairwise (fun a b => key a < key b)))

theorem StrictOn.sorted {key : α → κ} {xs : List α} (h : StrictOn key xs) : SortedOn key xs :=
  List.Pairwise.imp (fun hab => le_of_lt hab) h

theorem StrictOn.nodup {key : α → κ} {xs : List α} (h : StrictOn key xs) : xs.Nodup :=
  List.Pairwise.imp (fun hab he => absurd (congrArg key he) (ne_of_lt hab)) h

theorem sortOn_perm (key : α → κ) (xs : List α) : (sortOn key xs).Perm xs :=
  List.mergeSort_perm xs _

@[simp]
theorem mem_sortOn {key : α → κ} {xs : List α} {a : α} : a ∈ sortOn key xs ↔ a ∈ xs :=
  (sortOn_perm key xs).mem_iff

@[simp]
theorem sortOn_nil (key : α → κ) : sortOn key ([] : List α) = [] := by
  simp [sortOn]

theorem sortOn_sorted (key : α → κ) (xs : List α) : SortedOn key (sortOn key xs) := by
  have htrans : ∀ a b c : α, decide (key a ≤ key b) = true → decide (key b ≤ key c) = true →
      decide (key a ≤ key c) = true := by
    intro a b c hab hbc
    simp only [decide_eq_true_eq] at hab hbc ⊢
    exact le_trans hab hbc
  have htotal : ∀ a b : α, (decide (key a ≤ key b) || decide (key b ≤ key a)) = true := by
    intro a b
    simpa using le_total (key a) (key b)
  have h := List.pairwise_mergeSort htrans htotal xs
  exact List.Pairwise.imp (fun hab => by simpa using hab) h

theorem sortOn_of_sorted {key : α → κ} {xs : List α} (h : SortedOn key xs) :
    sortOn key xs = xs :=
  List.mergeSort_of_pairwise (List.Pairwise.imp (fun hab => by simpa using hab) h)

/-- A difference before the end decides, whatever follows it. -/
theorem append_lt_append {xs ys : Bytes} (hlen : xs.length = ys.length) (h : xs < ys)
    (us vs : Bytes) : xs ++ us < ys ++ vs := by
  induction xs generalizing ys with
  | nil =>
    cases ys with
    | nil => exact absurd h (lt_irrefl _)
    | cons y ys => simp at hlen
  | cons x xs ih =>
    cases ys with
    | nil => simp at hlen
    | cons y ys =>
      rw [List.cons_append, List.cons_append, List.cons_lt_cons_iff]
      cases List.cons_lt_cons_iff.mp h with
      | inl hxy => exact Or.inl hxy
      | inr hxy => exact Or.inr ⟨hxy.1, ih (by simpa using hlen) hxy.2⟩

theorem bigEndian_lt {width m n : Nat} (hn : n < 256 ^ width) (h : m < n) :
    bigEndian width m < bigEndian width n := by
  induction width generalizing m n with
  | zero => omega
  | succ width ih =>
    have hq : n / 256 < 256 ^ width := by
      rw [pow_succ] at hn
      omega
    simp only [bigEndian]
    by_cases hdiv : m / 256 < n / 256
    · exact append_lt_append (by simp) (ih hq hdiv) _ _
    · have hsame : m / 256 = n / 256 := by omega
      rw [hsame]
      apply List.Lex.append_left
      apply List.Lex.rel
      rw [UInt8.lt_iff_toNat_lt]
      simp only [UInt8.toNat_ofNat']
      omega

/-- Big-endian numbers of one width are ordered as bytes. -/
theorem bigEndian_le_iff {width m n : Nat} (hm : m < 256 ^ width) (hn : n < 256 ^ width) :
    bigEndian width m ≤ bigEndian width n ↔ m ≤ n := by
  constructor
  · intro h
    by_contra hlt
    exact absurd (bigEndian_lt hm (Nat.lt_of_not_le hlt)) (not_lt.mpr h)
  · intro h
    cases Nat.lt_or_eq_of_le h with
    | inl hlt => exact le_of_lt (bigEndian_lt hn hlt)
    | inr heq => exact le_of_eq (congrArg _ heq)

/-- Two sorted lists with the same elements and multiplicities agree when the key
tells the elements apart. -/
theorem sorted_unique {key : α → κ} {xs ys : List α}
    (hinj : ∀ a ∈ xs, ∀ b ∈ xs, key a = key b → a = b)
    (hx : SortedOn key xs) (hy : SortedOn key ys) (hp : xs.Perm ys) : xs = ys := by
  refine List.Perm.eq_of_pairwise ?_ hx hy hp
  intro a b ha hb hab hba
  exact hinj a ha b (hp.mem_iff.mpr hb) (le_antisymm hab hba)

theorem sortOn_eq_of_perm {key : α → κ} {xs ys : List α}
    (hinj : ∀ a ∈ xs, ∀ b ∈ xs, key a = key b → a = b) (hp : xs.Perm ys) :
    sortOn key xs = sortOn key ys := by
  apply sorted_unique _ (sortOn_sorted key xs) (sortOn_sorted key ys)
  · exact (sortOn_perm key xs).trans (hp.trans (sortOn_perm key ys).symm)
  · intro a ha b hb
    exact hinj a (mem_sortOn.mp ha) b (mem_sortOn.mp hb)

/-- Decorate, sort and undecorate is a sort by the key. -/
theorem sortOn_map_fst (key : α → κ) (xs : List α) :
    (sortOn Prod.fst (xs.map (fun x => (key x, x)))).map Prod.snd = sortOn key xs := by
  unfold sortOn
  rw [← List.map_mergeSort (r := fun a b => decide (key a ≤ key b)) (fun a _ b _ => rfl)]
  simp [Function.comp_def]

theorem partner_of_right {β : Type} {rel : α → β → Prop} {xs : List α} {ys : List β}
    (h : List.Forall₂ rel xs ys) {y : β} (hy : y ∈ ys) : ∃ x ∈ xs, rel x y := by
  induction h with
  | nil => cases hy
  | @cons x y' xs ys hxy _ ih =>
    rcases List.mem_cons.mp hy with rfl | hy
    · exact ⟨x, List.mem_cons_self, hxy⟩
    · obtain ⟨x', hx', hrel⟩ := ih hy
      exact ⟨x', List.mem_cons_of_mem x hx', hrel⟩

/-- Sorting by keys in the same order keeps two lists in step. -/
theorem forall₂_sortOn {β κ' : Type} [LinearOrder κ'] {rel : α → β → Prop} (key : α → κ)
    (key' : β → κ') {xs : List α} {ys : List β} (h : List.Forall₂ rel xs ys)
    (horder : ∀ a b a' b', rel a b → rel a' b' → (key a ≤ key a' ↔ key' b ≤ key' b')) :
    List.Forall₂ rel (sortOn key xs) (sortOn key' ys) := by
  obtain ⟨hlen, hzip⟩ := List.forall₂_iff_zip.mp h
  have hfst : xs = (xs.zip ys).map Prod.fst := (List.map_fst_zip (le_of_eq hlen)).symm
  have hsnd : ys = (xs.zip ys).map Prod.snd := (List.map_snd_zip (le_of_eq hlen.symm)).symm
  have hsame : (xs.zip ys).mergeSort (fun p q => decide (key p.1 ≤ key q.1)) =
      (xs.zip ys).mergeSort (fun p q => decide (key' p.2 ≤ key' q.2)) := by
    have hmap := List.map_mergeSort (r := fun p q => decide (key p.1 ≤ key q.1))
      (s := fun p q => decide (key' p.2 ≤ key' q.2)) (f := id) (l := xs.zip ys) (by
        intro p hp q hq
        simp only [id, decide_eq_decide]
        exact horder _ _ _ _ (hzip hp) (hzip hq))
    simpa using hmap
  have hx : sortOn key xs =
      ((xs.zip ys).mergeSort (fun p q => decide (key p.1 ≤ key q.1))).map Prod.fst := by
    rw [List.map_mergeSort (s := fun a b => decide (key a ≤ key b)) (fun _ _ _ _ => rfl), ← hfst]
    rfl
  have hy : sortOn key' ys =
      ((xs.zip ys).mergeSort (fun p q => decide (key' p.2 ≤ key' q.2))).map Prod.snd := by
    rw [List.map_mergeSort (s := fun a b => decide (key' a ≤ key' b)) (fun _ _ _ _ => rfl),
      ← hsnd]
    rfl
  rw [hx, hy, hsame, List.forall₂_map_left_iff, List.forall₂_map_right_iff, List.forall₂_same]
  intro p hp
  exact hzip ((List.mergeSort_perm _ _).mem_iff.mp hp)

/-- What a filter keeps is sorted as before. -/
theorem filter_sortOn {key : α → κ} {xs : List α}
    (hinj : ∀ a ∈ xs, ∀ b ∈ xs, key a = key b → a = b) (p : α → Bool) :
    (sortOn key xs).filter p = sortOn key (xs.filter p) := by
  apply sorted_unique _ (List.Pairwise.filter p (sortOn_sorted key xs)) (sortOn_sorted key _)
  · exact ((sortOn_perm key xs).filter p).trans (sortOn_perm key _).symm
  · intro a ha b hb
    exact hinj a (mem_sortOn.mp (List.mem_of_mem_filter ha)) b
      (mem_sortOn.mp (List.mem_of_mem_filter hb))

/-- Strictly sorted lists are determined by their elements alone. -/
theorem strict_unique {key : α → κ} {xs ys : List α} (hx : StrictOn key xs)
    (hy : StrictOn key ys) (hm : ∀ a, a ∈ xs ↔ a ∈ ys) : xs = ys := by
  have hp : xs.Perm ys := (List.perm_ext_iff_of_nodup hx.nodup hy.nodup).mpr hm
  refine List.Perm.eq_of_pairwise ?_ hx hy hp
  intro a b _ _ hab hba
  exact absurd (lt_trans hab hba) (lt_irrefl _)

theorem strict_of_sorted_nodup {key : α → κ} {xs : List α}
    (hinj : ∀ a ∈ xs, ∀ b ∈ xs, key a = key b → a = b)
    (hs : SortedOn key xs) (hn : xs.Nodup) : StrictOn key xs := by
  induction xs with
  | nil => exact List.Pairwise.nil
  | cons x xs ih =>
    simp only [SortedOn, List.pairwise_cons] at hs
    simp only [List.nodup_cons] at hn
    refine List.pairwise_cons.mpr ⟨?_, ih ?_ hs.2 hn.2⟩
    · intro y hy
      refine lt_of_le_of_ne (hs.1 y hy) ?_
      intro he
      have hxy := hinj x (by simp) y (by simp [hy]) he
      exact hn.1 (hxy ▸ hy)
    · intro a ha b hb
      exact hinj a (by simp [ha]) b (by simp [hb])

/-- Two keys that ascend along one list order its members alike. -/
theorem StrictOn.lt_of_lt {κ' : Type} [LinearOrder κ'] {key : α → κ} {key' : α → κ'} {xs : List α}
    (h : StrictOn key xs) (h' : StrictOn key' xs) {a b : α} (ha : a ∈ xs) (hb : b ∈ xs)
    (hlt : key a < key b) : key' a < key' b := by
  obtain ⟨i, hi, rfl⟩ := List.getElem_of_mem ha
  obtain ⟨j, hj, rfl⟩ := List.getElem_of_mem hb
  rcases lt_trichotomy i j with hij | rfl | hji
  · exact List.pairwise_iff_getElem.mp h' i j hi hj hij
  · exact absurd hlt (lt_irrefl _)
  · exact absurd hlt (lt_asymm (List.pairwise_iff_getElem.mp h j i hj hi hji))

/-- Pairs of partners are related as the pairs they come from. -/
theorem pairwise_of_forall₂ {β : Type} {R : α → β → Prop} {S : α → α → Prop} {T : β → β → Prop}
    {xs : List α} {ys : List β} (h : List.Forall₂ R xs ys) (hx : xs.Pairwise S)
    (hst : ∀ a a' b b', R a b → R a' b' → S a a' → T b b') : ys.Pairwise T := by
  induction h with
  | nil => exact List.Pairwise.nil
  | @cons a b xs ys hab hrest ih =>
    obtain ⟨hfirst, hx⟩ := List.pairwise_cons.mp hx
    refine List.pairwise_cons.mpr ⟨fun b' hb' => ?_, ih hx⟩
    obtain ⟨a', ha', hab'⟩ := partner_of_right hrest hb'
    exact hst a a' b b' hab hab' (hfirst a' ha')

theorem StrictOn.le_iff_place {key : α → κ} {xs : List α} (h : StrictOn key xs) {i j : Nat} {a b : α}
    (ha : xs[i]? = some a) (hb : xs[j]? = some b) : key a ≤ key b ↔ i ≤ j := by
  obtain ⟨hi, rfl⟩ := List.getElem?_eq_some_iff.mp ha
  obtain ⟨hj, rfl⟩ := List.getElem?_eq_some_iff.mp hb
  constructor
  · intro hle
    by_contra hlt
    exact absurd (List.pairwise_iff_getElem.mp h j i hj hi (by omega)) (not_lt.mpr hle)
  · intro hij
    rcases Nat.lt_or_eq_of_le hij with hlt | rfl
    · exact le_of_lt (List.pairwise_iff_getElem.mp h i j hi hj hlt)
    · exact le_refl _

theorem forall₂_places {β : Type} {rel : α → β → Prop} {xs : List α} {ys : List β}
    (h : List.Forall₂ rel xs ys) :
    List.Forall₂ (fun x y => rel x y ∧ ∃ i : Nat, xs[i]? = some x ∧ ys[i]? = some y) xs ys := by
  rw [List.forall₂_iff_get] at h ⊢
  refine ⟨h.1, fun i hi hi' => ⟨h.2 i hi hi', i, ?_, ?_⟩⟩
  · exact List.getElem?_eq_getElem hi
  · exact List.getElem?_eq_getElem hi'

/-- Partners in two strictly sorted lists are ordered alike. -/
theorem forall₂_ranked {β κ' : Type} [LinearOrder κ'] {rel : α → β → Prop} {key : α → κ}
    {key' : β → κ'} {xs : List α} {ys : List β} (h : List.Forall₂ rel xs ys) (hx : StrictOn key xs)
    (hy : StrictOn key' ys) :
    ∃ ranked : α → β → Prop, (∀ x y, ranked x y → rel x y) ∧ List.Forall₂ ranked xs ys ∧
      ∀ x y x' y', ranked x y → ranked x' y' → (key x ≤ key x' ↔ key' y ≤ key' y') := by
  refine ⟨_, fun x y hxy => hxy.1, forall₂_places h, ?_⟩
  intro x y x' y' ⟨_, i, hxi, hyi⟩ ⟨_, j, hxj, hyj⟩
  rw [hx.le_iff_place hxi hxj, hy.le_iff_place hyi hyj]

section Distinct
variable {β : Type} [DecidableEq β]

theorem nodup_eraseDups (xs : List β) : xs.eraseDups.Nodup := by
  induction hn : xs.length using Nat.strong_induction_on generalizing xs with
  | _ n ih =>
    cases xs with
    | nil => simp
    | cons x xs =>
      rw [List.eraseDups_cons, List.nodup_cons]
      refine ⟨by simp, ih _ ?_ _ rfl⟩
      have := List.length_filter_le (fun b => !b == x) xs
      simp only [List.length_cons] at hn
      omega

theorem eraseDups_snoc (xs : List β) (x : β) :
    (xs ++ [x]).eraseDups = if x ∈ xs then xs.eraseDups else xs.eraseDups ++ [x] := by
  rw [List.eraseDups_append]
  by_cases hx : x ∈ xs <;> simp [List.removeAll, hx, List.eraseDups_cons]

end Distinct

end Projector.Lib
