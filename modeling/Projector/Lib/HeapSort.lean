import Projector.Lib.Effects

namespace Projector.Lib

variable {ε α β : Type}

/-- A slice that is sorted in place, and what stands between the sort and its
environment. -/
structure Sorting (α β : Type) where
  values : Array α
  env : β

abbrev SortM (ε α β : Type) := EStateM ε (Sorting α β)

/-- What a sort asks of its environment before it works on, and at its ends; and what
it raises when an index leaves the slice or the numbers of the machine. -/
structure SortHost (ε β : Type) where
  poll : β → Except ε β
  check : β → Except ε β
  limit : Nat
  overflow : ε
  outOfBounds : ε

namespace HeapSort
variable (host : SortHost ε β) (cmp : α → α → Ordering)

def ask (question : β → Except ε β) : SortM ε α β Unit := fun s =>
  match question s.env with
  | .ok env => .ok () { s with env := env }
  | .error e => .error e s

def index (n : Nat) : SortM ε α β Nat := if n < host.limit then pure n else throw host.overflow

def compareAt (i j : Nat) : SortM ε α β Ordering := fun s =>
  match s.values[i]?, s.values[j]? with
  | some a, some b => .ok (cmp a b) s
  | _, _ => .error host.outOfBounds s

def swapAt (i j : Nat) : SortM ε α β Unit := fun s =>
  if h : i < s.values.size ∧ j < s.values.size then
    .ok () { s with values := s.values.swap i j h.1 h.2 }
  else .error host.outOfBounds s

/-- The child that a root is compared with: the right one if the left one is less. -/
def largerChild (left right stop : Nat) : SortM ε α β Nat :=
  if right < stop then do
    ask host.poll
    let order ← compareAt host cmp left right
    pure (if order = .lt then right else left)
  else pure left

/-- Let the value at `root` sink in the heap that ends at `stop`. -/
def siftDown (stop : Nat) : Nat → Nat → SortM ε α β Unit
  | 0, _ => pure ()
  | fuel + 1, root => do
    let left ← index host (2 * root + 1)
    if left ≥ stop then pure ()
    else do
      let right ← index host (left + 1)
      let child ← largerChild host cmp left right stop
      ask host.poll
      let order ← compareAt host cmp root child
      if order ≠ .lt then pure ()
      else do
        swapAt host root child
        siftDown stop fuel child

/-- Sink the values below `count`, from the last one down. -/
def build (length : Nat) : Nat → SortM ε α β Unit
  | 0 => pure ()
  | count + 1 => do
    siftDown host cmp length length count
    build length count

/-- Move the largest value of the heap behind it, for every end down to one. -/
def extract : Nat → SortM ε α β Unit
  | 0 => pure ()
  | stop + 1 => do
    swapAt host 0 (stop + 1)
    siftDown host cmp (stop + 1) (stop + 1) 0
    extract stop

def sort : SortM ε α β Unit := do
  ask host.check
  let s ← get
  let length := s.values.size
  if length < 2 then pure ()
  else do
    build host cmp length (length / 2)
    extract host cmp (length - 1)
    ask host.check

end HeapSort

/-- `cmp` tests a total preorder: what is not less is at least. -/
structure TotalPreorder (cmp : α → α → Ordering) : Prop where
  trans : ∀ a b c, cmp a b ≠ .lt → cmp b c ≠ .lt → cmp a c ≠ .lt
  total : ∀ a b, cmp a b = .lt → cmp b a ≠ .lt

section Order
variable {cmp : α → α → Ordering} {xs : Array α} {i j k lo root stop : Nat}

/-- The value at one place is at least the value at another, if both are there. -/
def AtLeast (cmp : α → α → Ordering) (xs : Array α) (i j : Nat) : Prop :=
  ∀ a b, xs[i]? = some a → xs[j]? = some b → cmp a b ≠ .lt

def IsChild (root child : Nat) : Prop := child = 2 * root + 1 ∨ child = 2 * root + 2

/-- Every value from `lo` on is at least its children before `stop`. -/
def Heaped (cmp : α → α → Ordering) (xs : Array α) (lo stop : Nat) : Prop :=
  ∀ p c, lo ≤ p → IsChild p c → c < stop → AtLeast cmp xs p c

/-- A heap but for the value at `root`, whose children fit under its parent. -/
structure Sinking (cmp : α → α → Ordering) (xs : Array α) (lo root stop : Nat) : Prop where
  inside : stop ≤ xs.size
  from_lo : lo ≤ root
  others : ∀ p c, lo ≤ p → p ≠ root → IsChild p c → c < stop → AtLeast cmp xs p c
  above : ∀ p c, lo ≤ p → IsChild p root → IsChild root c → c < stop → AtLeast cmp xs p c

theorem AtLeast.trans (h : TotalPreorder cmp) (hij : AtLeast cmp xs i j)
    (hjk : AtLeast cmp xs j k) (hj : j < xs.size) : AtLeast cmp xs i k := by
  intro a c ha hc
  have hb : xs[j]? = some xs[j] := Array.getElem?_eq_getElem hj
  exact h.trans a xs[j] c (hij a _ ha hb) (hjk _ c hb hc)

theorem AtLeast.refl (h : TotalPreorder cmp) : AtLeast cmp xs i i := by
  intro a b ha hb
  obtain rfl : a = b := Option.some.inj (ha.symm.trans hb)
  intro hlt
  exact h.total a a hlt hlt

/-- Where a value comes from when two places were exchanged. -/
def swapped (i j k : Nat) : Nat := if k = i then j else if k = j then i else k

theorem getElem?_swapped (hi : i < xs.size) (hj : j < xs.size) (k : Nat) :
    (xs.swap i j hi hj)[k]? = xs[swapped i j k]? := by
  rw [Array.getElem?_swap]
  unfold swapped
  by_cases hkj : j = k
  · subst hkj
    by_cases hji : j = i
    · subst hji
      simp [hi]
    · simp [hji, hi]
  · by_cases hki : i = k
    · subst hki
      simp [hkj, hj]
    · have hki' : ¬k = i := fun he => hki he.symm
      have hkj' : ¬k = j := fun he => hkj he.symm
      simp [hkj, hki, hki', hkj']

theorem atLeast_swapped (hi : i < xs.size) (hj : j < xs.size) {p c : Nat}
    (h : AtLeast cmp xs (swapped i j p) (swapped i j c)) :
    AtLeast cmp (xs.swap i j hi hj) p c := by
  intro a b ha hb
  rw [getElem?_swapped] at ha hb
  exact h a b ha hb

/-- Where no child is larger the heap is whole again. -/
theorem Sinking.settled (h : Sinking cmp xs lo root stop)
    (hroot : ∀ c, IsChild root c → c < stop → AtLeast cmp xs root c) : Heaped cmp xs lo stop := by
  intro p c hp hc hstop
  by_cases he : p = root
  · subst he
    exact hroot c hc hstop
  · exact h.others p c hp he hc hstop

/-- The larger child goes up and its place is the one to settle. -/
theorem Sinking.step (h : Sinking cmp xs lo root stop) {child : Nat}
    (hchild : IsChild root child) (hstop : child < stop)
    (hlarger : ∀ c, IsChild root c → c < stop → AtLeast cmp xs child c)
    (hless : AtLeast cmp xs child root) (hr : root < xs.size) (hc : child < xs.size) :
    Sinking cmp (xs.swap root child hr hc) lo child stop := by
  unfold IsChild at hchild
  refine ⟨by simpa using h.inside, by have := h.from_lo; omega, ?_, ?_⟩
  · intro p c hp hne hpc hcstop
    apply atLeast_swapped
    unfold swapped
    by_cases hproot : p = root
    · subst hproot
      rw [if_pos rfl]
      by_cases hcc : c = child
      · subst hcc
        rw [if_neg (by omega), if_pos rfl]
        exact hless
      · rw [if_neg (by unfold IsChild at hpc; omega), if_neg hcc]
        exact hlarger c hpc hcstop
    · rw [if_neg hproot, if_neg hne]
      by_cases hcroot : c = root
      · subst hcroot
        rw [if_pos rfl]
        exact h.above p child hp hpc hchild hstop
      · have hcc : c ≠ child := by
          unfold IsChild at hpc
          omega
        rw [if_neg hcroot, if_neg hcc]
        exact h.others p c hp hproot hpc hcstop
  · intro p c hp hpchild hcc hcstop
    obtain rfl : p = root := by
      unfold IsChild at hpchild
      omega
    apply atLeast_swapped
    unfold IsChild at hcc
    unfold swapped
    rw [if_pos rfl, if_neg (by omega), if_neg (by omega)]
    exact h.others child c (by omega) (by omega) hcc hcstop

/-- The root of a heap is at least every value in it. -/
theorem Heaped.greatest (hp : TotalPreorder cmp) (h : Heaped cmp xs 0 stop) (hin : stop ≤ xs.size)
    (hi : i < stop) : AtLeast cmp xs 0 i := by
  induction i using Nat.strong_induction_on with
  | _ i ih =>
    by_cases hzero : i = 0
    · subst hzero
      exact AtLeast.refl hp
    · have hparent : IsChild ((i - 1) / 2) i := by
        unfold IsChild
        omega
      exact (ih ((i - 1) / 2) (by omega) (by omega)).trans hp
        (h ((i - 1) / 2) i (Nat.zero_le _) hparent hi) (by omega)

end Order

section Shuffling
variable {xs ys zs : Array α} {i j stop : Nat}

/-- `ys` has the values of `xs`, rearranged before `stop` only. -/
structure Shuffled (stop : Nat) (xs ys : Array α) : Prop where
  perm : ys.Perm xs
  beyond : ∀ k, stop ≤ k → ys[k]? = xs[k]?
  within : ∀ k < stop, ∃ i < stop, ys[k]? = xs[i]?

theorem Shuffled.refl (stop : Nat) (xs : Array α) : Shuffled stop xs xs :=
  ⟨Array.Perm.refl xs, fun _ _ => rfl, fun k hk => ⟨k, hk, rfl⟩⟩

theorem Shuffled.trans (h : Shuffled stop xs ys) (h' : Shuffled stop ys zs) :
    Shuffled stop xs zs := by
  refine ⟨h'.perm.trans h.perm, fun k hk => (h'.beyond k hk).trans (h.beyond k hk), ?_⟩
  intro k hk
  obtain ⟨i, hi, hik⟩ := h'.within k hk
  obtain ⟨j, hj, hji⟩ := h.within i hi
  exact ⟨j, hj, hik.trans hji⟩

theorem Shuffled.swap (hi : i < xs.size) (hj : j < xs.size) (histop : i < stop)
    (hjstop : j < stop) : Shuffled stop xs (xs.swap i j hi hj) := by
  refine ⟨Array.swap_perm hi hj, fun k hk => ?_, fun k hk => ?_⟩
  · rw [getElem?_swapped, swapped, if_neg (by omega), if_neg (by omega)]
  · refine ⟨swapped i j k, ?_, getElem?_swapped hi hj k⟩
    unfold swapped
    split
    · exact hjstop
    · split
      · exact histop
      · exact hk

theorem Shuffled.size (h : Shuffled stop xs ys) : ys.size = xs.size := h.perm.size_eq

end Shuffling

namespace HeapSort
variable {host : SortHost ε β} {cmp : α → α → Ordering} {s : Sorting α β}

/-- An error that the environment answered with. -/
def Refused (host : SortHost ε β) (e : ε) : Prop :=
  ∃ env, host.poll env = .error e ∨ host.check env = .error e

/-- An index left the numbers of the machine: so many values may be too many. -/
def Oversized (host : SortHost ε β) (size : Nat) (e : ε) : Prop :=
  e = host.overflow ∧ host.limit < 2 * size

/-- What an error leaves: a reason to stop, and the same values in some order. -/
def Interrupted (host : SortHost ε β) (xs : Array α) (e : ε) (t : Sorting α β) : Prop :=
  (Refused host e ∨ Oversized host xs.size e) ∧ t.values.Perm xs

theorem Interrupted.of_perm {xs ys : Array α} {e : ε} {t : Sorting α β}
    (h : Interrupted host ys e t) (hperm : ys.Perm xs) : Interrupted host xs e t :=
  ⟨hperm.size_eq ▸ h.1, h.2.trans hperm⟩

theorem ask_spec {question : β → Except ε β} (hq : question = host.poll ∨ question = host.check)
    {Q : Unit → Sorting α β → Prop} {xs : Array α} (hperm : s.values.Perm xs)
    (hok : ∀ env, Q () { s with env := env }) :
    wp (ask question : SortM ε α β Unit) Q (Interrupted host xs) s := by
  unfold wp ask
  cases hask : question s.env with
  | ok env => exact hok env
  | error e =>
    refine ⟨Or.inl ⟨s.env, ?_⟩, hperm⟩
    rcases hq with rfl | rfl
    · exact Or.inl hask
    · exact Or.inr hask

theorem index_spec {n : Nat} {Q : Nat → Sorting α β → Prop} {xs : Array α}
    (hperm : s.values.Perm xs) (hn : n < 2 * xs.size) (hq : Q n s) :
    wp (index host n : SortM ε α β Nat) Q (Interrupted host xs) s := by
  unfold index
  split
  · exact hq
  · exact ⟨Or.inr ⟨rfl, by omega⟩, hperm⟩

theorem compareAt_spec {i j : Nat} {Q : Ordering → Sorting α β → Prop}
    {E : ε → Sorting α β → Prop} (hi : i < s.values.size) (hj : j < s.values.size)
    (hq : Q (cmp s.values[i] s.values[j]) s) : wp (compareAt host cmp i j) Q E s := by
  unfold wp compareAt
  rw [Array.getElem?_eq_getElem hi, Array.getElem?_eq_getElem hj]
  exact hq

theorem swapAt_spec {i j : Nat} {Q : Unit → Sorting α β → Prop} {E : ε → Sorting α β → Prop}
    (hi : i < s.values.size) (hj : j < s.values.size)
    (hq : Q () { s with values := s.values.swap i j hi hj }) :
    wp (swapAt host i j : SortM ε α β Unit) Q E s := by
  unfold wp swapAt
  rw [dif_pos ⟨hi, hj⟩]
  exact hq

theorem atLeast_of_not_lt {i j : Nat} (hi : i < s.values.size) (hj : j < s.values.size)
    (h : cmp s.values[i] s.values[j] ≠ .lt) : AtLeast cmp s.values i j := by
  intro a b ha hb
  rw [Array.getElem?_eq_getElem hi] at ha
  rw [Array.getElem?_eq_getElem hj] at hb
  cases ha
  cases hb
  exact h

/-- The chosen child is at least either child. -/
theorem largerChild_spec (hp : TotalPreorder cmp) {root stop : Nat} {xs : Array α}
    (hperm : s.values.Perm xs) (hin : stop ≤ s.values.size) (hleft : 2 * root + 1 < stop)
    {Q : Nat → Sorting α β → Prop}
    (hq : ∀ child env, IsChild root child → child < stop →
      (∀ c, IsChild root c → c < stop → AtLeast cmp s.values child c) →
      Q child { s with env := env }) :
    wp (largerChild host cmp (2 * root + 1) (2 * root + 1 + 1) stop) Q (Interrupted host xs) s := by
  unfold largerChild
  split
  · rename_i hright
    rw [wp_bind]
    refine ask_spec (Or.inl rfl) hperm fun env => ?_
    rw [wp_bind]
    have hl : 2 * root + 1 < s.values.size := by omega
    have hr : 2 * root + 1 + 1 < s.values.size := by omega
    refine compareAt_spec hl hr ?_
    rw [wp_pure]
    split
    · rename_i hless
      refine hq (2 * root + 1 + 1) env (Or.inr rfl) hright ?_
      intro c hc _
      rcases hc with rfl | rfl
      · exact atLeast_of_not_lt hr hl (hp.total _ _ hless)
      · exact AtLeast.refl hp
    · rename_i hless
      refine hq (2 * root + 1) env (Or.inl rfl) hleft ?_
      intro c hc _
      rcases hc with rfl | rfl
      · exact AtLeast.refl hp
      · exact atLeast_of_not_lt hl hr hless
  · rename_i hright
    rw [wp_pure]
    refine hq (2 * root + 1) s.env (Or.inl rfl) hleft ?_
    intro c hc hstop
    rcases hc with rfl | rfl
    · exact AtLeast.refl hp
    · exact absurd hstop hright

/-- Sinking the root makes a heap of the values from `lo` on and keeps the rest. -/
theorem siftDown_spec (hp : TotalPreorder cmp) {lo stop : Nat} (fuel : Nat) :
    ∀ (root : Nat) (s : Sorting α β), Sinking cmp s.values lo root stop → root < stop →
      stop ≤ fuel + root →
      wp (siftDown host cmp stop fuel root)
        (fun _ t => Heaped cmp t.values lo stop ∧ Shuffled stop s.values t.values)
        (Interrupted host s.values) s := by
  induction fuel with
  | zero =>
    intro root s _ hroot hfuel
    omega
  | succ fuel ih =>
    intro root s hs hroot hfuel
    have hin := hs.inside
    unfold siftDown
    rw [wp_bind]
    refine index_spec (Array.Perm.refl _) (by omega) ?_
    by_cases hleft : 2 * root + 1 ≥ stop
    · rw [if_pos hleft, wp_pure]
      refine ⟨hs.settled ?_, Shuffled.refl stop s.values⟩
      intro c hc hstop
      unfold IsChild at hc
      omega
    · rw [if_neg hleft, wp_bind]
      refine index_spec (Array.Perm.refl _) (by omega) ?_
      rw [wp_bind]
      refine largerChild_spec hp (Array.Perm.refl _) hin (by omega) ?_
      intro child env hchild hcstop hlarger
      have hr : root < s.values.size := by omega
      have hc : child < s.values.size := by omega
      rw [wp_bind]
      refine ask_spec (Or.inl rfl) (Array.Perm.refl _) fun env' => ?_
      rw [wp_bind]
      refine compareAt_spec hr hc ?_
      split
      · rename_i horder
        rw [wp_pure]
        refine ⟨hs.settled ?_, Shuffled.refl stop s.values⟩
        intro c hcc hstop
        exact (atLeast_of_not_lt hr hc horder).trans hp (hlarger c hcc hstop) hc
      · rename_i horder
        rw [not_not] at horder
        rw [wp_bind]
        refine swapAt_spec hr hc ?_
        have hstep := hs.step hchild hcstop hlarger
          (atLeast_of_not_lt hc hr (hp.total _ _ horder)) hr hc
        have hgt : root < child := by
          unfold IsChild at hchild
          omega
        have hshuffled := Shuffled.swap hr hc hroot hcstop
        refine wp_mono (ih child _ hstep hcstop (by omega)) ?_ ?_
        · intro _ t ht
          exact ⟨ht.1, hshuffled.trans ht.2⟩
        · intro e t ht
          exact ht.of_perm hshuffled.perm

/-- Building from the last parent down makes a heap of the whole slice. -/
theorem build_spec (hp : TotalPreorder cmp) {length : Nat} (count : Nat) :
    ∀ s : Sorting α β, s.values.size = length → count ≤ length / 2 →
      Heaped cmp s.values count length →
      wp (build host cmp length count)
        (fun _ t => Heaped cmp t.values 0 length ∧ t.values.Perm s.values)
        (Interrupted host s.values) s := by
  induction count with
  | zero =>
    intro s _ _ hheap
    exact ⟨hheap, Array.Perm.refl _⟩
  | succ count ih =>
    intro s hsize hcount hheap
    unfold build
    rw [wp_bind]
    have hsinking : Sinking cmp s.values count count length := by
      refine ⟨le_of_eq hsize.symm, le_refl count, ?_, ?_⟩
      · intro p c hlo hne hc hstop
        exact hheap p c (by omega) hc hstop
      · intro p c hlo hc
        unfold IsChild at hc
        omega
    refine wp_mono (siftDown_spec hp length count s hsinking (by omega) (by omega)) ?_
      (fun _ _ h => h)
    intro _ t ht
    obtain ⟨hheap', hshuffled⟩ := ht
    refine wp_mono (ih t (hshuffled.size.trans hsize) (by omega) hheap') ?_ ?_
    · intro _ u hu
      exact ⟨hu.1, hu.2.trans hshuffled.perm⟩
    · intro e u hu
      exact hu.of_perm hshuffled.perm

/-- The values behind `stop` are in their final places. -/
def Placed (cmp : α → α → Ordering) (xs : Array α) (stop : Nat) : Prop :=
  ∀ i j, i < j → stop < j → AtLeast cmp xs j i

/-- The heap's greatest value goes behind it. -/
theorem placed_swap (hp : TotalPreorder cmp) {xs : Array α} {stop : Nat}
    (hheap : Heaped cmp xs 0 (stop + 2)) (hplaced : Placed cmp xs (stop + 1))
    (hzero : 0 < xs.size) (hstop : stop + 1 < xs.size) :
    Placed cmp (xs.swap 0 (stop + 1) hzero hstop) stop := by
  intro i j hij hj
  apply atLeast_swapped
  have hgreatest : ∀ k < stop + 2, AtLeast cmp xs 0 k := fun k hk =>
    hheap.greatest hp (by omega) hk
  unfold swapped
  by_cases hjs : j = stop + 1
  · rw [if_neg (by omega), if_pos hjs]
    split
    · exact hgreatest _ (by omega)
    · rw [if_neg (by omega)]
      exact hgreatest i (by omega)
  · rw [if_neg (by omega), if_neg hjs]
    split
    · exact hplaced _ j (by omega) (by omega)
    · split
      · exact hplaced 0 j (by omega) (by omega)
      · exact hplaced i j hij (by omega)

theorem Placed.shuffled {xs ys : Array α} {stop : Nat} (h : Placed cmp xs stop)
    (hshuffled : Shuffled (stop + 1) xs ys) : Placed cmp ys stop := by
  intro i j hij hj a b ha hb
  rw [hshuffled.beyond j hj] at ha
  by_cases hi : i < stop + 1
  · obtain ⟨k, hk, hik⟩ := hshuffled.within i hi
    rw [hik] at hb
    exact h k j (by omega) hj a b ha hb
  · rw [hshuffled.beyond i (by omega)] at hb
    exact h i j hij hj a b ha hb

/-- Extraction puts every value into its place. -/
theorem extract_spec (hp : TotalPreorder cmp) (stop : Nat) :
    ∀ s : Sorting α β, stop < s.values.size → Heaped cmp s.values 0 (stop + 1) →
      Placed cmp s.values stop →
      wp (extract host cmp stop)
        (fun _ t => Placed cmp t.values 0 ∧ t.values.Perm s.values)
        (Interrupted host s.values) s := by
  induction stop with
  | zero =>
    intro s _ _ hplaced
    exact ⟨hplaced, Array.Perm.refl _⟩
  | succ stop ih =>
    intro s hin hheap hplaced
    have hzero : 0 < s.values.size := by omega
    unfold extract
    rw [wp_bind]
    refine swapAt_spec hzero hin ?_
    have hnext := placed_swap hp hheap hplaced hzero hin
    have hsinking : Sinking cmp (s.values.swap 0 (stop + 1) hzero hin) 0 0 (stop + 1) := by
      refine ⟨by rw [Array.size_swap]; omega, le_refl 0, ?_, ?_⟩
      · intro p c _ hne hc hstop
        unfold IsChild at hc
        apply atLeast_swapped
        rw [swapped, swapped, if_neg hne, if_neg (by omega), if_neg (by omega), if_neg (by omega)]
        exact hheap p c (Nat.zero_le p) hc (by omega)
      · intro p c _ hc
        unfold IsChild at hc
        omega
    have hperm := Array.swap_perm hzero hin
    rw [wp_bind]
    refine wp_mono (siftDown_spec hp (stop + 1) 0 _ hsinking (by omega) (by omega)) ?_
      (fun e t h => h.of_perm hperm)
    intro _ t ht
    obtain ⟨hheap', hshuffled⟩ := ht
    have hsize : t.values.size = s.values.size := hshuffled.size.trans (by simp)
    refine wp_mono (ih t (by omega) hheap' (hnext.shuffled hshuffled)) ?_ ?_
    · intro _ u hu
      exact ⟨hu.1, hu.2.trans (hshuffled.perm.trans hperm)⟩
    · intro e u hu
      exact hu.of_perm (hshuffled.perm.trans hperm)

/-- Ascending values. -/
def Ascending (cmp : α → α → Ordering) (xs : List α) : Prop :=
  xs.Pairwise (fun a b => cmp b a ≠ .lt)

theorem ascending_of_placed {xs : Array α} (h : Placed cmp xs 0) : Ascending cmp xs.toList := by
  refine List.pairwise_iff_getElem.mpr fun i j hi hj hij => ?_
  refine h i j hij (by omega) _ _ ?_ ?_
  · rw [← Array.getElem?_toList, List.getElem?_eq_getElem hj]
  · rw [← Array.getElem?_toList, List.getElem?_eq_getElem hi]

/-- The sort keeps the values whatever happens, sorts them unless it is interrupted, and
never leaves the slice. -/
theorem sort_spec (hp : TotalPreorder cmp) (s : Sorting α β) :
    wp (sort host cmp)
      (fun _ t => Ascending cmp t.values.toList ∧ t.values.Perm s.values)
      (Interrupted host s.values) s := by
  unfold sort
  rw [wp_bind]
  refine ask_spec (Or.inr rfl) (Array.Perm.refl _) fun env => ?_
  rw [wp_bind, wp_get]
  simp only
  split
  · rename_i hshort
    refine ⟨ascending_of_placed fun i j hij _ a b ha _ => ?_, Array.Perm.refl _⟩
    have hj := (Array.getElem?_eq_some_iff.mp ha).1
    simp only at hj
    omega
  · rename_i hlong
    rw [wp_bind]
    have hstart : Heaped cmp s.values (s.values.size / 2) s.values.size := by
      intro p c hlo hc hstop
      unfold IsChild at hc
      omega
    refine wp_mono (build_spec hp (s.values.size / 2) { s with env := env } rfl (le_refl _)
      hstart) ?_ (fun _ _ h => h)
    intro _ t ht
    obtain ⟨hheap, hperm⟩ := ht
    have hsize : t.values.size = s.values.size := hperm.size_eq
    have hcount : s.values.size - 1 + 1 = s.values.size := by omega
    rw [wp_bind]
    refine wp_mono (extract_spec hp (s.values.size - 1) t (by omega) (hcount ▸ hheap) ?_) ?_
      (fun e u h => h.of_perm hperm)
    · intro i j hij hj a b ha _
      have hlt := (Array.getElem?_eq_some_iff.mp ha).1
      omega
    · intro _ u hu
      refine ask_spec (Or.inr rfl) (hu.2.trans hperm) fun env' => ?_
      exact ⟨ascending_of_placed hu.1, hu.2.trans hperm⟩

section Keys
variable {κ : Type} [LinearOrder κ] {key : α → κ}

/-- A comparator by a key tests a total preorder. -/
theorem totalPreorder_of_key (h : ∀ a b, cmp a b = .lt ↔ key a < key b) : TotalPreorder cmp where
  trans a b c hab hbc := by
    rw [Ne, h, not_lt] at hab hbc ⊢
    exact le_trans hbc hab
  total a b hab := by
    rw [Ne, h, not_lt]
    exact le_of_lt ((h a b).mp hab)

/-- With a key that tells the values apart the sorted slice is determined. -/
theorem ascending_eq_sortOn (h : ∀ a b, cmp a b = .lt ↔ key a < key b) {xs ys : Array α}
    (hinj : ∀ a ∈ xs.toList, ∀ b ∈ xs.toList, key a = key b → a = b)
    (hascending : Ascending cmp ys.toList) (hperm : ys.Perm xs) :
    ys.toList = sortOn key xs.toList := by
  have hlist : ys.toList.Perm xs.toList := Array.perm_iff_toList_perm.mp hperm
  have hsorted : SortedOn key ys.toList := hascending.imp fun {a b} hab => by
    rw [Ne, h, not_lt] at hab
    exact hab
  have hinj' : ∀ a ∈ ys.toList, ∀ b ∈ ys.toList, key a = key b → a = b := fun a ha b hb =>
    hinj a (hlist.mem_iff.mp ha) b (hlist.mem_iff.mp hb)
  exact sorted_unique hinj' hsorted (sortOn_sorted key _)
    (hlist.trans (sortOn_perm key _).symm)

end Keys

end HeapSort

end Projector.Lib
