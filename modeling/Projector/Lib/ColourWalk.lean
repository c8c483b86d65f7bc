import Mathlib.Data.List.Perm.Subperm
import Mathlib.Logic.Relation

namespace Projector.Lib

variable {ε α : Type}

/-- The colours of a depth-first walk: what has been entered, and what has been left. -/
structure Colours (α : Type) where
  entered : List α
  left : List α

section Code
variable [DecidableEq α] (follow : α → Except ε Bool) (cyclic : ε)

/-- Push the children that are still white; one that is on the path closes a cycle. -/
def pushWhite (colours : Colours α) :
    List α → List (α × Bool) → Except ε (List (α × Bool))
  | [], stack => .ok stack
  | child :: rest, stack => do
    let followed ← follow child
    if !followed || colours.left.contains child then pushWhite colours rest stack
    else if colours.entered.contains child then .error cyclic
    else pushWhite colours rest ((child, false) :: stack)

variable (children : α → Except ε (List α))

/-- The loop of a walk over a stack of values to enter and values to leave. -/
def colourWalk : Nat → List (α × Bool) → Colours α → Except ε (Colours α)
  | 0, _, colours => .ok colours
  | _ + 1, [], colours => .ok colours
  | fuel + 1, (a, exiting) :: stack, colours =>
    if exiting then colourWalk fuel stack { colours with left := a :: colours.left }
    else if colours.left.contains a then colourWalk fuel stack colours
    else if colours.entered.contains a then .error cyclic
    else do
      let colours := { colours with entered := a :: colours.entered }
      let ids ← children a
      let stack ← pushWhite follow cyclic colours ids ((a, true) :: stack)
      colourWalk fuel stack colours

/-- A walk from every start that has not been left yet. -/
def colourWalks (starts : α → Except ε Bool) (fuel : Nat) :
    List α → Colours α → Except ε Unit
  | [], _ => .ok ()
  | a :: rest, colours => do
    let start ← starts a
    if !start || colours.left.contains a then colourWalks starts fuel rest colours
    else do
      let colours ← colourWalk follow cyclic children fuel [(a, false)] colours
      colourWalks starts fuel rest colours

end Code

section Stack
variable {E : α → α → Prop} {a b c : α} {flag : Bool} {rest : List (α × Bool)}

/-- The values that wait to be left: the path to the top of the stack, from its end. -/
def exits (stack : List (α × Bool)) : List α := (stack.filter (·.2)).map (·.1)

@[simp]
theorem exits_nil : exits ([] : List (α × Bool)) = [] := rfl

@[simp]
theorem exits_enter : exits ((a, false) :: rest) = exits rest := rfl

@[simp]
theorem exits_exit : exits ((a, true) :: rest) = a :: exits rest := rfl

@[simp]
theorem exits_pushed (pushed : List α) (stack : List (α × Bool)) :
    exits (pushed.map (fun c => (c, false)) ++ stack) = exits stack := by
  induction pushed with
  | nil => rfl
  | cons c pushed ih => exact ih

/-- What waits above a value on the path is a child of it and not on the path itself. -/
def Stacked (E : α → α → Prop) : List (α × Bool) → Prop
  | [] => True
  | (a, _) :: rest => a ∉ exits rest ∧ (∀ g, (exits rest).head? = some g → E g a) ∧ Stacked E rest

/-- From every value of the path there is a way to the top of the stack. -/
theorem Stacked.reaches (h : Stacked E ((a, flag) :: rest)) (hc : c ∈ exits rest) :
    Relation.TransGen E c a := by
  induction rest generalizing a flag with
  | nil => simp at hc
  | cons entry rest ih =>
    obtain ⟨b, exiting⟩ := entry
    obtain ⟨hfresh, hparent, hrest⟩ := h
    cases exiting with
    | false =>
      have hstacked : Stacked E ((a, flag) :: rest) := ⟨hfresh, hparent, hrest.2.2⟩
      exact ih hstacked hc
    | true =>
      have hedge : E b a := hparent b rfl
      rcases List.mem_cons.mp hc with rfl | hc
      · exact .single hedge
      · exact .tail (ih hrest hc) hedge

end Stack

/-- The invariant of a walk. The path is what was entered and not left; a child of a value on
the path was left or waits above it; every way down from what was left comes to an end. -/
structure Walking (E : α → α → Prop) (stack : List (α × Bool)) (colours : Colours α) : Prop where
  path : ∀ a, a ∈ exits stack ↔ a ∈ colours.entered ∧ a ∉ colours.left
  stacked : Stacked E stack
  left : ∀ a ∈ colours.left, a ∈ colours.entered
  waiting : ∀ above g below, stack = above ++ (g, true) :: below → ∀ c, E g c →
    c ∈ colours.left ∨ ∃ flag, (c, flag) ∈ above
  ends : ∀ a ∈ colours.left, Acc (fun c a => E a c) a

section Invariant
variable {E : α → α → Prop} {a c : α} {rest : List (α × Bool)} {colours : Colours α}

theorem Walking.initial : Walking E [] ⟨[], []⟩ where
  path := by simp
  stacked := trivial
  left := by simp
  waiting above g below h := by simp at h
  ends := by simp

theorem Walking.start (h : Walking E [] colours) : Walking E [(a, false)] colours where
  path := h.path
  stacked := ⟨by simp, by simp, trivial⟩
  left := h.left
  waiting above g below hsplit := by
    cases above with
    | nil => simp at hsplit
    | cons entry above => simp at hsplit
  ends := h.ends

/-- A value is left with all its children left. -/
theorem Walking.leave (h : Walking E ((a, true) :: rest) colours) :
    Walking E rest { colours with left := a :: colours.left } where
  path b := by
    have hb := h.path b
    have hfresh := h.stacked.1
    simp only [exits_exit, List.mem_cons] at hb ⊢
    constructor
    · intro hin
      obtain ⟨hentered, hleft⟩ := hb.mp (.inr hin)
      refine ⟨hentered, ?_⟩
      rintro (rfl | hleft')
      · exact hfresh hin
      · exact hleft hleft'
    · rintro ⟨hentered, hleft⟩
      rw [not_or] at hleft
      rcases hb.mpr ⟨hentered, hleft.2⟩ with rfl | hin
      · exact absurd rfl hleft.1
      · exact hin
  stacked := h.stacked.2.2
  left b hb := by
    rcases List.mem_cons.mp hb with rfl | hb
    · exact ((h.path b).mp (by simp)).1
    · exact h.left b hb
  waiting above g below hsplit c hc := by
    rcases h.waiting ((a, true) :: above) g below (by rw [hsplit]; rfl) c hc with hleft | ⟨flag, hin⟩
    · exact .inl (List.mem_cons_of_mem a hleft)
    · rcases List.mem_cons.mp hin with heq | hin
      · cases heq
        exact .inl List.mem_cons_self
      · exact .inr ⟨flag, hin⟩
  ends b hb := by
    rcases List.mem_cons.mp hb with rfl | hb
    · refine .intro b fun c hc => ?_
      rcases h.waiting [] b rest rfl c hc with hleft | ⟨flag, hin⟩
      · exact h.ends c hleft
      · cases hin
    · exact h.ends b hb

/-- A stale entry: the value was left since it was pushed. -/
theorem Walking.skip (h : Walking E ((a, false) :: rest) colours) (ha : a ∈ colours.left) :
    Walking E rest colours where
  path := h.path
  stacked := h.stacked.2.2
  left := h.left
  waiting above g below hsplit c hc := by
    rcases h.waiting ((a, false) :: above) g below (by rw [hsplit]; rfl) c hc with
      hleft | ⟨flag, hin⟩
    · exact .inl hleft
    · rcases List.mem_cons.mp hin with heq | hin
      · cases heq
        exact .inl ha
      · exact .inr ⟨flag, hin⟩
  ends := h.ends

/-- A value to enter is never on the path. -/
theorem Walking.not_grey (h : Walking E ((a, false) :: rest) colours)
    (hentered : a ∈ colours.entered) : a ∈ colours.left := by
  by_contra hleft
  exact h.stacked.1 ((h.path a).mpr ⟨hentered, hleft⟩)

/-- A white value is entered, and its children that were not left wait above it. -/
theorem Walking.enter (h : Walking E ((a, false) :: rest) colours) (ha : a ∉ colours.entered)
    {pushed : List α} (hpushed : ∀ c ∈ pushed, E a c ∧ c ∉ a :: colours.entered)
    (hall : ∀ c, E a c → c ∈ colours.left ∨ c ∈ pushed) :
    Walking E (pushed.map (fun c => (c, false)) ++ (a, true) :: rest)
      { colours with entered := a :: colours.entered } where
  path b := by
    have hb := h.path b
    simp only [exits_enter] at hb
    simp only [exits_pushed, exits_exit, List.mem_cons]
    constructor
    · rintro (rfl | hin)
      · exact ⟨.inl rfl, fun hleft => ha (h.left b hleft)⟩
      · exact ⟨.inr (hb.mp hin).1, (hb.mp hin).2⟩
    · rintro ⟨rfl | hentered, hleft⟩
      · exact .inl rfl
      · exact .inr (hb.mpr ⟨hentered, hleft⟩)
  stacked := by
    have hbase : Stacked E ((a, true) :: rest) := h.stacked
    have hin : ∀ b ∈ exits rest, b ∈ colours.entered := fun b hb => ((h.path b).mp hb).1
    clear hall
    induction pushed with
    | nil => exact hbase
    | cons c pushed ih =>
      obtain ⟨hedge, hwhite⟩ := hpushed c List.mem_cons_self
      rw [List.map_cons, List.cons_append]
      refine ⟨?_, ?_, ih fun d hd => hpushed d (List.mem_cons_of_mem c hd)⟩
      · rw [exits_pushed, exits_exit]
        intro hc
        rcases List.mem_cons.mp hc with rfl | hc
        · exact hwhite List.mem_cons_self
        · exact hwhite (List.mem_cons_of_mem a (hin c hc))
      · rw [exits_pushed, exits_exit]
        intro g hg
        cases hg
        exact hedge
  left b hb := List.mem_cons_of_mem a (h.left b hb)
  waiting above g below hsplit c hc := by
    rcases List.append_eq_append_iff.mp hsplit with ⟨upper, habove, hrest⟩ | ⟨under, hmap, hrest⟩
    · cases upper with
      | nil =>
        obtain ⟨hg, -⟩ := List.cons.inj hrest
        cases hg
        rcases hall c hc with hleft | hin
        · exact .inl hleft
        · refine .inr ⟨false, ?_⟩
          rw [habove]
          simpa using hin
      | cons entry upper =>
        obtain ⟨rfl, hbelow⟩ := List.cons.inj hrest
        have hold : (a, false) :: rest = ((a, false) :: upper) ++ (g, true) :: below :=
          congrArg ((a, false) :: ·) hbelow
        rcases h.waiting _ g below hold c hc with hleft | ⟨flag, hin⟩
        · exact .inl hleft
        · rcases List.mem_cons.mp hin with heq | hin
          · cases heq
            exact .inr ⟨true, by simp [habove]⟩
          · exact .inr ⟨flag, by simp [habove, hin]⟩
    · cases under with
      | nil =>
        obtain ⟨hg, -⟩ := List.cons.inj hrest
        cases hg
        rcases hall c hc with hleft | hin
        · exact .inl hleft
        · refine .inr ⟨false, ?_⟩
          rw [List.append_nil] at hmap
          rw [← hmap]
          simpa using hin
      | cons entry under =>
        -- What is pushed waits to be entered.
        obtain ⟨rfl, -⟩ := List.cons.inj hrest
        have hg : (g, true) ∈ pushed.map (fun c => (c, false)) := by
          rw [hmap]
          simp
        simp at hg
  ends := h.ends

/-- A child on the path closes a cycle. -/
theorem Walking.cycle (h : Walking E ((a, false) :: rest) colours) (hedge : E a c)
    (hgrey : c ∈ a :: colours.entered) (hleft : c ∉ colours.left) :
    ∃ b, Relation.TransGen E b b := by
  rcases List.mem_cons.mp hgrey with rfl | hentered
  · exact ⟨c, .single hedge⟩
  · have hc : c ∈ exits rest := (h.path c).mpr ⟨hentered, hleft⟩
    exact ⟨a, .head hedge (h.stacked.reaches hc)⟩

/-- There is no cycle through what was left. -/
theorem Walking.acyclic {stack : List (α × Bool)} (h : Walking E stack colours)
    (ha : a ∈ colours.left) : ¬ Relation.TransGen E a a := by
  have hacc := (h.ends a ha).transGen
  clear ha
  induction hacc with
  | intro b _ ih =>
    intro hcycle
    exact ih b (Relation.transGen_swap.mpr hcycle) hcycle

end Invariant

/-- A check that raises an error where some edges close a cycle, and ends well elsewhere. -/
def DecidesCycles (check : Except ε Unit) (cyclic : ε) (E : α → α → Prop) : Prop :=
  (check = .ok () ∧ ∀ a, ¬ Relation.TransGen E a a) ∨
    (check = .error cyclic ∧ ∃ a, Relation.TransGen E a a)

theorem DecidesCycles.accepts {check : Except ε Unit} {cyclic : ε} {E : α → α → Prop}
    (h : DecidesCycles check cyclic E) : check = .ok () ↔ ∀ a, ¬ Relation.TransGen E a a := by
  rcases h with ⟨hok, hnone⟩ | ⟨herror, a, hcycle⟩
  · exact ⟨fun _ => hnone, fun _ => hok⟩
  · constructor
    · intro hok
      rw [herror] at hok
      cases hok
    · intro hnone
      exact absurd hcycle (hnone a)

section Run
variable [DecidableEq α] {E : α → α → Prop} {children : α → Except ε (List α)}
  {follow starts : α → Except ε Bool} {cyclic : ε} {space : List α} {degree : Nat}

/-- A child that is followed has a color of its own: white, or it closes a cycle, or it was left. -/
theorem pushWhite_spec (cyclic : ε) (colours : Colours α) (ids : List α) (stack : List (α × Bool))
    (hfollow : ∀ c ∈ ids, ∃ b, follow c = .ok b) :
    (∃ pushed : List α, pushWhite follow cyclic colours ids stack =
        .ok (pushed.map (fun c => (c, false)) ++ stack) ∧ pushed.length ≤ ids.length ∧
      (∀ c ∈ pushed, c ∈ ids ∧ follow c = .ok true ∧ c ∉ colours.entered) ∧
      ∀ c ∈ ids, follow c = .ok true → c ∈ colours.left ∨ c ∈ pushed) ∨
    (pushWhite follow cyclic colours ids stack = .error cyclic ∧
      ∃ c ∈ ids, follow c = .ok true ∧ c ∈ colours.entered ∧ c ∉ colours.left) := by
  induction ids generalizing stack with
  | nil => exact .inl ⟨[], rfl, Nat.le_refl _, by simp, by simp⟩
  | cons child rest ih =>
    obtain ⟨followed, hchild⟩ := hfollow child List.mem_cons_self
    have hrest := fun c hc => hfollow c (List.mem_cons_of_mem child hc)
    have hturn : pushWhite follow cyclic colours (child :: rest) stack =
        if !followed || colours.left.contains child then
          pushWhite follow cyclic colours rest stack
        else if colours.entered.contains child then .error cyclic
        else pushWhite follow cyclic colours rest ((child, false) :: stack) := by
      rw [pushWhite, hchild]
      rfl
    rw [hturn]
    by_cases hskip : (!followed || colours.left.contains child) = true
    · rw [if_pos hskip]
      rcases ih stack hrest with ⟨pushed, hrun, hlen, hwhite, hall⟩ | ⟨hrun, c, hc, hgrey⟩
      · refine .inl ⟨pushed, hrun, Nat.le_succ_of_le hlen, fun c hc => ?_, fun c hc hf => ?_⟩
        · obtain ⟨hin, hrest⟩ := hwhite c hc
          exact ⟨List.mem_cons_of_mem child hin, hrest⟩
        · rcases List.mem_cons.mp hc with rfl | hc
          · left
            rw [hchild] at hf
            cases hf
            simpa using hskip
          · exact hall c hc hf
      · exact .inr ⟨hrun, c, List.mem_cons_of_mem child hc, hgrey⟩
    · rw [if_neg hskip]
      simp only [Bool.or_eq_true, Bool.not_eq_true', not_or, Bool.not_eq_false,
        List.contains_iff_mem] at hskip
      obtain ⟨rfl, hleft⟩ := hskip
      by_cases hentered : colours.entered.contains child = true
      · rw [if_pos hentered]
        exact .inr ⟨rfl, child, List.mem_cons_self, hchild, by simpa using hentered, hleft⟩
      · rw [if_neg hentered]
        rw [List.contains_iff_mem] at hentered
        rcases ih ((child, false) :: stack) hrest with
          ⟨pushed, hrun, hlen, hwhite, hall⟩ | ⟨hrun, c, hc, hgrey⟩
        · refine .inl ⟨pushed ++ [child], ?_, ?_, fun c hc => ?_, fun c hc hf => ?_⟩
          · rw [hrun, List.map_append, List.append_assoc]
            rfl
          · simpa using hlen
          · rcases List.mem_append.mp hc with hc | hc
            · obtain ⟨hin, hrest⟩ := hwhite c hc
              exact ⟨List.mem_cons_of_mem child hin, hrest⟩
            · rw [List.mem_singleton.mp hc]
              exact ⟨List.mem_cons_self, hchild, hentered⟩
          · rcases List.mem_cons.mp hc with rfl | hc
            · exact .inr (List.mem_append_right _ List.mem_cons_self)
            · rcases hall c hc hf with hleft | hin
              · exact .inl hleft
              · exact .inr (List.mem_append_left _ hin)
        · exact .inr ⟨hrun, c, List.mem_cons_of_mem child hc, hgrey⟩

/-- On the starts of `space` the children can be listed and are few, and the ones that are
followed are the edges of `E`, which goes from start to start. -/
structure Governs (E : α → α → Prop) (children : α → Except ε (List α))
    (follow starts : α → Except ε Bool) (space : List α) (degree : Nat) : Prop where
  starts_ok : ∀ a ∈ space, ∃ b, starts a = .ok b
  lists : ∀ a ∈ space, starts a = .ok true → ∃ ids, children a = .ok ids ∧ ids.length ≤ degree ∧
    (∀ c ∈ ids, ∃ b, follow c = .ok b) ∧ ∀ c, E a c ↔ c ∈ ids ∧ follow c = .ok true
  inside : ∀ a c, E a c → (a ∈ space ∧ starts a = .ok true) ∧ c ∈ space ∧ starts c = .ok true

/-- What waits and what was entered are starts of `space`; each was entered once. -/
structure Within (starts : α → Except ε Bool) (space : List α) (stack : List (α × Bool))
    (colours : Colours α) : Prop where
  waiting : ∀ entry ∈ stack, entry.1 ∈ space ∧ starts entry.1 = .ok true
  entered : ∀ a ∈ colours.entered, a ∈ space
  nodup : colours.entered.Nodup

omit [DecidableEq α] in
theorem Within.room {stack : List (α × Bool)} {colours : Colours α}
    (h : Within starts space stack colours) : colours.entered.length ≤ space.length :=
  (List.subperm_of_subset h.nodup h.entered).length_le

/-- How a walk ends: with what was on the stack left, or with a cycle. The fuel pays for every
entry of the stack and for the children of every value that is still white. -/
theorem colourWalk_run (cyclic : ε) (hg : Governs E children follow starts space degree) :
    ∀ fuel stack colours, Walking E stack colours → Within starts space stack colours →
      stack.length + (space.length - colours.entered.length) * (degree + 1) ≤ fuel →
      (∃ colours', colourWalk follow cyclic children fuel stack colours = .ok colours' ∧
        Walking E [] colours' ∧ Within starts space [] colours' ∧
        (∀ a ∈ colours.left, a ∈ colours'.left) ∧ ∀ entry ∈ stack, entry.1 ∈ colours'.left) ∨
      (colourWalk follow cyclic children fuel stack colours = .error cyclic ∧
        ∃ a, Relation.TransGen E a a) := by
  intro fuel
  induction fuel with
  | zero =>
    intro stack colours h hin hfuel
    have hempty : stack = [] := List.length_eq_zero_iff.mp (by omega)
    subst hempty
    exact .inl ⟨colours, rfl, h, hin, fun _ ha => ha, by simp⟩
  | succ fuel ih =>
    intro stack colours h hin hfuel
    match stack with
    | [] => exact .inl ⟨colours, rfl, h, hin, fun _ ha => ha, by simp⟩
    | (a, true) :: rest =>
      have hrest : Within starts space rest { colours with left := a :: colours.left } :=
        ⟨fun entry he => hin.waiting entry (List.mem_cons_of_mem _ he), hin.entered, hin.nodup⟩
      have hcost : rest.length + (space.length - colours.entered.length) * (degree + 1) ≤ fuel := by
        simp only [List.length_cons] at hfuel
        omega
      have hturn : colourWalk follow cyclic children (fuel + 1) ((a, true) :: rest) colours =
          colourWalk follow cyclic children fuel rest { colours with left := a :: colours.left } :=
        rfl
      rw [hturn]
      rcases ih rest _ h.leave hrest hcost with ⟨colours', hrun, hw, hi, hleft, hstack⟩ | hcycle
      · refine .inl ⟨colours', hrun, hw, hi, fun b hb => hleft b (List.mem_cons_of_mem a hb), ?_⟩
        intro entry he
        rcases List.mem_cons.mp he with rfl | he
        · exact hleft a List.mem_cons_self
        · exact hstack entry he
      · exact .inr hcycle
    | (a, false) :: rest =>
      obtain ⟨hspace, hstart⟩ := hin.waiting (a, false) List.mem_cons_self
      by_cases hleft : a ∈ colours.left
      · have hrest : Within starts space rest colours :=
          ⟨fun entry he => hin.waiting entry (List.mem_cons_of_mem _ he), hin.entered, hin.nodup⟩
        have hcost : rest.length + (space.length - colours.entered.length) * (degree + 1) ≤ fuel := by
          simp only [List.length_cons] at hfuel
          omega
        have hturn : colourWalk follow cyclic children (fuel + 1) ((a, false) :: rest) colours =
            colourWalk follow cyclic children fuel rest colours := by
          simp [colourWalk, hleft]
        rw [hturn]
        rcases ih rest colours (h.skip hleft) hrest hcost with
          ⟨colours', hrun, hw, hi, hmono, hstack⟩ | hcycle
        · refine .inl ⟨colours', hrun, hw, hi, hmono, ?_⟩
          intro entry he
          rcases List.mem_cons.mp he with rfl | he
          · exact hmono a hleft
          · exact hstack entry he
        · exact .inr hcycle
      · have hwhite : a ∉ colours.entered := fun hentered => hleft (h.not_grey hentered)
        obtain ⟨ids, hids, hfew, hfollow, hedges⟩ := hg.lists a hspace hstart
        have hturn : colourWalk follow cyclic children (fuel + 1) ((a, false) :: rest) colours =
            (pushWhite follow cyclic { colours with entered := a :: colours.entered } ids
              ((a, true) :: rest)).bind (fun stack =>
                colourWalk follow cyclic children fuel stack
                  { colours with entered := a :: colours.entered }) := by
          simp [colourWalk, hleft, hwhite, hids, Bind.bind, Except.bind]
        rw [hturn]
        rcases pushWhite_spec cyclic { colours with entered := a :: colours.entered }
          ids ((a, true) :: rest) hfollow with
            ⟨pushed, hpush, hlen, hpushed, hall⟩ | ⟨hpush, c, hc, hf, hgrey, hout⟩
        · rw [hpush]
          have hedge : ∀ c ∈ pushed, E a c ∧ c ∉ a :: colours.entered := fun c hc =>
            ⟨(hedges c).mpr ⟨(hpushed c hc).1, (hpushed c hc).2.1⟩, (hpushed c hc).2.2⟩
          have hnext := h.enter hwhite hedge fun c hc =>
            hall c ((hedges c).mp hc).1 ((hedges c).mp hc).2
          have hwithin : Within starts space
              (pushed.map (fun c => (c, false)) ++ (a, true) :: rest)
              { colours with entered := a :: colours.entered } := by
            refine ⟨fun entry he => ?_, fun b hb => ?_, List.nodup_cons.mpr ⟨hwhite, hin.nodup⟩⟩
            · rcases List.mem_append.mp he with he | he
              · obtain ⟨c, hc, rfl⟩ := List.mem_map.mp he
                exact (hg.inside a c (hedge c hc).1).2
              · rcases List.mem_cons.mp he with rfl | he
                · exact ⟨hspace, hstart⟩
                · exact hin.waiting entry (List.mem_cons_of_mem _ he)
            · rcases List.mem_cons.mp hb with rfl | hb
              · exact hspace
              · exact hin.entered b hb
          have hroom := hwithin.room
          have hcost : (pushed.map (fun c => (c, false)) ++ (a, true) :: rest).length +
              (space.length - (a :: colours.entered).length) * (degree + 1) ≤ fuel := by
            simp only [List.length_cons, List.length_append, List.length_map] at hfuel hroom ⊢
            have hsplit : (space.length - colours.entered.length) * (degree + 1) =
                (space.length - (colours.entered.length + 1)) * (degree + 1) + (degree + 1) := by
              rw [← Nat.succ_mul]
              congr 1
              omega
            omega
          rcases ih _ _ hnext hwithin hcost with ⟨colours', hrun, hw, hi, hmono, hstack⟩ | hcycle
          · refine .inl ⟨colours', hrun, hw, hi, hmono, ?_⟩
            intro entry he
            rcases List.mem_cons.mp he with rfl | he
            · exact hstack (a, true) (by simp)
            · exact hstack entry (by simp [he])
          · exact .inr hcycle
        · rw [hpush]
          exact .inr ⟨rfl, h.cycle ((hedges c).mpr ⟨hc, hf⟩) hgrey hout⟩

/-- The walks end well where the edges close no cycle, and only there. -/
theorem colourWalks_decide (hg : Governs E children follow starts space degree) {fuel : Nat}
    (hfuel : space.length * (degree + 1) + 1 ≤ fuel) :
    DecidesCycles (colourWalks follow cyclic children starts fuel space ⟨[], []⟩) cyclic E := by
  suffices h : ∀ rest colours, (∀ a ∈ rest, a ∈ space) → Walking E [] colours →
      Within starts space [] colours →
      (∀ a ∈ space, starts a = .ok true → a ∈ colours.left ∨ a ∈ rest) →
      DecidesCycles (colourWalks follow cyclic children starts fuel rest colours) cyclic E by
    refine h space ⟨[], []⟩ (fun _ ha => ha) Walking.initial ⟨by simp, by simp, by simp⟩ ?_
    exact fun a ha _ => .inr ha
  intro rest
  induction rest with
  | nil =>
    intro colours _ h _ hdone
    refine .inl ⟨rfl, fun a hcycle => ?_⟩
    obtain ⟨b, hedge, -⟩ := Relation.TransGen.head'_iff.mp hcycle
    obtain ⟨hspace, hstart⟩ := (hg.inside a b hedge).1
    rcases hdone a hspace hstart with hleft | hin
    · exact h.acyclic hleft hcycle
    · cases hin
  | cons a rest ih =>
    intro colours hrest h hin hdone
    have htail := fun b hb => hrest b (List.mem_cons_of_mem a hb)
    obtain ⟨start, hstart⟩ := hg.starts_ok a (hrest a List.mem_cons_self)
    have hturn : colourWalks follow cyclic children starts fuel (a :: rest) colours =
        if !start || colours.left.contains a then
          colourWalks follow cyclic children starts fuel rest colours
        else (colourWalk follow cyclic children fuel [(a, false)] colours).bind
          (colourWalks follow cyclic children starts fuel rest) := by
      rw [colourWalks, hstart]
      rfl
    rw [hturn]
    by_cases hskip : (!start || colours.left.contains a) = true
    · rw [if_pos hskip]
      refine ih colours htail h hin fun b hb hs => ?_
      rcases hdone b hb hs with hleft | hb
      · exact .inl hleft
      · rcases List.mem_cons.mp hb with rfl | hb
        · left
          rw [hstart] at hs
          cases hs
          simpa using hskip
        · exact .inr hb
    · rw [if_neg hskip]
      simp only [Bool.or_eq_true, Bool.not_eq_true', not_or, Bool.not_eq_false,
        List.contains_iff_mem] at hskip
      obtain ⟨rfl, -⟩ := hskip
      have hwithin : Within starts space [(a, false)] colours := by
        refine ⟨fun entry he => ?_, hin.entered, hin.nodup⟩
        rw [List.mem_singleton.mp he]
        exact ⟨hrest a List.mem_cons_self, hstart⟩
      have hcost : [(a, false)].length +
          (space.length - colours.entered.length) * (degree + 1) ≤ fuel := by
        have hle := Nat.mul_le_mul_right (degree + 1)
          (Nat.sub_le space.length colours.entered.length)
        simp only [List.length_singleton]
        omega
      rcases colourWalk_run cyclic hg fuel _ _ h.start hwithin hcost with
        ⟨colours', hrun, hw, hi, hmono, hstack⟩ | ⟨hrun, hcycle⟩
      · rw [hrun]
        refine ih colours' htail hw hi fun b hb hs => ?_
        rcases hdone b hb hs with hleft | hb
        · exact .inl (hmono b hleft)
        · rcases List.mem_cons.mp hb with rfl | hb
          · exact .inl (hstack (b, false) List.mem_cons_self)
          · exact .inr hb
      · rw [hrun]
        exact .inr ⟨rfl, hcycle⟩

end Run

end Projector.Lib
