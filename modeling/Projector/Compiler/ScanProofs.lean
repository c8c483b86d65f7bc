import Projector.Compiler.Compilation

namespace Projector.Compiler
open Lib Projector.Core

section Roles

/-- The ignored axioms of a role traversal are counted on top of what was counted. -/
theorem roleStep_statistics (roles : RoleState) (statistics : CompileStatistics) (a : Node) :
    roleStep (roles, statistics) a =
      ((roleStep (roles, ⟨0, 0⟩) a).1,
        ⟨statistics.skippedAxioms,
          statistics.ignoredShapes + (roleStep (roles, ⟨0, 0⟩) a).2.ignoredShapes⟩) := by
  unfold roleStep
  simp only
  split
  · split <;> simp
  · simp [CompileStatistics.ignore]

theorem foldl_roleStep (ordered : List Node) (roles : RoleState)
    (statistics : CompileStatistics) :
    ordered.foldl roleStep (roles, statistics) =
      ((ordered.foldl roleStep (roles, ⟨0, 0⟩)).1,
        ⟨statistics.skippedAxioms, statistics.ignoredShapes +
          (ordered.foldl roleStep (roles, ⟨0, 0⟩)).2.ignoredShapes⟩) := by
  induction ordered generalizing roles statistics with
  | nil => rfl
  | cons a rest ih =>
    have hzero := roleStep_statistics roles ⟨0, 0⟩ a
    simp only [List.foldl_cons]
    rw [roleStep_statistics roles statistics a]
    generalize roleStep (roles, ⟨0, 0⟩) a = first at hzero ⊢
    obtain ⟨roles', skipped, ignored⟩ := first
    simp only [Prod.mk.injEq, true_and, CompileStatistics.mk.injEq] at hzero
    obtain ⟨rfl, -⟩ := hzero
    rw [ih roles' ⟨0, ignored⟩, ih roles' ⟨_, statistics.ignoredShapes + ignored⟩]
    simp [Nat.add_assoc]

/-- What the role axioms of a view do to the role maps they start from. -/
structure RoleUpdate where
  roleState : RoleState
  ignored : Nat

def roleUpdate? (rbox : List Node) (roles : RoleState) : Option RoleUpdate := do
  let ordered ← hashsetOrder rbox
  let (roleState, statistics) := ordered.foldl roleStep (roles, ⟨0, 0⟩)
  some ⟨roleState, statistics.ignoredShapes⟩

theorem updateRoleState_eq (rbox : List Node) (roles : RoleState)
    (statistics : CompileStatistics) :
    updateRoleState rbox roles statistics =
      (roleUpdate? rbox roles).map fun u =>
        (u.roleState, ⟨statistics.skippedAxioms, statistics.ignoredShapes + u.ignored⟩) := by
  unfold updateRoleState roleUpdate?
  cases hashsetOrder rbox with
  | none => rfl
  | some ordered =>
    simp only [Option.bind_eq_bind, Option.bind_some, Option.map_some]
    rw [foldl_roleStep]

theorem roleUpdate_of_perm {xs ys : List Node} (h : xs.Perm ys) (roles : RoleState) :
    roleUpdate? xs roles = roleUpdate? ys roles := by
  unfold roleUpdate?
  rw [hashsetOrder_of_perm h]

/-- A compilation whose role maps have been brought up to date. -/
def Compilation.withRoles (c : Compilation) (u : RoleUpdate) : Compilation :=
  { c with
    roleState := u.roleState
    statistics :=
      { c.statistics with ignoredShapes := c.statistics.ignoredShapes + u.ignored }
    rolesPrepared := true }

theorem ensureRoles_idle {c : Compilation} (h : c.rolesPrepared = true) :
    ensureRoles c = ⟨[], .ok (), c⟩ := by
  simp [ensureRoles, Bind.bind, Gen.andThen, Gen.gets, h, pure, Gen.ret]

theorem ensureRoles_run {c : Compilation} {u : RoleUpdate} (h : c.rolesPrepared = false)
    (hu : roleUpdate? (fetchedRbox c.view) c.roleState = some u) :
    ensureRoles c = ⟨[], .ok (), c.withRoles u⟩ := by
  simp only [ensureRoles, Bind.bind, Gen.andThen, Gen.gets, id, h, updateRoleState_eq, hu]
  rfl

theorem ensureRoles_raises {c : Compilation} (h : c.rolesPrepared = false)
    (hu : roleUpdate? (fetchedRbox c.view) c.roleState = none) :
    ensureRoles c = ⟨[], .error .unicodeEncode, c⟩ := by
  simp only [ensureRoles, Bind.bind, Gen.andThen, Gen.gets, id, h, updateRoleState_eq, hu]
  rfl

/-- Everything that fetching the role maps can do. -/
inductive RolesStep (c : Compilation) : Trace CompileError Compilation (Edge String) Unit → Prop
  | idle (h : c.rolesPrepared = true) : RolesStep c ⟨[], .ok (), c⟩
  | run (u : RoleUpdate) (h : c.rolesPrepared = false)
      (hu : roleUpdate? (fetchedRbox c.view) c.roleState = some u) :
      RolesStep c ⟨[], .ok (), c.withRoles u⟩
  | raises (h : c.rolesPrepared = false)
      (hu : roleUpdate? (fetchedRbox c.view) c.roleState = none) :
      RolesStep c ⟨[], .error .unicodeEncode, c⟩

theorem ensureRoles_step (c : Compilation) : RolesStep c (ensureRoles c) := by
  cases h : c.rolesPrepared with
  | true =>
    rw [ensureRoles_idle h]
    exact .idle h
  | false =>
    cases hu : roleUpdate? (fetchedRbox c.view) c.roleState with
    | none =>
      rw [ensureRoles_raises h hu]
      exact .raises h hu
    | some u =>
      rw [ensureRoles_run h hu]
      exact .run u h hu

end Roles

section Scan

def isCore (value : Node) : Bool := isSelected value.constructor || value.constructor.isAxiom

def skippedKey? (value : Node) : Option DiagnosticKey :=
  if isSelected value.constructor || value.isOf .declaration || value.isOf .annotationAssertion then
    none
  else some (skippedAxiom (typeName value))

/-- The diagnostics that a scan of the closure adds. -/
def skippedKeys (closure : List Node) : List DiagnosticKey := closure.filterMap skippedKey?

def addAll (bag : DiagnosticBag) (keys : List DiagnosticKey) : DiagnosticBag :=
  keys.foldl Dict.increment bag

theorem addAll_same {bag bag' : DiagnosticBag} (h : Dict.Same bag bag')
    (keys : List DiagnosticKey) : Dict.Same (addAll bag keys) (addAll bag' keys) := by
  induction keys generalizing bag bag' with
  | nil => exact h
  | cons k rest ih => exact ih (h.increment k)

/-- An addition can be made before or after a batch of others. -/
theorem addAll_increment (bag : DiagnosticBag) (key : DiagnosticKey) (keys : List DiagnosticKey) :
    Dict.Same (addAll (bag.increment key) keys) (Dict.increment (addAll bag keys) key) := by
  induction keys generalizing bag with
  | nil => exact Dict.Same.refl _
  | cons k rest ih =>
    have hswap := addAll_same (Dict.increment_comm bag key k) rest
    exact hswap.trans (ih (bag.increment k))

theorem addAll_of_perm {keys keys' : List DiagnosticKey} (h : keys.Perm keys')
    (bag : DiagnosticBag) : Dict.Same (addAll bag keys) (addAll bag keys') := by
  induction h generalizing bag with
  | nil => exact Dict.Same.refl _
  | cons k _ ih => exact ih (bag.increment k)
  | swap k l rest => exact addAll_same (Dict.increment_comm bag l k) rest
  | trans _ _ ih ih' => exact (ih bag).trans (ih' bag)

theorem scanAxiom_core {counts : ScanCounts} {value : Node} (h : isCore value = true) :
    scanAxiom counts value =
      .ok ⟨counts.skippedAxioms + (skippedKeys [value]).length,
        addAll counts.bag (skippedKeys [value])⟩ := by
  unfold scanAxiom skippedKeys
  by_cases hskip : (isSelected value.constructor || value.isOf .declaration ||
      value.isOf .annotationAssertion) = true
  · simp [skippedKey?, hskip, addAll]
  · have haxiom : value.constructor.isAxiom = true := by
      simp only [isCore, Bool.or_eq_true] at h hskip
      tauto
    simp [skippedKey?, hskip, haxiom, addAll]

theorem scanAxiom_foreign {counts : ScanCounts} {value : Node} (h : isCore value = false) :
    scanAxiom counts value = .error (notCoreAxiom value) := by
  simp only [isCore, Bool.or_eq_false_iff] at h
  have hdecl : value.isOf .declaration = false := by
    by_contra hd
    have hc : value.constructor = .declaration := by simpa [Node.isOf] using hd
    rw [hc] at h
    exact absurd h.2 (by decide)
  have hannot : value.isOf .annotationAssertion = false := by
    by_contra hd
    have hc : value.constructor = .annotationAssertion := by simpa [Node.isOf] using hd
    rw [hc] at h
    exact absurd h.2 (by decide)
  simp [scanAxiom, h.1, h.2, hdecl, hannot]

def AllCore (closure : List Node) : Prop := ∀ a ∈ closure, isCore a = true

instance (closure : List Node) : Decidable (AllCore closure) :=
  inferInstanceAs (Decidable (∀ a ∈ closure, isCore a = true))

theorem addAll_append (bag : DiagnosticBag) (keys keys' : List DiagnosticKey) :
    addAll bag (keys ++ keys') = addAll (addAll bag keys) keys' :=
  List.foldl_append

theorem skippedKeys_cons (a : Node) (rest : List Node) :
    skippedKeys (a :: rest) = skippedKeys [a] ++ skippedKeys rest := by
  rw [skippedKeys, skippedKeys, skippedKeys, ← List.filterMap_append, List.singleton_append]

/-- The eager scan counts every skipped axiom, or stops at a foreign one. -/
theorem foldlM_scanAxiom {closure : List Node} (h : AllCore closure) (counts : ScanCounts) :
    closure.foldlM scanAxiom counts =
      .ok ⟨counts.skippedAxioms + (skippedKeys closure).length,
        addAll counts.bag (skippedKeys closure)⟩ := by
  induction closure generalizing counts with
  | nil => rfl
  | cons a rest ih =>
    have hrest := ih (fun b hb => h b (by simp [hb]))
    simp only [List.foldlM_cons, scanAxiom_core (h a (by simp)), Bind.bind, Except.bind]
    rw [hrest, skippedKeys_cons a rest, addAll_append, List.length_append, Nat.add_assoc]

theorem foldlM_scanAxiom_foreign {closure : List Node} (h : ¬AllCore closure)
    (counts : ScanCounts) : ∃ e, closure.foldlM scanAxiom counts = .error e := by
  induction closure generalizing counts with
  | nil => exact absurd (fun a ha => by simp at ha) h
  | cons a rest ih =>
    rw [List.foldlM_cons]
    cases ha : isCore a with
    | false => exact ⟨_, by rw [scanAxiom_foreign ha]; rfl⟩
    | true =>
      rw [scanAxiom_core ha]
      refine ih ?_ _
      intro hrest
      apply h
      intro b hb
      rcases List.mem_cons.mp hb with rfl | hb
      · exact ha
      · exact hrest b hb

/-- A compilation in which the axioms of `closure` have been scanned as well. -/
def Compilation.counted (c : Compilation) (closure : List Node) : Compilation :=
  { c with
    statistics := { c.statistics with
      skippedAxioms := c.statistics.skippedAxioms + (skippedKeys closure).length }
    diagnosticBag := addAll c.diagnosticBag (skippedKeys closure) }

def Compilation.scanned (c : Compilation) : Compilation :=
  { c.counted c.view.closure with
    blankIds := numberAnonymous (c.view.closure.flatMap Node.anonymousValues)
    closureMetadataScanned := true }

theorem scanClosureAxiom_run {a : Node} (h : isCore a = true) (c : Compilation) :
    scanClosureAxiom a c = ⟨[], .ok (), c.counted [a]⟩ := by
  simp only [scanClosureAxiom, Bind.bind, Gen.andThen, Gen.gets, id, scanAxiom_core h]
  rfl

theorem counted_cons (c : Compilation) (a : Node) (rest : List Node) :
    (c.counted [a]).counted rest = c.counted (a :: rest) := by
  simp only [Compilation.counted, skippedKeys_cons a rest, addAll_append, List.length_append,
    Nat.add_assoc]

theorem each_scanClosureAxiom {closure : List Node} (h : AllCore closure) (c : Compilation) :
    Gen.each closure scanClosureAxiom c = ⟨[], .ok (), c.counted closure⟩ := by
  induction closure generalizing c with
  | nil => rfl
  | cons a rest ih =>
    have hstep := scanClosureAxiom_run (h a (by simp)) c
    have hrest := ih (fun b hb => h b (by simp [hb])) (c.counted [a])
    simp only [Gen.each, Bind.bind, Gen.andThen, hstep, hrest, counted_cons, List.append_nil]

/-- A foreign axiom stops the scan; what was counted before it stays counted. -/
theorem each_scanClosureAxiom_foreign {closure : List Node} (h : ¬AllCore closure)
    (c : Compilation) : ∃ e done,
      Gen.each closure scanClosureAxiom c = ⟨[], .error e, c.counted done⟩ := by
  induction closure generalizing c with
  | nil => exact absurd (fun a ha => by simp at ha) h
  | cons a rest ih =>
    cases ha : isCore a with
    | false =>
      refine ⟨notCoreAxiom a, [], ?_⟩
      simp only [Gen.each, scanClosureAxiom, Bind.bind, Gen.andThen, Gen.gets, id,
        scanAxiom_foreign ha]
      rfl
    | true =>
      have hrest : ¬AllCore rest := by
        intro hrest
        apply h
        intro b hb
        rcases List.mem_cons.mp hb with rfl | hb
        · exact ha
        · exact hrest b hb
      obtain ⟨e, done, hrun⟩ := ih hrest (c.counted [a])
      refine ⟨e, a :: done, ?_⟩
      simp only [Gen.each, Bind.bind, Gen.andThen, scanClosureAxiom_run ha, hrun, counted_cons,
        List.append_nil]

theorem scanClosureMetadata_raises {c : Compilation} (hscan : c.closureMetadataScanned = false)
    (h : ¬AllCore c.view.closure) :
    ∃ e done, scanClosureMetadata c = ⟨[], .error e, c.counted done⟩ := by
  obtain ⟨e, done, hrun⟩ := each_scanClosureAxiom_foreign h c
  refine ⟨e, done, ?_⟩
  simp only [scanClosureMetadata, Bind.bind, Gen.andThen, Gen.gets, id, hscan,
    Bool.false_eq_true, if_false, hrun, List.append_nil]

theorem scanClosureMetadata_run {c : Compilation} (hscan : c.closureMetadataScanned = false)
    (h : AllCore c.view.closure) :
    scanClosureMetadata c = ⟨[], .ok (), c.scanned⟩ := by
  have hrun := each_scanClosureAxiom h c
  simp only [scanClosureMetadata, Bind.bind, Gen.andThen, Gen.gets, Gen.modify, id, hscan,
    Bool.false_eq_true, if_false, hrun, List.append_nil]
  rfl

theorem scanClosureMetadata_idle {c : Compilation} (hscan : c.closureMetadataScanned = true) :
    scanClosureMetadata c = ⟨[], .ok (), c⟩ := by
  simp [scanClosureMetadata, Bind.bind, Gen.andThen, Gen.gets, hscan, pure, Gen.ret]

/-- Everything that the closure scan can do. -/
inductive ScanStep (c : Compilation) : Trace CompileError Compilation (Edge String) Unit → Prop
  | idle (h : c.closureMetadataScanned = true) : ScanStep c ⟨[], .ok (), c⟩
  | run (h : c.closureMetadataScanned = false) (hc : AllCore c.view.closure) :
      ScanStep c ⟨[], .ok (), c.scanned⟩
  | raises (e : CompileError) (done : List Node) (h : c.closureMetadataScanned = false)
      (hc : ¬AllCore c.view.closure) : ScanStep c ⟨[], .error e, c.counted done⟩

theorem scanClosureMetadata_step (c : Compilation) : ScanStep c (scanClosureMetadata c) := by
  cases h : c.closureMetadataScanned with
  | true =>
    rw [scanClosureMetadata_idle h]
    exact .idle h
  | false =>
    by_cases hc : AllCore c.view.closure
    · rw [scanClosureMetadata_run h hc]
      exact .run h hc
    · obtain ⟨e, done, hrun⟩ := scanClosureMetadata_raises h hc
      rw [hrun]
      exact .raises e done h hc

end Scan

end Projector.Compiler
