import Projector.Streaming.Accounting
import Projector.Streaming.ExternalSort

namespace Projector.Streaming
open Lib

section Delete
variable {τ : Type} {env : Environment} {limits : StreamingLimits} {start : Nat} {w v u : World τ}

/-- The entries of the registry that are not at one of `paths`. -/
def without (paths : List Path) (runs : List (Path × Nat)) : List (Path × Nat) :=
  runs.filter fun entry => decide (entry.1 ∉ paths)

theorem mem_without {paths : List Path} {runs : List (Path × Nat)} {entry : Path × Nat} :
    entry ∈ without paths runs ↔ entry ∈ runs ∧ entry.1 ∉ paths := by
  simp [without]

theorem without_without (ps qs : List Path) (runs : List (Path × Nat)) :
    without qs (without ps runs) = without (ps ++ qs) runs := by
  unfold without
  rw [List.filter_filter]
  refine List.filter_congr fun entry _ => ?_
  simp only [List.mem_append, not_or, Bool.decide_and]
  exact Bool.and_comm _ _

/-- Under distinct names a run takes the size that it is registered with. -/
theorem sum_without {runs : List (Path × Nat)} (h : (runs.map Prod.fst).Nodup) (path : Path) :
    (runs.map Prod.snd).sum =
      (runs.lookup path).getD 0 + ((without [path] runs).map Prod.snd).sum := by
  induction runs with
  | nil => rfl
  | cons entry runs ih =>
    obtain ⟨other, size⟩ := entry
    obtain ⟨habsent, hrest⟩ := List.nodup_cons.mp h
    by_cases hpath : other = path
    · subst hpath
      have hkeep : without [other] runs = runs := by
        refine List.filter_eq_self.mpr fun entry he => ?_
        have hin : entry.1 ∈ runs.map Prod.fst := List.mem_map_of_mem he
        have hne : entry.1 ≠ other := fun heq => habsent (heq ▸ hin)
        simpa using hne
      have hdrop : without [other] ((other, size) :: runs) = without [other] runs := by
        simp [without]
      rw [hdrop, hkeep]
      simp
    · have hother : (path == other) = false := by simpa using fun h => hpath h.symm
      have htake : without [path] ((other, size) :: runs) = (other, size) :: without [path] runs := by
        simp [without, hpath]
      rw [htake, List.lookup_cons, hother, List.map_cons, List.sum_cons, List.map_cons,
        List.sum_cons, ih hrest]
      dsimp only
      omega

theorem lookup_mem {runs : List (Path × Nat)} {path : Path} {size : Nat}
    (h : (runs.lookup path).getD 0 = size) (hsize : size ≠ 0) : (path, size) ∈ runs := by
  cases hl : runs.lookup path with
  | none =>
    rw [hl] at h
    exact absurd h.symm hsize
  | some found =>
    rw [hl, Option.getD_some] at h
    subst h
    obtain ⟨before, after, rfl, -⟩ := List.lookup_eq_some_iff.mp hl
    simp

/-- Some runs have been deleted: those whose file could not be removed stay registered. -/
structure Deleted (env : Environment) (limits : StreamingLimits) (start : Nat)
    (paths : List Path) (w v : World τ) : Prop where
  books : Books env limits start v
  closed : v.partialRun = none
  others : without paths v.workspace.runs = without paths w.workspace.runs
  shrunk : v.workspace.runs ⊆ w.workspace.runs
  gone : (∀ now, env.unlinkFault now = none) → v.workspace.runs = without paths w.workspace.runs
  passes : v.workspace.mergePasses = w.workspace.mergePasses
  files : ∀ path ∉ paths, v.files path = w.files path
  nextPath : v.nextPath = w.nextPath

/-- Removing a file that is there, with what was live of it. -/
theorem Books.removed (h : Books env limits start w) (hnone : w.partialRun = none) (path : Path) :
    Books env limits start { w with
      clock := w.clock + 1
      files := Function.update w.files path none
      workspace := { w.workspace with
        runs := without [path] w.workspace.runs
        liveBytes := w.workspace.liveBytes - (w.workspace.runs.lookup path).getD 0
        availableEstimate :=
          w.workspace.availableEstimate + (w.workspace.runs.lookup path).getD 0
        liveHistory := (w.workspace.liveBytes - (w.workspace.runs.lookup path).getD 0) ::
          w.workspace.liveHistory } } := by
  have hlive := h.live
  have hsum := sum_without h.distinct path
  simp only [charged, hnone, Option.map_none, Option.getD_none] at hlive
  refine ⟨Nat.le_succ_of_le h.later, h.accounts.released (Nat.sub_le _ _) rfl rfl rfl, ?_,
    fun entry he => ?_, ?_, fun q hq => ?_, fun hunlink q hq => ?_, fun q hq => ?_⟩
  · simp only [charged, hnone, Option.map_none, Option.getD_none]
    omega
  · obtain ⟨hin, hne⟩ := mem_without.mp he
    have hne : entry.1 ≠ path := by simpa using hne
    dsimp only
    rw [Function.update_of_ne hne]
    exact h.sizes entry hin
  · exact h.distinct.sublist (List.filter_sublist.map _)
  · obtain ⟨entry, he, rfl⟩ := List.mem_map.mp hq
    exact h.named _ (List.mem_map_of_mem (mem_without.mp he).1)
  · by_cases hq' : q = path
    · subst hq'
      simp at hq
    · dsimp only at hq
      rw [Function.update_of_ne hq'] at hq
      rcases h.files hunlink q hq with hin | hw
      · obtain ⟨entry, he, rfl⟩ := List.mem_map.mp hin
        exact .inl (List.mem_map_of_mem (mem_without.mpr ⟨he, by simpa using hq'⟩))
      · simp [writing, hnone] at hw
  · simp [writing, hnone] at hq

/-- A run whose file cannot be removed is registered again, at the end. -/
theorem Books.retained (h : Books env limits start w) (hnone : w.partialRun = none) {path : Path}
    {entries : List (Path × Nat)} (hin : ∀ entry ∈ entries, entry ∈ w.workspace.runs)
    (hpath : ∀ entry ∈ entries, entry.1 = path) (hnodup : (entries.map Prod.fst).Nodup)
    (hsize : (entries.map Prod.snd).sum = (w.workspace.runs.lookup path).getD 0)
    {now : Nat} (hfault : env.unlinkFault now ≠ none) :
    Books env limits start { w with
      clock := w.clock + 1
      workspace := { w.workspace with runs := without [path] w.workspace.runs ++ entries } } := by
  have hlive := h.live
  have hsum := sum_without h.distinct path
  simp only [charged, hnone, Option.map_none, Option.getD_none] at hlive
  have hback : ∀ entry ∈ without [path] w.workspace.runs ++ entries, entry ∈ w.workspace.runs := by
    intro entry he
    rcases List.mem_append.mp he with he | he
    · exact (mem_without.mp he).1
    · exact hin entry he
  refine ⟨Nat.le_succ_of_le h.later, h.accounts.same rfl rfl rfl rfl, ?_,
    fun entry he => h.sizes entry (hback entry he), ?_, fun q hq => ?_,
    fun hunlink => absurd (hunlink now) hfault, fun q hq => ?_⟩
  · simp only [charged, hnone, Option.map_none, Option.getD_none, List.map_append, List.sum_append]
    omega
  · simp only [Streaming.registered, List.map_append]
    rw [List.nodup_append]
    refine ⟨h.distinct.sublist (List.filter_sublist.map _), hnodup, ?_⟩
    intro q hq q' hq' heq
    obtain ⟨entry, he, rfl⟩ := List.mem_map.mp hq
    obtain ⟨entry', he', rfl⟩ := List.mem_map.mp hq'
    exact (mem_without.mp he).2 (by simpa using heq.trans (hpath entry' he'))
  · obtain ⟨entry, he, rfl⟩ := List.mem_map.mp hq
    exact h.named _ (List.mem_map_of_mem (hback entry he))
  · simp [writing, hnone] at hq

theorem Books.retained_deleted (h : Books env limits start w) (hnone : w.partialRun = none)
    {path : Path} {entries : List (Path × Nat)} (hin : ∀ entry ∈ entries, entry ∈ w.workspace.runs)
    (hpath : ∀ entry ∈ entries, entry.1 = path) (hnodup : (entries.map Prod.fst).Nodup)
    (hsize : (entries.map Prod.snd).sum = (w.workspace.runs.lookup path).getD 0)
    {now : Nat} (hfault : env.unlinkFault now ≠ none) :
    Deleted env limits start [path] w { w with
      clock := w.clock + 1
      workspace := { w.workspace with runs := without [path] w.workspace.runs ++ entries } } := by
  have hnot : without [path] entries = [] :=
    List.filter_eq_nil_iff.mpr fun entry he => by simp [hpath entry he]
  refine ⟨h.retained hnone hin hpath hnodup hsize hfault, hnone, ?_, fun entry he => ?_,
    fun hunlink => absurd (hunlink now) hfault, rfl, fun _ _ => rfl, rfl⟩
  · have happend : without [path] (without [path] w.workspace.runs ++ entries) =
        without [path] (without [path] w.workspace.runs) ++ without [path] entries :=
      List.filter_append _ _
    dsimp only
    rw [happend, hnot, without_without, List.append_nil]
    simp [without]
  · rcases List.mem_append.mp he with he | he
    · exact (mem_without.mp he).1
    · exact hin entry he

theorem delete_books {E : PyError → World τ → Prop} (h : Books env limits start w)
    (hnone : w.partialRun = none) (run : Run) :
    wp (delete env run) (fun _ v => Deleted env limits start [run.path] w v) E w := by
  have hfilter : w.workspace.runs.filter (fun entry => decide (entry.1 ≠ run.path)) =
      without [run.path] w.workspace.runs := by
    simp [without]
  simp only [delete, wp_bind, wp_get, wp_modify, hfilter]
  refine wp_mono (unlink_removes run.path _) ?_ (fun _ _ h => h)
  rintro removed _ (⟨rfl, rfl⟩ | ⟨rfl, rfl, hfault⟩)
  · simp only [if_true, wp_modify]
    refine ⟨h.removed hnone run.path, hnone, ?_, fun entry he => (mem_without.mp he).1,
      fun _ => rfl, rfl, fun q hq => Function.update_of_ne (by simpa using hq) _ _, rfl⟩
    dsimp only
    rw [without_without]
    simp [without]
  · obtain ⟨now, hfault⟩ := hfault
    simp only [Bool.false_eq_true, if_false]
    by_cases hsize : (w.workspace.runs.lookup run.path).getD 0 = 0
    · rw [if_neg (not_not.mpr hsize)]
      have hnothing : ∀ entry ∈ ([] : List (Path × Nat)), entry ∈ w.workspace.runs := by simp
      have hdeleted := h.retained_deleted hnone hnothing (by simp) List.nodup_nil hsize.symm hfault
      rwa [List.append_nil] at hdeleted
    · rw [if_pos hsize]
      have hin := lookup_mem rfl hsize
      exact h.retained_deleted hnone (by simpa using hin) (by simp) (List.nodup_singleton _) rfl
        hfault

theorem Deleted.trans {ps qs : List Path} (h : Deleted env limits start ps w v)
    (h' : Deleted env limits start qs v u) : Deleted env limits start (ps ++ qs) w u where
  books := h'.books
  closed := h'.closed
  others := by
    have hsame : without ps (without qs u.workspace.runs) =
        without ps (without qs v.workspace.runs) := congrArg _ h'.others
    have hswap : ∀ runs, without (ps ++ qs) runs = without ps (without qs runs) := fun runs => by
      rw [without_without]
      refine List.filter_congr fun entry _ => ?_
      simp only [List.mem_append, or_comm]
    rw [hswap, hsame, ← hswap, ← without_without, h.others, without_without]
  shrunk := List.Subset.trans h'.shrunk h.shrunk
  gone hunlink := by rw [h'.gone hunlink, h.gone hunlink, without_without]
  passes := h'.passes.trans h.passes
  files path hpath := by
    simp only [List.mem_append, not_or] at hpath
    exact (h'.files path hpath.2).trans (h.files path hpath.1)
  nextPath := h'.nextPath.trans h.nextPath

theorem deleteAll_books {E : PyError → World τ → Prop} (h : Books env limits start w)
    (hnone : w.partialRun = none) (runs : List Run) :
    wp (deleteAll env runs) (fun _ v => Deleted env limits start (runs.map Run.path) w v) E w := by
  induction runs generalizing w with
  | nil =>
    exact ⟨h, hnone, rfl, List.Subset.refl _, fun _ => by simp [without], rfl, fun _ _ => rfl, rfl⟩
  | cons run runs ih =>
    simp only [deleteAll, wp_bind]
    refine wp_mono (delete_books h hnone run) ?_ (fun _ _ h => h)
    intro _ v hv
    exact wp_mono (ih hv.books hv.closed) (fun _ u hu => hv.trans hu) (fun _ _ h => h)

end Delete

section Operations
variable {τ : Type} [DecidableEq τ] [PyText τ] {env : Environment} {limits : StreamingLimits}
  {start : Nat} {duplicates : DuplicatePolicy} {w : World τ}

omit [DecidableEq τ] in
theorem payload_perm {xs ys : List (Edge τ)} (h : xs.Perm ys) :
    (payload xs).length = (payload ys).length := (h.map record).flatten.length_eq

theorem writeSortedRun_books (edges : List (Edge τ)) (h : Books env limits start w)
    (hnone : w.partialRun = none) :
    wp (writeSortedRun env limits duplicates edges)
      (Registered env limits start (payload edges).length w)
      (fun _ v => Closed env limits start (payload edges).length v ∧ Apart w v) w := by
  simp only [writeSortedRun, wp_bind]
  refine wp_raiseIf (fun _ => ⟨⟨h, .inl hnone⟩, Apart.refl w⟩) (fun hall => ?_)
  have henc : ∀ edge ∈ sortOn Edge.canonicalKey edges, edge.encodable = true := by
    simp only [Bool.not_eq_false] at hall
    exact fun edge he => List.all_eq_true.mp hall edge (mem_sortOn.mp he)
  have hlist : Feeds env (payload (sortOn Edge.canonicalKey edges)).length
      (Producer.ofList (sortOn Edge.canonicalKey edges)) := feeds_ofList henc
  have hfeeds := Feeds.byPolicy hlist duplicates
  rw [payload_perm (sortOn_perm _ edges)] at hfeeds
  exact writeRun_books hfeeds h hnone

variable [StrictText τ]

/-- A merged run is registered before the runs of its group are deleted. -/
theorem writeMergedRun_books (runs : List Run) (h : Books env limits start w)
    (hnone : w.partialRun = none) :
    wp (writeMergedRun env limits duplicates runs)
      (fun run v => ∃ u, Registered env limits start (runs.map Run.payloadBytes).sum w run u ∧
        Deleted env limits start (runs.map Run.path) u v)
      (fun _ v => Closed env limits start (runs.map Run.payloadBytes).sum v ∧ Apart w v) w := by
  simp only [writeMergedRun, wp_bind, wp_pure]
  refine wp_raiseIf (fun _ => ⟨⟨h, .inl hnone⟩, Apart.refl w⟩) (fun _ => ?_)
  refine wp_mono (writeRun_books (Feeds.byPolicy (feeds_merge runs) duplicates) h hnone) ?_
    (fun _ _ h => h)
  intro run u hu
  exact wp_mono (deleteAll_books hu.books hu.closed runs) (fun _ v hv => ⟨u, hu, hv⟩)
    (fun _ _ h => h)

theorem mergeGroup_books (group : List Run) (h : Books env limits start w)
    (hnone : w.partialRun = none) :
    wp (mergeGroup env limits duplicates group)
      (fun run v => Books env limits start v ∧ v.partialRun = none ∧
        run.payloadBytes ≤ (group.map Run.payloadBytes).sum)
      (fun _ v => Closed env limits start (group.map Run.payloadBytes).sum v) w := by
  have hmerged : wp (writeMergedRun env limits duplicates group)
      (fun run v => Books env limits start v ∧ v.partialRun = none ∧
        run.payloadBytes ≤ (group.map Run.payloadBytes).sum)
      (fun _ v => Closed env limits start (group.map Run.payloadBytes).sum v) w := by
    refine wp_mono (writeMergedRun_books group h hnone) ?_ (fun _ _ h => h.1)
    rintro run v ⟨u, hu, hv⟩
    exact ⟨hv.books, hv.closed, hu.payload⟩
  match group, hmerged with
  | [], hmerged => exact hmerged
  | [run], _ => exact ⟨h, hnone, by simp⟩
  | _ :: _ :: _, hmerged => exact hmerged

theorem reducePass_books (groups : Nat) (current : List Run) (h : Books env limits start w)
    (hnone : w.partialRun = none) :
    wp (reducePass env limits duplicates groups current)
      (fun following v => Books env limits start v ∧ v.partialRun = none ∧
        (following.map Run.payloadBytes).sum ≤ (current.map Run.payloadBytes).sum)
      (fun _ v => Closed env limits start (current.map Run.payloadBytes).sum v) w := by
  induction groups generalizing current w with
  | zero => exact ⟨h, hnone, Nat.zero_le _⟩
  | succ groups ih =>
    cases current with
    | nil => exact ⟨h, hnone, Nat.le_refl _⟩
    | cons run runs =>
      simp only [reducePass, wp_bind, wp_pure]
      generalize run :: runs = current
      have hsplit : (current.map Run.payloadBytes).sum =
          ((current.take limits.mergeFanIn).map Run.payloadBytes).sum +
            ((current.drop limits.mergeFanIn).map Run.payloadBytes).sum := by
        rw [← List.sum_append, ← List.map_append, List.take_append_drop]
      refine wp_mono (mergeGroup_books (current.take limits.mergeFanIn) h hnone) ?_
        (fun _ _ h => h.mono (by omega))
      rintro created v ⟨hv, hclosed, hcreated⟩
      refine wp_mono (ih (current.drop limits.mergeFanIn) hv hclosed) ?_
        (fun _ _ h => h.mono (by omega))
      rintro following u ⟨hu, hclosed', hfollowing⟩
      refine ⟨hu, hclosed', ?_⟩
      rw [List.map_cons, List.sum_cons]
      omega

theorem reduceFrom_books (passes : Nat) (current : List Run) (h : Books env limits start w)
    (hnone : w.partialRun = none) :
    wp (reduceFrom env limits duplicates passes current)
      (fun _ v => Books env limits start v ∧ v.partialRun = none)
      (fun _ v => Closed env limits start (current.map Run.payloadBytes).sum v) w := by
  induction passes generalizing current w with
  | zero =>
    unfold reduceFrom
    split
    · exact ⟨h, hnone⟩
    · exact ⟨h, .inl hnone⟩
  | succ passes ih =>
    unfold reduceFrom
    split
    · exact ⟨h, hnone⟩
    · simp only [wp_bind, wp_modify]
      refine wp_mono (reducePass_books current.length current (h.passed _) hnone) ?_
        (fun _ _ h => h)
      rintro following v ⟨hv, hclosed, hfollowing⟩
      exact wp_mono (ih following hv hclosed) (fun _ _ h => h) (fun _ _ h => h.mono hfollowing)

end Operations

section Runs
variable {τ : Type} [DecidableEq τ] [PyText τ] (env : Environment) (limits : StreamingLimits)

/-- The operations that the callers of a workspace have. -/
inductive SpillOperation (τ : Type) where
  | writeSortedRun (duplicates : DuplicatePolicy) (edges : List (Edge τ))
  | writeMergedRun (duplicates : DuplicatePolicy) (runs : List Run)
  | reduce (duplicates : DuplicatePolicy) (runs : List Run)
  | delete (run : Run)

def SpillOperation.perform : SpillOperation τ → M τ Unit
  | .writeSortedRun duplicates edges => discard (Streaming.writeSortedRun env limits duplicates edges)
  | .writeMergedRun duplicates runs => discard (Streaming.writeMergedRun env limits duplicates runs)
  | .reduce duplicates runs => discard (Streaming.reduce env limits duplicates runs)
  | .delete run => Streaming.delete env run

/-- The world after an operation, whether it ends normally or raises. -/
def SpillOperation.after (op : SpillOperation τ) (w : World τ) : World τ :=
  match op.perform env limits w with
  | .ok _ v => v
  | .error _ v => v

/-- The bytes that the records of one run can take. -/
def SpillOperation.payloadBytes : SpillOperation τ → Nat
  | .writeSortedRun _ edges => (payload edges).length
  | .writeMergedRun _ runs => (runs.map Run.payloadBytes).sum
  | .reduce _ runs => (runs.map Run.payloadBytes).sum
  | .delete _ => 0

/-- The token does not fire while the operation is under way, and its records fit a run. -/
structure Calm (op : SpillOperation τ) (w : World τ) : Prop where
  uncancelled : ¬CancelledIn env w.clock (op.after env limits w)
  packable : ¬Unpackable limits op.payloadBytes

/-- The workspace as `__init__` leaves it: an empty directory. -/
structure Fresh (w : World τ) : Prop where
  workspace : ∃ estimate, w.workspace = { Workspace.empty with availableEstimate := estimate }
  partialRun : w.partialRun = none
  files : ∀ path, w.files path = none

/-- The worlds that sequences of undisturbed operations reach. -/
inductive Reached : World τ → Prop
  | opened {w : World τ} (h : Fresh w) : Reached w
  | performed {w : World τ} (h : Reached w) (op : SpillOperation τ) (hcalm : Calm env limits op w) :
      Reached (op.after env limits w)

/-- Exact accounts, whenever no write is in progress. -/
structure Exact (w : World τ) : Prop where
  live : w.workspace.liveBytes = (w.workspace.runs.map Prod.snd).sum
  sizes : ∀ entry ∈ w.workspace.runs, (w.files entry.1).map List.length = some entry.2
  temporary : ∀ allowed, limits.maxTemporaryBytes = some allowed →
    w.workspace.liveBytes ≤ allowed
  spill : ∀ allowed, limits.maxSpillBytes = some allowed → w.workspace.totalWritten ≤ allowed
  peak : w.workspace.peakLiveBytes = w.workspace.liveHistory.foldr max 0
  files : ∀ path, (w.files path).isSome → path ∈ registered w

variable {env limits} {w : World τ}

omit [DecidableEq τ] [PyText τ] in
theorem Books.exact {start : Nat} (h : Books env limits start w) (hnone : w.partialRun = none)
    (hunlink : ∀ now, env.unlinkFault now = none) : Exact limits w := by
  have hlive := h.live
  have hfiles := h.files hunlink
  simp only [charged, writing, hnone, Option.map_none, Option.getD_none, Option.bind_none] at hlive hfiles
  refine ⟨hlive, h.sizes, h.accounts.temporary, h.accounts.spill, h.accounts.peak, fun q hq => ?_⟩
  rcases hfiles q hq with hin | hw
  · exact hin
  · cases hw

omit [DecidableEq τ] [PyText τ] in
theorem Fresh.books (h : Fresh w) : Books env limits w.clock w ∧ w.partialRun = none := by
  obtain ⟨estimate, hworkspace⟩ := h.workspace
  have hruns : w.workspace.runs = [] := by rw [hworkspace]; rfl
  refine ⟨⟨Nat.le_refl _, ?_, ?_, ?_, ?_, ?_, fun _ path hpath => ?_, fun path hpath => ?_⟩,
    h.partialRun⟩
  · rw [hworkspace]
    exact Accounts.opened limits estimate
  · simp [charged, h.partialRun, hworkspace, Workspace.empty]
  · simp [hruns]
  · simp [registered, hruns]
  · simp [registered, hruns]
  · rw [h.files path] at hpath
    cases hpath
  · simp [writing, h.partialRun] at hpath

variable [StrictText τ]

theorem perform_books {start : Nat} (op : SpillOperation τ) (h : Books env limits start w)
    (hnone : w.partialRun = none) :
    wp (op.perform env limits) (fun _ v => Books env limits start v ∧ v.partialRun = none)
      (fun _ v => Closed env limits start op.payloadBytes v) w := by
  cases op with
  | writeSortedRun duplicates edges =>
    simp only [SpillOperation.perform, wp_discard]
    exact wp_mono (writeSortedRun_books edges h hnone) (fun _ v hv => ⟨hv.books, hv.closed⟩)
      (fun _ v hv => hv.1)
  | writeMergedRun duplicates runs =>
    simp only [SpillOperation.perform, wp_discard]
    refine wp_mono (writeMergedRun_books runs h hnone) ?_ (fun _ v hv => hv.1)
    rintro run v ⟨u, -, hv⟩
    exact ⟨hv.books, hv.closed⟩
  | reduce duplicates runs =>
    simp only [SpillOperation.perform, wp_discard]
    exact reduceFrom_books runs.length runs h hnone
  | delete run =>
    exact wp_mono (delete_books h hnone run) (fun _ v hv => ⟨hv.books, hv.closed⟩) (fun _ _ h => h)

/-- One undisturbed operation, however it ends, leaves the books in order. -/
theorem Calm.after_books {op : SpillOperation τ} (hcalm : Calm env limits op w)
    (h : Books env limits w.clock w) (hnone : w.partialRun = none) :
    Books env limits (op.after env limits w).clock (op.after env limits w) ∧
      (op.after env limits w).partialRun = none := by
  have hperform := perform_books op h hnone
  have huncancelled := hcalm.uncancelled
  have hrestart : ∀ {v : World τ}, Books env limits w.clock v → Books env limits v.clock v :=
    fun hv => { hv with later := Nat.le_refl _ }
  unfold wp at hperform
  unfold SpillOperation.after at huncancelled ⊢
  cases hx : op.perform env limits w with
  | ok a v =>
    rw [hx] at hperform
    exact ⟨hrestart hperform.1, hperform.2⟩
  | error e v =>
    rw [hx] at hperform huncancelled
    refine ⟨hrestart hperform.books, ?_⟩
    rcases hperform.closed with hclosed | hfired | hlarge
    · exact hclosed
    · exact absurd hfired huncancelled
    · exact absurd hlarge hcalm.packable

theorem Reached.books (h : Reached env limits w) :
    Books env limits w.clock w ∧ w.partialRun = none := by
  induction h with
  | opened hfresh => exact hfresh.books
  | performed _ op hcalm ih => exact hcalm.after_books ih.1 ih.2

omit [DecidableEq τ] [PyText τ] in
theorem sortOn_singleton {κ : Type} [LinearOrder κ] (key : τ → κ) (a : τ) :
    sortOn key [a] = [a] :=
  sortOn_of_sorted (List.pairwise_singleton _ _)

end Runs

section Sample

def storedEdge : Edge String := ⟨"a", "r", "x"⟩

def sampleWrite : SpillOperation String := .writeSortedRun .preserve [storedEdge]

/-- A token that is set from the start. -/
def cancelledEnvironment : Environment := { sampleEnvironment with cancelled := fun _ => true }

end Sample

end Projector.Streaming
