import Projector.Streaming.MergeProofs
import Mathlib.Tactic.Linarith

namespace Projector.Streaming
open Lib

section Policy
variable {τ : Type} [DecidableEq τ] [PyText τ]

/-- The order of a run: strict when duplicates are dropped on the way into it. -/
def Ordered (duplicates : DuplicatePolicy) (xs : List (Edge τ)) : Prop :=
  match duplicates with
  | .preserve => SortedOn Edge.canonicalKey xs
  | .unique => StrictOn Edge.canonicalKey xs

/-- Same edges, and under `preserve` also the same multiplicities. -/
def Covers (duplicates : DuplicatePolicy) (xs ys : List (Edge τ)) : Prop :=
  match duplicates with
  | .preserve => xs.Perm ys
  | .unique => ∀ edge, edge ∈ xs ↔ edge ∈ ys

/-- Nothing beyond `raw`. -/
def Within (duplicates : DuplicatePolicy) (xs raw : List (Edge τ)) : Prop :=
  match duplicates with
  | .preserve => xs.Subperm raw
  | .unique => xs ⊆ raw

/-- The effect of the duplicate policy on a sorted list. -/
def applied (duplicates : DuplicatePolicy) (xs : List (Edge τ)) : List (Edge τ) :=
  match duplicates with
  | .preserve => xs
  | .unique => coalesce xs

omit [DecidableEq τ] in
theorem Ordered.sorted {duplicates : DuplicatePolicy} {xs : List (Edge τ)}
    (h : Ordered duplicates xs) : SortedOn Edge.canonicalKey xs := by
  cases duplicates with
  | preserve => exact h
  | unique => exact StrictOn.sorted h

omit [DecidableEq τ] [PyText τ] in
theorem Covers.refl (duplicates : DuplicatePolicy) (xs : List (Edge τ)) :
    Covers duplicates xs xs := by
  cases duplicates with
  | preserve => exact List.Perm.refl xs
  | unique => exact fun _ => Iff.rfl

omit [DecidableEq τ] [PyText τ] in
theorem Covers.trans {duplicates : DuplicatePolicy} {xs ys zs : List (Edge τ)}
    (h : Covers duplicates xs ys) (h' : Covers duplicates ys zs) : Covers duplicates xs zs := by
  cases duplicates with
  | preserve => exact List.Perm.trans h h'
  | unique => exact fun edge => (h edge).trans (h' edge)

omit [DecidableEq τ] [PyText τ] in
theorem Covers.append {duplicates : DuplicatePolicy} {xs ys xs' ys' : List (Edge τ)}
    (h : Covers duplicates xs ys) (h' : Covers duplicates xs' ys') :
    Covers duplicates (xs ++ xs') (ys ++ ys') := by
  cases duplicates with
  | preserve => exact List.Perm.append h h'
  | unique =>
    intro edge
    simp only [List.mem_append]
    exact or_congr (h edge) (h' edge)

omit [DecidableEq τ] [PyText τ] in
theorem Covers.of_perm (duplicates : DuplicatePolicy) {xs ys : List (Edge τ)}
    (h : xs.Perm ys) : Covers duplicates xs ys := by
  cases duplicates with
  | preserve => exact h
  | unique => exact fun _ => h.mem_iff

omit [DecidableEq τ] [PyText τ] in
theorem Covers.within {duplicates : DuplicatePolicy} {xs ys raw : List (Edge τ)}
    (h : Covers duplicates xs ys) (hw : Within duplicates ys raw) : Within duplicates xs raw := by
  cases duplicates with
  | preserve => exact (List.Perm.subperm h).trans hw
  | unique => exact fun edge he => hw ((h edge).mp he)

omit [DecidableEq τ] [PyText τ] in
theorem Within.sublist {duplicates : DuplicatePolicy} {xs ys raw : List (Edge τ)}
    (h : Within duplicates ys raw) (hs : xs.Sublist ys) : Within duplicates xs raw := by
  cases duplicates with
  | preserve => exact hs.subperm.trans h
  | unique => exact fun edge he => h (hs.subset he)

omit [DecidableEq τ] [PyText τ] in
theorem Within.refl (duplicates : DuplicatePolicy) (raw : List (Edge τ)) :
    Within duplicates raw raw := by
  cases duplicates with
  | preserve => exact List.Subperm.refl raw
  | unique => exact fun _ h => h

omit [DecidableEq τ] [PyText τ] in
theorem Within.subset {duplicates : DuplicatePolicy} {xs raw : List (Edge τ)}
    (h : Within duplicates xs raw) : xs ⊆ raw := by
  cases duplicates with
  | preserve => exact List.Subperm.subset h
  | unique => exact h

omit [PyText τ] in
theorem applied_covers (duplicates : DuplicatePolicy) (xs : List (Edge τ)) :
    Covers duplicates (applied duplicates xs) xs := by
  cases duplicates with
  | preserve => exact List.Perm.refl xs
  | unique => exact fun _ => mem_coalesce

theorem applied_ordered (duplicates : DuplicatePolicy) {xs : List (Edge τ)}
    (henc : ∀ edge ∈ xs, edge.encodable = true) (h : SortedOn Edge.canonicalKey xs) :
    Ordered duplicates (applied duplicates xs) := by
  cases duplicates with
  | preserve => exact h
  | unique =>
    exact coalesce_strict (fun a ha b hb => Edge.canonicalKey_inj (henc a ha) (henc b hb)) h

omit [DecidableEq τ] in
/-- An ordered list within `raw` can be written as a part of `raw`. -/
theorem Ordered.subperm {duplicates : DuplicatePolicy} {xs raw : List (Edge τ)}
    (h : Ordered duplicates xs) (hw : Within duplicates xs raw) : xs.Subperm raw := by
  cases duplicates with
  | preserve => exact hw
  | unique => exact List.subperm_of_subset (StrictOn.nodup h) hw

omit [PyText τ] in
theorem byPolicy_yields {P : World τ → Prop} {F : PyError → Prop}
    {p : Producer PyError (World τ) (Edge τ)} {xs : List (Edge τ)}
    (h : Yields P Ticked F p xs) (duplicates : DuplicatePolicy) :
    Yields P Ticked F (byPolicy duplicates p) (applied duplicates xs) := by
  cases duplicates with
  | preserve => exact h
  | unique => exact h.coalesce

end Policy

section Frame
variable {τ : Type}

/-- From `w` to `v` only the files at `paths` and new files changed. -/
structure Touches (paths : List Path) (w v : World τ) : Prop where
  files : ∀ q, q < w.nextPath → q ∉ paths → v.files q = w.files q
  nextPath : w.nextPath ≤ v.nextPath
  yielded : v.yielded = w.yielded
  statistics : v.statistics = w.statistics

theorem Touches.refl (paths : List Path) (w : World τ) : Touches paths w w :=
  ⟨fun _ _ _ => rfl, Nat.le_refl _, rfl, rfl⟩

theorem Touches.trans {ps qs : List Path} {u v w : World τ} (h : Touches ps u v)
    (h' : Touches qs v w) : Touches (ps ++ qs) u w where
  files := by
    intro q hq hn
    simp only [List.mem_append, not_or] at hn
    rw [h'.files q (lt_of_lt_of_le hq h.nextPath) hn.2, h.files q hq hn.1]
  nextPath := le_trans h.nextPath h'.nextPath
  yielded := h'.yielded.trans h.yielded
  statistics := h'.statistics.trans h.statistics

theorem Touches.mono {ps qs : List Path} {v w : World τ} (h : Touches ps w v) (hs : ps ⊆ qs) :
    Touches qs w v :=
  ⟨fun q hq hn => h.files q hq (fun hm => hn (hs hm)), h.nextPath, h.yielded, h.statistics⟩

theorem Quiet.touches {w v : World τ} (h : Quiet w v) : Touches [] w v :=
  ⟨fun q _ _ => congrFun h.files q, le_of_eq h.nextPath.symm, h.yielded, h.statistics⟩

theorem Wrote.touches {w v : World τ} {run : Run} (h : Wrote w run v) : Touches [] w v :=
  ⟨fun q hq _ => h.others.files q (Nat.ne_of_lt hq), by rw [h.nextPath]; exact Nat.le_succ _,
    h.others.yielded, h.others.statistics⟩

theorem delete_spec {env : Environment} {E : PyError → World τ → Prop} (run : Run)
    (w : World τ) : wp (delete env run) (fun _ v => Touches [run.path] w v) E w := by
  have hfiles : ∀ q, q ∉ [run.path] → Function.update w.files run.path none q = w.files q := by
    intro q hq
    exact Function.update_of_ne (by simpa using hq) _ _
  simp only [delete, wp_bind, wp_get, wp_modify]
  refine wp_mono (unlink_spec run.path _) ?_ (fun _ _ h => h)
  rintro removed v (⟨_, rfl⟩ | ⟨_, rfl⟩)
  all_goals
    simp only [wp_ite, wp_modify, wp_pure]
    split
    · exact ⟨fun q _ hq => by simp [hfiles q hq], Nat.le_refl _, rfl, rfl⟩
    · split
      · exact ⟨fun q _ hq => by simp [hfiles q hq], Nat.le_refl _, rfl, rfl⟩
      · exact ⟨fun q _ hq => by simp [hfiles q hq], Nat.le_refl _, rfl, rfl⟩

theorem deleteAll_spec {env : Environment} {E : PyError → World τ → Prop} (runs : List Run)
    (w : World τ) :
    wp (deleteAll env runs) (fun _ v => Touches (runs.map Run.path) w v) E w := by
  induction runs generalizing w with
  | nil => exact Touches.refl _ w
  | cons run runs ih =>
    simp only [deleteAll, wp_bind]
    refine wp_mono (delete_spec run w) ?_ (fun _ _ h => h)
    intro _ v hv
    exact wp_mono (ih v) (fun _ u hu => hv.trans hu) (fun _ _ h => h)

end Frame

section Reduce
variable {τ : Type} [DecidableEq τ] [PyText τ] {env : Environment} {options : PolicyOptions}
  {raw : List (Edge τ)} {duplicates : DuplicatePolicy}

/-- The runs at hand: each stored in a file of its own, each ordered. -/
structure Holding (env : Environment) (duplicates : DuplicatePolicy) (w : World τ)
    (runs : List Run) (xss : List (List (Edge τ))) : Prop where
  stored : List.Forall₂ (Stored env w) runs xss
  paths : (runs.map Run.path).Nodup
  ordered : ∀ xs ∈ xss, Ordered duplicates xs

omit [DecidableEq τ] in
theorem Stored.touched {run : Run} {es : List (Edge τ)} {paths : List Path} {w v : World τ}
    (h : Stored env w run es) (ht : Touches paths w v) (hn : run.path ∉ paths) :
    Stored env v run es := h.congr (ht.files run.path h.created hn) ht.nextPath

omit [DecidableEq τ] in
theorem stored_touched {runs : List Run} {xss : List (List (Edge τ))} {paths : List Path}
    {w v : World τ} (h : List.Forall₂ (Stored env w) runs xss) (ht : Touches paths w v)
    (hn : ∀ run ∈ runs, run.path ∉ paths) : List.Forall₂ (Stored env v) runs xss := by
  induction h with
  | nil => exact .nil
  | cons hrun _ ih =>
    exact .cons (hrun.touched ht (hn _ (by simp)))
      (ih (fun run hm => hn run (List.mem_cons_of_mem _ hm)))

omit [DecidableEq τ] in
theorem stored_old {runs : List Run} {xss : List (List (Edge τ))} {w : World τ}
    (h : List.Forall₂ (Stored env w) runs xss) : ∀ run ∈ runs, run.path < w.nextPath := by
  induction h with
  | nil => simp
  | cons hrun _ ih =>
    intro run hm
    rcases List.mem_cons.mp hm with rfl | hm
    · exact hrun.created
    · exact ih run hm

variable (henc : ∀ edge ∈ raw, edge.encodable = true)
  (hz : ∀ es : List (Edge τ), es.Subperm raw → env.sha256 (payload es) ≠ List.replicate 32 0)

include henc hz

/-- The run that a merge writes stores what the policy leaves of the merged edges. -/
theorem writeMerge_stored {runs : List Run} {xss : List (List (Edge τ))} {w : World τ}
    (hstored : List.Forall₂ (Stored env w) runs xss)
    (hsub : (applied duplicates (kmerge Edge.canonicalKey xss)).Subperm raw) :
    wp (writeRun env options.limits (byPolicy duplicates (merge env options.limits runs)))
      (fun run v => Stored env v run (applied duplicates (kmerge Edge.canonicalKey xss)) ∧
        Wrote w run v)
      (fun e _ => Fires env options raw e) w := by
  have hmerge : Yields (fun w => List.Forall₂ (Stored env w) runs xss) Ticked
      (Fires env options raw) (merge env options.limits runs) (kmerge Edge.canonicalKey xss) :=
    merge_yields runs xss
  exact writeRun_spec (byPolicy_yields hmerge duplicates)
    (fun w v hn hf hs => hs.imp (fun _ _ h => h.congr (hf _ h.created) hn)) henc hsub
    (hz _ hsub) w hstored

/-- A merged run holds the ordered union of its group. -/
theorem writeMergedRun_spec {runs : List Run} {xss : List (List (Edge τ))} {w : World τ}
    (hh : Holding env duplicates w runs xss) (hin : Within duplicates xss.flatten raw)
    (hlen : runs.length ≤ options.limits.mergeFanIn) :
    wp (writeMergedRun env options.limits duplicates runs)
      (fun run v => ∃ es, Stored env v run es ∧ Ordered duplicates es ∧
        Covers duplicates es xss.flatten ∧ w.nextPath ≤ run.path ∧
        Touches (runs.map Run.path) w v)
      (fun e _ => Fires env options raw e) w := by
  have hsorted : ∀ xs ∈ xss, SortedOn Edge.canonicalKey xs := fun xs hx => (hh.ordered xs hx).sorted
  have hperm := kmerge_perm Edge.canonicalKey xss
  have henc' : ∀ edge ∈ kmerge Edge.canonicalKey xss, edge.encodable = true :=
    fun edge he => henc edge (hin.subset (hperm.mem_iff.mp he))
  have hord : Ordered duplicates (applied duplicates (kmerge Edge.canonicalKey xss)) :=
    applied_ordered duplicates henc' (kmerge_sorted hsorted)
  have hcov : Covers duplicates (applied duplicates (kmerge Edge.canonicalKey xss)) xss.flatten :=
    (applied_covers duplicates _).trans (Covers.of_perm duplicates hperm)
  have hsub := hord.subperm (hcov.within hin)
  simp only [writeMergedRun, wp_bind, wp_pure]
  refine wp_raiseIf (fun hlt => absurd hlen (by omega)) (fun _ => ?_)
  refine wp_mono (writeMerge_stored henc hz hh.stored hsub) ?_ (fun _ _ h => h)
  rintro run v ⟨hstored, hwrote⟩
  refine wp_mono (deleteAll_spec runs v) ?_ (fun _ _ h => h)
  intro _ u hu
  have hfresh : run.path ∉ runs.map Run.path := by
    intro hm
    obtain ⟨other, ho, he⟩ := List.mem_map.mp hm
    have := stored_old hh.stored other ho
    rw [he, hwrote.path] at this
    exact lt_irrefl _ this
  exact ⟨_, hstored.touched hu hfresh, hord, hcov, le_of_eq hwrote.path.symm,
    hwrote.touches.trans hu⟩

theorem mergeGroup_spec {runs : List Run} {xss : List (List (Edge τ))} {w : World τ}
    (hh : Holding env duplicates w runs xss) (hin : Within duplicates xss.flatten raw)
    (hlen : runs.length ≤ options.limits.mergeFanIn) :
    wp (mergeGroup env options.limits duplicates runs)
      (fun run v => ∃ es, Stored env v run es ∧ Ordered duplicates es ∧
        Covers duplicates es xss.flatten ∧
        (run.path ∈ runs.map Run.path ∧ v = w ∨ w.nextPath ≤ run.path) ∧
        Touches (runs.map Run.path) w v)
      (fun e _ => Fires env options raw e) w := by
  have hmerged : wp (writeMergedRun env options.limits duplicates runs)
      (fun run v => ∃ es, Stored env v run es ∧ Ordered duplicates es ∧
        Covers duplicates es xss.flatten ∧
        (run.path ∈ runs.map Run.path ∧ v = w ∨ w.nextPath ≤ run.path) ∧
        Touches (runs.map Run.path) w v)
      (fun e _ => Fires env options raw e) w := by
    refine wp_mono (writeMergedRun_spec henc hz hh hin hlen) ?_ (fun _ _ h => h)
    rintro run v ⟨es, h1, h2, h3, h4, h5⟩
    exact ⟨es, h1, h2, h3, Or.inr h4, h5⟩
  match runs, hh, hmerged with
  | [], _, hmerged => exact hmerged
  | _ :: _ :: _, _, hmerged => exact hmerged
  | [run], hh, _ =>
    cases hh.stored with
    | @cons _ es _ _ hrun hnil =>
      cases hnil
      exact ⟨es, hrun, hh.ordered es (by simp), by simpa using Covers.refl duplicates es,
        Or.inl ⟨by simp, rfl⟩, Touches.refl _ w⟩

/-- One pass keeps the edges, the order of each run and the separation of the files,
and leaves one run for each group. -/
theorem reducePass_spec {groups : Nat} {current : List Run} {xss : List (List (Edge τ))}
    {w : World τ} (hh : Holding env duplicates w current xss)
    (hin : Within duplicates xss.flatten raw) (hg : current.length ≤ groups) :
    wp (reducePass env options.limits duplicates groups current)
      (fun following v => ∃ yss, Holding env duplicates v following yss ∧
        Covers duplicates yss.flatten xss.flatten ∧
        (∀ run ∈ following, run.path ∈ current.map Run.path ∨ w.nextPath ≤ run.path) ∧
        (current ≠ [] → following.length * options.limits.mergeFanIn <
          current.length + options.limits.mergeFanIn) ∧
        (current = [] → following = []) ∧ Touches (current.map Run.path) w v)
      (fun e _ => Fires env options raw e) w := by
  have hfan := options.limits.fanIn_ge
  generalize hf : options.limits.mergeFanIn = f at hfan ⊢
  induction groups generalizing current xss w with
  | zero =>
    have hnil : current = [] := List.length_eq_zero_iff.mp (by omega)
    subst hnil
    cases hh.stored
    exact ⟨[], hh, Covers.refl _ _, by simp, by simp, by simp, Touches.refl _ w⟩
  | succ groups ih =>
    match current, hh, hg with
    | [], hh, _ =>
      cases hh.stored
      exact ⟨[], hh, Covers.refl _ _, by simp, by simp, by simp, Touches.refl _ w⟩
    | run :: runs, hh, hg =>
      have hsplit : xss.flatten = (xss.take f).flatten ++ (xss.drop f).flatten := by
        rw [← List.flatten_append, List.take_append_drop]
      have hpaths := hh.paths
      rw [← List.take_append_drop f (run :: runs), List.map_append, List.nodup_append] at hpaths
      obtain ⟨htake, hdrop, hdisjoint⟩ := hpaths
      have hgroup : Holding env duplicates w ((run :: runs).take f) (xss.take f) :=
        ⟨List.forall₂_take f hh.stored, htake, fun xs hx => hh.ordered xs (List.mem_of_mem_take hx)⟩
      have hrest : Holding env duplicates w ((run :: runs).drop f) (xss.drop f) :=
        ⟨List.forall₂_drop f hh.stored, hdrop, fun xs hx => hh.ordered xs (List.mem_of_mem_drop hx)⟩
      simp only [reducePass, wp_bind, wp_pure, hf]
      have hgroup_in : Within duplicates (xss.take f).flatten raw :=
        hin.sublist (by rw [hsplit]; exact List.sublist_append_left _ _)
      have hrest_in : Within duplicates (xss.drop f).flatten raw :=
        hin.sublist (by rw [hsplit]; exact List.sublist_append_right _ _)
      have hfits : ((run :: runs).take f).length ≤ options.limits.mergeFanIn := by
        rw [hf]
        exact List.length_take_le _ _
      refine wp_mono (mergeGroup_spec henc hz hgroup hgroup_in hfits) ?_ (fun _ _ h => h)
      rintro created v ⟨es, hst, hord, hcov, hpath, htouch⟩
      have hrest_v : Holding env duplicates v ((run :: runs).drop f) (xss.drop f) := by
        refine ⟨stored_touched hrest.stored htouch ?_, hdrop, hrest.ordered⟩
        intro other ho hm
        exact hdisjoint _ hm _ (List.mem_map_of_mem ho) rfl
      have hlen : ((run :: runs).drop f).length ≤ groups := by
        simp only [List.length_drop, List.length_cons] at hg ⊢
        omega
      refine wp_mono (ih hrest_v hrest_in hlen) ?_ (fun _ _ h => h)
      rintro following u ⟨yss, hhu, hcovu, hold, hsize, hempty, htouchu⟩
      have hkeep : created.path ∉ ((run :: runs).drop f).map Run.path := by
        intro hm
        rcases hpath with ⟨hin', -⟩ | hnew
        · exact hdisjoint _ hin' _ hm rfl
        · obtain ⟨other, ho, he⟩ := List.mem_map.mp hm
          exact absurd (he ▸ stored_old hrest.stored other ho) (not_lt.mpr hnew)
      have hdistinct : ∀ other ∈ following, created.path ≠ other.path := by
        intro other ho he
        rcases hold other ho with hm | hnew
        · exact hkeep (he ▸ hm)
        · exact absurd (he ▸ hst.created) (not_lt.mpr hnew)
      refine ⟨es :: yss, ⟨.cons (hst.touched htouchu hkeep) hhu.stored, ?_, ?_⟩, ?_, ?_, ?_,
        by simp, ?_⟩
      · simp only [List.map_cons, List.nodup_cons]
        refine ⟨?_, hhu.paths⟩
        intro hm
        obtain ⟨other, ho, he⟩ := List.mem_map.mp hm
        exact hdistinct other ho he.symm
      · intro xs hx
        rcases List.mem_cons.mp hx with rfl | hx
        · exact hord
        · exact hhu.ordered xs hx
      · rw [List.flatten_cons, hsplit]
        exact hcov.append hcovu
      · intro other ho
        have hsub : ∀ q, q ∈ ((run :: runs).take f).map Run.path →
            q ∈ (run :: runs).map Run.path := fun q hq =>
          (List.take_sublist f _).map Run.path |>.subset hq
        have hsub' : ∀ q, q ∈ ((run :: runs).drop f).map Run.path →
            q ∈ (run :: runs).map Run.path := fun q hq =>
          (List.drop_sublist f _).map Run.path |>.subset hq
        rcases List.mem_cons.mp ho with rfl | ho
        · rcases hpath with ⟨hm, -⟩ | hnew
          · exact Or.inl (hsub _ hm)
          · exact Or.inr hnew
        · rcases hold other ho with hm | hnew
          · exact Or.inl (hsub' _ hm)
          · exact Or.inr (le_trans htouch.nextPath hnew)
      · intro _
        by_cases hlast : (run :: runs).drop f = []
        · rw [hempty hlast]
          simp only [List.length_cons, List.length_nil]
          omega
        · have := hsize hlast
          have hlt : f < (run :: runs).length := by
            by_contra hge
            exact hlast (List.drop_eq_nil_iff.mpr (by omega))
          simp only [List.length_drop, List.length_cons] at this hlt ⊢
          rw [Nat.add_mul]
          omega
      · refine (htouch.trans htouchu).mono ?_
        rw [← List.map_append, List.take_append_drop]
        exact fun _ h => h

/-- Reduction ends with at most fan-in runs over the same edges. -/
theorem reduceFrom_spec {passes : Nat} {current : List Run} {xss : List (List (Edge τ))}
    {w : World τ} (hh : Holding env duplicates w current xss)
    (hin : Within duplicates xss.flatten raw) (hp : current.length ≤ passes) :
    wp (reduceFrom env options.limits duplicates passes current)
      (fun final v => ∃ yss, Holding env duplicates v final yss ∧
        Covers duplicates yss.flatten xss.flatten ∧
        v.yielded = w.yielded ∧ v.statistics = w.statistics)
      (fun e _ => Fires env options raw e) w := by
  induction passes generalizing current xss w with
  | zero =>
    unfold reduceFrom
    rw [if_pos (by omega)]
    exact ⟨xss, hh, Covers.refl _ _, rfl, rfl⟩
  | succ passes ih =>
    unfold reduceFrom
    by_cases hle : current.length ≤ options.limits.mergeFanIn
    · rw [if_pos hle]
      exact ⟨xss, hh, Covers.refl _ _, rfl, rfl⟩
    · rw [if_neg hle]
      simp only [wp_bind, wp_modify]
      have hh' : Holding env duplicates { w with workspace := { w.workspace with
          mergePasses := w.workspace.mergePasses + 1 } } current xss :=
        ⟨hh.stored.imp (fun _ _ h => h.congr rfl (Nat.le_refl _)), hh.paths, hh.ordered⟩
      refine wp_mono (reducePass_spec henc hz hh' hin (Nat.le_refl _)) ?_
        (fun _ _ h => h)
      rintro following v ⟨yss, hhv, hcov, -, hsize, -, htouch⟩
      have hshrink : following.length < current.length := by
        have hne : current ≠ [] := by
          rintro rfl
          exact hle (Nat.zero_le _)
        have hs := hsize hne
        have hfan := options.limits.fanIn_ge
        by_contra hge
        have hmul := Nat.mul_le_mul (not_lt.mp hge) (Nat.le_refl options.limits.mergeFanIn)
        have htwo := Nat.mul_le_mul (Nat.le_refl current.length) hfan
        nlinarith
      refine wp_mono (ih hhv (hcov.within hin) (by omega)) ?_ (fun _ _ h => h)
      rintro final u ⟨zss, hhu, hcovu, hy, hst⟩
      exact ⟨zss, hhu, hcovu.trans hcov, hy.trans htouch.yielded, hst.trans htouch.statistics⟩

end Reduce

end Projector.Streaming
