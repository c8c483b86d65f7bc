import Mathlib.Algebra.Order.Floor.Div
import Projector.Streaming.SpillOperations

namespace Projector.Streaming
open Lib

section Passes
variable {fanIn n p : Nat}

/-- `p` is the least number of passes that leaves no more than `fanIn` of `n` runs. -/
structure LeastPasses (fanIn n p : Nat) : Prop where
  enough : n ⌈/⌉ fanIn ^ p ≤ fanIn
  least : ∀ q < p, fanIn < n ⌈/⌉ fanIn ^ q

theorem ceilDiv_ceilDiv {a b : Nat} (ha : 0 < a) (hb : 0 < b) (n : Nat) :
    n ⌈/⌉ a ⌈/⌉ b = n ⌈/⌉ (a * b) := by
  have hab : 0 < a * b := Nat.mul_pos ha hb
  refine eq_of_forall_ge_iff fun c => ?_
  rw [ceilDiv_le_iff_le_mul hb, ceilDiv_le_iff_le_mul ha, ceilDiv_le_iff_le_mul hab, Nat.mul_assoc]

/-- A pass over more than `fanIn` runs leaves fewer of them. -/
theorem ceilDiv_lt (hfan : 2 ≤ fanIn) (hn : fanIn < n) : n ⌈/⌉ fanIn < n := by
  have hle : n ⌈/⌉ fanIn ≤ n - 1 := by
    rw [ceilDiv_le_iff_le_mul (by omega)]
    have hmul := Nat.mul_le_mul_right (n - 1) hfan
    omega
  omega

/-- The first group of a pass, and those of the rest. -/
theorem ceilDiv_take_drop (hfan : 2 ≤ fanIn) (hn : 0 < n) :
    n ⌈/⌉ fanIn = (n - fanIn) ⌈/⌉ fanIn + 1 := by
  refine eq_of_forall_ge_iff fun c => ?_
  rw [ceilDiv_le_iff_le_mul (by omega)]
  cases c with
  | zero =>
    rw [Nat.mul_zero]
    omega
  | succ c =>
    rw [Nat.add_le_add_iff_right, ceilDiv_le_iff_le_mul (by omega), Nat.mul_succ]
    omega

theorem LeastPasses.zero (hn : n ≤ fanIn) : LeastPasses fanIn n 0 :=
  ⟨by simpa using hn, fun q hq => absurd hq (Nat.not_lt_zero q)⟩

theorem LeastPasses.succ (hfan : 2 ≤ fanIn) (hn : fanIn < n)
    (h : LeastPasses fanIn (n ⌈/⌉ fanIn) p) : LeastPasses fanIn n (p + 1) := by
  have hpos : 0 < fanIn := by omega
  have hstep : ∀ q, n ⌈/⌉ fanIn ⌈/⌉ fanIn ^ q = n ⌈/⌉ fanIn ^ (q + 1) := fun q => by
    rw [ceilDiv_ceilDiv hpos (Nat.pow_pos hpos), Nat.pow_succ']
  refine ⟨hstep p ▸ h.enough, fun q hq => ?_⟩
  cases q with
  | zero => simpa using hn
  | succ q => exact hstep q ▸ h.least q (by omega)

end Passes

/-- Merges that have been completed, each of at most `fanIn` runs: the new run takes the place of
its group. -/
inductive Merges (fanIn : Nat) (runs : List Run) : List Run → Prop
  | none : Merges fanIn runs runs
  | merged {before group after : List Run} (h : Merges fanIn runs (before ++ group ++ after))
      (hmany : 2 ≤ group.length) (hfits : group.length ≤ fanIn) (created : Run) :
      Merges fanIn runs (before ++ created :: after)

theorem Merges.trans {fanIn : Nat} {runs live final : List Run} (h : Merges fanIn runs live)
    (h' : Merges fanIn live final) : Merges fanIn runs final := by
  induction h' with
  | none => exact h
  | merged _ hmany hfits created ih => exact ih.merged hmany hfits created

section Intact
variable {τ : Type} [PyText τ] {env : Environment} {limits : StreamingLimits}
  {start : Nat} {others : List Path} {w v : World τ}

/-- The runs at hand are registered and hold their edges; but for `others`, and for runs whose
`unlink` failed, no other run is registered. -/
structure Intact (env : Environment) (limits : StreamingLimits) (start : Nat) (others : List Path)
    (w : World τ) (runs : List Run) (xss : List (List (Edge τ))) : Prop where
  books : Books env limits start w
  stored : List.Forall₂ (Stored env w) runs xss
  paths : (runs.map Run.path).Nodup
  entries : ∀ run ∈ runs, run.path ∈ registered w
  only : (∀ now, env.unlinkFault now = none) → ∀ path ∈ registered w,
    path ∈ runs.map Run.path ∨ path ∈ others

theorem stored_congr {runs : List Run} {xss : List (List (Edge τ))}
    (h : List.Forall₂ (Stored env w) runs xss) (hnext : w.nextPath ≤ v.nextPath)
    (hfiles : ∀ run ∈ runs, v.files run.path = w.files run.path) :
    List.Forall₂ (Stored env v) runs xss := by
  induction h with
  | nil => exact .nil
  | cons hrun _ ih =>
    exact .cons (hrun.congr (hfiles _ List.mem_cons_self) hnext)
      (ih fun run hm => hfiles run (List.mem_cons_of_mem _ hm))

theorem Intact.apart {runs : List Run} {xss : List (List (Edge τ))}
    (h : Intact env limits start others w runs xss) (hbooks : Books env limits start v)
    (ha : Apart w v) : Intact env limits start others v runs xss := by
  have hsame : registered v = registered w := congrArg (List.map Prod.fst) ha.runs
  exact ⟨hbooks, stored_congr h.stored ha.nextPath fun run hm => ha.files _ (h.entries run hm),
    h.paths, fun run hm => hsame ▸ h.entries run hm, fun hunlink => hsame ▸ h.only hunlink⟩

omit [PyText τ] in
theorem forall₂_split {α β : Type} {R : α → β → Prop} {as cs : List α} {bs ds : List β}
    (h : List.Forall₂ R (as ++ cs) (bs ++ ds)) (hlen : as.length = bs.length) :
    List.Forall₂ R as bs ∧ List.Forall₂ R cs ds := by
  induction as generalizing bs with
  | nil =>
    cases bs with
    | nil => exact ⟨.nil, h⟩
    | cons => cases hlen
  | cons a as ih =>
    cases bs with
    | nil => cases hlen
    | cons b bs =>
      cases h with
      | cons hab hrest =>
        obtain ⟨hfront, hback⟩ := ih hrest (Nat.succ.inj hlen)
        exact ⟨.cons hab hfront, hback⟩

omit [PyText τ] in
/-- Deleting other runs leaves a run registered. -/
theorem Deleted.keeps {paths : List Path} {u : World τ} (h : Deleted env limits start paths u v)
    {path : Path} (hin : path ∈ registered u) (hout : path ∉ paths) : path ∈ registered v := by
  obtain ⟨entry, he, rfl⟩ := List.mem_map.mp hin
  have hkept : entry ∈ without paths v.workspace.runs := by
    rw [h.others]
    exact mem_without.mpr ⟨he, hout⟩
  exact List.mem_map_of_mem (mem_without.mp hkept).1

/-- The run of a completed merge takes the place of its group. -/
theorem Intact.merged {before group after : List Run} {as gs bs : List (List (Edge τ))}
    {es : List (Edge τ)} {limit : Nat} {created : Run} {u : World τ}
    (h : Intact env limits start others w (before ++ (group ++ after)) (as ++ (gs ++ bs)))
    (hbefore : before.length = as.length) (hgroup : group.length = gs.length)
    (hu : Registered env limits start limit w created u) (hstored : Stored env u created es)
    (hv : Deleted env limits start (group.map Run.path) u v) :
    Intact env limits start others v (before ++ created :: after) (as ++ es :: bs) := by
  obtain ⟨hfront, hrest⟩ := forall₂_split h.stored hbefore
  obtain ⟨-, hback⟩ := forall₂_split hrest hgroup
  have hpaths := h.paths
  simp only [List.map_append, List.nodup_append, List.mem_append] at hpaths
  obtain ⟨hbefore', ⟨hgroup', hafter', hdisjoint⟩, hdisjoint'⟩ := hpaths
  have hnew : ∀ run ∈ before ++ (group ++ after), run.path ≠ created.path := by
    intro run hm heq
    have hnamed := h.books.named _ (h.entries run hm)
    rw [heq, hu.path] at hnamed
    exact lt_irrefl _ hnamed
  have hregistered : registered u = registered w ++ [created.path] := by
    simp [registered, hu.runs]
  -- The runs that stay are those that are not in the group.
  have hstay : ∀ run ∈ before ++ after, run ∈ before ++ (group ++ after) ∧
      run.path ∉ group.map Run.path := by
    intro run hm
    simp only [List.mem_append] at hm ⊢
    rcases hm with hm | hm
    · exact ⟨.inl hm, fun hg => hdisjoint' _ (List.mem_map_of_mem hm) _ (.inl hg) rfl⟩
    · exact ⟨.inr (.inr hm), fun hg => hdisjoint _ hg _ (List.mem_map_of_mem hm) rfl⟩
  have hfiles : ∀ run ∈ before ++ after, v.files run.path = w.files run.path := by
    intro run hm
    obtain ⟨hold, hout⟩ := hstay run hm
    exact (hv.files _ hout).trans (hu.files _ (h.entries run hold))
  have hnext : w.nextPath ≤ v.nextPath := by
    rw [hv.nextPath, hu.nextPath]
    exact Nat.le_succ _
  have hout : created.path ∉ group.map Run.path := by
    intro hm
    obtain ⟨run, hrun, heq⟩ := List.mem_map.mp hm
    exact hnew run (by simp [hrun]) heq
  refine ⟨hv.books, ?_, ?_, fun run hm => ?_, fun hunlink path hpath => ?_⟩
  · refine List.rel_append (stored_congr hfront hnext fun run hm => hfiles run (by simp [hm])) ?_
    refine .cons (hstored.congr (hv.files _ hout) (le_of_eq hv.nextPath.symm)) ?_
    exact stored_congr hback hnext fun run hm => hfiles run (by simp [hm])
  · simp only [List.map_append, List.map_cons, List.nodup_append, List.nodup_cons]
    refine ⟨hbefore', ⟨fun hm => ?_, hafter'⟩, fun path hpath path' hpath' heq => ?_⟩
    · obtain ⟨run, hrun, heq⟩ := List.mem_map.mp hm
      exact hnew run (by simp [hrun]) heq
    · obtain ⟨run, hrun, rfl⟩ := List.mem_map.mp hpath
      rcases List.mem_cons.mp hpath' with hc | hm
      · exact hnew run (by simp [hrun]) (heq.trans hc)
      · exact hdisjoint' _ (List.mem_map_of_mem hrun) _ (.inr hm) heq
  · have hregistered' : run.path ∈ registered u ∧ run.path ∉ group.map Run.path := by
      rw [hregistered]
      by_cases hc : run = created
      · subst hc
        exact ⟨by simp, hout⟩
      · have hm : run ∈ before ++ after := by
          simp only [List.mem_append, List.mem_cons] at hm ⊢
          tauto
        obtain ⟨hold, hout⟩ := hstay run hm
        exact ⟨List.mem_append_left _ (h.entries run hold), hout⟩
    exact hv.keeps hregistered'.1 hregistered'.2
  · obtain ⟨entry, he, rfl⟩ := List.mem_map.mp hpath
    rw [hv.gone hunlink, hu.runs] at he
    obtain ⟨he, hout⟩ := mem_without.mp he
    rcases List.mem_append.mp he with he | he
    · rcases h.only hunlink _ (List.mem_map_of_mem he) with hm | hm
      · simp only [List.map_append, List.map_cons, List.mem_append, List.mem_cons] at hm ⊢
        tauto
      · exact .inr hm
    · rw [List.mem_singleton.mp he]
      simp

end Intact

section Reduce
variable {τ : Type} [DecidableEq τ] [PyText τ] [StrictText τ] {env : Environment}
  {options : PolicyOptions} {start : Nat} {others : List Path} {duplicates : DuplicatePolicy}
  {raw : List (Edge τ)} {w : World τ}

/-- What holds when a reduction of `runs` fails: some merges have been completed, and the runs that
are left of them are registered and hold all the edges. -/
def Salvaged (env : Environment) (limits : StreamingLimits) (start : Nat) (others : List Path)
    (duplicates : DuplicatePolicy) (runs : List Run) (edges : List (Edge τ)) (v : World τ) : Prop :=
  ∃ live zss, Merges limits.mergeFanIn runs live ∧ Intact env limits start others v live zss ∧
    Covers duplicates zss.flatten edges

omit [DecidableEq τ] [StrictText τ] in
theorem Salvaged.after {limits : StreamingLimits} {runs live : List Run}
    {xs edges : List (Edge τ)} {v : World τ} (hm : Merges limits.mergeFanIn runs live)
    (hc : Covers duplicates xs edges)
    (h : Salvaged env limits start others duplicates live xs v) :
    Salvaged env limits start others duplicates runs edges v := by
  obtain ⟨final, zss, hmerges, hintact, hcovers⟩ := h
  exact ⟨final, zss, hm.trans hmerges, hintact, hcovers.trans hc⟩

omit [StrictText τ] [PyText τ] in
theorem applied_sublist (duplicates : DuplicatePolicy) (xs : List (Edge τ)) :
    (applied duplicates xs).Sublist xs := by
  cases duplicates with
  | preserve => exact List.Sublist.refl xs
  | unique => exact coalesceFrom_sublist none xs

variable (henc : ∀ edge ∈ raw, edge.encodable = true)
  (hz : ∀ es : List (Edge τ), es.Subperm raw → env.sha256 (payload es) ≠ List.replicate 32 0)

include henc hz

/-- A merge of a group either puts its run in the place of the group, or leaves all runs alone. -/
theorem writeMergedRun_intact {before group after : List Run} {as gs bs : List (List (Edge τ))}
    (h : Intact env options.limits start others w (before ++ (group ++ after))
      (as ++ (gs ++ bs)))
    (hnone : w.partialRun = none) (hbefore : before.length = as.length)
    (hgroup : group.length = gs.length) (hsub : gs.flatten.Subperm raw)
    (hfits : group.length ≤ options.limits.mergeFanIn) :
    wp (writeMergedRun env options.limits duplicates group)
      (fun created v => ∃ es, Intact env options.limits start others v (before ++ created :: after)
          (as ++ es :: bs) ∧ v.partialRun = none ∧ Covers duplicates es gs.flatten ∧
        es.Subperm gs.flatten ∧ v.workspace.mergePasses = w.workspace.mergePasses)
      (fun e v => Fires env options raw e ∧ Intact env options.limits start others v
        (before ++ (group ++ after)) (as ++ (gs ++ bs))) w := by
  have hperm := kmerge_perm Edge.canonicalKey gs
  have hless := (applied_sublist duplicates (kmerge Edge.canonicalKey gs)).subperm.trans
    hperm.subperm
  have hcovers := (applied_covers duplicates (kmerge Edge.canonicalKey gs)).trans
    (Covers.of_perm duplicates hperm)
  obtain ⟨-, hrest⟩ := forall₂_split h.stored hbefore
  obtain ⟨hstored, -⟩ := forall₂_split hrest hgroup
  simp only [writeMergedRun, wp_bind, wp_pure]
  refine wp_raiseIf (fun hlt => absurd hfits (by omega)) (fun _ => ?_)
  have hfeeds : Feeds env (group.map Run.payloadBytes).sum
      (byPolicy duplicates (merge env options.limits group : Producer PyError (World τ) (Edge τ))) :=
    Feeds.byPolicy (feeds_merge group) duplicates
  refine wp_mono (wp_and (writeMerge_stored henc hz hstored (hless.trans hsub))
    (writeRun_books hfeeds h.books hnone)) ?_ ?_
  · rintro created u ⟨⟨hcreated, -⟩, hu⟩
    refine wp_mono (deleteAll_books hu.books hu.closed group) ?_ (fun _ _ h => h)
    intro _ v hv
    exact ⟨_, h.merged hbefore hgroup hu hcreated hv, hv.closed, hcovers, hless,
      hv.passes.trans hu.passes⟩
  · rintro e v ⟨hfires, hclosed, hapart⟩
    exact ⟨hfires, h.apart hclosed.books hapart⟩

/-- A group of one run is carried over; a larger one is merged. -/
theorem mergeGroup_intact {before group after : List Run} {as gs bs : List (List (Edge τ))}
    (h : Intact env options.limits start others w (before ++ (group ++ after))
      (as ++ (gs ++ bs)))
    (hnone : w.partialRun = none) (hbefore : before.length = as.length)
    (hgroup : group.length = gs.length) (hsub : gs.flatten.Subperm raw) (hsome : group ≠ [])
    (hfits : group.length ≤ options.limits.mergeFanIn) :
    wp (mergeGroup env options.limits duplicates group)
      (fun created v => ∃ es, Intact env options.limits start others v (before ++ created :: after)
          (as ++ es :: bs) ∧ v.partialRun = none ∧ Covers duplicates es gs.flatten ∧
        es.Subperm gs.flatten ∧ v.workspace.mergePasses = w.workspace.mergePasses ∧
        Merges options.limits.mergeFanIn (before ++ (group ++ after)) (before ++ created :: after))
      (fun e v => Fires env options raw e ∧ Intact env options.limits start others v
        (before ++ (group ++ after)) (as ++ (gs ++ bs))) w := by
  match group, hgroup, hsome, hfits, h with
  | [run], hgroup, _, _, h =>
    obtain ⟨es, rfl⟩ := List.length_eq_one_iff.mp hgroup.symm
    refine ⟨es, h, hnone, ?_, ?_, rfl, .none⟩
    · simpa using Covers.refl duplicates es
    · simpa using List.Subperm.refl es
  | first :: second :: rest, hgroup, _, hfits, h =>
    refine wp_mono (writeMergedRun_intact henc hz h hnone hbefore hgroup hsub hfits) ?_
      (fun _ _ h => h)
    rintro created v ⟨es, hintact, hclosed, hcovers, hless, hpasses⟩
    have hmerges : Merges options.limits.mergeFanIn
        (before ++ (first :: second :: rest ++ after))
        (before ++ (first :: second :: rest) ++ after) := by
      rw [List.append_assoc before]
      exact .none
    exact ⟨es, hintact, hclosed, hcovers, hless, hpasses, hmerges.merged (by simp) hfits created⟩

/-- One pass leaves one run for each group. If a merge fails, the groups before it are merged and
the runs of the others are untouched. -/
theorem reducePass_intact {groups : Nat} {before current : List Run}
    {as xss : List (List (Edge τ))}
    (h : Intact env options.limits start others w (before ++ current) (as ++ xss))
    (hnone : w.partialRun = none) (hbefore : before.length = as.length)
    (hsub : xss.flatten.Subperm raw) (hg : current.length ≤ groups) :
    wp (reducePass env options.limits duplicates groups current)
      (fun following v => ∃ yss,
        Intact env options.limits start others v (before ++ following) (as ++ yss) ∧
        v.partialRun = none ∧ Covers duplicates yss.flatten xss.flatten ∧
        yss.flatten.Subperm xss.flatten ∧
        v.workspace.mergePasses = w.workspace.mergePasses ∧
        Merges options.limits.mergeFanIn (before ++ current) (before ++ following) ∧
        following.length = current.length ⌈/⌉ options.limits.mergeFanIn)
      (fun e v => Fires env options raw e ∧ Salvaged env options.limits start others duplicates
        (before ++ current) (as ++ xss).flatten v) w := by
  have hfan := options.limits.fanIn_ge
  generalize hf : options.limits.mergeFanIn = f at hfan ⊢
  induction groups generalizing before current as xss w with
  | zero =>
    have hnil : current = [] := List.length_eq_zero_iff.mp (by omega)
    subst hnil
    exact ⟨xss, h, hnone, Covers.refl _ _, List.Subperm.refl _, rfl, .none, by simp⟩
  | succ groups ih =>
    cases current with
    | nil => exact ⟨xss, h, hnone, Covers.refl _ _, List.Subperm.refl _, rfl, .none, by simp⟩
    | cons run runs =>
      simp only [reducePass, wp_bind, wp_pure, hf]
      have hsome : (run :: runs).take f ≠ [] := by
        intro hnil
        rw [List.take_eq_nil_iff] at hnil
        rcases hnil with hnil | hnil
        · omega
        · cases hnil
      have hpos : 0 < (run :: runs).length := Nat.succ_pos _
      generalize run :: runs = current at h hg hsome hpos ⊢
      have hlength : current.length = xss.length := by
        have hall := h.stored.length_eq
        simp only [List.length_append] at hall
        omega
      have hsplit : xss.flatten = (xss.take f).flatten ++ (xss.drop f).flatten := by
        rw [← List.flatten_append, List.take_append_drop]
      have hcurrent : before ++ (current.take f ++ current.drop f) = before ++ current := by
        rw [List.take_append_drop]
      have hxss : as ++ (xss.take f ++ xss.drop f) = as ++ xss := by rw [List.take_append_drop]
      have hgroup : (current.take f).length = (xss.take f).length := by
        rw [List.length_take, List.length_take, hlength]
      have hfits : (current.take f).length ≤ options.limits.mergeFanIn := by
        rw [hf]
        exact List.length_take_le _ _
      have hsub' : (xss.take f).flatten.Subperm raw :=
        (hsplit ▸ List.sublist_append_left _ _).subperm.trans hsub
      rw [← hcurrent, ← hxss] at h
      refine wp_mono (mergeGroup_intact henc hz h hnone hbefore hgroup hsub' hsome hfits) ?_ ?_
      · rintro created v ⟨es, hintact, hclosed, hcovers, hless, hpasses, hmerges⟩
        rw [hcurrent, hf] at hmerges
        have hrest : Intact env options.limits start others v
            ((before ++ [created]) ++ current.drop f) ((as ++ [es]) ++ xss.drop f) := by
          simpa using hintact
        have hcovers' : Covers duplicates (as ++ [es] ++ xss.drop f).flatten (as ++ xss).flatten := by
          simp only [List.flatten_append, List.flatten_singleton, List.append_assoc, hsplit]
          exact (Covers.refl duplicates _).append (hcovers.append (Covers.refl duplicates _))
        have hmerges' : Merges f (before ++ current) (before ++ [created] ++ current.drop f) := by
          simpa using hmerges
        refine wp_mono (ih hrest hclosed (by simp [hbefore]) ?_ ?_) ?_ ?_
        · exact (hsplit ▸ List.sublist_append_right _ _).subperm.trans hsub
        · rw [List.length_drop]
          omega
        · rintro following u ⟨yss, hu, hclosed', hcoversu, hlessu, hpassesu, hmergesu, hcount⟩
          refine ⟨es :: yss, by simpa using hu, hclosed', ?_, ?_, hpassesu.trans hpasses, ?_, ?_⟩
          · rw [List.flatten_cons, hsplit]
            exact hcovers.append hcoversu
          · rw [List.flatten_cons, hsplit]
            exact hless.append hlessu
          · exact hmerges'.trans (by simpa using hmergesu)
          · rw [List.length_cons, hcount, List.length_drop, ceilDiv_take_drop hfan hpos]
        · rintro e u ⟨hfires, hsalvaged⟩
          exact ⟨hfires, Salvaged.after (hf ▸ hmerges') hcovers' hsalvaged⟩
      · rintro e v ⟨hfires, hintact⟩
        rw [hcurrent, hxss] at hintact
        exact ⟨hfires, _, _, .none, hintact, Covers.refl _ _⟩

/-- What a reduction of `runs` leaves when it ends. -/
structure Reduced (env : Environment) (limits : StreamingLimits) (start : Nat)
    (others : List Path) (duplicates : DuplicatePolicy) (runs : List Run) (edges : List (Edge τ))
    (passes : Nat) (final : List Run) (v : World τ) : Prop where
  intact : ∃ yss, Intact env limits start others v final yss ∧ Covers duplicates yss.flatten edges
  closed : v.partialRun = none
  merges : Merges limits.mergeFanIn runs final
  least : LeastPasses limits.mergeFanIn runs.length passes
  count : final.length = runs.length ⌈/⌉ limits.mergeFanIn ^ passes

omit henc hz [DecidableEq τ] [StrictText τ] in
theorem Intact.reduced {runs : List Run} {xss : List (List (Edge τ))}
    (h : Intact env options.limits start others w runs xss) (hnone : w.partialRun = none)
    (hle : runs.length ≤ options.limits.mergeFanIn) :
    Reduced env options.limits start others duplicates runs xss.flatten 0 runs w :=
  ⟨⟨xss, h, Covers.refl _ _⟩, hnone, .none, .zero hle, by simp⟩

theorem reduceFrom_intact {passes : Nat} {current : List Run} {xss : List (List (Edge τ))}
    (h : Intact env options.limits start others w current xss) (hnone : w.partialRun = none)
    (hsub : xss.flatten.Subperm raw) (hp : current.length ≤ passes) :
    wp (reduceFrom env options.limits duplicates passes current)
      (fun final v => ∃ p, Reduced env options.limits start others duplicates current xss.flatten p
        final v ∧ v.workspace.mergePasses = w.workspace.mergePasses + p)
      (fun e v => Fires env options raw e ∧
        Salvaged env options.limits start others duplicates current xss.flatten v) w := by
  have hfan := options.limits.fanIn_ge
  induction passes generalizing current xss w with
  | zero =>
    unfold reduceFrom
    rw [if_pos (by omega)]
    exact ⟨0, h.reduced hnone (by omega), rfl⟩
  | succ passes ih =>
    unfold reduceFrom
    by_cases hle : current.length ≤ options.limits.mergeFanIn
    · rw [if_pos hle]
      exact ⟨0, h.reduced hnone hle, rfl⟩
    · rw [if_neg hle]
      simp only [wp_bind, wp_modify]
      have hpassed : Intact env options.limits start others { w with
          workspace := { w.workspace with mergePasses := w.workspace.mergePasses + 1 } }
          ([] ++ current) ([] ++ xss) :=
        ⟨h.books.passed _, h.stored.imp (fun _ _ h => h.congr rfl (Nat.le_refl _)), h.paths,
          h.entries, h.only⟩
      refine wp_mono (reducePass_intact henc hz hpassed hnone rfl hsub (Nat.le_refl _)) ?_ ?_
      · rintro following v ⟨yss, hv, hclosed, hcovers, hless, hpasses, hmerges, hcount⟩
        have hmore := not_le.mp hle
        have hshrink := ceilDiv_lt hfan hmore
        simp only [List.nil_append] at hv hmerges
        refine wp_mono (ih hv hclosed (hless.trans hsub) (by omega)) ?_ ?_
        · rintro final u ⟨p, ⟨⟨zss, hu, hcovers'⟩, hclosed', hmerges', hleast, hfinal⟩, hpasses'⟩
          rw [hcount] at hleast hfinal
          refine ⟨p + 1, ⟨⟨zss, hu, hcovers'.trans hcovers⟩, hclosed', hmerges.trans hmerges',
            hleast.succ hfan hmore, ?_⟩, ?_⟩
          · have hpos : 0 < options.limits.mergeFanIn := by omega
            rw [hfinal, ceilDiv_ceilDiv hpos (Nat.pow_pos hpos), Nat.pow_succ']
          · dsimp only at hpasses
            omega
        · rintro e u ⟨hfires, hsalvaged⟩
          exact ⟨hfires, hsalvaged.after hmerges hcovers⟩
      · rintro e v ⟨hfires, hsalvaged⟩
        exact ⟨hfires, by simpa using hsalvaged⟩

end Reduce

section Theorem
variable {τ : Type} [DecidableEq τ] [PyText τ] [StrictText τ] {start : Nat} {others : List Path}
  {runs : List Run} {xss : List (List (Edge τ))} {w : World τ}

omit [DecidableEq τ] [StrictText τ] in
theorem Stored.encodable {env : Environment} {run : Run} {es : List (Edge τ)}
    (h : Stored env w run es) : ∀ edge ∈ es, edge.encodable = true := by
  intro edge he
  have hok := h.storable edge he
  unfold encodeEdge at hok
  cases hencoded : edge.encoded? with
  | none =>
    rw [hencoded] at hok
    cases hok
  | some fields => simp [Edge.encodable, hencoded]

omit [DecidableEq τ] [StrictText τ] in
theorem stored_encodable {env : Environment} (h : List.Forall₂ (Stored env w) runs xss) :
    ∀ edge ∈ xss.flatten, edge.encodable = true := by
  induction h with
  | nil => simp
  | cons hrun _ ih =>
    intro edge he
    rw [List.flatten_cons, List.mem_append] at he
    rcases he with he | he
    · exact hrun.encodable edge he
    · exact ih edge he

omit [DecidableEq τ] [StrictText τ] in
/-- When no `unlink` fails, and nothing else was registered, the registered runs are those at hand. -/
theorem Intact.exactly {env : Environment} {limits : StreamingLimits}
    (h : Intact env limits start others w runs xss) (hothers : others = [])
    (hunlink : ∀ now, env.unlinkFault now = none) (path : Path) :
    path ∈ registered w ↔ path ∈ runs.map Run.path := by
  refine ⟨fun hin => ?_, fun hin => ?_⟩
  · subst hothers
    simpa using h.only hunlink path hin
  · obtain ⟨run, hrun, rfl⟩ := List.mem_map.mp hin
    exact h.entries run hrun

end Theorem

section Sample

def pairLimits : StreamingLimits :=
  { StreamingLimits.default with
    mergeFanIn := 2
    fanIn_ge := Nat.le_refl 2
    fanIn_fits := by decide }

def pairOptions : PolicyOptions := ⟨.preserve, .canonical, 1, none, pairLimits⟩

def threeEdges : List (Edge String) := [⟨"a", "r", "x"⟩, ⟨"b", "r", "x"⟩, ⟨"c", "r", "x"⟩]

def threeRuns : List Run := [⟨0, 1, 15, 78⟩, ⟨1, 1, 15, 78⟩, ⟨2, 1, 15, 78⟩]

/-- Three runs of one edge each. -/
def threeStored : World String :=
  { World.initial String with
    files := fun path => (threeEdges[path]?).map fun edge => runBytes sampleEnvironment [edge]
    nextPath := 3
    workspace := ⟨234, 234, 234, 3, 0, 1099511627776, [(0, 78), (1, 78), (2, 78)], [234, 0]⟩ }

theorem threeStored_books (env : Environment) : Books env pairOptions.limits 0 threeStored := by
  refine ⟨Nat.le_refl _, ⟨rfl, rfl, Nat.le_refl _, fun _ h => ?_, fun _ h => ?_⟩, rfl, ?_, ?_, ?_,
    fun _ path hpath => ?_, fun path hpath => ?_⟩
  · cases h
  · cases h
  · decide
  · decide
  · decide
  · match path, hpath with
    | 0, _ => exact .inl (by decide)
    | 1, _ => exact .inl (by decide)
    | 2, _ => exact .inl (by decide)
    | _ + 3, hpath => simp [threeStored, threeEdges] at hpath
  · cases hpath

theorem threeStored_intact (env : Environment) (hdigest : env.sha256 = sampleDigest) :
    Intact env pairOptions.limits 0 [] threeStored threeRuns (threeEdges.map fun edge => [edge]) := by
  have hcontent : ∀ edge : Edge String,
      some (runBytes sampleEnvironment [edge]) = some (runBytes env [edge]) := fun edge => by
    simp only [runBytes, hdigest]
    rfl
  have hstored : ∀ (path : Path) (edge : Edge String), threeEdges[path]? = some edge →
      Stored env threeStored ⟨path, 1, 15, 78⟩ [edge] := by
    intro path edge hedge
    have hall : ∀ edge ∈ threeEdges, encodeEdge edge = .ok (record edge) ∧
        (payload [edge]).length = 15 := by
      intro edge he
      simp only [threeEdges, List.mem_cons, List.not_mem_nil, or_false] at he
      rcases he with rfl | rfl | rfl <;> exact ⟨rfl, rfl⟩
    obtain ⟨hencode, hlength⟩ := hall edge (List.mem_of_getElem? hedge)
    have hpath : path < 3 := (List.getElem?_eq_some_iff.mp hedge).1
    refine ⟨?_, rfl, hlength.symm, by simp, by omega, by simpa using hencode, hpath, ?_⟩
    · simp only [threeStored, hedge, Option.map_some]
      exact hcontent edge
    · rw [hdigest]
      exact sampleDigest_marked _
  exact ⟨threeStored_books env, .cons (hstored 0 _ rfl) (.cons (hstored 1 _ rfl)
    (.cons (hstored 2 _ rfl) .nil)), by decide, by decide, fun _ path hpath => .inl hpath⟩

-- Kept folded: a statement about its reduction would be evaluated otherwise.
attribute [irreducible] threeStored

theorem threeStored_closed : threeStored.partialRun = none := by
  simp [threeStored, World.initial]

/-- No file can be removed. -/
def lockedEnvironment : Environment :=
  { sampleEnvironment with unlinkFault := fun _ => some ⟨"PermissionError", some 13⟩ }

end Sample

end Projector.Streaming
