import Projector.Streaming.CanonicalProofs

namespace Projector.Streaming
open Lib

variable {τ : Type} [DecidableEq τ] [PyText τ] {env : Environment} {options : PolicyOptions}
  {raw : List (Edge τ)} {duplicates : DuplicatePolicy}

/-- Nothing has been delivered and no statistics have been set since `start`. -/
structure Undelivered (start w : World τ) : Prop where
  yielded : w.yielded = start.yielded
  statistics : w.statistics = start.statistics

omit [DecidableEq τ] [PyText τ] in
theorem Undelivered.touches {start w v : World τ} {paths : List Path}
    (h : Undelivered start w) (ht : Touches paths w v) : Undelivered start v :=
  ⟨ht.yielded.trans h.yielded, ht.statistics.trans h.statistics⟩

omit [DecidableEq τ] in
theorem Holding.touches {w v : World τ} {runs : List Run} {xss : List (List (Edge τ))}
    (h : Holding env duplicates w runs xss) (ht : Touches [] w v) :
    Holding env duplicates v runs xss :=
  ⟨stored_touched h.stored ht (by simp), h.paths, h.ordered⟩

omit [DecidableEq τ] in
/-- A new run joins the runs at hand. -/
theorem Holding.snoc {w v : World τ} {runs : List Run} {xss : List (List (Edge τ))} {run : Run}
    {es : List (Edge τ)} (h : Holding env duplicates w runs xss) (hs : Stored env v run es)
    (hw : Wrote w run v) (ho : Ordered duplicates es) :
    Holding env duplicates v (runs ++ [run]) (xss ++ [es]) := by
  have hv := h.touches hw.touches
  refine ⟨List.rel_append hv.stored (.cons hs .nil), ?_, ?_⟩
  · rw [List.map_append, List.map_singleton, List.nodup_append]
    refine ⟨h.paths, List.nodup_singleton _, ?_⟩
    intro q hq q' hq' he
    obtain ⟨other, hm, rfl⟩ := List.mem_map.mp hq
    have hold := stored_old h.stored other hm
    rw [he, List.mem_singleton.mp hq', hw.path] at hold
    exact lt_irrefl _ hold
  · intro xs hx
    rcases List.mem_append.mp hx with hx | hx
    · exact h.ordered xs hx
    · rw [List.mem_singleton.mp hx]
      exact ho

/-- The state of the collecting loop after `done`: the runs and the buffer together
hold what was read. -/
structure Collecting (env : Environment) (duplicates : DuplicatePolicy) (start : World τ)
    (done : List (Edge τ)) (c : Collected τ) (w : World τ) : Prop where
  rawCount : c.rawCount = done.length
  buffer : c.buffer.Sublist done
  runs : ∃ xss, Holding env duplicates w c.runs xss ∧
    Covers duplicates (xss.flatten ++ c.buffer) done
  undelivered : Undelivered start w

section Collect
variable (henc : ∀ edge ∈ raw, edge.encodable = true)
  (hz : ∀ es : List (Edge τ), es.Subperm raw → env.sha256 (payload es) ≠ List.replicate 32 0)

include henc hz

theorem writeSortedRun_spec {edges : List (Edge τ)} (hs : edges.Subperm raw) (w : World τ) :
    wp (writeSortedRun env options.limits duplicates edges)
      (fun run v => ∃ es, Stored env v run es ∧ Wrote w run v ∧ Ordered duplicates es ∧
        Covers duplicates es edges)
      (fun e _ => Fires env options raw e) w := by
  have hall : ∀ edge ∈ edges, edge.encodable = true := fun edge he => henc edge (hs.subset he)
  have henc' : ∀ edge ∈ sortOn Edge.canonicalKey edges, edge.encodable = true :=
    fun edge he => hall edge (mem_sortOn.mp he)
  have hord := applied_ordered duplicates henc' (sortOn_sorted _ edges)
  have hcov := (applied_covers duplicates (sortOn Edge.canonicalKey edges)).trans
    (Covers.of_perm duplicates (sortOn_perm _ edges))
  have hin : Within duplicates edges raw := by
    cases duplicates with
    | preserve => exact hs
    | unique => exact hs.subset
  have hsub := hord.subperm (hcov.within hin)
  simp only [writeSortedRun, wp_bind]
  refine wp_raiseIf (fun hne => ?_) (fun _ => ?_)
  · rw [List.all_eq_true.mpr hall] at hne
    cases hne
  · have hy : Yields (fun _ : World τ => True) Ticked (Fires env options raw)
        (Producer.ofList (sortOn Edge.canonicalKey edges)) (sortOn Edge.canonicalKey edges) :=
      yields_ofList _
    refine wp_mono (writeRun_spec (byPolicy_yields hy duplicates) (fun _ _ _ _ h => h) henc hsub
      (hz _ hsub) w trivial) ?_ (fun _ _ h => h)
    rintro run v ⟨hstored, hwrote⟩
    exact ⟨_, hstored, hwrote, hord, hcov⟩

theorem collect_spec {bufferEdges : Nat} {start w : World τ} {done : List (Edge τ)}
    {edge : Edge τ} {rest : List (Edge τ)} {c : Collected τ} (hraw : raw = done ++ edge :: rest)
    (h : Collecting env duplicates start done c w) :
    wp (collect env options.limits duplicates bufferEdges c edge)
      (Collecting env duplicates start (done ++ [edge]))
      (fun e _ => Fires env options raw e) w := by
  simp only [collect, wp_bind]
  refine wp_mono (enforceEdgeLimit_spec _ w) ?_ (fun e v h => h.2)
  rintro - w rfl
  refine wp_mono (pollCancel_spec _ w) ?_ (fun e v h => h.2)
  intro _ v hv
  have htouch := hv.quiet.touches
  obtain ⟨xss, hh, hcov⟩ := h.runs
  have hh := hh.touches htouch
  have hund := h.undelivered.touches htouch
  have hbuf : (c.buffer ++ [edge]).Sublist (done ++ [edge]) := h.buffer.append_right [edge]
  have hcov' : Covers duplicates (xss.flatten ++ (c.buffer ++ [edge])) (done ++ [edge]) := by
    rw [← List.append_assoc]
    exact hcov.append (Covers.refl duplicates [edge])
  by_cases hfull : (c.buffer ++ [edge]).length = bufferEdges
  · simp only [if_pos hfull, wp_bind, wp_pure]
    have hread : (done ++ [edge]).Sublist raw := by
      have hcons : raw = done ++ [edge] ++ rest := by simp [hraw]
      exact hcons ▸ List.sublist_append_left _ _
    have hsub : (c.buffer ++ [edge]).Subperm raw := (hbuf.trans hread).subperm
    refine wp_mono (writeSortedRun_spec henc hz hsub v) ?_ (fun _ _ h => h)
    rintro run u ⟨es, hstored, hwrote, hord, hes⟩
    refine ⟨by simp [h.rawCount], List.nil_sublist _, ⟨xss ++ [es], hh.snoc hstored hwrote hord, ?_⟩,
      hund.touches hwrote.touches⟩
    simp only [List.flatten_append, List.flatten_singleton, List.append_nil]
    exact ((Covers.refl duplicates _).append hes).trans hcov'
  · simp only [if_neg hfull, wp_pure]
    exact ⟨by simp [h.rawCount], hbuf, ⟨xss, hh, hcov'⟩, hund⟩

theorem flush_spec {start w : World τ} {c : Collected τ}
    (h : Collecting env duplicates start raw c w) :
    wp (flush env options.limits duplicates c)
      (fun runs v => ∃ xss, Holding env duplicates v runs xss ∧
        Covers duplicates xss.flatten raw ∧ (runs = [] → raw = []) ∧ Undelivered start v)
      (fun e _ => Fires env options raw e) w := by
  obtain ⟨xss, hh, hcov⟩ := h.runs
  unfold flush
  by_cases hb : c.buffer = []
  · rw [if_pos hb]
    rw [hb, List.append_nil] at hcov
    refine ⟨xss, hh, hcov, ?_, h.undelivered⟩
    intro hr
    have hs := hh.stored
    rw [hr] at hs
    cases hs
    cases duplicates with
    | preserve => exact List.Perm.eq_nil (List.Perm.symm hcov)
    | unique => exact List.eq_nil_iff_forall_not_mem.mpr (fun e he => by simpa using (hcov e).mpr he)
  · simp only [if_neg hb, wp_bind, wp_pure]
    refine wp_mono (writeSortedRun_spec henc hz h.buffer.subperm w) ?_ (fun _ _ h => h)
    rintro run v ⟨es, hstored, hwrote, hord, hes⟩
    refine ⟨xss ++ [es], hh.snoc hstored hwrote hord, ?_, by simp,
      h.undelivered.touches hwrote.touches⟩
    simp only [List.flatten_append, List.flatten_singleton]
    exact ((Covers.refl duplicates _).append hes).trans hcov

end Collect

omit [PyText τ] in
/-- The last loop yields what the policy leaves of the merged edges and counts the
distinct ones. -/
theorem deliver_spec {start w : World τ} {done : List (Edge τ)} {edge : Edge τ}
    {s : Nat × Option (Edge τ)} {E : PyError → World τ → Prop}
    (h : s = ((coalesce done).length, done.getLast?) ∧
      w.yielded = start.yielded ++ applied duplicates done ∧ w.statistics = start.statistics) :
    wp (deliver duplicates s edge) (fun s v =>
      s = ((coalesce (done ++ [edge])).length, (done ++ [edge]).getLast?) ∧
        v.yielded = start.yielded ++ applied duplicates (done ++ [edge]) ∧
        v.statistics = start.statistics) E w := by
  obtain ⟨rfl, hy, hst⟩ := h
  simp only [deliver, wp_bind, wp_pure, yieldEdge]
  have hsnoc := coalesce_snoc done edge
  refine wp_runIf ?_ ?_
  · intro hyield
    refine ⟨?_, ?_, hst⟩
    · rw [hsnoc]
      by_cases hl : done.getLast? = some edge <;> simp [hl]
    · cases duplicates with
      | preserve => simp [applied, hy]
      | unique =>
        have hl : done.getLast? ≠ some edge := by simpa using hyield
        simp [applied, hsnoc, hl, hy]
  · intro hskip
    simp only [not_or, Decidable.not_not] at hskip
    obtain ⟨hd, hl⟩ := hskip
    refine ⟨by rw [hsnoc]; simp [hl], ?_, hst⟩
    cases duplicates with
    | preserve => exact absurd rfl hd
    | unique => simp [applied, hsnoc, hl, hy]

/-- An ordered cover of `raw` is the in-memory result on `raw`. -/
theorem applied_eq_policy (henc : ∀ edge ∈ raw, edge.encodable = true) {m : List (Edge τ)}
    (hs : SortedOn Edge.canonicalKey m) (hc : Covers duplicates m raw) :
    iterProjectedEdges duplicates .canonical raw = .ok (applied duplicates m,
      ⟨raw.length, (coalesce m).length, raw.length - (coalesce m).length⟩) := by
  have hmem : ∀ edge, edge ∈ m ↔ edge ∈ raw := by
    cases duplicates with
    | preserve => exact fun _ => List.Perm.mem_iff hc
    | unique => exact hc
  have hinj : ∀ a ∈ m, ∀ b ∈ m, a.canonicalKey = b.canonicalKey → a = b := fun a ha b hb =>
    Edge.canonicalKey_inj (henc a ((hmem a).mp ha)) (henc b ((hmem b).mp hb))
  have hinjr : ∀ a ∈ raw.eraseDups, ∀ b ∈ raw.eraseDups, a.canonicalKey = b.canonicalKey → a = b :=
    fun a ha b hb => Edge.canonicalKey_inj (henc a (List.mem_eraseDups.mp ha))
      (henc b (List.mem_eraseDups.mp hb))
  have hstrict := coalesce_strict hinj hs
  have hunique : sortOn Edge.canonicalKey raw.eraseDups = coalesce m := by
    have hn : (sortOn Edge.canonicalKey raw.eraseDups).Nodup :=
      (sortOn_perm _ _).nodup_iff.mpr (nodup_eraseDups raw)
    refine strict_unique (strict_of_sorted_nodup ?_ (sortOn_sorted _ _) hn) hstrict ?_
    · exact fun a ha b hb => hinjr a (mem_sortOn.mp ha) b (mem_sortOn.mp hb)
    · intro a
      rw [mem_sortOn, List.mem_eraseDups, mem_coalesce, hmem]
  have hcount : raw.eraseDups.length = (coalesce m).length := by
    rw [← hunique, (sortOn_perm _ _).length_eq]
  simp only [iterProjectedEdges, hcount]
  cases duplicates with
  | preserve =>
    have heq : sortOn Edge.canonicalKey raw = m := by
      rw [← sortOn_of_sorted hs]
      exact (sortOn_eq_of_perm hinj hc).symm
    rw [if_pos (List.all_eq_true.mpr henc), heq]
    rfl
  | unique =>
    rw [if_pos (List.all_eq_true.mpr (fun a ha => henc a (List.mem_eraseDups.mp ha))), hunique]
    rfl

section Run
variable (henc : ∀ edge ∈ raw, edge.encodable = true)
  (hz : ∀ es : List (Edge τ), es.Subperm raw → env.sha256 (payload es) ≠ List.replicate 32 0)

/-- What a completed call has delivered, in terms of the in-memory policy. -/
def Delivered (duplicates : DuplicatePolicy) (order : EdgeOrder) (raw : List (Edge τ))
    (start w : World τ) : Prop :=
  ∃ edges counts, iterProjectedEdges duplicates order raw = .ok (edges, counts) ∧
    w.yielded = start.yielded ++ edges ∧ w.statistics = some counts

include henc hz

theorem canonicalBody_spec (bufferEdges : Nat) (w : World τ) :
    wp (canonicalBody env options.limits duplicates bufferEdges raw)
      (fun _ v => Delivered duplicates .canonical raw w v)
      (fun e _ => Fires env options raw e) w := by
  simp only [canonicalBody, wp_bind]
  refine wp_mono (checkCancel_spec w) ?_ (fun e v h => h.2)
  intro _ v hv
  have hstart : Collecting env duplicates w [] ⟨0, [], []⟩ v :=
    ⟨rfl, List.nil_sublist _, ⟨[], ⟨.nil, by simp, by simp⟩, Covers.refl _ _⟩,
      ⟨hv.quiet.yielded, hv.quiet.statistics⟩⟩
  refine wp_mono (wp_foldlM (Collecting env duplicates w)
    (fun done a rest c s hx hi => collect_spec henc hz hx hi) hstart) ?_ (fun _ _ h => h)
  intro c u hc
  refine wp_mono (flush_spec henc hz hc) ?_ (fun _ _ h => h)
  rintro runs x ⟨xss, hh, hcov, hempty, hund⟩
  by_cases hr : runs = []
  · rw [if_pos hr]
    have hraw := hempty hr
    subst hraw
    refine ⟨[], ⟨0, 0, 0⟩, ?_, by simpa [setStatistics] using hund.yielded, rfl⟩
    cases duplicates <;> simp [iterProjectedEdges, sortOn_nil]
  · simp only [if_neg hr, wp_bind]
    refine wp_mono (reduceFrom_spec henc hz hh (hcov.within (Within.refl _ _)) (Nat.le_refl _)) ?_
      (fun _ _ h => h)
    rintro final y ⟨yss, hhy, hcovy, hyy, hys⟩
    have hsorted : ∀ xs ∈ yss, SortedOn Edge.canonicalKey xs :=
      fun xs hx => (hhy.ordered xs hx).sorted
    have hcovm : Covers duplicates (kmerge Edge.canonicalKey yss) raw :=
      (Covers.of_perm duplicates (kmerge_perm _ yss)).trans (hcovy.trans hcov)
    have hmerge : Yields (fun w => List.Forall₂ (Stored env w) final yss) Ticked
        (Fires env options raw) (merge env options.limits final) (kmerge Edge.canonicalKey yss) :=
      merge_yields final yss
    have hloop := hmerge
      (fun done s v => s = ((coalesce done).length, done.getLast?) ∧
        v.yielded = w.yielded ++ applied duplicates done ∧ v.statistics = w.statistics)
      (fun e _ => Fires env options raw e) (deliver duplicates)
      (by
        rintro done s a _ ⟨_, rfl⟩ h
        exact h)
      (fun _ _ _ _ _ hf => hf)
      (fun done a rest s v _ h => deliver_spec h)
      (0, none) y hhy.stored
      ⟨by simp [coalesce, coalesceFrom], by
        rw [hyy, hund.yielded]
        cases duplicates <;> simp [applied, coalesce, coalesceFrom], hys.trans hund.statistics⟩
    refine wp_mono hloop ?_ (fun _ _ h => h)
    rintro ⟨distinct, last⟩ z ⟨hcount, hyield, -⟩
    simp only [Prod.mk.injEq] at hcount
    refine ⟨_, _, applied_eq_policy henc (kmerge_sorted hsorted) hcovm, hyield, ?_⟩
    simp [hc.rawCount, hcount.1]

end Run

section Outcome
variable {E : PyError → World τ → Prop}

omit [DecidableEq τ] [PyText τ] in
theorem unlinkAll_spec (entries : List (Path × Nat)) (w : World τ) :
    wp (unlinkAll env entries) (fun _ v => Undelivered w v) E w := by
  induction entries generalizing w with
  | nil => exact ⟨rfl, rfl⟩
  | cons entry entries ih =>
    simp only [unlinkAll, wp_bind]
    refine wp_mono (unlink_spec entry.1 w) ?_ (fun _ _ h => h)
    rintro _ v (⟨_, rfl⟩ | ⟨_, rfl⟩)
    all_goals exact wp_mono (ih _) (fun _ u hu => ⟨hu.yielded, hu.statistics⟩) (fun _ _ h => h)

omit [DecidableEq τ] [PyText τ] in
theorem cleanup_spec (w : World τ) :
    wp (cleanup env) (fun _ v => Undelivered w v) E w := by
  simp only [cleanup, wp_bind, wp_get, wp_modify, tick, wp_modifyGet]
  refine wp_mono (unlinkAll_spec w.workspace.runs w) ?_ (fun _ _ h => h)
  intro _ v hv
  cases env.fault v.clock with
  | some _ => exact ⟨hv.yielded, hv.statistics⟩
  | none => exact ⟨hv.yielded, hv.statistics⟩

omit [DecidableEq τ] [PyText τ] in
theorem canonicalFinish_spec (w : World τ) :
    wp (canonicalFinish env) (fun _ v => Undelivered w v) E w := by
  simp only [canonicalFinish, wp_bind, wp_get, recordMetrics, wp_modify]
  exact wp_mono (cleanup_spec w) (fun _ v hv => ⟨hv.yielded, hv.statistics⟩) (fun _ _ h => h)

omit [DecidableEq τ] [PyText τ] in
theorem wp_andFinally {x f : M τ Unit} {Q : World τ → Prop} {w : World τ}
    (hx : wp x (fun _ => Q) E w) (hq : ∀ v, Q v → wp f (fun _ => Q) E v)
    (he : ∀ e v, E e v → wp f (fun _ u => E e u) E v) : wp (andFinally x f) (fun _ => Q) E w := by
  simp only [andFinally, wp_bind, wp_tryCatch, wp_throw, wp_pure]
  exact wp_mono hx (fun _ v h => hq v h) (fun e v h => he e v h)

omit [DecidableEq τ] in
theorem allocationFailed_spec {Q : World τ → Prop} {e : PyError} (stage : String)
    (h : Fires env options raw e) (w : World τ) :
    wp (allocationFailed stage e) (fun _ => Q) (fun e _ => Fires env options raw e) w := by
  cases e with
  | io fault =>
    obtain ⟨now, hf⟩ := h.io_inv
    cases fault with
    | os error => exact h
    | memory => exact .allocation stage hf
    | overflow => exact .allocation stage hf
  | _ => exact h

omit [DecidableEq τ] in
theorem checkParent_spec (w : World τ) :
    wp (checkParent env options.tempDirectory) (fun _ v => v = w)
      (fun e _ => Fires env options raw e) w := by
  unfold checkParent
  cases hd : options.tempDirectory with
  | none => rfl
  | some directory => exact wp_raiseIf (fun hn => .directory hd hn) (fun _ => rfl)

omit [DecidableEq τ] in
theorem openWorkspace_spec (w : World τ) :
    wp (openWorkspace env options.tempDirectory) (fun _ v => ∃ clock space, v = { w with
        clock := clock, workspace := { Workspace.empty with availableEstimate := space } })
      (fun e _ => Fires env options raw e) w := by
  simp only [openWorkspace, wp_bind, wp_tryCatch, wp_modify]
  refine wp_mono (checkParent_spec w) ?_ (fun _ _ h => h)
  rintro - _ rfl
  refine wp_mono (@io_spec τ _ env options raw _) ?_ ?_
  · rintro - _ ⟨_, rfl⟩
    refine wp_mono (diskUsage_spec _ _) ?_ (fun _ _ h => h.2)
    rintro free _ ⟨⟨_, rfl⟩, -⟩
    exact ⟨_, _, rfl⟩
  · rintro e v ⟨-, hf⟩
    cases e with
    | io fault =>
      obtain ⟨now, hf'⟩ := hf.io_inv
      cases fault with
      | os error => exact .os _ hf'
      | memory => exact hf
      | overflow => exact hf
    | _ => exact hf

end Outcome

def sampleEdges : List (Edge String) := [⟨"b", "r", "x"⟩, ⟨"a", "r", "x"⟩]

/-- SHA-256 on the two payloads that one-edge runs of `sampleEdges` have. -/
def sampleDigest (bytes : Bytes) : Bytes :=
  if bytes = [0, 0, 0, 1, 0, 0, 0, 1, 0, 0, 0, 1, 98, 114, 120] then
    [157, 60, 108, 223, 87, 99, 21, 67, 216, 190, 84, 223, 97, 230, 15, 1, 132, 106, 173, 110,
      54, 27, 130, 150, 47, 2, 41, 216, 215, 178, 10, 202]
  else if bytes = [0, 0, 0, 1, 0, 0, 0, 1, 0, 0, 0, 1, 97, 114, 120] then
    [187, 30, 52, 181, 96, 84, 95, 236, 37, 202, 74, 83, 119, 183, 180, 173, 128, 31, 155, 65,
      153, 107, 11, 55, 36, 66, 121, 95, 123, 158, 223, 178]
  else List.replicate 32 1

theorem sampleDigest_length (bytes : Bytes) : (sampleDigest bytes).length = 32 := by
  unfold sampleDigest
  split
  · rfl
  · split <;> rfl

theorem sampleDigest_marked (bytes : Bytes) : sampleDigest bytes ≠ List.replicate 32 0 := by
  unfold sampleDigest
  split
  · decide
  · split <;> decide

def sampleEnvironment : Environment := .quiet sampleDigest sampleDigest_length

/-- One edge to a run, so the two edges are merged from two files. -/
def sampleOptions (order : EdgeOrder) : PolicyOptions :=
  ⟨.unique, order, 1, none, StreamingLimits.default⟩

end Projector.Streaming
