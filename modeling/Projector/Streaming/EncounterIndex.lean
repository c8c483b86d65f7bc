import Projector.Streaming.ExternalSort

namespace Projector.Streaming
open Lib

variable {τ : Type} [DecidableEq τ] [PyText τ] {env : Environment} {options : PolicyOptions}
  {raw : List (Edge τ)} {duplicates : DuplicatePolicy}

/-- First occurrences only, under `unique`. -/
def firsts (duplicates : DuplicatePolicy) (xs : List (Edge τ)) : List (Edge τ) :=
  match duplicates with
  | .preserve => xs
  | .unique => xs.eraseDups

omit [PyText τ] in
theorem firsts_snoc (xs : List (Edge τ)) (edge : Edge τ) :
    firsts duplicates (xs ++ [edge]) =
      if duplicates = .preserve ∨ edge ∉ xs then firsts duplicates xs ++ [edge]
      else firsts duplicates xs := by
  cases duplicates with
  | preserve => simp [firsts]
  | unique =>
    simp only [firsts, eraseDups_snoc, reduceCtorEq, false_or]
    by_cases hx : edge ∈ xs <;> simp [hx]

/-- The in-memory encounter loop yields first occurrences and counts them. -/
theorem iterProjectedEdges_encounter (duplicates : DuplicatePolicy) (raw : List (Edge τ)) :
    iterProjectedEdges duplicates .encounter raw = .ok (firsts duplicates raw,
      ⟨raw.length, raw.eraseDups.length, raw.length - raw.eraseDups.length⟩) := by
  have hloop : ∀ (rest done : List (Edge τ)) (s : Encountered τ),
      s.seen = done.eraseDups → s.counts.rawEdges = done.length →
      s.counts.distinctEdges = done.eraseDups.length →
      s.counts.duplicateEdges + done.eraseDups.length = done.length →
      s.yielded = firsts duplicates done →
      rest.foldl (encounterStep duplicates) s = ⟨(done ++ rest).eraseDups,
        ⟨(done ++ rest).length, (done ++ rest).eraseDups.length,
          (done ++ rest).length - (done ++ rest).eraseDups.length⟩,
        firsts duplicates (done ++ rest)⟩ := by
    intro rest
    induction rest with
    | nil =>
      rintro done ⟨seen, ⟨r, d, u⟩, y⟩ rfl rfl rfl hu rfl
      simp only at hu
      simp only [List.foldl_nil, List.append_nil, Encountered.mk.injEq, EdgeCounts.mk.injEq,
        true_and, and_true]
      omega
    | cons edge rest ih =>
      intro done s hseen hr hd hu hy
      have hmem : edge ∈ s.seen ↔ edge ∈ done := by rw [hseen, List.mem_eraseDups]
      have hassoc : done ++ edge :: rest = done ++ [edge] ++ rest := by simp
      rw [List.foldl_cons, hassoc]
      by_cases hdup : edge ∈ done
      · have hs := hmem.mpr hdup
        have he : (done ++ [edge]).eraseDups = done.eraseDups := by simp [eraseDups_snoc, hdup]
        apply ih (done ++ [edge])
        · simp [encounterStep, hseen, he, hdup]
        · simp [encounterStep, hs, hr]
        · simp [encounterStep, hs, hd, he]
        · simp only [encounterStep, hs, decide_true, if_true, he, List.length_append,
            List.length_singleton]
          omega
        · simp [encounterStep, hs, firsts_snoc, hdup, hy]
      · have hs : edge ∉ s.seen := fun h => hdup (hmem.mp h)
        have he : (done ++ [edge]).eraseDups = done.eraseDups ++ [edge] := by
          simp [eraseDups_snoc, hdup]
        apply ih (done ++ [edge])
        · simp [encounterStep, hseen, he, hdup]
        · simp [encounterStep, hs, hr]
        · simp [encounterStep, hs, hd, he]
        · simp only [encounterStep, hs, decide_false, Bool.false_eq_true, if_false, he,
            List.length_append, List.length_singleton]
          omega
        · simp [encounterStep, hs, firsts_snoc, hdup, hy]
  have h := hloop raw [] ⟨[], ⟨0, 0, 0⟩, []⟩ (by simp) rfl (by simp) (by simp)
    (by cases duplicates <;> simp [firsts])
  simp only [iterProjectedEdges, h, List.nil_append]

omit [DecidableEq τ] in
/-- The database key tells any two storable edges apart. -/
theorem record_inj {a b : Edge τ} (ha : encodeEdge a = .ok (record a))
    (hb : encodeEdge b = .ok (record b)) (h : record a = record b) : a = b := by
  have hra := readRecord_record ha (Nat.le_refl _) []
  rw [h, readRecord_record hb (Nat.le_refl _) []] at hra
  simp only [Except.ok.injEq, Prod.mk.injEq] at hra
  exact hra.1.symm

/-- A step that changed at most the recorded peak size of the index. -/
structure Steady (w v : World τ) : Prop where
  yielded : v.yielded = w.yielded
  statistics : v.statistics = w.statistics
  memoryEdges : v.index.memoryEdges = w.index.memoryEdges
  memory : v.index.memory = w.index.memory
  connection : v.index.connection = w.index.connection
  count : v.index.count = w.index.count

omit [DecidableEq τ] [PyText τ] in
theorem Ticked.steady {w v : World τ} (h : Ticked w v) : Steady w v := by
  obtain ⟨_, rfl⟩ := h
  exact ⟨rfl, rfl, rfl, rfl, rfl, rfl⟩

omit [DecidableEq τ] in
theorem checkSize_spec (w : World τ) :
    wp (checkSize env options.limits) (fun _ v => Steady w v)
      (fun e _ => Fires env options raw e) w := by
  simp only [checkSize, tick, wp_bind, wp_modifyGet]
  cases hf : env.fault w.clock with
  | some fault =>
    cases fault with
    | os error => exact .os _ hf
    | memory => exact .io hf
    | overflow => exact .io hf
  | none =>
    simp only [wp_bind, wp_modify]
    refine wp_mono (enforceBytes_spec _ distinctStage rfl _) ?_ (fun e v h => h.2)
    rintro - _ rfl
    refine wp_mono (enforceBytes_spec _ distinctStage rfl _) ?_ (fun e v h => h.2)
    rintro - _ rfl
    exact ⟨rfl, rfl, rfl, rfl, rfl, rfl⟩

/-- The errors inside the spill: those that fire, and database errors not yet wrapped. -/
def SpillFires (env : Environment) (options : PolicyOptions) (raw : List (Edge τ))
    (e : PyError) : Prop :=
  Fires env options raw e ∨ ∃ now error, env.sqliteFault now = some error ∧ e = .sqlite error

omit [DecidableEq τ] [PyText τ] in
theorem sqliteCall_spec (w : World τ) :
    wp (sqliteCall env) (fun _ v => Ticked w v)
      (fun e _ => ∃ now error, env.sqliteFault now = some error ∧ e = .sqlite error) w := by
  simp only [sqliteCall, tick, wp_bind, wp_modifyGet]
  cases hf : env.sqliteFault w.clock with
  | some error => exact ⟨_, _, hf, rfl⟩
  | none => exact ⟨_, rfl⟩

omit [DecidableEq τ] in
/-- Copying distinct encodable edges into an empty table inserts each of them. -/
theorem insertAll_spec {keys : List Bytes} {memory : List (Edge τ)} {w : World τ}
    (henc : ∀ edge ∈ memory, edge ∈ raw ∧ edge.encodable = true) (hn : memory.Nodup)
    (hk : ∀ edge ∈ memory, encodeEdge edge = .ok (record edge) → record edge ∉ keys) :
    wp (insertAll env keys memory) (fun ks v => Ticked w v ∧ ks = keys ++ memory.map record ∧
        ∀ edge ∈ memory, encodeEdge edge = .ok (record edge))
      (fun e _ => SpillFires env options raw e) w := by
  induction memory generalizing keys w with
  | nil => exact ⟨Ticked.refl w, by simp, by simp⟩
  | cons edge memory ih =>
    obtain ⟨hnew, hn⟩ := List.nodup_cons.mp hn
    obtain ⟨hr, he⟩ := henc edge (by simp)
    simp only [insertAll, wp_bind]
    refine wp_mono (encodeEdge_spec he hr w) ?_ (fun _ _ h => Or.inl h.2)
    rintro _ _ ⟨rfl, rfl, hok⟩
    refine wp_mono (sqliteCall_spec _) ?_ (fun _ _ h => Or.inr h)
    intro _ v hv
    refine wp_raiseIf (fun hm => absurd hm (hk edge (by simp) hok)) (fun _ => ?_)
    refine wp_mono (ih (fun e hm => henc e (List.mem_cons_of_mem _ hm)) hn ?_) ?_
      (fun _ _ h => h)
    · intro other ho hok' hm
      rcases List.mem_append.mp hm with hm | hm
      · exact hk other (List.mem_cons_of_mem _ ho) hok' hm
      · exact hnew (record_inj hok hok' (List.mem_singleton.mp hm).symm ▸ ho)
    · rintro ks u ⟨hu, rfl, hst⟩
      refine ⟨hv.trans hu, by simp, ?_⟩
      intro e hm
      rcases List.mem_cons.mp hm with rfl | hm
      · exact hok
      · exact hst e hm

omit [DecidableEq τ] in
theorem spillFailed_spec {Q : List Bytes → World τ → Prop} {e : PyError}
    (h : SpillFires env options raw e) (w : World τ) :
    wp (spillFailed env e) Q (fun e _ => Fires env options raw e) w := by
  have hclean : ∀ {e' : PyError}, Fires env options raw e' →
      wp (do cleanup env; throw e') Q (fun e _ => Fires env options raw e) w := by
    intro e' h'
    simp only [wp_bind, wp_throw]
    exact wp_mono (cleanup_spec w) (fun _ _ _ => h') (fun _ _ h => h)
  rcases h with h | ⟨now, error, hf, rfl⟩
  · cases e with
    | io fault =>
      obtain ⟨now, hf⟩ := h.io_inv
      cases fault with
      | os error => exact hclean (.os _ hf)
      | memory => exact h
      | overflow => exact h
    | sqlite error =>
      generalize he : PyError.sqlite error = e at h
      cases h <;> simp only [osResourceError, corruptRun, runBufferError, allocationResourceError,
        sqliteResourceError, tempDirectoryError, limitError, spaceExhausted, fieldBoundError,
        reduceCtorEq] at he
    | _ => exact h
  · exact hclean (.sqlite hf)

/-- What the index remembers of `done`: the distinct edges themselves while they fit
in memory, afterwards the keys of exactly those edges. -/
inductive Remembers (raw : List (Edge τ)) (bufferEdges : Nat) (done : List (Edge τ))
    (index : DistinctIndex τ) : Prop where
  | front (memoryEdges : index.memoryEdges = bufferEdges)
      (connection : index.connection = none) (memory : index.memory = done.eraseDups)
      (fits : index.memory.length ≤ bufferEdges)
  | database (keys : List Bytes) (memoryEdges : index.memoryEdges = bufferEdges)
      (connection : index.connection = some keys)
      (encodable : ∀ edge ∈ raw, edge.encodable = true)
      (storable : ∀ edge ∈ done, encodeEdge edge = .ok (record edge))
      (exact : ∀ key, key ∈ keys ↔ ∃ edge ∈ done, record edge = key)

/-- The state of the encounter loop after `done`. -/
structure Encountering (raw : List (Edge τ)) (bufferEdges : Nat) (duplicates : DuplicatePolicy)
    (start : World τ) (done : List (Edge τ)) (rawCount : Nat) (w : World τ) : Prop where
  rawCount_eq : rawCount = done.length
  index : Remembers raw bufferEdges done w.index
  count : w.index.count = done.eraseDups.length
  yielded : w.yielded = start.yielded ++ firsts duplicates done
  statistics : w.statistics = start.statistics

theorem Remembers.steady {bufferEdges : Nat} {done : List (Edge τ)} {w v : World τ}
    (h : Remembers raw bufferEdges done w.index) (hs : Steady w v) :
    Remembers raw bufferEdges done v.index := by
  cases h with
  | front h1 h2 h3 h4 =>
    exact .front (hs.memoryEdges.trans h1) (hs.connection.trans h2) (hs.memory.trans h3)
      (by rw [hs.memory]; exact h4)
  | database keys h1 h2 h3 h4 h5 =>
    exact .database keys (hs.memoryEdges.trans h1) (hs.connection.trans h2) h3 h4 h5

/-- The outcome of adding `edge` after `done`. -/
structure Added (raw : List (Edge τ)) (bufferEdges : Nat) (done : List (Edge τ)) (edge : Edge τ)
    (w : World τ) (added : Bool) (v : World τ) : Prop where
  added_eq : added = decide (edge ∉ done)
  index : Remembers raw bufferEdges (done ++ [edge]) v.index
  count : v.index.count = (done ++ [edge]).eraseDups.length
  yielded : v.yielded = w.yielded
  statistics : v.statistics = w.statistics

theorem Added.steady {bufferEdges : Nat} {done : List (Edge τ)} {edge : Edge τ}
    {u w v : World τ} {added : Bool} (h : Added raw bufferEdges done edge u added w)
    (hs : Steady w v) : Added raw bufferEdges done edge u added v :=
  ⟨h.added_eq, h.index.steady hs, hs.count.trans h.count, hs.yielded.trans h.yielded,
    hs.statistics.trans h.statistics⟩

theorem insertEdge_spec {bufferEdges : Nat} {done : List (Edge τ)} {edge : Edge τ}
    {keys : List Bytes} {w : World τ} (hedge : edge ∈ raw)
    (hmem : w.index.memoryEdges = bufferEdges) (hconn : w.index.connection = some keys)
    (henc : ∀ e ∈ raw, e.encodable = true)
    (hst : ∀ e ∈ done, encodeEdge e = .ok (record e))
    (hkeys : ∀ key, key ∈ keys ↔ ∃ e ∈ done, record e = key)
    (hcount : w.index.count = done.eraseDups.length) :
    wp (insertEdge env options.limits edge) (Added raw bufferEdges done edge w)
      (fun e _ => Fires env options raw e) w := by
  simp only [insertEdge, wp_bind, wp_tryCatch, wp_get, wp_modify, wp_pure]
  refine wp_mono (encodeEdge_spec (henc edge hedge) hedge w) ?_ (fun _ _ h => h.2)
  rintro _ w ⟨rfl, rfl, hok⟩
  refine wp_mono (sqliteCall_spec w) ?_ ?_
  · rintro - _ ⟨_, rfl⟩
    have hpresent : record edge ∈ keys ↔ edge ∈ done := by
      rw [hkeys]
      constructor
      · rintro ⟨e, he, hre⟩
        exact record_inj (hst e he) hok hre ▸ he
      · exact fun he => ⟨edge, he, rfl⟩
    have hst' : ∀ e ∈ done ++ [edge], encodeEdge e = .ok (record e) := by
      intro e he
      rcases List.mem_append.mp he with he | he
      · exact hst e he
      · exact List.mem_singleton.mp he ▸ hok
    have hkeys' : ∀ key, key ∈ insertKey keys (record edge) ↔
        ∃ e ∈ done ++ [edge], record e = key := by
      intro key
      have hor : (∃ e ∈ done ++ [edge], record e = key) ↔ key ∈ keys ∨ record edge = key := by
        rw [hkeys]
        constructor
        · rintro ⟨e, he, rfl⟩
          rcases List.mem_append.mp he with he | he
          · exact Or.inl ⟨e, he, rfl⟩
          · exact Or.inr (by rw [List.mem_singleton.mp he])
        · rintro (⟨e, he, rfl⟩ | rfl)
          · exact ⟨e, List.mem_append_left _ he, rfl⟩
          · exact ⟨edge, by simp, rfl⟩
      rw [hor]
      by_cases hp : record edge ∈ keys
      · simp only [insertKey, if_pos hp]
        exact ⟨Or.inl, fun h => h.elim id (fun he => he ▸ hp)⟩
      · simp only [insertKey, if_neg hp, List.mem_append, List.mem_singleton]
        exact or_congr Iff.rfl eq_comm
    have hadded : ∀ v : World τ, v.yielded = w.yielded → v.statistics = w.statistics →
        v.index.memoryEdges = w.index.memoryEdges →
        v.index.connection = some (insertKey keys (record edge)) →
        v.index.count = (if record edge ∉ keys then w.index.count + 1 else w.index.count) →
        Added raw bufferEdges done edge w (decide (record edge ∉ keys)) v := by
      intro v hy hs hm hc hn
      refine ⟨by simp [hpresent], .database _ (hm.trans hmem) hc henc hst' hkeys', ?_, hy, hs⟩
      rw [hn, eraseDups_snoc, hcount]
      by_cases hd : edge ∈ done <;> simp [hpresent, hd]
    rw [hconn, Option.getD_some]
    refine wp_runIf ?_ ?_
    · intro _
      refine wp_mono (@checkSize_spec τ _ env options raw _) ?_ (fun _ _ h => h)
      intro _ v hv
      refine Added.steady ?_ hv
      refine hadded _ rfl rfl rfl rfl ?_
      by_cases hp : record edge ∈ keys <;> simp [hp]
    · intro _
      refine hadded _ rfl rfl rfl rfl ?_
      by_cases hp : record edge ∈ keys <;> simp [hp]
  · rintro _ v ⟨now, error, hf, rfl⟩
    exact .sqlite hf

/-- After the spill the database holds the keys of exactly the edges that were in
memory. -/
theorem spill_spec {done : List (Edge τ)} {w : World τ}
    (henc : ∀ e ∈ raw, e.encodable = true) (hsub : ∀ e ∈ done, e ∈ raw)
    (hmem : w.index.memory = done.eraseDups) :
    wp (spill env options.limits options.tempDirectory)
      (fun _ v => v.index.memoryEdges = w.index.memoryEdges ∧
        (∃ keys, v.index.connection = some keys ∧
          ∀ key, key ∈ keys ↔ ∃ e ∈ done, record e = key) ∧
        (∀ e ∈ done, encodeEdge e = .ok (record e)) ∧ v.index.count = w.index.count ∧
        v.yielded = w.yielded ∧ v.statistics = w.statistics)
      (fun e _ => Fires env options raw e) w := by
  simp only [spill, wp_bind, wp_tryCatch, wp_get, wp_modify, fillDatabase]
  refine wp_mono (openWorkspace_spec w) ?_ (fun _ _ h => h)
  rintro - _ ⟨_, _, rfl⟩
  have hdone : ∀ e ∈ done.eraseDups, e ∈ raw ∧ e.encodable = true := by
    intro e he
    have hr := hsub e (List.mem_eraseDups.mp he)
    exact ⟨hr, henc e hr⟩
  have hfail : ∀ e (v : World τ), SpillFires env options raw e →
      wp (spillFailed env e) (fun (_ : List Bytes) _ => True)
        (fun e _ => Fires env options raw e) v := fun e v h => spillFailed_spec h v
  refine wp_mono (@io_spec τ _ env options raw _) ?_
    (fun e v h => spillFailed_spec (Or.inl h.2) v)
  rintro - _ ⟨_, rfl⟩
  refine wp_mono (sqliteCall_spec _) ?_ (fun e v h => spillFailed_spec (Or.inr h) v)
  rintro - _ ⟨_, rfl⟩
  simp only [hmem]
  have hfill : ∀ v : World τ, wp (insertAll env [] done.eraseDups)
      (fun ks u => Ticked v u ∧ ks = [] ++ done.eraseDups.map record ∧
        ∀ e ∈ done.eraseDups, encodeEdge e = .ok (record e))
      (fun e _ => SpillFires env options raw e) v :=
    fun v => insertAll_spec hdone (nodup_eraseDups done) (by simp)
  refine wp_mono (hfill _) ?_ (fun e v h => spillFailed_spec h v)
  rintro keys _ ⟨⟨_, rfl⟩, rfl, hst⟩
  refine wp_mono (@checkSize_spec τ _ env options raw _) ?_ (fun _ _ h => h)
  intro _ v hv
  refine ⟨hv.memoryEdges, ⟨_, hv.connection, ?_⟩, ?_, hv.count, hv.yielded, hv.statistics⟩
  · intro key
    simp only [List.nil_append, List.mem_map, List.mem_eraseDups]
  · exact fun e he => hst e (List.mem_eraseDups.mpr he)

/-- `add` answers whether the edge is new, before, at and after the spill. -/
theorem add_spec {bufferEdges : Nat} {done rest : List (Edge τ)} {edge : Edge τ} {w : World τ}
    (hraw : raw = done ++ edge :: rest)
    (hdom : (∀ e ∈ raw, e.encodable = true) ∨ raw.eraseDups.length ≤ bufferEdges)
    (hi : Remembers raw bufferEdges done w.index) (hcount : w.index.count = done.eraseDups.length) :
    wp (add env options.limits options.tempDirectory edge) (Added raw bufferEdges done edge w)
      (fun e _ => Fires env options raw e) w := by
  have hedge : edge ∈ raw := by simp [hraw]
  have hsub : ∀ e ∈ done, e ∈ raw := fun e he => by simp [hraw, he]
  cases hi with
  | database keys h1 h2 h3 h4 h5 =>
    simp only [add, wp_bind, wp_get, h2]
    exact insertEdge_spec hedge h1 h2 h3 h4 h5 hcount
  | front h1 h2 h3 h4 =>
    simp only [add, wp_bind, wp_get, h2, wp_ite]
    have hmem : edge ∈ w.index.memory ↔ edge ∈ done := by rw [h3, List.mem_eraseDups]
    by_cases hold : edge ∈ done
    · rw [if_pos (hmem.mpr hold)]
      have he : (done ++ [edge]).eraseDups = done.eraseDups := by simp [eraseDups_snoc, hold]
      exact ⟨by simp [hold], .front h1 h2 (by rw [he, h3]) h4, by rw [he, hcount], rfl, rfl⟩
    · rw [if_neg (fun h => hold (hmem.mp h))]
      have he : (done ++ [edge]).eraseDups = done.eraseDups ++ [edge] := by
        simp [eraseDups_snoc, hold]
      by_cases hroom : w.index.memory.length < w.index.memoryEdges
      · simp only [if_pos hroom, wp_modify, wp_pure]
        refine ⟨by simp [hold], .front h1 h2 (by simp [he, h3]) ?_, by simp [he, hcount], rfl, rfl⟩
        simp only [List.length_append, List.length_singleton]
        omega
      · simp only [if_neg hroom]
        have henc : ∀ e ∈ raw, e.encodable = true := by
          refine hdom.resolve_right (fun hle => ?_)
          have hsubset : (done ++ [edge]).eraseDups ⊆ raw.eraseDups := by
            intro e hm
            have hm := List.mem_eraseDups.mp hm
            rw [List.mem_eraseDups, hraw]
            rcases List.mem_append.mp hm with hm | hm
            · exact List.mem_append_left _ hm
            · simp [List.mem_singleton.mp hm]
          have hlen := (List.subperm_of_subset (nodup_eraseDups _) hsubset).length_le
          rw [he, List.length_append, List.length_singleton, ← h3] at hlen
          omega
        refine wp_mono (spill_spec henc hsub h3) ?_ (fun _ _ h => h)
        rintro - v ⟨hm, ⟨keys, hk, hkeys⟩, hst, hc, hy, hs⟩
        have hins : wp (insertEdge env options.limits edge) (Added raw bufferEdges done edge v)
            (fun e _ => Fires env options raw e) v := insertEdge_spec
          hedge (hm.trans h1) hk henc hst hkeys (hc.trans hcount)
        exact wp_mono hins (fun _ _ ha => ⟨ha.added_eq, ha.index, ha.count, ha.yielded.trans hy,
          ha.statistics.trans hs⟩) (fun _ _ h => h)

theorem encounterEdge_spec {bufferEdges : Nat} {start w : World τ} {done rest : List (Edge τ)}
    {edge : Edge τ} {rawCount : Nat} (hraw : raw = done ++ edge :: rest)
    (hdom : (∀ e ∈ raw, e.encodable = true) ∨ raw.eraseDups.length ≤ bufferEdges)
    (h : Encountering raw bufferEdges duplicates start done rawCount w) :
    wp (encounterEdge env options.limits duplicates options.tempDirectory rawCount edge)
      (Encountering raw bufferEdges duplicates start (done ++ [edge]))
      (fun e _ => Fires env options raw e) w := by
  simp only [encounterEdge, wp_bind, wp_pure]
  refine wp_mono (enforceEdgeLimit_spec _ w) ?_ (fun e v h => h.2)
  rintro - w rfl
  refine wp_mono (pollCancel_spec _ w) ?_ (fun e v h => h.2)
  intro _ v hv
  have hs := hv.steady
  refine wp_mono (add_spec hraw hdom (h.index.steady hs) (hs.count.trans h.count)) ?_
    (fun _ _ h => h)
  intro added u ha
  have hadd := ha.added_eq
  have hy : u.yielded = start.yielded ++ firsts duplicates done :=
    (ha.yielded.trans hs.yielded).trans h.yielded
  have hst := (ha.statistics.trans hs.statistics).trans h.statistics
  have hcond : (duplicates = .preserve ∨ (!added) = false) ↔
      (duplicates = .preserve ∨ edge ∉ done) := by
    rw [hadd]
    simp
  refine wp_runIf ?_ ?_
  · intro hyield
    refine ⟨by simp [h.rawCount_eq], ha.index, ha.count, ?_, hst⟩
    rw [firsts_snoc, if_pos (hcond.mp hyield)]
    simp [hy]
  · intro hskip
    refine ⟨by simp [h.rawCount_eq], ha.index, ha.count, ?_, hst⟩
    rw [firsts_snoc, if_neg (fun hn => hskip (hcond.mpr hn))]
    exact hy

/-- What a completed encounter-order call has delivered: the input, or its first
occurrences, and the exact counts. -/
structure FirstsDelivered (duplicates : DuplicatePolicy) (raw : List (Edge τ))
    (start w : World τ) : Prop where
  yielded : w.yielded = start.yielded ++ firsts duplicates raw
  statistics : w.statistics =
    some ⟨raw.length, raw.eraseDups.length, raw.length - raw.eraseDups.length⟩

theorem encounterBody_spec {bufferEdges : Nat} {start w : World τ}
    (hdom : (∀ e ∈ raw, e.encodable = true) ∨ raw.eraseDups.length ≤ bufferEdges)
    (h : Encountering raw bufferEdges duplicates start [] 0 w) :
    wp (encounterBody env options.limits duplicates options.tempDirectory raw)
      (fun _ v => FirstsDelivered duplicates raw start v)
      (fun e _ => Fires env options raw e) w := by
  simp only [encounterBody, wp_bind, wp_get]
  refine wp_mono (checkCancel_spec w) ?_ (fun e v h => h.2)
  intro _ v hv
  have hs := hv.steady
  have hv : Encountering raw bufferEdges duplicates start [] 0 v :=
    ⟨rfl, h.index.steady hs, hs.count.trans h.count, hs.yielded.trans h.yielded,
      hs.statistics.trans h.statistics⟩
  refine wp_mono (wp_foldlM (Encountering raw bufferEdges duplicates start)
    (fun done a rest c s hx hi => encounterEdge_spec hx hdom hi) hv) ?_ (fun _ _ h => h)
  intro rawCount u hu
  refine wp_mono (checkCancel_spec u) ?_ (fun e v h => h.2)
  intro _ x hx
  have hs := hx.steady
  refine ⟨hs.yielded.trans hu.yielded, ?_⟩
  simp [hu.rawCount_eq, hs.count.trans hu.count]

omit [DecidableEq τ] in
theorem encounterFinish_spec (w : World τ) :
    wp (encounterFinish env options.limits) (fun _ v => Undelivered w v)
      (fun e _ => Fires env options raw e) w := by
  simp only [encounterFinish, wp_bind, wp_get, recordMetrics, wp_modify]
  have hclose : ∀ {E : PyError → World τ → Prop} (v : World τ),
      wp (closeIndex env) (fun _ u => Undelivered v u) E v := by
    intro E v
    simp only [closeIndex, wp_bind, wp_get, wp_modify]
    refine wp_runIf (fun _ => ?_) (fun _ => ⟨rfl, rfl⟩)
    exact wp_mono (cleanup_spec v) (fun _ u hu => ⟨hu.yielded, hu.statistics⟩) (fun _ _ h => h)
  have hboth : wp (andFinally (indexMetrics env options.limits) (closeIndex env))
      (fun _ v => Undelivered w v) (fun e _ => Fires env options raw e) w := by
    refine wp_andFinally (Q := Undelivered w) ?_ ?_ ?_
    · simp only [indexMetrics, wp_bind, wp_get]
      refine wp_runIf (fun _ => ?_) (fun _ => ⟨rfl, rfl⟩)
      exact wp_mono (@checkSize_spec τ _ env options raw w)
        (fun _ u hu => ⟨hu.yielded, hu.statistics⟩) (fun _ _ h => h)
    · exact fun v hv => wp_mono (hclose v)
        (fun _ u hu => ⟨hu.yielded.trans hv.yielded, hu.statistics.trans hv.statistics⟩)
        (fun _ _ h => h)
    · exact fun e v h => wp_mono (hclose v) (fun _ _ _ => h) (fun _ _ h => h)
  exact wp_mono hboth (fun _ v hv => ⟨hv.yielded, hv.statistics⟩) (fun _ _ h => h)

/-- Two distinct edges, the second with the lone surrogate U+D800 in its source. -/
def surrogateEdges : List (Edge PyStr) :=
  [⟨[.scalar 'a'], [.scalar 'r'], [.scalar 'x']⟩,
    ⟨[.surrogate 0], [.scalar 'r'], [.scalar 'x']⟩]

def raised {τ : Type} : EStateM.Result PyError (World τ) Unit → Option PyError
  | .ok _ _ => none
  | .error e _ => some e

end Projector.Streaming
