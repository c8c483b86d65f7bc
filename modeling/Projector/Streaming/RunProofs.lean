import Projector.Streaming.Policy

namespace Projector.Streaming
open Lib

variable {τ : Type}

/-- A step that only asked the environment something. -/
def Ticked (w v : World τ) : Prop := ∃ clock, v = { w with clock := clock }

theorem Ticked.refl (w : World τ) : Ticked w w := ⟨w.clock, rfl⟩

theorem Ticked.trans {u v w : World τ} (h : Ticked u v) (h' : Ticked v w) : Ticked u w := by
  obtain ⟨_, rfl⟩ := h
  obtain ⟨c, rfl⟩ := h'
  exact ⟨c, rfl⟩

/-- A step that left the files, the name supply and the delivered edges alone. -/
structure Quiet (w v : World τ) : Prop where
  files : v.files = w.files
  nextPath : v.nextPath = w.nextPath
  yielded : v.yielded = w.yielded
  statistics : v.statistics = w.statistics
  index : v.index = w.index

theorem Quiet.refl (w : World τ) : Quiet w w := ⟨rfl, rfl, rfl, rfl, rfl⟩

theorem Quiet.trans {u v w : World τ} (h : Quiet u v) (h' : Quiet v w) : Quiet u w :=
  ⟨h'.files.trans h.files, h'.nextPath.trans h.nextPath, h'.yielded.trans h.yielded,
    h'.statistics.trans h.statistics, h'.index.trans h.index⟩

theorem Ticked.quiet {w v : World τ} (h : Ticked w v) : Quiet w v := by
  obtain ⟨_, rfl⟩ := h
  exact ⟨rfl, rfl, rfl, rfl, rfl⟩

/-- Unlinking touches one file at most. -/
theorem unlink_spec {env : Environment} {E : PyError → World τ → Prop} (path : Path) (w : World τ) :
    wp (unlink env path) (fun _ v => Ticked w v ∨
      Ticked { w with files := Function.update w.files path none } v) E w := by
  simp only [unlink, tick, wp_bind, wp_modifyGet]
  cases hf : env.unlinkFault w.clock with
  | none => exact Or.inr ⟨w.clock + 1, rfl⟩
  | some error => exact Or.inl ⟨_, rfl⟩

section
variable [PyText τ]

/-- The spill record of an edge; empty for an edge without one. -/
def record (edge : Edge τ) : Bytes :=
  match edge.encoded? with
  | some (s, r, d) => encodeRecord s r d
  | none => []

def payload (edges : List (Edge τ)) : Bytes := (edges.map record).flatten

@[simp]
theorem payload_nil : payload ([] : List (Edge τ)) = [] := rfl

@[simp]
theorem payload_cons (edge : Edge τ) (edges : List (Edge τ)) :
    payload (edge :: edges) = record edge ++ payload edges := rfl

theorem payload_append (xs ys : List (Edge τ)) : payload (xs ++ ys) = payload xs ++ payload ys := by
  simp [payload]

def limitOf (limits : StreamingLimits) : String → Option Nat
  | "max_total_edges" => limits.maxTotalEdges
  | "max_spill_bytes" => limits.maxSpillBytes
  | "max_temporary_bytes" => limits.maxTemporaryBytes
  | _ => none

/-- The errors that a limit, an I/O failure or a cancellation accounts for. Each names
the answer of the environment or the bound behind it. -/
inductive Fires (env : Environment) (options : PolicyOptions) (raw : List (Edge τ)) :
    PyError → Prop where
  | io {now fault} : env.fault now = some fault → Fires env options raw (.io fault)
  | os {now error} (stage) : env.fault now = some (.os error) →
      Fires env options raw (osResourceError stage error)
  | read {now error} : env.fault now = some (.os error) →
      Fires env options raw (corruptRun error.typeName)
  | buffer {now fault} : env.fault now = some fault →
      Fires env options raw (runBufferError fault.typeName)
  | allocation {now fault} (stage) : env.fault now = some fault →
      Fires env options raw (allocationResourceError stage fault.typeName)
  | sqlite {now error} : env.sqliteFault now = some error →
      Fires env options raw (sqliteResourceError error)
  | cancelled {now} : env.cancelled now = true → Fires env options raw .cancelled
  | directory {name} : options.tempDirectory = some name → env.isDirectory name = false →
      Fires env options raw tempDirectoryError
  | limit {name observed allowed} (stage) : limitOf options.limits name = some allowed →
      allowed < observed → Fires env options raw (limitError name observed allowed stage)
  | space {now required} (stage) : env.diskFree now < required →
      Fires env options raw (spaceExhausted stage required (env.diskFree now))
  | field {edge} : edge ∈ raw → encodeEdge edge = .error fieldBoundError →
      Fires env options raw fieldBoundError
  | packed {edges} : edges.Subperm raw → 256 ^ 8 ≤ (payload edges).length →
      Fires env options raw .struct

/-- The errors of a reader that has nothing to object to the file itself. -/
inductive ReadFault (env : Environment) : PyError → Prop where
  | os {now error} : env.fault now = some (.os error) → ReadFault env (corruptRun error.typeName)
  | io {now fault} : env.fault now = some fault → ReadFault env (.io fault)

section Primitives
variable {env : Environment} {options : PolicyOptions} {raw : List (Edge τ)}

theorem ReadFault.fires {e : PyError} (h : ReadFault env e) : Fires env options raw e := by
  cases h with
  | os hf => exact .read hf
  | io hf => exact .io hf

theorem io_spec (w : World τ) :
    wp (io env) (fun _ v => Ticked w v) (fun e v => Ticked w v ∧ Fires env options raw e) w := by
  simp only [io, tick, wp_bind, wp_modifyGet]
  cases hf : env.fault w.clock with
  | none => exact ⟨_, rfl⟩
  | some fault => exact ⟨⟨_, rfl⟩, .io hf⟩

theorem checkCancel_spec (w : World τ) :
    wp (checkCancel env) (fun _ v => Ticked w v)
      (fun e v => Ticked w v ∧ Fires env options raw e) w := by
  simp only [checkCancel, tick, wp_bind, wp_modifyGet]
  exact wp_raiseIf (fun hc => ⟨⟨_, rfl⟩, .cancelled hc⟩) (fun _ => ⟨_, rfl⟩)

theorem pollCancel_spec (count : Nat) (w : World τ) :
    wp (pollCancel env options.limits count) (fun _ v => Ticked w v)
      (fun e v => Ticked w v ∧ Fires env options raw e) w :=
  wp_runIf (fun _ => checkCancel_spec w) (fun _ => Ticked.refl w)

theorem diskUsage_spec (stage : String) (w : World τ) :
    wp (diskUsage env stage) (fun free v => Ticked w v ∧ ∃ now, free = env.diskFree now)
      (fun e v => Ticked w v ∧ Fires env options raw e) w := by
  simp only [diskUsage, tick, wp_bind, wp_modifyGet]
  cases hf : env.fault w.clock with
  | none => exact ⟨⟨_, rfl⟩, _, rfl⟩
  | some fault =>
    cases fault with
    | os error => exact ⟨⟨_, rfl⟩, .os stage hf⟩
    | memory => exact ⟨⟨_, rfl⟩, .io hf⟩
    | overflow => exact ⟨⟨_, rfl⟩, .io hf⟩

omit [PyText τ] in
theorem readIo_spec (w : World τ) :
    wp (readIo env) (fun _ v => Ticked w v) (fun e v => Ticked w v ∧ ReadFault env e) w := by
  simp only [readIo, tick, wp_bind, wp_modifyGet]
  cases hf : env.fault w.clock with
  | none => exact ⟨_, rfl⟩
  | some fault =>
    cases fault with
    | os error => exact ⟨⟨_, rfl⟩, .os hf⟩
    | memory => exact ⟨⟨_, rfl⟩, .io hf⟩
    | overflow => exact ⟨⟨_, rfl⟩, .io hf⟩

theorem enforceEdgeLimit_spec (observed : Nat) (w : World τ) :
    wp (enforceEdgeLimit options.limits observed) (fun _ v => v = w)
      (fun e v => v = w ∧ Fires env options raw e) w := by
  simp only [enforceEdgeLimit]
  cases hl : options.limits.maxTotalEdges with
  | none => rfl
  | some allowed => exact wp_raiseIf (fun ho => ⟨rfl, .limit _ hl ho⟩) (fun _ => rfl)

theorem enforceBytes_spec {name : String} {allowed : Option Nat} (observed : Nat) (stage : String)
    (hl : limitOf options.limits name = allowed) (w : World τ) :
    wp (enforceBytes name allowed observed stage) (fun _ v => v = w)
      (fun e v => v = w ∧ Fires env options raw e) w := by
  cases allowed with
  | none => rfl
  | some allowed => exact wp_raiseIf (fun ho => ⟨rfl, .limit _ hl ho⟩) (fun _ => rfl)

theorem availableFor_spec (amount : Nat) (stage : String) (w : World τ) :
    wp (availableFor env amount stage)
      (fun free v => Quiet w v ∧ (amount > free → ∃ now, free = env.diskFree now))
      (fun e v => Quiet w v ∧ Fires env options raw e) w := by
  simp only [availableFor, wp_bind, wp_get, wp_ite]
  split
  · simp only [wp_modify, wp_pure]
    refine wp_mono (diskUsage_spec stage w) ?_ (fun e u h => ⟨h.1.quiet, h.2⟩)
    rintro free v ⟨⟨_, rfl⟩, hfree⟩
    exact ⟨⟨rfl, rfl, rfl, rfl, rfl⟩, fun _ => hfree⟩
  · rename_i hle
    exact ⟨Quiet.refl w, fun h => absurd h hle⟩

theorem grow_spec (amount : Nat) (stage : String) (w : World τ) :
    wp (grow env options.limits amount stage) (fun _ v => Quiet w v)
      (fun e v => Quiet w v ∧ Fires env options raw e) w := by
  simp only [grow, wp_bind, wp_get]
  refine wp_mono (enforceBytes_spec _ stage rfl w) ?_ (fun e u h => ⟨h.1 ▸ Quiet.refl w, h.2⟩)
  rintro - v rfl
  refine wp_mono (enforceBytes_spec _ stage rfl v) ?_ (fun e u h => ⟨h.1 ▸ Quiet.refl v, h.2⟩)
  rintro - u rfl
  refine wp_mono (availableFor_spec amount stage u) ?_ (fun e v h => h)
  rintro free v ⟨hq, hfree⟩
  refine wp_raiseIf ?_ ?_
  · intro hlt
    obtain ⟨now, rfl⟩ := hfree hlt
    exact ⟨hq, .space stage hlt⟩
  · intro _
    exact ⟨hq.files, hq.nextPath, hq.yielded, hq.statistics, hq.index⟩

end Primitives

section Records
variable {env : Environment} {options : PolicyOptions} {raw : List (Edge τ)}

theorem encodeEdge_cases {edge : Edge τ} (h : edge.encodable = true) :
    encodeEdge edge = .ok (record edge) ∨ encodeEdge edge = .error fieldBoundError := by
  obtain ⟨⟨s, r, d⟩, hs⟩ := Option.isSome_iff_exists.mp h
  simp only [encodeEdge, record, hs]
  split
  · exact Or.inr rfl
  · exact Or.inl rfl

theorem encodeEdge_spec {edge : Edge τ} (henc : edge.encodable = true) (hr : edge ∈ raw)
    (w : World τ) :
    wp (liftExcept (encodeEdge edge)) (fun bytes v => v = w ∧ bytes = record edge ∧
      encodeEdge edge = .ok (record edge)) (fun e v => v = w ∧ Fires env options raw e) w := by
  rcases encodeEdge_cases henc with h | h
  · rw [h]
    exact ⟨rfl, rfl, rfl⟩
  · rw [h]
    exact ⟨rfl, .field hr h⟩

theorem appendFile_spec (path : Path) (bytes : Bytes) (w : World τ) :
    wp (appendFile env path bytes) (fun _ v => Quiet { w with
        files := Function.update w.files path (some ((w.files path).getD [] ++ bytes)) } v)
      (fun e v => Ticked w v ∧ Fires env options raw e) w := by
  simp only [appendFile, wp_bind, wp_modify]
  refine wp_mono (io_spec w) ?_ (fun _ _ h => h)
  rintro - _ ⟨_, rfl⟩
  exact ⟨rfl, rfl, rfl, rfl, rfl⟩

theorem overwriteStart_spec (path : Path) (bytes : Bytes) (w : World τ) :
    wp (overwriteStart env path bytes) (fun _ v => Quiet { w with
        files := Function.update w.files path
          (some (bytes ++ ((w.files path).getD []).drop bytes.length)) } v)
      (fun e v => Ticked w v ∧ Fires env options raw e) w := by
  simp only [overwriteStart, wp_bind, wp_modify]
  refine wp_mono (io_spec w) ?_ (fun _ _ h => h)
  rintro - _ ⟨_, rfl⟩
  exact ⟨rfl, rfl, rfl, rfl, rfl⟩

/-- Nothing but the file at `path` differs from `w`. -/
structure OnlyFile (path : Path) (w v : World τ) : Prop where
  files : ∀ q, q ≠ path → v.files q = w.files q
  yielded : v.yielded = w.yielded
  statistics : v.statistics = w.statistics
  index : v.index = w.index

omit [PyText τ] in
theorem OnlyFile.trans {path : Path} {u v w : World τ} (h : OnlyFile path u v)
    (h' : OnlyFile path v w) : OnlyFile path u w :=
  ⟨fun q hq => (h'.files q hq).trans (h.files q hq), h'.yielded.trans h.yielded,
    h'.statistics.trans h.statistics, h'.index.trans h.index⟩

omit [PyText τ] in
theorem Quiet.onlyFile {w v : World τ} (path : Path) (h : Quiet w v) : OnlyFile path w v :=
  ⟨fun q _ => congrFun h.files q, h.yielded, h.statistics, h.index⟩

/-- The state of the write loop after `done`: `start` is the world in which the run's
file was created. -/
structure Writing (start : World τ) (path : Path) (done : List (Edge τ)) (p : RunProgress)
    (w : World τ) : Prop where
  progress : p = ⟨done.length, (payload done).length, payload done⟩
  content : w.files path = some (List.replicate runHeaderSize 0 ++ payload done)
  storable : ∀ edge ∈ done, encodeEdge edge = .ok (record edge)
  others : OnlyFile path start w
  nextPath : w.nextPath = start.nextPath

theorem Writing.quiet {start w v : World τ} {path : Path} {done : List (Edge τ)}
    {p : RunProgress} (h : Writing start path done p w) (hq : Quiet w v) :
    Writing start path done p v where
  progress := h.progress
  content := by rw [hq.files, h.content]
  storable := h.storable
  others := h.others.trans (hq.onlyFile path)
  nextPath := hq.nextPath.trans h.nextPath

theorem writeEdge_spec {start w : World τ} {path : Path} {done : List (Edge τ)}
    {p : RunProgress} {edge : Edge τ} (h : Writing start path done p w)
    (henc : edge.encodable = true) (hr : edge ∈ raw) :
    wp (writeEdge env options.limits path p edge) (Writing start path (done ++ [edge]))
      (fun e _ => Fires env options raw e) w := by
  simp only [writeEdge, wp_bind, wp_pure, account, wp_modify]
  refine wp_mono (pollCancel_spec p.count w) ?_ (fun e v h => h.2)
  rintro - v hv
  refine wp_mono (encodeEdge_spec henc hr v) ?_ (fun e v h => h.2)
  rintro _ _ ⟨rfl, rfl, hok⟩
  refine wp_mono (grow_spec (record edge).length "run-write" _) ?_ (fun e v h => h.2)
  rintro - u hu
  refine wp_mono (appendFile_spec path (record edge) _) ?_ (fun e v h => h.2)
  rintro - x hx
  have hu' := (h.quiet hv.quiet).quiet hu
  refine ⟨?_, ?_, ?_, ?_, ?_⟩
  · simp [hu'.progress, payload_append]
  · rw [hx.files]
    simp [hu'.content, payload_append]
  · intro e he
    rcases List.mem_append.mp he with he | he
    · exact h.storable e he
    · rw [List.mem_singleton.mp he]
      exact hok
  · refine hu'.others.trans ⟨?_, hx.yielded, hx.statistics, hx.index⟩
    intro q hq
    rw [hx.files]
    simp [Function.update_of_ne hq]
  · exact hx.nextPath.trans hu'.nextPath

/-- The bytes of a finished run file. -/
def runBytes (env : Environment) (edges : List (Edge τ)) : Bytes :=
  runMagic ++ bigEndian 8 edges.length ++ bigEndian 8 (payload edges).length ++
    env.sha256 (payload edges) ++ payload edges

/-- The file of `run` holds exactly `edges`. -/
structure Stored (env : Environment) (w : World τ) (run : Run) (edges : List (Edge τ)) :
    Prop where
  content : w.files run.path = some (runBytes env edges)
  edgeCount : run.edgeCount = edges.length
  payloadBytes : run.payloadBytes = (payload edges).length
  count_fits : edges.length < 256 ^ 8
  payload_fits : (payload edges).length < 256 ^ 8
  storable : ∀ edge ∈ edges, encodeEdge edge = .ok (record edge)
  created : run.path < w.nextPath
  marked : env.sha256 (payload edges) ≠ List.replicate 32 0

/-- What a finished write adds to the world it started in. -/
structure Wrote (w : World τ) (run : Run) (v : World τ) : Prop where
  path : run.path = w.nextPath
  nextPath : v.nextPath = w.nextPath + 1
  others : OnlyFile w.nextPath w v

theorem record_length_pos {edge : Edge τ} (h : encodeEdge edge = .ok (record edge)) :
    0 < (record edge).length := by
  simp only [encodeEdge, record] at h ⊢
  cases he : edge.encoded? with
  | none => simp [he] at h
  | some t => simp [encodeRecord]

theorem length_le_payload {edges : List (Edge τ)}
    (h : ∀ edge ∈ edges, encodeEdge edge = .ok (record edge)) :
    edges.length ≤ (payload edges).length := by
  induction edges with
  | nil => simp
  | cons edge edges ih =>
    have hpos := record_length_pos (h edge (by simp))
    have htail := ih (fun e he => h e (List.mem_cons_of_mem _ he))
    simp only [List.length_cons, payload_cons, List.length_append]
    omega

theorem runHeader_length (n m : Nat) (digest : Bytes) (h : digest.length = 32) :
    (runMagic ++ bigEndian 8 n ++ bigEndian 8 m ++ digest).length = runHeaderSize := by
  simp [runMagic, h, runHeaderSize]

theorem Fires.io_inv {fault : IoFault} (h : Fires env options raw (.io fault)) :
    ∃ now, env.fault now = some fault := by
  generalize he : PyError.io fault = e at h
  cases h <;> simp only [osResourceError, corruptRun, runBufferError, allocationResourceError,
    sqliteResourceError, tempDirectoryError, limitError, spaceExhausted, fieldBoundError,
    reduceCtorEq, PyError.io.injEq] at he
  rename_i now fault' hf
  exact ⟨now, he ▸ hf⟩

omit [PyText τ] in
theorem forgetPartial_spec (w : World τ) :
    wp (forgetPartial env) (fun _ _ => True) (fun _ _ => False) w := by
  simp only [forgetPartial, wp_bind, wp_get]
  cases w.partialRun with
  | none => trivial
  | some p =>
    obtain ⟨path, accounted⟩ := p
    cases path with
    | none => trivial
    | some path =>
      simp only [wp_bind, wp_modify, wp_pure]
      exact wp_mono (unlink_spec path _) (fun _ _ _ => trivial) (fun _ _ h => h)

/-- The handlers rename an error without losing its cause. -/
theorem writeRunFailed_spec {Q : Run → World τ → Prop} {e : PyError}
    (h : Fires env options raw e) (w : World τ) :
    wp (writeRunFailed env e) Q (fun e _ => Fires env options raw e) w := by
  have hforget : ∀ {e' : PyError}, Fires env options raw e' →
      wp (do forgetPartial env; throw e') Q (fun e _ => Fires env options raw e) w := by
    intro e' h'
    simp only [wp_bind, wp_throw]
    exact wp_mono (forgetPartial_spec w) (fun _ _ _ => h') (fun _ _ h => h.elim)
  cases e with
  | resource message details => exact hforget h
  | io fault =>
    obtain ⟨now, hf⟩ := h.io_inv
    cases fault with
    | os error => exact hforget (.os _ hf)
    | memory => exact hforget (.buffer hf)
    | overflow => exact hforget (.buffer hf)
  | _ => exact h

variable {es : List (Edge τ)} {edges : Producer PyError (World τ) (Edge τ)}
  {P : World τ → Prop}

theorem packHeader_spec (hs : es.Subperm raw)
    (hst : ∀ edge ∈ es, encodeEdge edge = .ok (record edge)) (digest : Bytes) (w : World τ) :
    wp (liftExcept (packHeader es.length (payload es).length digest))
      (fun header v => v = w ∧ (payload es).length < 256 ^ 8 ∧
        header = runMagic ++ bigEndian 8 es.length ++ bigEndian 8 (payload es).length ++ digest)
      (fun e _ => Fires env options raw e) w := by
  have hlen := length_le_payload hst
  simp only [packHeader]
  by_cases hfit : (payload es).length < 256 ^ 8
  · rw [if_pos ⟨by omega, hfit⟩]
    exact ⟨rfl, hfit, rfl⟩
  · rw [if_neg (fun h => hfit h.2)]
    exact .packed hs (by omega)

theorem writeRunBody_spec (hy : Yields P Ticked (Fires env options raw) edges es)
    (hP : ∀ w v : World τ, w.nextPath ≤ v.nextPath →
      (∀ q, q < w.nextPath → v.files q = w.files q) → P w → P v)
    (henc : ∀ edge ∈ raw, edge.encodable = true) (hs : es.Subperm raw)
    (hz : env.sha256 (payload es) ≠ List.replicate 32 0) (w : World τ) (hw : P w) :
    wp (writeRunBody env options.limits edges)
      (fun run v => Stored env v run es ∧ Wrote w run v)
      (fun e _ => Fires env options raw e) w := by
  simp only [writeRunBody, wp_bind, wp_modifyGet, account, wp_modify]
  refine wp_mono (io_spec w) ?_ (fun e v h => h.2)
  rintro - _ ⟨_, rfl⟩
  refine wp_mono (io_spec _) ?_ (fun e v h => h.2)
  rintro - _ ⟨_, rfl⟩
  refine wp_mono (grow_spec runHeaderSize "run-header" _) ?_ (fun e v h => h.2)
  rintro - u hu
  refine wp_mono (appendFile_spec w.nextPath _ _) ?_ (fun e v h => h.2)
  rintro - v hv
  have hfile : ∀ q, v.files q = if q = w.nextPath then some (List.replicate runHeaderSize 0)
      else w.files q := by
    intro q
    rw [hv.files]
    by_cases hq : q = w.nextPath
    · simp [hq, hu.files]
    · simp [hq, hu.files]
  have hstart : Writing v w.nextPath [] ⟨0, 0, []⟩ v :=
    ⟨rfl, by simp [hfile], by simp, (Quiet.refl v).onlyFile _, rfl⟩
  have hnew : v.nextPath = w.nextPath + 1 := hv.nextPath.trans hu.nextPath
  have hPv : P v :=
    hP w v (hnew ▸ Nat.le_succ _) (fun q hq => by simp [hfile, Nat.ne_of_lt hq]) hw
  have hloop := hy (Writing v w.nextPath) (fun e _ => Fires env options raw e)
    (writeEdge env options.limits w.nextPath)
    (fun done p s t ht hi => hi.quiet ht.quiet)
    (fun _ _ _ _ _ hf => hf)
    (by
      intro done edge rest p s hx hi
      have hmem : edge ∈ raw := hs.subset (by simp [hx])
      exact writeEdge_spec hi (henc edge hmem) hmem)
    ⟨0, 0, []⟩ v hPv hstart
  refine wp_mono hloop ?_ (fun e v h => h)
  intro p x hx
  refine wp_mono (checkCancel_spec x) ?_ (fun e v h => h.2)
  intro _ y hy'
  have hxy := hx.quiet hy'.quiet
  rw [hxy.progress]
  refine wp_mono (packHeader_spec hs hxy.storable _ y) ?_ (fun e v h => h)
  rintro header _ ⟨rfl, hfit, rfl⟩
  refine wp_mono (overwriteStart_spec w.nextPath _ _) ?_ (fun e v h => h.2)
  intro _ z hz'
  refine wp_mono (io_spec z) ?_ (fun e v h => h.2)
  rintro - _ ⟨_, rfl⟩
  have hcount : es.length < 256 ^ 8 := lt_of_le_of_lt (length_le_payload hxy.storable) hfit
  have hnext : z.nextPath = w.nextPath + 1 := by
    rw [hz'.nextPath]
    exact hxy.nextPath.trans hnew
  refine ⟨⟨?_, rfl, rfl, hcount, hfit, hxy.storable, ?_, hz⟩, ⟨rfl, hnext, ⟨?_, ?_, ?_, ?_⟩⟩⟩
  · simp only [hz'.files, Function.update_self, hxy.content, Option.getD_some, runBytes]
    rw [List.drop_left' (by rw [List.length_replicate,
      runHeader_length _ _ _ (env.sha256_length _)])]
  · exact hnext ▸ Nat.lt_succ_self _
  · intro q hq
    simp only [hz'.files, Function.update_of_ne hq, hxy.others.files q hq, hfile, if_neg hq]
  · exact (hz'.yielded.trans hxy.others.yielded).trans (hv.yielded.trans hu.yielded)
  · exact (hz'.statistics.trans hxy.others.statistics).trans (hv.statistics.trans hu.statistics)
  · exact (hz'.index.trans hxy.others.index).trans (hv.index.trans hu.index)

/-- A write either stores exactly the edges its source yields in a new file, or fails
for a reason that the caller's limits or environment gave. -/
theorem writeRun_spec (hy : Yields P Ticked (Fires env options raw) edges es)
    (hP : ∀ w v : World τ, w.nextPath ≤ v.nextPath →
      (∀ q, q < w.nextPath → v.files q = w.files q) → P w → P v)
    (henc : ∀ edge ∈ raw, edge.encodable = true) (hs : es.Subperm raw)
    (hz : env.sha256 (payload es) ≠ List.replicate 32 0) (w : World τ) (hw : P w) :
    wp (writeRun env options.limits edges) (fun run v => Stored env v run es ∧ Wrote w run v)
      (fun e _ => Fires env options raw e) w := by
  simp only [writeRun, wp_bind, wp_modify, wp_tryCatch]
  have hbody := writeRunBody_spec hy hP henc hs hz
    { w with partialRun := some ⟨none, 0⟩ } (hP w _ (Nat.le_refl _) (fun _ _ => rfl) hw)
  exact wp_mono hbody (fun run v h => ⟨h.1, ⟨h.2.path, h.2.nextPath,
    ⟨h.2.others.files, h.2.others.yielded, h.2.others.statistics, h.2.others.index⟩⟩⟩)
    (fun e v h => writeRunFailed_spec h v)

end Records

end

end Projector.Streaming
