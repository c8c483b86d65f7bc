import Projector.Streaming.RunCodec

namespace Projector.Streaming
open Lib

section Clock
variable {τ : Type} {env : Environment}

/-- A step that only asked the environment something, some calls later. -/
def Later (w v : World τ) : Prop := ∃ calls, v = { w with clock := w.clock + calls }

theorem Later.refl (w : World τ) : Later w w := ⟨0, rfl⟩

theorem Later.trans {u v w : World τ} (h : Later u v) (h' : Later v w) : Later u w := by
  obtain ⟨n, rfl⟩ := h
  obtain ⟨m, rfl⟩ := h'
  exact ⟨n + m, by simp [Nat.add_assoc]⟩

theorem Later.clock_le {w v : World τ} (h : Later w v) : w.clock ≤ v.clock := by
  obtain ⟨n, rfl⟩ := h
  exact Nat.le_add_right _ _

theorem later_tick (w : World τ) : Later w { w with clock := w.clock + 1 } := ⟨1, rfl⟩

/-- The errors that `_write_run` answers by forgetting the run. -/
def RolledBack : PyError → Prop
  | .resource _ _ => True
  | .io _ => True
  | _ => False

theorem io_later (w : World τ) :
    wp (io env) (fun _ v => Later w v) (fun e v => Later w v ∧ RolledBack e) w := by
  simp only [io, tick, wp_bind, wp_modifyGet]
  cases env.fault w.clock with
  | none => exact later_tick w
  | some fault => exact ⟨later_tick w, trivial⟩

theorem readIo_later (w : World τ) :
    wp (readIo env) (fun _ v => Later w v) (fun e v => Later w v ∧ RolledBack e) w := by
  simp only [readIo, tick, wp_bind, wp_modifyGet]
  cases env.fault w.clock with
  | none => exact later_tick w
  | some fault =>
    cases fault with
    | os error => exact ⟨later_tick w, trivial⟩
    | memory => exact ⟨later_tick w, trivial⟩
    | overflow => exact ⟨later_tick w, trivial⟩

theorem diskUsage_later (stage : String) (w : World τ) :
    wp (diskUsage env stage) (fun _ v => Later w v) (fun e v => Later w v ∧ RolledBack e) w := by
  simp only [diskUsage, tick, wp_bind, wp_modifyGet]
  cases env.fault w.clock with
  | none => exact later_tick w
  | some fault =>
    cases fault with
    | os error => exact ⟨later_tick w, trivial⟩
    | memory => exact ⟨later_tick w, trivial⟩
    | overflow => exact ⟨later_tick w, trivial⟩

/-- A cancellation fired at a call between two states. -/
def CancelledIn (env : Environment) (start : Nat) (v : World τ) : Prop :=
  ∃ now, start ≤ now ∧ now < v.clock ∧ env.cancelled now = true

theorem CancelledIn.mono {start : Nat} {v u : World τ} (h : CancelledIn env start v)
    (hle : v.clock ≤ u.clock) : CancelledIn env start u := by
  obtain ⟨now, hstart, hnow, hfired⟩ := h
  exact ⟨now, hstart, lt_of_lt_of_le hnow hle, hfired⟩

theorem CancelledIn.sooner {start earlier : Nat} {v : World τ} (h : CancelledIn env start v)
    (hle : earlier ≤ start) : CancelledIn env earlier v := by
  obtain ⟨now, hstart, hnow⟩ := h
  exact ⟨now, le_trans hle hstart, hnow⟩

theorem checkCancel_later (w : World τ) :
    wp (checkCancel env) (fun _ v => Later w v)
      (fun e v => Later w v ∧ e = .cancelled ∧ CancelledIn env w.clock v) w := by
  simp only [checkCancel, tick, wp_bind, wp_modifyGet]
  refine wp_raiseIf (fun hc => ⟨later_tick w, rfl, w.clock, Nat.le_refl _, Nat.lt_succ_self _, hc⟩)
    (fun _ => later_tick w)

theorem pollCancel_later (limits : StreamingLimits) (count : Nat) (w : World τ) :
    wp (pollCancel env limits count) (fun _ v => Later w v)
      (fun e v => Later w v ∧ e = .cancelled ∧ CancelledIn env w.clock v) w :=
  wp_runIf (fun _ => checkCancel_later w) (fun _ => Later.refl w)

end Clock

section Feeding
variable {τ : Type} [PyText τ] {env : Environment} {p : Producer PyError (World τ) (Edge τ)}
  {limit : Nat}

/-- A generator of edges that can be encoded, in records of `limit` bytes at most. Its own steps
only take time; it fails by errors that `_write_run` handles, or because of a cancellation. -/
def Feeds (env : Environment) (limit : Nat) (p : Producer PyError (World τ) (Edge τ)) : Prop :=
  ∀ ⦃β : Type⦄ (I : Nat → β → World τ → Prop) (E : PyError → World τ → Prop)
    (body : β → Edge τ → M τ β),
    (∀ n b s t, Later s t → I n b s → I n b t) →
    (∀ n b s e, RolledBack e → I n b s → E e s) →
    (∀ n b s t, Later s t → CancelledIn env s.clock t → I n b s → E .cancelled t) →
    (∀ n b s edge, edge.encodable = true → n + (record edge).length ≤ limit → I n b s →
      wp (body b edge) (I (n + (record edge).length)) E s) →
    ∀ b s, I 0 b s → wp (p.fold body b) (fun b t => ∃ n ≤ limit, I n b t) E s

theorem feeds_ofList {edges : List (Edge τ)} (henc : ∀ edge ∈ edges, edge.encodable = true) :
    Feeds env (payload edges).length (Producer.ofList edges) := by
  intro β I E body _ _ _ hbody b s hstart
  have hfold : ∀ (rest : List (Edge τ)) (n : Nat) (b : β) (s : World τ),
      (∀ edge ∈ rest, edge.encodable = true) → n + (payload rest).length ≤ (payload edges).length →
      I n b s → wp (rest.foldlM body b) (fun b t => ∃ n ≤ (payload edges).length, I n b t) E s := by
    intro rest
    induction rest with
    | nil => exact fun n b s _ hn hi => ⟨n, by simpa using hn, hi⟩
    | cons edge rest ih =>
      intro n b s hrest hn hi
      rw [payload_cons, List.length_append] at hn
      simp only [List.foldlM_cons, wp_bind]
      refine wp_mono (hbody n b s edge (hrest edge List.mem_cons_self) (by omega) hi) ?_
        (fun _ _ h => h)
      intro b' t hi'
      exact ih _ b' t (fun e he => hrest e (List.mem_cons_of_mem _ he)) (by omega) hi'
  exact hfold edges 0 b s henc (by omega) hstart

/-- Without repetitions a generator needs no more bytes. -/
theorem Feeds.coalesce [DecidableEq τ] (h : Feeds env limit p) : Feeds env limit p.coalesce := by
  intro β I E body hlater hback hcancel hbody b s hstart
  have hinner := h (fun n (state : Option (Edge τ) × β) t => ∃ m ≤ n, I m state.2 t) E
    (fun (last, b) a => if last = some a then pure (last, b) else do
      let b ← body b a
      pure (some a, b))
    (fun n b s t hst ⟨m, hm, hi⟩ => ⟨m, hm, hlater m _ s t hst hi⟩)
    (fun n b s e he ⟨m, _, hi⟩ => hback m _ s e he hi)
    (fun n b s t hst hfired ⟨m, _, hi⟩ => hcancel m _ s t hst hfired hi)
    (by
      rintro n ⟨last, b⟩ s edge henc hn ⟨m, hm, hi⟩
      dsimp only at hi ⊢
      split
      · exact ⟨m, by omega, hi⟩
      · simp only [wp_bind, wp_pure]
        refine wp_mono (hbody m b s edge henc (by omega) hi) ?_ (fun _ _ h => h)
        exact fun b' t hi' => ⟨_, by omega, hi'⟩)
    (none, b) s ⟨0, Nat.le_refl _, hstart⟩
  simp only [Producer.coalesce, wp_bind, wp_pure]
  refine wp_mono hinner ?_ (fun _ _ h => h)
  rintro ⟨last, b'⟩ t ⟨n, hn, m, hm, hi⟩
  exact ⟨m, le_trans hm hn, hi⟩

theorem Feeds.byPolicy [DecidableEq τ] (h : Feeds env limit p) (duplicates : DuplicatePolicy) :
    Feeds env limit (byPolicy duplicates p) := by
  cases duplicates with
  | preserve => exact h
  | unique => exact h.coalesce

end Feeding

section Merging
variable {τ : Type} [PyText τ] [StrictText τ] {env : Environment} {limits : StreamingLimits}

/-- The records a reader still has to deliver, and their bytes. -/
def RunReader.countLeft (reader : RunReader) : Nat := reader.expectedCount - reader.count

def RunReader.bytesLeft (reader : RunReader) : Nat :=
  reader.expectedPayloadBytes - reader.payloadBytes

structure Sound (reader : RunReader) : Prop where
  live : Live reader
  bytes : reader.payloadBytes ≤ reader.expectedPayloadBytes

theorem readRecord_fits {remaining : Nat} {stream bytes left : Bytes} {edge : Edge τ}
    (h : readRecord remaining stream = .ok (edge, bytes, left)) :
    edge.encodable = true ∧ (record edge).length = bytes.length ∧ bytes.length ≤ remaining := by
  obtain ⟨hencode, -⟩ := readRecord_inv h
  have hrecord := record_eq hencode
  subst hrecord
  obtain ⟨s, r, d, hencoded, hbytes, -⟩ := encodeEdge_inv hencode
  refine ⟨by simp [Edge.encodable, hencoded], rfl, ?_⟩
  obtain ⟨⟨lengths, rest⟩, hlengths, h⟩ := bind_ok h
  obtain ⟨-, hlen⟩ := readExact_inv hlengths
  dsimp only at h
  split at h
  · cases h
  rename_i hfits
  obtain ⟨⟨s', rest⟩, hs, h⟩ := bind_ok h
  obtain ⟨-, hslen⟩ := readExact_inv hs
  obtain ⟨⟨r', rest⟩, hr, h⟩ := bind_ok h
  obtain ⟨-, hrlen⟩ := readExact_inv hr
  obtain ⟨⟨d', rest⟩, hd, h⟩ := bind_ok h
  obtain ⟨-, hdlen⟩ := readExact_inv hd
  dsimp only at h
  split at h
  · simp only [pure, Except.pure, Except.ok.injEq, Prod.mk.injEq] at h
    obtain ⟨-, hsame, -⟩ := h
    rw [← hsame]
    simp only [List.length_append]
    omega
  · cases h

theorem next_feeds {reader : RunReader} (h : Sound reader) (w : World τ) :
    wp (reader.next env : M τ _)
      (fun r v => Later w v ∧ ∀ edge reader', r = some (edge, reader') → Sound reader' ∧
        edge.encodable = true ∧ reader'.countLeft + 1 = reader.countLeft ∧
        reader'.bytesLeft + (record edge).length = reader.bytesLeft)
      (fun e v => Later w v ∧ RolledBack e) w := by
  obtain ⟨stream, hstream⟩ := h.live.stream
  by_cases hc : reader.count = reader.expectedCount
  · simp only [RunReader.next, if_pos hc, wp_bind, wp_pure, RunReader.verify, h.live.unverified,
      hstream, Bool.false_eq_true, if_false]
    refine wp_mono (readIo_later w) ?_ (fun e v h => h)
    intro _ v hv
    exact wp_raiseIf (fun _ => ⟨hv, trivial⟩) (fun _ => ⟨hv, fun _ _ he => by cases he⟩)
  · simp only [RunReader.next, if_neg hc, hstream, wp_bind]
    refine wp_mono (readIo_later w) ?_ (fun e v h => h)
    intro _ v hv
    cases hr : readRecord (τ := τ) (reader.expectedPayloadBytes - reader.payloadBytes) stream with
    | error cause => exact ⟨hv, trivial⟩
    | ok found =>
      obtain ⟨edge, bytes, left⟩ := found
      obtain ⟨henc, hlength, hfits⟩ := readRecord_fits hr
      have hcount := h.live.count
      have hbytes := h.bytes
      refine ⟨hv, fun edge' reader' he => ?_⟩
      cases he
      refine ⟨⟨⟨⟨left, rfl⟩, h.live.unverified, ?_⟩, ?_⟩, henc, ?_, ?_⟩
      · dsimp only
        omega
      · dsimp only
        omega
      · simp only [RunReader.countLeft]
        omega
      · simp only [RunReader.bytesLeft]
        omega

omit [PyText τ] [StrictText τ] in
theorem open_feeds (run : Run) (w : World τ) :
    wp (RunReader.open env run : M τ _)
      (fun reader v => Later w v ∧ Sound reader ∧ reader.countLeft = run.edgeCount ∧
        reader.bytesLeft = run.payloadBytes)
      (fun e v => Later w v ∧ RolledBack e) w := by
  simp only [RunReader.open, wp_bind, wp_get]
  refine wp_mono (readIo_later w) ?_ (fun e v h => h)
  intro _ v hv
  cases v.files run.path with
  | none => exact ⟨hv, trivial⟩
  | some content =>
    dsimp only
    cases readExact content runHeaderSize with
    | error cause => exact ⟨hv, trivial⟩
    | ok found =>
      obtain ⟨header, stream⟩ := found
      dsimp only
      cases unpackHeader header with
      | mk magic fields =>
      obtain ⟨count, payloadBytes, digest⟩ := fields
      dsimp only
      split
      · exact ⟨hv, trivial⟩
      · rename_i hvalid
        simp only [not_or, not_not] at hvalid
        obtain ⟨-, rfl, rfl, -⟩ := hvalid
        exact ⟨hv, ⟨⟨⟨stream, rfl⟩, rfl, Nat.zero_le _⟩, Nat.zero_le _⟩, Nat.sub_zero _,
          Nat.sub_zero _⟩

def heapBytes (heap : MergeHeap τ) : Nat := (heap.map fun entry => (record entry.2).length).sum

/-- What open readers and a heap hold: their records and bytes do not exceed what is given. -/
structure Stocked (readers : List RunReader) (heap : MergeHeap τ) (count bytes : Nat) : Prop where
  sound : ∀ reader ∈ readers, Sound reader
  inside : ∀ entry ∈ heap, entry.1 < readers.length
  encodable : ∀ entry ∈ heap, entry.2.encodable = true
  count : heap.length + (readers.map RunReader.countLeft).sum ≤ count
  bytes : heapBytes heap + (readers.map RunReader.bytesLeft).sum ≤ bytes

theorem openReaders_feeds (runs : List Run) {readers : List RunReader} {heap : MergeHeap τ}
    {count bytes : Nat} (h : Stocked readers heap count bytes) (w : World τ) :
    wp (openReaders env runs readers heap)
      (fun r v => Later w v ∧ Stocked r.1 r.2 (count + (runs.map Run.edgeCount).sum)
        (bytes + (runs.map Run.payloadBytes).sum))
      (fun e v => Later w v ∧ RolledBack e) w := by
  induction runs generalizing readers heap count bytes w with
  | nil => exact ⟨Later.refl w, h⟩
  | cons run runs ih =>
    simp only [openReaders, wp_bind]
    refine wp_mono (open_feeds run w) ?_ (fun _ _ h => h)
    rintro reader v ⟨hv, hsound, hcount, hbytes⟩
    refine wp_mono (next_feeds hsound v) ?_ (fun _ _ h => ⟨hv.trans h.1, h.2⟩)
    rintro r u ⟨hu, hnext⟩
    have hwu := hv.trans hu
    have hcounts := h.count
    have hsizes := h.bytes
    have hgrown : ∀ entry ∈ heap, entry.1 < (readers ++ [reader]).length := fun entry he => by
      have := h.inside entry he
      simp only [List.length_append, List.length_singleton]
      omega
    cases r with
    | none =>
      have hmore : Stocked (readers ++ [reader]) heap (count + run.edgeCount)
          (bytes + run.payloadBytes) := by
        refine ⟨fun other ho => ?_, hgrown, h.encodable, ?_, ?_⟩
        · rcases List.mem_append.mp ho with ho | ho
          · exact h.sound other ho
          · exact List.mem_singleton.mp ho ▸ hsound
        · simp only [List.map_append, List.sum_append, List.map_singleton, List.sum_singleton]
          omega
        · simp only [List.map_append, List.sum_append, List.map_singleton, List.sum_singleton]
          omega
      refine wp_mono (ih hmore u) ?_ (fun _ _ h => ⟨hwu.trans h.1, h.2⟩)
      rintro found x ⟨hx, hstock⟩
      refine ⟨hwu.trans hx, ?_⟩
      simpa only [List.map_cons, List.sum_cons, Nat.add_assoc] using hstock
    | some delivered =>
      obtain ⟨edge, reader'⟩ := delivered
      obtain ⟨hsound', henc, hcount', hbytes'⟩ := hnext edge reader' rfl
      simp only [push_spec henc, wp_bind, wp_pure]
      have hmore : Stocked (readers ++ [reader']) (heap ++ [(readers.length, edge)])
          (count + run.edgeCount) (bytes + run.payloadBytes) := by
        refine ⟨fun other ho => ?_, fun entry he => ?_, fun entry he => ?_, ?_, ?_⟩
        · rcases List.mem_append.mp ho with ho | ho
          · exact h.sound other ho
          · exact List.mem_singleton.mp ho ▸ hsound'
        · simp only [List.length_append, List.length_singleton]
          rcases List.mem_append.mp he with he | he
          · have := h.inside entry he
            omega
          · rw [List.mem_singleton.mp he]
            exact Nat.lt_succ_self _
        · rcases List.mem_append.mp he with he | he
          · exact h.encodable entry he
          · rw [List.mem_singleton.mp he]
            exact henc
        · simp only [List.map_append, List.sum_append, List.map_singleton, List.sum_singleton,
            List.length_append, List.length_singleton]
          omega
        · unfold heapBytes at hsizes ⊢
          simp only [List.map_append, List.sum_append, List.map_singleton, List.sum_singleton]
          omega
      refine wp_mono (ih hmore u) ?_ (fun _ _ h => ⟨hwu.trans h.1, h.2⟩)
      rintro found x ⟨hx, hstock⟩
      refine ⟨hwu.trans hx, ?_⟩
      simpa only [List.map_cons, List.sum_cons, Nat.add_assoc] using hstock

omit [PyText τ] [StrictText τ] in
theorem sum_map_set {α : Type} {f : α → Nat} {xs : List α} {i : Nat} {x y : α}
    (h : xs[i]? = some x) : ((xs.set i y).map f).sum + f x = (xs.map f).sum + f y := by
  induction xs generalizing i with
  | nil => cases h
  | cons z xs ih =>
    cases i with
    | zero =>
      cases h
      simp only [List.set_cons_zero, List.map_cons, List.sum_cons]
      omega
    | succ i =>
      have hrest := ih (i := i) (by simpa using h)
      simp only [List.set_cons_succ, List.map_cons, List.sum_cons]
      omega

omit [StrictText τ] in
theorem heapBytes_perm {heap heap' : MergeHeap τ} (h : heap.Perm heap') :
    heapBytes heap = heapBytes heap' := (h.map _).sum_nat

omit [StrictText τ] in
/-- What is left in stock when the least entry of the heap is taken. -/
theorem Stocked.taken {readers : List RunReader} {heap heap' : MergeHeap τ} {index : Nat}
    {edge : Edge τ} {count bytes : Nat} (h : Stocked readers heap count bytes)
    (hperm : heap.Perm ((index, edge) :: heap')) :
    edge.encodable = true ∧ index < readers.length ∧
      Stocked readers heap' (count - 1) (bytes - (record edge).length) ∧
      0 < count ∧ (record edge).length ≤ bytes := by
  have hmem : ∀ entry ∈ (index, edge) :: heap', entry ∈ heap := fun entry he =>
    hperm.mem_iff.mpr he
  have hlength := hperm.length_eq
  have hsize := heapBytes_perm hperm
  have hcount := h.count
  have hbytes := h.bytes
  have hsplit : heapBytes ((index, edge) :: heap') = (record edge).length + heapBytes heap' := rfl
  rw [List.length_cons] at hlength
  refine ⟨h.encodable _ (hmem _ List.mem_cons_self), h.inside _ (hmem _ List.mem_cons_self),
    ⟨h.sound, fun entry he => h.inside entry (hmem _ (List.mem_cons_of_mem _ he)),
      fun entry he => h.encodable entry (hmem _ (List.mem_cons_of_mem _ he)), ?_, ?_⟩, ?_, ?_⟩
  · omega
  · omega
  · omega
  · omega

omit [StrictText τ] in
/-- A reader refills the heap with a record of its own. -/
theorem Stocked.refilled {readers : List RunReader} {reader reader' : RunReader}
    {heap : MergeHeap τ} {index : Nat} {edge : Edge τ} {count bytes : Nat}
    (h : Stocked readers heap count bytes) (hreader : readers[index]? = some reader)
    (hsound : Sound reader') (henc : edge.encodable = true)
    (hcount : reader'.countLeft + 1 = reader.countLeft)
    (hbytes : reader'.bytesLeft + (record edge).length = reader.bytesLeft) :
    Stocked (readers.set index reader') (heap ++ [(index, edge)]) count bytes := by
  have hindex := (List.getElem?_eq_some_iff.mp hreader).1
  have hcounts := h.count
  have hsizes := h.bytes
  have hsetCount := sum_map_set (f := RunReader.countLeft) (y := reader') hreader
  have hsetBytes := sum_map_set (f := RunReader.bytesLeft) (y := reader') hreader
  refine ⟨fun other ho => ?_, fun entry he => ?_, fun entry he => ?_, ?_, ?_⟩
  · rcases List.mem_or_eq_of_mem_set ho with ho | rfl
    · exact h.sound other ho
    · exact hsound
  · rw [List.length_set]
    rcases List.mem_append.mp he with he | he
    · exact h.inside entry he
    · rw [List.mem_singleton.mp he]
      exact hindex
  · rcases List.mem_append.mp he with he | he
    · exact h.encodable entry he
    · rw [List.mem_singleton.mp he]
      exact henc
  · rw [List.length_append, List.length_singleton]
    omega
  · unfold heapBytes at hsizes ⊢
    simp only [List.map_append, List.sum_append, List.map_singleton, List.sum_singleton]
    omega

theorem mergeFrom_feeds {β : Type} {I : Nat → β → World τ → Prop} {E : PyError → World τ → Prop}
    {body : β → Edge τ → M τ β} {limit : Nat}
    (hlater : ∀ n b s t, Later s t → I n b s → I n b t)
    (hback : ∀ n b s e, RolledBack e → I n b s → E e s)
    (hcancel : ∀ n b s t, Later s t → CancelledIn env s.clock t → I n b s → E .cancelled t)
    (hbody : ∀ n b s edge, edge.encodable = true → n + (record edge).length ≤ limit → I n b s →
      wp (body b edge) (I (n + (record edge).length)) E s)
    {turns n left emitted : Nat} {readers : List RunReader} {heap : MergeHeap τ} {b : β}
    {w : World τ} (hstock : Stocked readers heap turns left) (hn : n + left ≤ limit)
    (hi : I n b w) :
    wp (mergeFrom env limits body turns readers heap emitted b)
      (fun b t => ∃ n ≤ limit, I n b t) E w := by
  have hempty : ∀ {n : Nat} {b : β} {w : World τ}, n ≤ limit → I n b w →
      wp (do checkCancel env; pure b) (fun b t => ∃ n ≤ limit, I n b t) E w := by
    intro n b w hn hi
    simp only [wp_bind, wp_pure]
    refine wp_mono (checkCancel_later w) (fun _ v hv => ⟨n, hn, hlater n b w v hv hi⟩) ?_
    rintro e v ⟨hv, rfl, hfired⟩
    exact hcancel n b w v hv hfired hi
  induction turns generalizing n left emitted readers heap b w with
  | zero =>
    have hnil : heap = [] := List.length_eq_zero_iff.mp (by have := hstock.count; omega)
    subst hnil
    exact hempty (by omega) hi
  | succ turns ih =>
    unfold mergeFrom
    cases hp : popLeast (headKey Edge.canonicalKey) heap with
    | none => exact hempty (by omega) hi
    | some least =>
      obtain ⟨⟨index, edge⟩, heap'⟩ := least
      obtain ⟨hperm, -⟩ := popLeast_spec hp
      obtain ⟨henc, hindex, hrest, -, hsize⟩ := hstock.taken hperm
      have hreader : readers[index]? = some readers[index] := List.getElem?_eq_getElem hindex
      simp only [wp_bind, hreader]
      refine wp_mono (pollCancel_later limits emitted w) ?_ ?_
      · intro _ v hv
        refine wp_mono (hbody n b v edge henc (by omega) (hlater n b w v hv hi)) ?_ (fun _ _ h => h)
        intro b' u hi'
        refine wp_mono (next_feeds (hrest.sound _ (List.getElem_mem hindex)) u) ?_
          (fun e x h => hback _ b' x e h.2 (hlater _ b' u x h.1 hi'))
        rintro r x ⟨hx, hnext⟩
        have hix := hlater _ b' u x hx hi'
        cases r with
        | none => exact ih hrest (by omega) hix
        | some delivered =>
          obtain ⟨successor, reader'⟩ := delivered
          obtain ⟨hsound, henc', hcount, hbytes⟩ := hnext successor reader' rfl
          simp only [push_spec henc', wp_bind, wp_pure]
          exact ih (hrest.refilled hreader hsound henc' hcount hbytes) (by omega) hix
      · rintro e v ⟨hv, rfl, hfired⟩
        exact hcancel n b w v hv hfired hi

/-- A merge delivers no more than the payloads of its runs. -/
theorem feeds_merge (runs : List Run) :
    Feeds env (runs.map Run.payloadBytes).sum
      (merge env limits runs : Producer PyError (World τ) (Edge τ)) := by
  intro β I E body hlater hback hcancel hbody b s hstart
  simp only [merge, wp_bind]
  have hnone : Stocked ([] : List RunReader) ([] : MergeHeap τ) 0 0 :=
    ⟨by simp, by simp, by simp, Nat.le_refl _, Nat.le_refl _⟩
  refine wp_mono (openReaders_feeds runs hnone s) ?_
    (fun e v h => hback 0 b v e h.2 (hlater 0 b s v h.1 hstart))
  rintro ⟨readers, heap⟩ v ⟨hv, hstock⟩
  rw [Nat.zero_add, Nat.zero_add] at hstock
  exact mergeFrom_feeds hlater hback hcancel hbody hstock (by omega) (hlater 0 b s v hv hstart)

end Merging

end Projector.Streaming
