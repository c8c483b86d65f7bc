import Projector.Streaming.RunProofs

namespace Projector.Streaming
open Lib

theorem readExact_append (a b : Bytes) : readExact (a ++ b) a.length = .ok (a, b) := by
  simp [readExact]

theorem readExact_left {a b : Bytes} {n : Nat} (h : a.length = n) :
    readExact (a ++ b) n = .ok (a, b) := h ▸ readExact_append a b

theorem unpackHeader_pack {n m : Nat} (digest : Bytes) (hn : n < 256 ^ 8) (hm : m < 256 ^ 8) :
    unpackHeader (runMagic ++ bigEndian 8 n ++ bigEndian 8 m ++ digest) =
      (runMagic, n, m, digest) := by
  have hmagic : runMagic.length = 15 := rfl
  simp only [unpackHeader, List.append_assoc]
  rw [List.take_left' hmagic, List.drop_left' hmagic, List.take_left' (length_bigEndian 8 n),
    fromBigEndian_bigEndian hn]
  have h23 : (runMagic ++ (bigEndian 8 n ++ (bigEndian 8 m ++ digest))).drop 23 =
      bigEndian 8 m ++ digest := by
    rw [← List.append_assoc]
    exact List.drop_left' (by simp [hmagic])
  have h31 : (runMagic ++ (bigEndian 8 n ++ (bigEndian 8 m ++ digest))).drop 31 = digest := by
    rw [← List.append_assoc, ← List.append_assoc]
    exact List.drop_left' (by simp [hmagic])
  rw [h23, h31, List.take_left' (length_bigEndian 8 m), fromBigEndian_bigEndian hm]

section
variable {τ : Type} [PyText τ] {env : Environment} {options : PolicyOptions}
  {raw : List (Edge τ)}

theorem encodeEdge_inv {edge : Edge τ} (h : encodeEdge edge = .ok (record edge)) :
    ∃ s r d, edge.encoded? = some (s, r, d) ∧ record edge = encodeRecord s r d ∧
      s.length < 256 ^ 4 ∧ r.length < 256 ^ 4 ∧ d.length < 256 ^ 4 := by
  cases he : edge.encoded? with
  | none => simp [encodeEdge, he] at h
  | some t =>
    obtain ⟨s, r, d⟩ := t
    simp only [encodeEdge, he] at h
    split at h
    · simp at h
    · rename_i hle
      simp only [maxFieldBytes, not_or, not_lt] at hle
      exact ⟨s, r, d, rfl, by simp [record, he], by omega, by omega, by omega⟩

/-- Reading a record back gives the edge it was written for, and stops at its end. -/
theorem readRecord_record {edge : Edge τ} (h : encodeEdge edge = .ok (record edge))
    {remaining : Nat} (hr : (record edge).length ≤ remaining) (left : Bytes) :
    readRecord remaining (record edge ++ left) = .ok (edge, record edge, left) := by
  obtain ⟨s, r, d, he, hrec, hs, hr', hd⟩ := encodeEdge_inv h
  have hlen : (record edge).length = 12 + (s.length + r.length + d.length) := by
    simp [hrec, encodeRecord]
    omega
  have hdec : PyText.decode s = some edge.source ∧ PyText.decode r = some edge.relation ∧
      PyText.decode d = some edge.destination := by
    simp only [Edge.encoded?, Option.bind_eq_bind, Option.bind_eq_some_iff, Option.pure_def,
      Option.some.injEq, Prod.mk.injEq] at he
    obtain ⟨_, h1, _, h2, _, h3, rfl, rfl, rfl⟩ := he
    exact ⟨PyText.decode_encode h1, PyText.decode_encode h2, PyText.decode_encode h3⟩
  have hlengths : (bigEndian 4 s.length ++ bigEndian 4 r.length ++
      bigEndian 4 d.length).length = fieldLengthsSize := by
    simp [fieldLengthsSize]
  have hsplit : record edge ++ left = (bigEndian 4 s.length ++ bigEndian 4 r.length ++
      bigEndian 4 d.length) ++ (s ++ (r ++ (d ++ left))) := by
    simp [hrec, encodeRecord]
  have ht : (bigEndian 4 s.length ++ bigEndian 4 r.length ++ bigEndian 4 d.length).take 4 =
      bigEndian 4 s.length := by
    rw [List.append_assoc]
    exact List.take_left' (by simp)
  have hm : ((bigEndian 4 s.length ++ bigEndian 4 r.length ++ bigEndian 4 d.length).drop 4).take 4 =
      bigEndian 4 r.length := by
    rw [List.append_assoc, List.drop_left' (by simp)]
    exact List.take_left' (by simp)
  have hb : (bigEndian 4 s.length ++ bigEndian 4 r.length ++ bigEndian 4 d.length).drop 8 =
      bigEndian 4 d.length := List.drop_left' (by simp)
  rw [hsplit]
  simp only [readRecord, readExact_left hlengths, bind, Except.bind, ht, hm, hb,
    fromBigEndian_bigEndian hs, fromBigEndian_bigEndian hr', fromBigEndian_bigEndian hd]
  rw [if_neg (by simp only [fieldLengthsSize]; omega)]
  simp only [readExact_append, hdec.1, hdec.2.1, hdec.2.2, pure, Except.pure]
  simp [hrec, encodeRecord]

theorem Stored.congr {run : Run} {es : List (Edge τ)} {w v : World τ}
    (h : Stored env w run es) (hf : v.files run.path = w.files run.path)
    (hn : w.nextPath ≤ v.nextPath) : Stored env v run es :=
  ⟨hf.trans h.content, h.edgeCount, h.payloadBytes, h.count_fits, h.payload_fits, h.storable,
    lt_of_lt_of_le h.created hn, h.marked⟩

theorem Stored.ticked {run : Run} {es : List (Edge τ)} {w v : World τ}
    (h : Stored env w run es) (ht : Ticked w v) : Stored env v run es := by
  obtain ⟨_, rfl⟩ := ht
  exact ⟨h.content, h.edgeCount, h.payloadBytes, h.count_fits, h.payload_fits, h.storable,
    h.created, h.marked⟩

/-- A reader that has exactly `left` still to deliver, of a run that will verify. -/
structure Reading (env : Environment) (reader : RunReader) (left : List (Edge τ)) : Prop where
  stream : reader.stream = some (payload left)
  count : reader.expectedCount = reader.count + left.length
  bytes : reader.expectedPayloadBytes = reader.payloadBytes + (payload left).length
  digest : reader.expectedDigest = env.sha256 (reader.hashed ++ payload left)
  unverified : reader.verified = false
  storable : ∀ edge ∈ left, encodeEdge edge = .ok (record edge)

theorem open_spec {run : Run} {es : List (Edge τ)} {v w : World τ} (h : Stored env v run es)
    (hfile : w.files run.path = v.files run.path) :
    wp (RunReader.open env run) (fun reader v => Ticked w v ∧ Reading env reader es)
      (fun e v => Ticked w v ∧ ReadFault env e) w := by
  simp only [RunReader.open, wp_bind, wp_get]
  refine wp_mono (readIo_spec w) ?_ (fun e v h => h)
  rintro - _ ⟨_, rfl⟩
  have hlen := runHeader_length es.length (payload es).length _ (env.sha256_length (payload es))
  have hread : readExact (runBytes env es) runHeaderSize =
      .ok (runMagic ++ bigEndian 8 es.length ++ bigEndian 8 (payload es).length ++
        env.sha256 (payload es), payload es) := readExact_left hlen
  simp only [hfile, h.content, hread, unpackHeader_pack _ h.count_fits h.payload_fits]
  have hsize : (runBytes env es).length = runHeaderSize + (payload es).length := by
    rw [runBytes, List.length_append, hlen]
  have hvalid : ¬(runMagic ≠ runMagic ∨ es.length ≠ run.edgeCount ∨
      (payload es).length ≠ run.payloadBytes ∨
      env.sha256 (payload es) = List.replicate 32 0 ∨
      (runBytes env es).length ≠ runHeaderSize + (payload es).length) := by
    rintro (hm | hc | hp | hz | hl)
    · exact hm rfl
    · exact hc h.edgeCount.symm
    · exact hp h.payloadBytes.symm
    · exact h.marked hz
    · exact hl hsize
  rw [if_neg hvalid]
  exact ⟨⟨_, rfl⟩, ⟨rfl, by simp, by simp, by simp, rfl, h.storable⟩⟩

theorem next_nil {reader : RunReader} (h : Reading env reader ([] : List (Edge τ)))
    (w : World τ) :
    wp (reader.next env : M τ _) (fun r v => r = none ∧ Ticked w v)
      (fun e v => Ticked w v ∧ ReadFault env e) w := by
  have hc : reader.count = reader.expectedCount := by simpa using h.count.symm
  simp only [RunReader.next, if_pos hc, wp_bind, wp_pure, RunReader.verify, h.unverified,
    h.stream, Bool.false_eq_true, if_false, payload_nil]
  refine wp_mono (readIo_spec w) ?_ (fun e v h => h)
  intro _ v hv
  refine wp_raiseIf ?_ ?_
  · intro hbad
    exfalso
    have hb : reader.payloadBytes = reader.expectedPayloadBytes := by simpa using h.bytes.symm
    have hd : env.sha256 reader.hashed = reader.expectedDigest := by
      simpa using h.digest.symm
    simp [hb, hd] at hbad
  · exact fun _ => ⟨trivial, hv⟩

theorem next_cons {reader : RunReader} {edge : Edge τ} {es : List (Edge τ)}
    (h : Reading env reader (edge :: es)) (w : World τ) :
    wp (reader.next env) (fun r v => Ticked w v ∧
        ∃ reader', r = some (edge, reader') ∧ Reading env reader' es)
      (fun e v => Ticked w v ∧ ReadFault env e) w := by
  have hc : reader.count ≠ reader.expectedCount := by
    have := h.count
    simp only [List.length_cons] at this
    omega
  have hb := h.bytes
  simp only [payload_cons, List.length_append] at hb
  have hfits : (record edge).length ≤ reader.expectedPayloadBytes - reader.payloadBytes := by
    omega
  have hok := readRecord_record (h.storable edge (by simp)) hfits (payload es)
  simp only [RunReader.next, if_neg hc, h.stream, wp_bind, payload_cons, hok, wp_pure]
  refine wp_mono (readIo_spec w) ?_ (fun e v h => h)
  intro _ v hv
  refine ⟨hv, _, rfl, ⟨rfl, ?_, ?_, ?_, h.unverified, ?_⟩⟩
  · have := h.count
    simp only [List.length_cons] at this ⊢
    omega
  · simp only
    omega
  · simp only [h.digest, payload_cons, List.append_assoc]
  · exact fun e he => h.storable e (List.mem_cons_of_mem _ he)

theorem Reading.encodable {reader : RunReader} {edge : Edge τ} {es : List (Edge τ)}
    (h : Reading env reader (edge :: es)) : edge.encodable = true := by
  obtain ⟨s, r, d, he, -⟩ := encodeEdge_inv (h.storable edge (by simp))
  simp [Edge.encodable, he]

theorem push_spec {heap : MergeHeap τ} {index : Nat} {edge : Edge τ}
    (h : edge.encodable = true) : push heap index edge = pure (heap ++ [(index, edge)]) := by
  simp [push, h]

theorem openReaders_spec {runs : List Run} {xss rests : List (List (Edge τ))}
    {readers : List RunReader} {heap : MergeHeap τ} {w : World τ}
    (hs : List.Forall₂ (Stored env w) runs xss) (hr : List.Forall₂ (Reading env) readers rests) :
    wp (openReaders env runs readers heap)
      (fun p v => Ticked w v ∧ List.Forall₂ (Reading env) p.1 (rests ++ xss.map List.tail) ∧
        p.2 = heap ++ heads readers.length xss)
      (fun e v => Ticked w v ∧ Fires env options raw e) w := by
  induction runs generalizing xss rests readers heap w with
  | nil =>
    cases hs
    exact ⟨Ticked.refl w, by simpa using hr, by simp [heads]⟩
  | cons run runs ih =>
    cases hs with | @cons _ es _ xss hrun hruns => ?_
    simp only [openReaders, wp_bind]
    refine wp_mono (open_spec hrun rfl) ?_ (fun _ _ h => ⟨h.1, h.2.fires⟩)
    rintro reader v ⟨hv, hreading⟩
    cases es with
    | nil =>
      refine wp_mono (next_nil hreading v) ?_ (fun _ _ h => ⟨hv.trans h.1, h.2.fires⟩)
      rintro _ u ⟨rfl, hu⟩
      have hwu := hv.trans hu
      have hruns' : List.Forall₂ (Stored env u) runs xss :=
        hruns.imp (fun _ _ h => h.ticked hwu)
      refine wp_mono (ih hruns' (List.rel_append hr (.cons hreading .nil))) ?_ (fun _ _ h => ⟨hwu.trans h.1, h.2⟩)
      rintro ⟨rs, h⟩ x ⟨hx, hrs, rfl⟩
      exact ⟨hwu.trans hx, by simpa using hrs, by simp [heads]⟩
    | cons edge es =>
      refine wp_mono (next_cons hreading v) ?_ (fun _ _ h => ⟨hv.trans h.1, h.2.fires⟩)
      rintro _ u ⟨hu, reader', rfl, hreading'⟩
      have hwu := hv.trans hu
      have hruns' : List.Forall₂ (Stored env u) runs xss :=
        hruns.imp (fun _ _ h => h.ticked hwu)
      simp only [push_spec hreading.encodable, wp_bind, wp_pure]
      refine wp_mono (ih hruns' (List.rel_append hr (.cons hreading' .nil))) ?_ (fun _ _ h => ⟨hwu.trans h.1, h.2⟩)
      rintro ⟨rs, h⟩ x ⟨hx, hrs, rfl⟩
      exact ⟨hwu.trans hx, by simpa using hrs, by simp [heads]⟩

theorem rest_reading {readers : List RunReader} {rests : List (List (Edge τ))} {i : Nat}
    (h : List.Forall₂ (Reading env) readers rests) (hi : i < rests.length) :
    ∃ reader, readers[i]? = some reader ∧ Reading env reader (rest rests i) := by
  have hlen := h.length_eq
  refine ⟨readers[i], by simp, ?_⟩
  have hg := h.get (by omega) hi
  simpa [rest, List.getD_eq_getElem?_getD, hi] using hg

theorem forall₂_set {α γ : Type} {R : α → γ → Prop} {xs : List α} {ys : List γ} {i : Nat}
    {x : α} {y : γ} (h : List.Forall₂ R xs ys) (hxy : R x y) :
    List.Forall₂ R (xs.set i x) (ys.set i y) := by
  induction h generalizing i with
  | nil => exact .nil
  | cons hab htl ih =>
    cases i with
    | zero => exact .cons hxy htl
    | succ i => exact .cons hab ih

/-- The heap merge over open readers runs its body on the elements of the pure merge
loop, in order. -/
theorem mergeFrom_spec {β : Type} {I : List (Edge τ) → β → World τ → Prop}
    {E : PyError → World τ → Prop} {body : β → Edge τ → M τ β} {xs : List (Edge τ)}
    (hown : ∀ done b s t, Ticked s t → I done b s → I done b t)
    (hfault : ∀ done b s e, I done b s → Fires env options raw e → E e s)
    (hbody : ∀ done a rest b s, xs = done ++ a :: rest → I done b s →
      wp (body b a) (I (done ++ [a])) E s)
    {turns emitted : Nat} {readers : List RunReader} {rests : List (List (Edge τ))}
    {heap : MergeHeap τ} {done : List (Edge τ)} {b : β} {w : World τ}
    (hread : List.Forall₂ (Reading env) readers rests)
    (hheap : ∀ p ∈ heap, p.1 < rests.length) (hturns : heap.length + rests.flatten.length ≤ turns)
    (hxs : xs = done ++ mergeLoop Edge.canonicalKey turns heap rests) (hi : I done b w) :
    wp (mergeFrom env options.limits body turns readers heap emitted b) (I xs) E w := by
  induction turns generalizing emitted readers rests heap done b w with
  | zero =>
    have hnil : heap = [] := List.length_eq_zero_iff.mp (by omega)
    subst hnil
    simp only [mergeFrom, popLeast, wp_bind, wp_pure]
    refine wp_mono (checkCancel_spec w) ?_ (fun e v h => hfault _ _ v e (hown _ _ _ _ h.1 hi) h.2)
    intro _ v hv
    have hd : xs = done := by simpa [mergeLoop] using hxs
    exact hd ▸ hown _ _ _ _ hv hi
  | succ turns ih =>
    unfold mergeFrom
    simp only [mergeLoop] at hxs
    cases hp : popLeast (headKey Edge.canonicalKey) heap with
    | none =>
      simp only [hp, List.append_nil] at hxs
      simp only [wp_bind, wp_pure]
      refine wp_mono (checkCancel_spec w) ?_
        (fun e v h => hfault _ _ v e (hown _ _ _ _ h.1 hi) h.2)
      intro _ v hv
      exact hxs ▸ hown _ _ _ _ hv hi
    | some q =>
      obtain ⟨⟨index, edge⟩, heap'⟩ := q
      obtain ⟨hperm, -⟩ := popLeast_spec hp
      have hlen := hperm.length_eq
      simp only [List.length_cons] at hlen
      have hindex : index < rests.length := hheap (index, edge) (hperm.mem_iff.mpr (by simp))
      have hheap' : ∀ p ∈ heap', p.1 < rests.length := fun p hm =>
        hheap p (hperm.mem_iff.mpr (List.mem_cons_of_mem _ hm))
      obtain ⟨reader, hreader, hreading⟩ := rest_reading hread hindex
      simp only [hp] at hxs
      simp only [wp_bind, hreader]
      refine wp_mono (pollCancel_spec emitted w) ?_
        (fun e v h => hfault _ _ v e (hown _ _ _ _ h.1 hi) h.2)
      intro _ v hv
      have hsplit : ∃ more, xs = done ++ edge :: more := by
        cases hr : rest rests index with
        | nil => exact ⟨_, by simpa [hr] using hxs⟩
        | cons c cs => exact ⟨_, by simpa [hr] using hxs⟩
      obtain ⟨more, hmore⟩ := hsplit
      refine wp_mono (hbody done edge more b v hmore (hown _ _ _ _ hv hi)) ?_ (fun _ _ h => h)
      intro b' u hi'
      cases hr : rest rests index with
      | nil =>
        rw [hr] at hreading
        simp only [hr] at hxs
        refine wp_mono (next_nil hreading u) ?_
          (fun e v h => hfault _ _ v e (hown _ _ _ _ h.1 hi') h.2.fires)
        rintro _ x ⟨rfl, hx⟩
        exact ih hread hheap' (by omega) (by simpa using hxs) (hown _ _ _ _ hx hi')
      | cons c cs =>
        rw [hr] at hreading
        simp only [hr] at hxs
        refine wp_mono (next_cons hreading u) ?_
          (fun e v h => hfault _ _ v e (hown _ _ _ _ h.1 hi') h.2.fires)
        rintro _ x ⟨hx, reader', rfl, hreading'⟩
        have hflat := (flatten_set hr).length_eq
        simp only [List.length_cons] at hflat
        simp only [push_spec hreading.encodable, wp_bind, wp_pure]
        refine ih (forall₂_set hread hreading') ?_ ?_ (by simpa using hxs) (hown _ _ _ _ hx hi')
        · intro p hm
          rw [List.length_set]
          rcases List.mem_append.mp hm with hm | hm
          · exact hheap' p hm
          · rw [List.mem_singleton.mp hm]
            exact hindex
        · simp only [List.length_append, List.length_singleton]
          omega

theorem heads_index {α : Type} {xss : List (List α)} :
    ∀ p ∈ heads 0 xss, p.1 < xss.length := by
  intro p hp
  obtain ⟨i, bs, hi, he⟩ := mem_heads.mp hp
  have := (List.getElem?_eq_some_iff.mp hi).1
  omega

theorem sum_edgeCount {w : World τ} {runs : List Run} {xss : List (List (Edge τ))}
    (h : List.Forall₂ (Stored env w) runs xss) :
    (runs.map Run.edgeCount).sum = xss.flatten.length := by
  induction h with
  | nil => rfl
  | cons hrun _ ih => simp [hrun.edgeCount, ih]

/-- The merge of stored runs yields the pure merge of their edges. -/
theorem merge_yields (runs : List Run) (xss : List (List (Edge τ))) :
    Yields (fun w => List.Forall₂ (Stored env w) runs xss) Ticked (Fires env options raw)
      (merge env options.limits runs) (kmerge Edge.canonicalKey xss) := by
  intro β I E body hown hfault hbody b w hs hi
  simp only [merge, wp_bind]
  refine wp_mono (openReaders_spec hs .nil) ?_
    (fun e v h => hfault _ _ v e (hown _ _ _ _ h.1 hi) h.2)
  rintro ⟨readers, heap⟩ v ⟨hv, hread, rfl⟩
  simp only [List.nil_append, List.length_nil] at hread ⊢
  refine mergeFrom_spec hown hfault hbody hread ?_ ?_ ?_ (hown _ _ _ _ hv hi)
  · simpa using heads_index
  · exact le_of_eq ((pending_heads xss).trans (sum_edgeCount hs).symm)
  · simp [kmerge, sum_edgeCount hs]

end

end Projector.Streaming
