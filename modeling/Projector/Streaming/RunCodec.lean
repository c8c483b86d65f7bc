import Projector.Streaming.ExternalSort

namespace Projector.Streaming
open Lib

section Reader
variable {τ : Type} [PyText τ] (env : Environment)

/-- The iteration of an open reader. Every turn but the last counts one edge, so the
edges still expected bound the turns. -/
def RunReader.rest : Nat → RunReader → M τ (List (Edge τ))
  | turns, reader => do
    match ← reader.next env with
    | none => pure []
    | some (edge, reader) =>
      match turns with
      | 0 => throw .outOfFuel
      | turns + 1 => do
        let edges ← RunReader.rest turns reader
        pure (edge :: edges)

def readRun (run : Run) : M τ (List (Edge τ)) := do
  let reader ← RunReader.open env run
  reader.rest env reader.expectedCount

/-- How a read may fail: the outside failed, or the file is refused. -/
def ReadError (e : PyError) : Prop := ReadFault env e ∨ ∃ cause, e = corruptRun cause

/-- The only content of `run`'s file that reads back as `edges`. -/
structure ReadsAs (run : Run) (content : Bytes) (edges : List (Edge τ)) : Prop where
  content : content = runBytes env edges
  edgeCount : run.edgeCount = edges.length
  payloadBytes : run.payloadBytes = (payload edges).length
  storable : ∀ edge ∈ edges, encodeEdge edge = .ok (record edge)

/-- An edge that fits the format: every field has a UTF-8 form within the bound. -/
def Storable (edge : Edge τ) : Prop :=
  ∃ s r d, edge.encoded? = some (s, r, d) ∧ s.length ≤ maxFieldBytes ∧
    r.length ≤ maxFieldBytes ∧ d.length ≤ maxFieldBytes

end Reader

/-- The ways to damage a file: to cut it, to let it grow, to flip bits of one byte, and to
rewrite its records (which a re-split does) or its header. -/
inductive Altered (content : Bytes) : Bytes → Prop where
  | truncated {size} : size < content.length → Altered content (content.take size)
  | extended {extra} : extra ≠ [] → Altered content (content ++ extra)
  | flipped {i byte} (hi : i < content.length) : byte ≠ content[i] →
      Altered content (content.set i byte)
  | records {other} : other ≠ content →
      other.take runHeaderSize = content.take runHeaderSize → Altered content other
  | header {other} : other ≠ content →
      other.drop runHeaderSize = content.drop runHeaderSize → Altered content other

theorem readExact_inv {stream a b : Bytes} {n : Nat} (h : readExact stream n = .ok (a, b)) :
    stream = a ++ b ∧ a.length = n := by
  simp only [readExact] at h
  split at h
  · rename_i hle
    simp only [Except.ok.injEq, Prod.mk.injEq] at h
    obtain ⟨rfl, rfl⟩ := h
    exact ⟨(List.take_append_drop n stream).symm, List.length_take_of_le hle⟩
  · cases h

theorem readExact_error {stream : Bytes} {n : Nat} {cause : String}
    (h : readExact stream n = .error cause) : cause = "EOFError" := by
  simp only [readExact] at h
  split at h <;> simp_all

/-- A header of full size is the packed form of what it unpacks to. -/
theorem packHeader_unpack {header digest : Bytes} {n m : Nat}
    (hlen : header.length = runHeaderSize)
    (h : unpackHeader header = (runMagic, n, m, digest)) :
    header = runMagic ++ bigEndian 8 n ++ bigEndian 8 m ++ digest ∧ digest.length = 32 := by
  simp only [unpackHeader, Prod.mk.injEq] at h
  obtain ⟨hmagic, rfl, rfl, rfl⟩ := h
  simp only [runHeaderSize] at hlen
  have hn : ((header.drop 15).take 8).length = 8 := by simp [hlen]
  have hm : ((header.drop 23).take 8).length = 8 := by simp [hlen]
  have hcount := bigEndian_fromBigEndian ((header.drop 15).take 8)
  have hbytes := bigEndian_fromBigEndian ((header.drop 23).take 8)
  rw [hn] at hcount
  rw [hm] at hbytes
  refine ⟨?_, by simp [hlen]⟩
  have h23 : header.drop 23 = (header.drop 15).drop 8 := by simp
  have h31 : header.drop 31 = (header.drop 23).drop 8 := by simp
  rw [hcount, hbytes, ← hmagic, List.append_assoc, List.append_assoc, h31,
    List.take_append_drop, h23, List.take_append_drop, List.take_append_drop]

section Inversion
variable {τ : Type} [PyText τ] {env : Environment}

theorem record_eq {edge : Edge τ} {bytes : Bytes} (h : encodeEdge edge = .ok bytes) :
    bytes = record edge := by
  simp only [encodeEdge, record] at h ⊢
  cases he : edge.encoded? with
  | none => simp [he] at h
  | some t =>
    simp only [he] at h
    split at h
    · cases h
    · exact (Except.ok.inj h).symm

theorem Storable.encodeEdge {edge : Edge τ} (h : Storable edge) :
    encodeEdge edge = .ok (record edge) := by
  obtain ⟨s, r, d, he, hs, hr, hd⟩ := h
  have hfits : ¬(s.length > maxFieldBytes ∨ r.length > maxFieldBytes ∨
      d.length > maxFieldBytes) := by omega
  simp only [Streaming.encodeEdge, record, he, if_neg hfits]

theorem Storable.encodable {edge : Edge τ} (h : Storable edge) : edge.encodable = true := by
  obtain ⟨s, r, d, he, -⟩ := h
  simp [Edge.encodable, he]

/-- Records are told apart at every split point, so no other edges have the same records. -/
theorem payload_inj {xs ys : List (Edge τ)} (hx : ∀ edge ∈ xs, encodeEdge edge = .ok (record edge))
    (hy : ∀ edge ∈ ys, encodeEdge edge = .ok (record edge)) (h : payload xs = payload ys) :
    xs = ys := by
  induction xs generalizing ys with
  | nil =>
    cases ys with
    | nil => rfl
    | cons y ys =>
      have hpos := record_length_pos (hy y (by simp))
      have hlen := congrArg List.length h
      simp only [payload_nil, payload_cons, List.length_append, List.length_nil] at hlen
      omega
  | cons x xs ih =>
    cases ys with
    | nil =>
      have hpos := record_length_pos (hx x (by simp))
      have hlen := congrArg List.length h
      simp only [payload_nil, payload_cons, List.length_append, List.length_nil] at hlen
      omega
    | cons y ys =>
      have hle := Nat.le_max_left (record x).length (record y).length
      have hle' := Nat.le_max_right (record x).length (record y).length
      have hreadx := readRecord_record (hx x (by simp)) hle (payload xs)
      have hready := readRecord_record (hy y (by simp)) hle' (payload ys)
      rw [← payload_cons, h, payload_cons, hready] at hreadx
      simp only [Except.ok.injEq, Prod.mk.injEq] at hreadx
      obtain ⟨rfl, -, htail⟩ := hreadx
      rw [ih (fun e he => hx e (List.mem_cons_of_mem _ he))
        (fun e he => hy e (List.mem_cons_of_mem _ he)) htail.symm]

variable [StrictText τ]

/-- What a record is read as is what it is the record of. -/
theorem readRecord_inv {remaining : Nat} {stream bytes left : Bytes} {edge : Edge τ}
    (h : readRecord remaining stream = .ok (edge, bytes, left)) :
    encodeEdge edge = .ok bytes ∧ stream = bytes ++ left := by
  obtain ⟨⟨lengths, rest⟩, hlengths, hrecord⟩ := bind_ok h
  obtain ⟨rfl, hlen⟩ := readExact_inv hlengths
  dsimp only at hrecord
  split at hrecord
  · cases hrecord
  obtain ⟨⟨s, rest⟩, hs, hfields⟩ := bind_ok hrecord
  obtain ⟨rfl, hslen⟩ := readExact_inv hs
  obtain ⟨⟨r, rest⟩, hr, hfields⟩ := bind_ok hfields
  obtain ⟨rfl, hrlen⟩ := readExact_inv hr
  obtain ⟨⟨d, rest⟩, hd, hfields⟩ := bind_ok hfields
  obtain ⟨rfl, hdlen⟩ := readExact_inv hd
  simp only [fieldLengthsSize] at hlen
  dsimp only at hfields
  split at hfields
  · rename_i source relation destination hsource hrelation hdestination
    simp only [pure, Except.pure, Except.ok.injEq, Prod.mk.injEq] at hfields
    obtain ⟨rfl, rfl, rfl⟩ := hfields
    have h4 : (lengths.take 4).length = 4 := by simp [hlen]
    have h8 : ((lengths.drop 4).take 4).length = 4 := by simp [hlen]
    have h12 : (lengths.drop 8).length = 4 := by simp [hlen]
    have hb4 := bigEndian_fromBigEndian (lengths.take 4)
    have hb8 := bigEndian_fromBigEndian ((lengths.drop 4).take 4)
    have hb12 := bigEndian_fromBigEndian (lengths.drop 8)
    have hlt4 := fromBigEndian_lt (lengths.take 4)
    have hlt8 := fromBigEndian_lt ((lengths.drop 4).take 4)
    have hlt12 := fromBigEndian_lt (lengths.drop 8)
    rw [h4, ← hslen] at hb4
    rw [h8, ← hrlen] at hb8
    rw [h12, ← hdlen] at hb12
    rw [h4, ← hslen] at hlt4
    rw [h8, ← hrlen] at hlt8
    rw [h12, ← hdlen] at hlt12
    have hencoded : (⟨source, relation, destination⟩ : Edge τ).encoded? = some (s, r, d) := by
      simp [Edge.encoded?, StrictText.encode_decode hsource,
        StrictText.encode_decode hrelation, StrictText.encode_decode hdestination]
    have hfits : ¬(s.length > maxFieldBytes ∨ r.length > maxFieldBytes ∨
        d.length > maxFieldBytes) := by
      simp only [maxFieldBytes]
      omega
    have h48 : lengths.drop 8 = (lengths.drop 4).drop 4 := by simp
    refine ⟨?_, by simp⟩
    simp only [encodeEdge, hencoded, if_neg hfits, encodeRecord, hb4, hb8, hb12, h48,
      List.append_assoc]
    rw [← List.append_assoc ((lengths.drop 4).take 4), List.take_append_drop,
      ← List.append_assoc (lengths.take 4), List.take_append_drop]
  · cases hfields

/-- A reader in the middle of a file: open, and with a check of the end before it. -/
structure Live (reader : RunReader) : Prop where
  stream : ∃ stream, reader.stream = some stream
  unverified : reader.verified = false
  count : reader.count ≤ reader.expectedCount

theorem next_inv {reader : RunReader} (h : Live reader) (w : World τ) :
    wp (reader.next env : M τ _)
      (fun r _ => (r = none → Reading env reader ([] : List (Edge τ))) ∧
        ∀ edge reader', r = some (edge, reader') → Live reader' ∧
          reader'.expectedCount = reader.expectedCount ∧ reader'.count = reader.count + 1 ∧
          ∀ edges, Reading env reader' edges → Reading env reader (edge :: edges))
      (fun e _ => ReadError env e) w := by
  obtain ⟨stream, hstream⟩ := h.stream
  by_cases hc : reader.count = reader.expectedCount
  · simp only [RunReader.next, if_pos hc, wp_bind, wp_pure, RunReader.verify, h.unverified, hstream,
      Bool.false_eq_true, if_false]
    refine wp_mono (readIo_spec w) ?_ (fun e v h => Or.inl h.2)
    intro _ v _
    refine wp_raiseIf (fun _ => Or.inr ⟨_, rfl⟩) (fun hgood => ?_)
    simp only [not_or, not_not] at hgood
    obtain ⟨rfl, hbytes, hdigest⟩ := hgood
    refine ⟨fun _ => ⟨hstream, by simpa using hc.symm, by simpa using hbytes.symm, ?_,
      h.unverified, by simp⟩, fun _ _ he => by cases he⟩
    simpa using hdigest.symm
  · simp only [RunReader.next, if_neg hc, hstream, wp_bind]
    refine wp_mono (readIo_spec w) ?_ (fun e v h => Or.inl h.2)
    intro _ v _
    cases hr : readRecord (τ := τ) (reader.expectedPayloadBytes - reader.payloadBytes) stream with
    | error cause => exact Or.inr ⟨cause, rfl⟩
    | ok p =>
      obtain ⟨edge, bytes, left⟩ := p
      obtain ⟨hencode, rfl⟩ := readRecord_inv hr
      have hbytes := record_eq hencode
      subst hbytes
      refine ⟨fun he => (Option.some_ne_none _ he).elim, ?_⟩
      intro edge' reader' he
      simp only [Option.some.injEq, Prod.mk.injEq] at he
      obtain ⟨rfl, rfl⟩ := he
      have hle := h.count
      refine ⟨⟨⟨left, rfl⟩, h.unverified, by simp only; omega⟩, rfl, rfl, ?_⟩
      intro edges hread
      have hleft : left = payload edges := Option.some.inj hread.stream
      have hcount := hread.count
      have hsize := hread.bytes
      have hdigest := hread.digest
      simp only at hcount hsize hdigest
      refine ⟨by rw [hstream, hleft, payload_cons], ?_, ?_, ?_, h.unverified, ?_⟩
      · rw [List.length_cons]
        omega
      · rw [payload_cons, List.length_append]
        omega
      · rw [hdigest, payload_cons, List.append_assoc]
      · intro e hm
        cases hm with
        | head => exact hencode
        | tail _ hm => exact hread.storable e hm

/-- A reader that stops has read exactly the records in front of it. -/
theorem rest_inv {turns : Nat} {reader : RunReader} (h : Live reader)
    (hturns : reader.expectedCount ≤ reader.count + turns) (w : World τ) :
    wp (reader.rest env turns) (fun edges _ => Reading env reader edges)
      (fun e _ => ReadError env e) w := by
  induction turns generalizing reader w with
  | zero =>
    unfold RunReader.rest
    simp only [wp_bind]
    refine wp_mono (next_inv h w) ?_ (fun _ _ h => h)
    intro r v hr
    cases r with
    | none => exact hr.1 rfl
    | some p =>
      obtain ⟨hlive, hexpected, hcount, -⟩ := hr.2 p.1 p.2 rfl
      have hle := hlive.count
      omega
  | succ turns ih =>
    unfold RunReader.rest
    simp only [wp_bind]
    refine wp_mono (next_inv h w) ?_ (fun _ _ h => h)
    intro r v hr
    cases r with
    | none => exact hr.1 rfl
    | some p =>
      obtain ⟨edge, reader'⟩ := p
      obtain ⟨hlive, hexpected, hcount, hcons⟩ := hr.2 edge reader' rfl
      simp only [wp_bind, wp_pure]
      exact wp_mono (ih hlive (by omega) v) (fun edges _ hread => hcons edges hread) (fun _ _ h => h)

omit [PyText τ] [StrictText τ] in
/-- A header that passes the checks of `open` is the one of the run it is opened for. -/
theorem open_inv {run : Run} {content : Bytes} {w : World τ}
    (hfile : w.files run.path = some content) :
    wp (RunReader.open env run : M τ _)
      (fun reader _ => Live reader ∧ ∃ digest left,
        content = runMagic ++ bigEndian 8 run.edgeCount ++ bigEndian 8 run.payloadBytes ++
          digest ++ left ∧
        reader = ⟨run, some left, 0, 0, [], false, run.edgeCount, run.payloadBytes, digest⟩)
      (fun e _ => ReadError env e) w := by
  simp only [RunReader.open, wp_bind, wp_get]
  refine wp_mono (readIo_spec w) ?_ (fun e v h => Or.inl h.2)
  rintro - _ ⟨_, rfl⟩
  simp only [hfile]
  cases hread : readExact content runHeaderSize with
  | error cause => exact Or.inr ⟨cause, rfl⟩
  | ok p =>
    obtain ⟨header, left⟩ := p
    obtain ⟨rfl, hlen⟩ := readExact_inv hread
    obtain ⟨⟨magic, count, payloadBytes, digest⟩, hunpack⟩ :
        ∃ fields, unpackHeader header = fields := ⟨_, rfl⟩
    simp only [hunpack]
    split
    · exact Or.inr ⟨_, rfl⟩
    · rename_i hvalid
      simp only [not_or, not_not] at hvalid
      obtain ⟨rfl, rfl, rfl, -, -⟩ := hvalid
      obtain ⟨hheader, -⟩ := packHeader_unpack hlen hunpack
      exact ⟨⟨⟨left, rfl⟩, rfl, Nat.zero_le _⟩, digest, left, by rw [hheader], rfl⟩

theorem readRun_inv {run : Run} {content : Bytes} {w : World τ}
    (hfile : w.files run.path = some content) :
    wp (readRun env run) (fun edges _ => ReadsAs env run content edges)
      (fun e _ => ReadError env e) w := by
  simp only [readRun, wp_bind]
  refine wp_mono (open_inv hfile) ?_ (fun _ _ h => h)
  rintro reader v ⟨hlive, digest, left, rfl, rfl⟩
  refine wp_mono (rest_inv hlive (by simp) v) ?_ (fun _ _ h => h)
  intro edges _ h
  have hleft : left = payload edges := Option.some.inj h.stream
  have hcount : run.edgeCount = edges.length := by simpa using h.count
  have hbytes : run.payloadBytes = (payload edges).length := by simpa using h.bytes
  have hdigest : digest = env.sha256 (payload edges) := by simpa using h.digest
  refine ⟨?_, hcount, hbytes, h.storable⟩
  rw [runBytes, hcount, hbytes, hdigest, hleft]

end Inversion

section RoundTrip
variable {τ : Type} [PyText τ] {env : Environment}

theorem rest_reading_back {turns : Nat} {reader : RunReader} {edges : List (Edge τ)}
    (h : Reading env reader edges) (hturns : edges.length ≤ turns) (w : World τ) :
    wp (reader.rest env turns) (fun found _ => found = edges) (fun e _ => ReadFault env e) w := by
  induction edges generalizing turns reader w with
  | nil =>
    unfold RunReader.rest
    simp only [wp_bind]
    refine wp_mono (next_nil h w) ?_ (fun _ _ h => h.2)
    rintro _ v ⟨rfl, -⟩
    rfl
  | cons edge edges ih =>
    cases turns with
    | zero => simp at hturns
    | succ turns =>
      unfold RunReader.rest
      simp only [wp_bind]
      refine wp_mono (next_cons h w) ?_ (fun _ _ h => h.2)
      rintro _ v ⟨-, reader', rfl, hreading⟩
      simp only [wp_bind, wp_pure]
      refine wp_mono (ih hreading (by simpa using hturns) v) ?_ (fun _ _ h => h)
      rintro _ _ rfl
      rfl

/-- A stored run is read back as what is stored in it. -/
theorem readRun_stored {run : Run} {edges : List (Edge τ)} {v w : World τ}
    (h : Stored env v run edges) (hfile : w.files run.path = v.files run.path) :
    wp (readRun env run) (fun found _ => found = edges) (fun e _ => ReadFault env e) w := by
  simp only [readRun, wp_bind]
  refine wp_mono (open_spec h hfile) ?_ (fun _ _ h => h.2)
  rintro reader u ⟨-, hreading⟩
  have hcount := hreading.count
  exact rest_reading_back hreading (by omega) u

end RoundTrip

section Damage
variable {τ : Type} [PyText τ] {env : Environment}

/-- Two files read for one run have the same size; if they differ, they differ in the
digest and in the records. -/
theorem ReadsAs.differs {run : Run} {content other : Bytes} {edges others : List (Edge τ)}
    (h : ReadsAs env run content edges) (ho : ReadsAs env run other others)
    (hne : other ≠ content)
    (hcollision : env.sha256 (other.drop runHeaderSize) = env.sha256 (content.drop runHeaderSize) →
      other.drop runHeaderSize = content.drop runHeaderSize) :
    other.length = content.length ∧ other.take runHeaderSize ≠ content.take runHeaderSize ∧
      other.drop runHeaderSize ≠ content.drop runHeaderSize := by
  have hcount : others.length = edges.length := ho.edgeCount.symm.trans h.edgeCount
  have hsize : (payload others).length = (payload edges).length :=
    ho.payloadBytes.symm.trans h.payloadBytes
  have hc := h.content
  have hoc := ho.content
  have hlen := runHeader_length edges.length (payload edges).length _
    (env.sha256_length (payload edges))
  have holen := runHeader_length others.length (payload others).length _
    (env.sha256_length (payload others))
  have hdrop : content.drop runHeaderSize = payload edges := by
    rw [hc]
    exact List.drop_left' hlen
  have hodrop : other.drop runHeaderSize = payload others := by
    rw [hoc]
    exact List.drop_left' holen
  have htake : content.take runHeaderSize = runMagic ++ bigEndian 8 edges.length ++
      bigEndian 8 (payload edges).length ++ env.sha256 (payload edges) := by
    rw [hc]
    exact List.take_left' hlen
  have hotake : other.take runHeaderSize = runMagic ++ bigEndian 8 edges.length ++
      bigEndian 8 (payload edges).length ++ env.sha256 (payload others) := by
    rw [hoc, runBytes, ← hcount, ← hsize]
    exact List.take_left' holen
  have hrecords : other.drop runHeaderSize ≠ content.drop runHeaderSize := by
    intro heq
    rw [hodrop, hdrop] at heq
    exact hne (by rw [hc, hoc, runBytes, runBytes, hcount, heq])
  refine ⟨?_, ?_, hrecords⟩
  · rw [hc, hoc, runBytes, List.length_append, holen, runBytes, List.length_append, hlen, hsize]
  · intro heq
    rw [htake, hotake] at heq
    have hdigest := List.append_cancel_left heq
    rw [hodrop, hdrop] at hcollision
    exact hrecords (by rw [hodrop, hdrop, hcollision hdigest])

theorem Altered.cases_side {content other : Bytes} (h : Altered content other) :
    other ≠ content ∧ (other.length ≠ content.length ∨
      other.take runHeaderSize = content.take runHeaderSize ∨
      other.drop runHeaderSize = content.drop runHeaderSize) := by
  cases h with
  | truncated hlt =>
    have hlen := List.length_take_of_le (Nat.le_of_lt hlt)
    refine ⟨fun he => ?_, Or.inl ?_⟩
    · rw [he] at hlen
      omega
    · omega
  | extended hne =>
    have hpos := List.length_pos_of_ne_nil hne
    refine ⟨fun he => hne (by simpa using he), Or.inl ?_⟩
    rw [List.length_append]
    omega
  | @flipped i byte hi hbyte =>
    refine ⟨fun he => ?_, Or.inr ?_⟩
    · have hget := List.getElem_set_self (l := content) (i := i) (a := byte) (by simpa using hi)
      exact hbyte (by rw [← hget]; simp only [he])
    · rcases Nat.lt_or_ge i runHeaderSize with hlt | hge
      · exact Or.inr (List.drop_set_of_lt hlt)
      · exact Or.inl (List.take_set_of_le hge)
  | records hne htake => exact ⟨hne, Or.inr (Or.inl htake)⟩
  | header hne hdrop => exact ⟨hne, Or.inr (Or.inr hdrop)⟩

end Damage

/-- The run codec: what was written is read back, whatever reads without an error is a
run of what was read and of nothing else, and no damaged file reads without an error. -/
theorem run_codec_exact (env : Environment) (options : PolicyOptions) (edges : List (Edge PyStr))
    (hfields : ∀ edge ∈ edges, Storable edge)
    (hmarked : env.sha256 (payload edges) ≠ List.replicate 32 0) (w : World PyStr) :
    wp (writeRun env options.limits (Producer.ofList edges))
        (fun run v => ∃ content, v.files run.path = some content ∧
          (∀ u, u.files run.path = some content →
            wp (readRun env run) (fun found _ => found = edges) (fun e _ => ReadFault env e) u) ∧
          ∀ other u, Altered content other → u.files run.path = some other →
            (env.sha256 (other.drop runHeaderSize) = env.sha256 (content.drop runHeaderSize) →
              other.drop runHeaderSize = content.drop runHeaderSize) →
            wp (readRun (τ := PyStr) env run) (fun _ _ => False) (fun e _ => ReadError env e) u)
        (fun e _ => Fires env options edges e) w ∧
      ∀ (run : Run) (content : Bytes) (u : World PyStr), u.files run.path = some content →
        wp (readRun env run)
          (fun found _ => ReadsAs env run content found ∧
            ∀ others : List (Edge PyStr), (∀ edge ∈ others, Storable edge) →
              content = runBytes env others → others = found)
          (fun e _ => ReadError env e) u := by
  constructor
  · have hy : Yields (fun _ : World PyStr => True) Ticked (Fires env options edges)
        (Producer.ofList edges) edges := yields_ofList _
    have henc : ∀ edge ∈ edges, edge.encodable = true := fun edge he => (hfields edge he).encodable
    refine wp_mono (writeRun_spec hy (fun _ _ _ _ h => h) henc (List.Subperm.refl edges) hmarked w
      trivial) ?_ (fun _ _ h => h)
    rintro run v ⟨hstored, -⟩
    refine ⟨runBytes env edges, hstored.content, ?_, ?_⟩
    · intro u hu
      exact readRun_stored hstored (hu.trans hstored.content.symm)
    · intro other u halt hu hcollision
      refine wp_mono (readRun_inv hu) ?_ (fun _ _ h => h)
      intro others _ ho
      have hself : ReadsAs env run (runBytes env edges) edges :=
        ⟨rfl, hstored.edgeCount, hstored.payloadBytes, hstored.storable⟩
      obtain ⟨hne, hside⟩ := halt.cases_side
      obtain ⟨hlength, htake, hdrop⟩ := hself.differs ho hne hcollision
      rcases hside with hl | ht | hd
      · exact hl hlength
      · exact htake ht
      · exact hdrop hd
  · intro run content u hu
    refine wp_mono (readRun_inv hu) ?_ (fun _ _ h => h)
    intro found _ h
    refine ⟨h, fun others hothers hcontent => ?_⟩
    have hheaders := hcontent.symm.trans h.content
    have hdrop := congrArg (List.drop runHeaderSize) hheaders
    rw [runBytes, runBytes, List.drop_left' (runHeader_length _ _ _ (env.sha256_length _)),
      List.drop_left' (runHeader_length _ _ _ (env.sha256_length _))] at hdrop
    exact payload_inj (fun edge he => (hothers edge he).encodeEdge) h.storable hdrop

/-- The first of `sampleEdges`, in the text of the host language. -/
def sampleEdge : Edge PyStr := ⟨[.scalar 'b'], [.scalar 'r'], [.scalar 'x']⟩

theorem sampleEdge_storable : Storable sampleEdge :=
  ⟨[98], [114], [120], rfl, by decide, by decide, by decide⟩

theorem run_codec_exact_sample :
    wp (writeRun sampleEnvironment (sampleOptions .canonical).limits
          (Producer.ofList [sampleEdge]))
        (fun run v => ∃ content, v.files run.path = some content ∧
          (∀ u, u.files run.path = some content →
            wp (readRun sampleEnvironment run) (fun found _ => found = [sampleEdge])
              (fun e _ => ReadFault sampleEnvironment e) u) ∧
          ∀ other u, Altered content other → u.files run.path = some other →
            (sampleDigest (other.drop runHeaderSize) =
                sampleDigest (content.drop runHeaderSize) →
              other.drop runHeaderSize = content.drop runHeaderSize) →
            wp (readRun (τ := PyStr) sampleEnvironment run) (fun _ _ => False)
              (fun e _ => ReadError sampleEnvironment e) u)
        (fun e _ => Fires sampleEnvironment (sampleOptions .canonical) [sampleEdge] e)
        (World.initial PyStr) ∧
      ∀ (run : Run) (content : Bytes) (u : World PyStr), u.files run.path = some content →
        wp (readRun sampleEnvironment run)
          (fun found _ => ReadsAs sampleEnvironment run content found ∧
            ∀ others : List (Edge PyStr), (∀ edge ∈ others, Storable edge) →
              content = runBytes sampleEnvironment others → others = found)
          (fun e _ => ReadError sampleEnvironment e) u :=
  run_codec_exact sampleEnvironment (sampleOptions .canonical) [sampleEdge]
    (fun _ h => List.mem_singleton.mp h ▸ sampleEdge_storable)
    (sampleDigest_marked (payload [sampleEdge])) (World.initial PyStr)

end Projector.Streaming
