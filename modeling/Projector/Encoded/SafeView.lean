import Projector.Encoded.SafeReads

namespace Projector.Encoded
open Lib

/-- The rows of a segment's postings and scope map are whole, and every posting names a
root that the table it refers to has in both root columns. -/
structure Segment.Safe (b : Buffers) (segment : Segment) : Prop where
  wholePostings : segment.rootIds.bytes.length % 4 = 0
  postings : ∀ k < segment.rootIds.bytes.length / 4,
    1 ≤ readUint segment.rootIds.bytes k 4 ∧
      match segment.source with
      | none => readUint segment.rootIds.bytes k 4 ≤ rowCount b .rootKinds ∧
          readUint segment.rootIds.bytes k 4 ≤ rowCount b .rootIds
      | some source => ∃ kinds ids, source.buffers = some (kinds, ids) ∧
          readUint segment.rootIds.bytes k 4 ≤ kinds.bytes.length ∧
          readUint segment.rootIds.bytes k 4 * 4 ≤ ids.bytes.length
  wholeScopeRows : segment.anonymousScopeMap.bytes.length % 64 = 0
  scopeRows : ∀ k < segment.anonymousScopeMap.bytes.length / 64,
    (rowAt segment.anonymousScopeMap.bytes (k * 64) 32).length = 32 ∧
      (rowAt segment.anonymousScopeMap.bytes (k * 64 + 32) 32).length = 32

theorem borrowedBytes_ok {name : String} {value : MemoryView} {bytes : Bytes}
    (h : borrowedBytes name value = .ok bytes) : bytes = value.bytes := by
  unfold borrowedBytes at h
  split at h
  · cases h
  · split at h
    · cases h
    · split at h
      · cases h
      · exact (Except.ok.inj h).symm

theorem borrowedSegmentBytes_ok {name : String} {value : MemoryView} {width : Nat} {bytes : Bytes}
    (h : borrowedSegmentBytes name value width = .ok bytes) :
    bytes = value.bytes ∧ value.bytes.length % width = 0 := by
  obtain ⟨taken, htaken, h⟩ := bind_ok h
  obtain rfl := borrowedBytes_ok htaken
  split at h
  · cases h
  · rename_i hwhole
    exact ⟨(Except.ok.inj h).symm, by omega⟩

/-- The bound of the postings is the length of the root columns they refer to. -/
theorem segmentRootCount_ok {sha256 : Bytes → Bytes} {owner encodedView localRootCount n : Nat}
    {source : Option SegmentSource} {topOwner : SourceView}
    (h : segmentRootCount sha256 owner source topOwner encodedView localRootCount = .ok n) :
    (source = none → n = localRootCount) ∧
      ∀ s, source = some s → ∃ kinds ids, s.buffers = some (kinds, ids) ∧ n = kinds.bytes.length ∧
        n * 4 = ids.bytes.length := by
  cases source with
  | none =>
    obtain ⟨_, _, h⟩ := bind_ok h
    exact ⟨fun _ => (Except.ok.inj h).symm, fun s hs => by cases hs⟩
  | some source =>
    simp only [segmentRootCount] at h
    obtain ⟨_, _, h⟩ := bind_ok h
    obtain ⟨_, _, h⟩ := bind_ok h
    obtain ⟨_, _, h⟩ := bind_ok h
    obtain ⟨_, _, h⟩ := bind_ok h
    cases hb : source.buffers with
    | none =>
      rw [hb] at h
      cases h
    | some pair =>
      obtain ⟨kinds, ids⟩ := pair
      rw [hb] at h
      obtain ⟨kindBytes, hkinds, h⟩ := bind_ok h
      obtain ⟨idBytes, hids, h⟩ := bind_ok h
      obtain ⟨_, hsame, hdone⟩ := bind_ok h
      obtain ⟨hkinds, -⟩ := borrowedSegmentBytes_ok hkinds
      obtain ⟨hids, hwhole⟩ := borrowedSegmentBytes_ok hids
      have hsame := require_ok hsame
      rw [decide_eq_true_eq, hkinds, hids] at hsame
      have hn : kinds.bytes.length = n := by
        rw [← hkinds]
        exact Except.ok.inj hdone
      refine ⟨fun hs => (by cases hs), fun s hs => ?_⟩
      obtain rfl := Option.some.inj hs
      exact ⟨kinds, ids, hb, hn.symm, by omega⟩

theorem postings_ok {rootIds : Bytes} {rootCount last : Nat}
    (h : (List.range (rootIds.length / 4)).foldlM (checkPosting rootIds rootCount) 0 = .ok last) :
    ∀ k < rootIds.length / 4, 1 ≤ readUint rootIds k 4 ∧ readUint rootIds k 4 ≤ rootCount := by
  rw [List.range_eq_range'] at h
  have hscan := foldlM_range_ok (fun index (_ : Nat) => ∀ k < index,
    1 ≤ readUint rootIds k 4 ∧ readUint rootIds k 4 ≤ rootCount) _ 0 0 last h
    (fun k hk => by omega) ?_
  · intro k hk
    exact hscan k (by omega)
  · intro index previous next _ _ hi hnext k hk
    simp only [checkPosting] at hnext
    split at hnext
    · cases hnext
    · rcases Nat.lt_succ_iff_lt_or_eq.mp hk with hk | rfl
      · exact hi k hk
      · omega

theorem rowAt_length {value : Bytes} {offset width : Nat} (h : offset + width ≤ value.length) :
    (rowAt value offset width).length = width := by
  simp only [rowAt, List.length_take, List.length_drop]
  omega

/-- One turn of the loop over the segments adds a safe one. -/
theorem checkSegment_ok {b : Buffers} {sha256 : Bytes → Bytes} {topOwner : SourceView}
    {encodedView localBufferBytes : Nat} {s t : SegmentState} {entry : Nat × Option Segment}
    (hids : rowCount b .rootIds = rowCount b .rootKinds)
    (h : checkSegment sha256 topOwner encodedView (rowCount b .rootKinds) localBufferBytes s entry =
      .ok t) : ∃ segment, t.records = s.records ++ [segment] ∧ segment.Safe b := by
  unfold checkSegment at h
  cases hentry : entry.2 with
  | none =>
    rw [hentry] at h
    cases h
  | some segment =>
    rw [hentry] at h
    obtain ⟨role, _, h⟩ := bind_ok h
    obtain ⟨postingMode, _, h⟩ := bind_ok h
    obtain ⟨rootIds, hrootIds, h⟩ := bind_ok h
    obtain ⟨scopeMap, hscopeMap, h⟩ := bind_ok h
    obtain ⟨_, _, h⟩ := bind_ok h
    obtain ⟨_, _, h⟩ := bind_ok h
    obtain ⟨_, _, h⟩ := bind_ok h
    obtain ⟨rootCount, hcount, h⟩ := bind_ok h
    obtain ⟨_, hpostings, h⟩ := bind_ok h
    obtain ⟨_, _, h⟩ := bind_ok h
    obtain ⟨_, _, h⟩ := bind_ok h
    obtain ⟨_, _, h⟩ := bind_ok h
    obtain ⟨_, _, hdone⟩ := bind_ok h
    obtain ⟨hbytes, hwholePostings⟩ := borrowedSegmentBytes_ok hrootIds
    obtain ⟨-, hwholeRows⟩ := borrowedSegmentBytes_ok hscopeMap
    rw [hbytes] at hpostings
    have hpostings := postings_ok hpostings
    obtain ⟨hlocal, hreferred⟩ := segmentRootCount_ok hcount
    have hrecords : t.records = s.records ++ [segment] :=
      congrArg SegmentState.records (Except.ok.inj hdone).symm
    refine ⟨segment, hrecords, hwholePostings, fun k hk => ?_, hwholeRows, fun k hk => ?_⟩
    · obtain ⟨hpos, hle⟩ := hpostings k hk
      refine ⟨hpos, ?_⟩
      cases hsource : segment.source with
      | none =>
        have hn := hlocal hsource
        simp only
        omega
      | some source =>
        obtain ⟨kinds, ids, hbuffers, hkinds, hidRows⟩ := hreferred source hsource
        exact ⟨kinds, ids, hbuffers, by omega, by omega⟩
    · have hwhole := Nat.div_add_mod segment.anonymousScopeMap.bytes.length 64
      exact ⟨rowAt_length (by omega), rowAt_length (by omega)⟩

theorem validateSegments_ok {b : Buffers} {sha256 : Bytes → Bytes} {topOwner : SourceView}
    {encodedView localBufferBytes : Nat} {raw : Option (List (Option Segment))}
    {segments : List Segment} (hids : rowCount b .rootIds = rowCount b .rootKinds)
    (h : validateSegments sha256 raw topOwner encodedView (rowCount b .rootKinds) localBufferBytes =
      .ok segments) : ∀ segment ∈ segments, segment.Safe b := by
  cases raw with
  | none => cases h
  | some raw =>
    unfold validateSegments at h
    obtain ⟨_, _, h⟩ := bind_ok h
    obtain ⟨_, _, h⟩ := bind_ok h
    obtain ⟨_, _, h⟩ := bind_ok h
    obtain ⟨s, hscan, h⟩ := bind_ok h
    obtain ⟨_, _, h⟩ := bind_ok h
    obtain ⟨_, _, h⟩ := bind_ok h
    obtain ⟨_, _, h⟩ := bind_ok h
    obtain rfl := Except.ok.inj h
    refine foldlM_ok (fun s : SegmentState => ∀ segment ∈ s.records, segment.Safe b) _ _ s hscan
      (fun segment hm => (List.not_mem_nil hm).elim) ?_
    intro u entry v _ hu hv
    obtain ⟨added, hrecords, hsafe⟩ := checkSegment_ok hids hv
    intro segment hm
    rw [hrecords] at hm
    rcases List.mem_append.mp hm with hm | hm
    · exact hu segment hm
    · rw [List.mem_singleton.mp hm]
      exact hsafe

/-- What the readers of a validated view rely on. -/
structure SafeToRead (lease : Lease) : Prop where
  /-- the arenas are parted by their owners -/
  fieldOwner : ∀ i < rowCount lease.buffers .fieldKinds,
    ∃! id, (1 ≤ id ∧ id ≤ rowCount lease.buffers .nodeTags) ∧
      row lease.buffers .nodeFieldOffsets (id - 1) ≤ i ∧ i < row lease.buffers .nodeFieldOffsets id
  itemOwner : ∀ j < rowCount lease.buffers .itemKinds,
    ∃! f, (f < rowCount lease.buffers .fieldKinds ∧ isCollection lease.buffers f = true) ∧
      (itemSpan lease.buffers f).Has j
  scalarOwner : ∀ p < (lease.buffers .scalarBytes).length,
    ∃! owner : Owner, (owner.InTable lease.buffers ∧ owner.isScalar lease.buffers = true) ∧
      (owner.span lease.buffers).Has p
  /-- every row and every scalar range that the references lead to is there -/
  rows : ∀ t, Refers lease.buffers t → ∀ r ∈ t.rows,
    (r.2 + 1) * r.1.width ≤ (lease.buffers r.1).length
  scalars : ∀ owner : Owner, owner.InTable lease.buffers → owner.isScalar lease.buffers = true →
    owner.value lease.buffers + owner.length lease.buffers ≤ (lease.buffers .scalarBytes).length
  /-- no reader of the columns fails for being out of bounds -/
  readers : ∀ maxIriBytes maxLiteralBytes lowered t, Refers lease.buffers t →
    t.Readable (columnsOf lease.buffers maxIriBytes maxLiteralBytes lowered)
  segments : ∀ segment ∈ lease.segments, segment.Safe lease.buffers

/-- Whatever the validation accepts is safe to read. -/
theorem validated_view_safe (sha256 : Bytes → Bytes) (sourceView : SourceView)
    (encoded : EncodedView) (requestedScope : Nat) (lease : Lease)
    (h : validateEncodedView sha256 sourceView encoded requestedScope = .ok lease) :
    SafeToRead lease := by
  unfold validateEncodedView at h
  obtain ⟨_, _, h⟩ := bind_ok h
  obtain ⟨_, _, h⟩ := bind_ok h
  obtain ⟨_, _, h⟩ := bind_ok h
  obtain ⟨_, _, h⟩ := bind_ok h
  obtain ⟨_, _, h⟩ := bind_ok h
  split at h
  · cases h
  obtain ⟨_, _, h⟩ := bind_ok h
  obtain ⟨_, _, h⟩ := bind_ok h
  obtain ⟨_, _, h⟩ := bind_ok h
  split at h
  · cases h
  obtain ⟨validated, _, h⟩ := bind_ok h
  obtain ⟨_, _, h⟩ := bind_ok h
  obtain ⟨_, _, h⟩ := bind_ok h
  obtain ⟨localRootCount, hcolumns, h⟩ := bind_ok h
  obtain ⟨segments, hsegments, h⟩ := bind_ok h
  obtain ⟨_, _, hdone⟩ := bind_ok h
  obtain rfl := Except.ok.inj hdone
  obtain ⟨hb, hroots⟩ := referenced_of_ok hcolumns
  rw [hroots] at hsegments
  exact {
    fieldOwner := fun i hi => hb.field_owner hi
    itemOwner := fun j hj => hb.item_owner hj
    scalarOwner := fun p hp => hb.scalar_owner hp
    rows := fun t ht r hr => (hb.rows_inBounds ht r hr).2
    scalars := hb.scalar_inBounds
    readers := fun maxIriBytes maxLiteralBytes lowered t ht =>
      refers_readable (columnsOf_shows _ maxIriBytes maxLiteralBytes lowered) hb ht
    segments := validateSegments_ok hb.rootIds hsegments }

/-- A table with one root, a node of one text field. -/
def sampleView : EncodedView :=
  let view (name : String) (bytes : Bytes) : Attribute String × MemoryView :=
    (.exact name, ⟨true, true, true, bytes⟩)
  { identity := 1
    publicType := true
    schemaName := .exact ENCODED_SCHEMA_NAME
    schemaVersion := .exact 2
    modelSchema := .exact 2
    owner := 0
    descriptor := .exact [1]
    descriptorDigest := none
    buffers := some [
      view "root_kinds" [2], view "root_ids" [1, 0, 0, 0], view "node_tags" [1, 0],
      view "node_field_offsets" [0, 0, 0, 0, 0, 0, 0, 0, 1, 0, 0, 0, 0, 0, 0, 0],
      view "field_kinds" [2], view "field_values" [0, 0, 0, 0, 0, 0, 0, 0],
      view "field_lengths" [1, 0, 0, 0, 0, 0, 0, 0],
      view "item_kinds" [], view "item_values" [], view "item_lengths" [],
      view "scalar_bytes" [97]]
    fingerprintType := 5
    scope := 7
    hasDocumentKey := false
    segments := some [some {
      role := .exact SEGMENT_DIRECT
      owner := 0
      source := none
      postingMode := .exact POSTINGS_ALL
      rootIds := ⟨true, true, true, []⟩
      anonymousScopeMap := ⟨true, true, true, []⟩
      memberToken := none }] }

/-- A hash that gives the descriptor of the sample the frozen digest. -/
def sampleHash (bytes : Bytes) : Bytes := if bytes = [1] then ENCODED_DESCRIPTOR_SHA256 else []

theorem validated_view_safe_sample :
    ∃ lease, validateEncodedView sampleHash ⟨0, .exact 2, fun _ => none, some 5⟩ sampleView 7 =
      .ok lease ∧ SafeToRead lease :=
  ⟨_, rfl, validated_view_safe sampleHash ⟨0, .exact 2, fun _ => none, some 5⟩ sampleView 7 _ rfl⟩

end Projector.Encoded
