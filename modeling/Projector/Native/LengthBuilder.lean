import Projector.Lib.ColourWalk
import Projector.Native.CanonicalCode
import Projector.Native.GenericChecks

namespace Projector.Native
open Lib Projector.Core Projector.Encoded Relation

/-- A computation that gives a value with `P`, unless the meter refuses or an error of `R` is
raised. -/
def Halts {β α : Type} (m : Meter β) (R : KernelError → Prop) (x : Metered β α) (P : α → Prop) :
    Prop :=
  ∀ b, (∃ a b', x b = .ok (a, b') ∧ P a) ∨ ∃ e, (Refusal m e ∨ R e) ∧ x b = .error e

section Halts
variable {β α γ : Type} {m : Meter β} {R : KernelError → Prop} {x : Metered β α}
  {f : α → Metered β γ} {a : α} {P P' : α → Prop} {Q : γ → Prop}

theorem Gives.halts (h : Gives m x a) (ha : P a) : Halts m R x P := by
  intro b
  rcases h b with ⟨b', hb⟩ | ⟨e, he, hb⟩
  · exact .inl ⟨a, b', hb, ha⟩
  · exact .inr ⟨e, .inl he, hb⟩

theorem Halts.pure (h : P a) : Halts m R (Pure.pure a : Metered β α) P := Gives.pure.halts h

theorem Halts.malformed {message : String} (h : R (.malformed message)) :
    Halts m R (Native.malformed message : Metered β α) P :=
  fun _ => .inr ⟨_, .inr h, rfl⟩

theorem Halts.raises {e : KernelError} (h : R e) :
    Halts m R (Native.lift (.error e) : Metered β α) P :=
  fun _ => .inr ⟨e, .inr h, rfl⟩

theorem Halts.mono (h : Halts m R x P) (hp : ∀ a, P a → P' a) : Halts m R x P' := by
  intro b
  rcases h b with ⟨a, b', hb, ha⟩ | hstop
  · exact .inl ⟨a, b', hb, hp a ha⟩
  · exact .inr hstop

theorem Halts.bind (hx : Halts m R x P) (hf : ∀ a, P a → Halts m R (f a) Q) :
    Halts m R (x >>= f) Q := by
  intro b
  change (∃ c b', (x b >>= fun r => f r.1 r.2) = _ ∧ _) ∨
    ∃ e, _ ∧ (x b >>= fun r => f r.1 r.2) = _
  rcases hx b with ⟨a, b', hb, ha⟩ | ⟨e, he, hb⟩
  · rw [hb]
    exact hf a ha b'
  · exact .inr ⟨e, he, by rw [hb]; rfl⟩

theorem Gives.bindHalts (hx : Gives m x a) (hf : Halts m R (f a) Q) : Halts m R (x >>= f) Q :=
  (hx.halts (P := fun c => c = a) rfl).bind fun _ hc => hc ▸ hf

/-- A loop that keeps a relation between what is done and the value it carries. -/
theorem Halts.foldlM {xs : List α} {step : γ → α → Metered β γ} (I : List α → γ → Prop)
    (hstep : ∀ done a rest c, xs = done ++ a :: rest → I done c →
      Halts m R (step c a) (I (done ++ [a]))) {c : γ} (h : I [] c) :
    Halts m R (xs.foldlM step c) (I xs) := by
  suffices hrest : ∀ rest done c, xs = done ++ rest → I done c →
      Halts m R (rest.foldlM step c) (I xs) from hrest xs [] c rfl h
  intro rest
  induction rest with
  | nil =>
    intro done c hx hi
    rw [List.append_nil] at hx
    rw [List.foldlM_nil, hx]
    exact Halts.pure hi
  | cons a rest ih =>
    intro done c hx hi
    rw [List.foldlM_cons]
    apply (hstep done a rest c hx hi).bind
    intro c' hi'
    exact ih (done ++ [a]) c' (by rw [hx, List.append_assoc]; rfl) hi'

/-- What is known of every value that is given is known here too. -/
theorem Halts.known (h : Halts m R x P) (hx : ∀ b a b', x b = .ok (a, b') → P' a) :
    Halts m R x fun a => P a ∧ P' a := by
  intro b
  rcases h b with ⟨a, b', hb, ha⟩ | hstop
  · exact .inl ⟨a, b', hb, ha, hx b a b' hb⟩
  · exact .inr hstop

/-- A sum that may leave the numbers of the machine. -/
theorem Halts.checkedAdd {n k : Nat} {message : String} (h : R (.resource message)) :
    Halts m R (Native.lift (Native.checkedAdd n k message)) (fun _ => True) := by
  unfold Native.checkedAdd
  split
  · exact (Gives.lift rfl).halts trivial
  · exact .raises h

end Halts

/-- The errors of sums that leave the numbers of the machine. -/
def LENGTH_OVERFLOWS : List String :=
  ["encoded canonical child length overflow", "encoded canonical scalar length overflow",
    "encoded canonical integer length overflow", integerWidthOverflow,
    "encoded canonical collection length overflow", "encoded canonical set length overflow",
    "encoded canonical sequence length overflow", "encoded canonical node length overflow"]

/-- The errors of payloads that are not canonical. -/
def PAYLOAD_ERRORS : List String :=
  ["encoded canonical text component is not UTF-8",
    "encoded canonical enum component is not nonempty ASCII",
    "encoded canonical integer is not minimally encoded"]

/-- Text is UTF-8, the names of enumerations are ASCII, and integers have no idle bytes. -/
def canonicalPayload (kind : Nat) (payload : Bytes) : Bool :=
  if kind = COMPONENT_INTEGER then Columns.minimalInteger payload else admitted kind payload

/-- Why the lengths of a table that was let through cannot be found. -/
inductive BuildError (d : DirectColumns) : KernelError → Prop where
  | overflow {message : String} (h : message ∈ LENGTH_OVERFLOWS) : BuildError d (.resource message)
  | payload {message : String} (h : message ∈ PAYLOAD_ERRORS) {index : Nat} {item : Bool}
      {row : ComponentRow} {payload : Bytes} (hrow : d.columns.cellAt index item = some row)
      (hpayload : d.columns.payloadAt row.value row.length = some payload)
      (hbad : canonicalPayload row.kind payload = false) : BuildError d (.malformed message)
  | cycle {id : Nat} (h : TransGen d.columns.HasChild id id) : BuildError d (.malformed cyclicGraph)

section Components
variable {β : Type} {m : Meter β} {d : DirectColumns} {index : Nat} {item : Bool}

theorem scalarRange_of_inside (hfits : d.columns.scalarBytes.length < usizeLimit) {value length : Nat}
    (hinside : value + length ≤ d.columns.scalarBytes.length) :
    ∃ payload, d.columns.payloadAt value length = some payload ∧
      d.scalarRange value length = .ok payload := by
  have hpayload : d.columns.payloadAt value length =
      some ((d.columns.scalarBytes.drop value).take length) := by
    unfold Columns.payloadAt
    rw [if_pos (by omega)]
  exact ⟨_, hpayload, scalarRange_ok.mpr ⟨by omega, hpayload⟩⟩

theorem checkScalar_halts {kind value length : Nat} {payload : Bytes}
    (hrow : d.columns.cellAt index item = some ⟨kind, value, length⟩)
    (hpayload : d.columns.payloadAt value length = some payload) (hinteger : kind ≠ COMPONENT_INTEGER) :
    Halts m (BuildError d) (checkScalar m kind payload) fun _ => admitted kind payload = true := by
  have hsame : canonicalPayload kind payload = admitted kind payload := if_neg hinteger
  cases hgood : admitted kind payload with
  | true => exact (checkScalar_gives hgood).halts rfl
  | false =>
    have hbad := hsame.trans hgood
    unfold checkScalar
    unfold admitted at hgood
    split
    · refine (Gives.consumed _).bindHalts ?_
      split
      · exact .malformed (.payload (by decide) hrow hpayload hbad)
      · rename_i htext hsome
        rw [if_pos htext] at hgood
        rw [Option.isNone_iff_eq_none] at hsome
        exact absurd (Option.not_isSome_iff_eq_none.mp (by rw [hgood]; decide)) hsome
    · rename_i htext
      rw [if_neg htext] at hgood
      split
      · refine (Gives.consumed _).bindHalts ?_
        split
        · exact .malformed (.payload (by decide) hrow hpayload hbad)
        · rename_i henum hascii
          rw [if_pos henum] at hgood
          obtain ⟨hempty, hany⟩ := not_or.mp hascii
          rw [Bool.not_eq_true] at hempty hany
          rw [hempty, hany] at hgood
          cases hgood
      · rename_i henum
        rw [if_neg henum] at hgood
        cases hgood

/-- A component that is no collection is read, or its payload is not canonical. -/
theorem leaf_halts (hfits : d.columns.scalarBytes.length < usizeLimit) {row : ComponentRow}
    (hrow : d.columns.cellAt index item = some row) (hleaf : LeafRow d row) :
    Halts m (BuildError d) (canonicalComponent m d index item) fun component =>
      ComponentAt d index item row component := by
  cases hleaf with
  | none => exact (canonicalComponent_gives ⟨_, hrow, .none⟩).halts .none
  | node hid => exact (canonicalComponent_gives ⟨_, hrow, .node hid⟩).halts (.node hid)
  | @scalar kind value length hkind hinside =>
    obtain ⟨payload, hpayload, hread⟩ := scalarRange_of_inside hfits hinside
    have hsmall : value + length < usizeLimit := (scalarRange_ok.mp hread).1
    by_cases hgood : canonicalPayload kind payload = true
    · -- The payload is canonical, so the component is read as it stands.
      have hcomponent : ∃ component, ComponentAt d index item ⟨kind, value, length⟩ component := by
        obtain rfl | rfl | rfl | rfl := hkind
        · exact ⟨_, .scalar .text hpayload hsmall hgood⟩
        · exact ⟨_, .scalar .bytes hpayload hsmall rfl⟩
        · exact ⟨_, .integer hpayload hsmall hgood⟩
        · exact ⟨_, .scalar .enum hpayload hsmall hgood⟩
      obtain ⟨component, hcomponent⟩ := hcomponent
      exact (canonicalComponent_gives ⟨_, hrow, hcomponent⟩).halts hcomponent
    · have hbad := Bool.not_eq_true _ ▸ hgood
      unfold canonicalComponent
      refine (Gives.lift (componentRow_ok.mpr hrow)).bindHalts ?_
      obtain rfl | rfl | rfl | rfl := hkind
      · exact (Gives.lift hread).bindHalts ((checkScalar_halts hrow hpayload (by decide)).bind
          fun _ h => absurd h hgood)
      · exact absurd rfl hgood
      · refine (Gives.lift hread).bindHalts ?_
        have hidle : Columns.minimalInteger payload = false := hbad
        rw [hidle]
        exact .malformed (.payload (by decide) hrow hpayload hidle)
      · exact (Gives.lift hread).bindHalts ((checkScalar_halts hrow hpayload (by decide)).bind
          fun _ h => absurd h hgood)

end Components

section Lengths
variable {β : Type} {m : Meter β} {d : DirectColumns} {lengths : Nat → Nat} {index : Nat}
  {item : Bool} {row : ComponentRow} {component : CanonicalComponent}

theorem lift_bind {α γ : Type} (x : Except KernelError α) (f : α → Except KernelError γ) :
    (lift (x >>= f) : Metered β γ) = lift x >>= fun a => lift (f a) := by
  funext b
  cases x with
  | error e => rfl
  | ok a => rfl

theorem integerVarintChunks_halts {payload : Bytes} (h : Columns.minimalInteger payload = true) :
    Halts m (BuildError d) (lift (integerVarintChunks payload)) fun _ => True := by
  have hwide : BuildError d (.resource integerWidthOverflow) := .overflow (by decide)
  unfold Columns.minimalInteger at h
  rw [Bool.and_eq_true, Bool.not_eq_true', Bool.not_eq_true'] at h
  obtain ⟨hsome, hminimal⟩ := h
  unfold integerVarintChunks
  split
  · rename_i hnone
    rw [List.getLast?_eq_none_iff.mp hnone] at hsome
    cases hsome
  · rename_i last hlast
    split
    · rename_i hidle
      rw [hlast, hidle.2, decide_eq_true hidle.1] at hminimal
      cases hminimal
    · split
      · exact (Gives.lift rfl).halts trivial
      · dsimp only
        split
        · rw [ok_bind _ rfl, lift_bind]
          refine (Halts.checkedAdd hwide).bind fun _ _ => ?_
          rw [lift_bind]
          exact (Halts.checkedAdd hwide).bind fun _ _ => (Gives.lift rfl).halts trivial
        · exact .raises hwide

theorem sizedLength_halts {total length : Nat} {message : String} (h : message ∈ LENGTH_OVERFLOWS) :
    Halts m (BuildError d) (lift (sizedLength total length message)) fun _ => True := by
  unfold sizedLength
  rw [lift_bind]
  exact (Halts.checkedAdd (.overflow h)).bind fun _ _ => .checkedAdd (.overflow h)

theorem childLength_gives {id : Nat} {message : String} (h : lengths id ≠ 0) :
    Gives m (lift (childLength lengths id message)) (lengths id) :=
  Gives.lift (if_neg h)

/-- The length of a component that is no collection is found, or it is too large. -/
theorem leafLength_halts (hleaf : LeafRow d row) (h : ComponentAt d index item row component)
    (hchild : ∀ id, row = ⟨COMPONENT_NODE, id, 0⟩ → lengths id ≠ 0) :
    Halts m (BuildError d) (lift (leafLength lengths component)) fun _ => True := by
  cases h with
  | none => exact (Gives.lift rfl).halts trivial
  | node =>
    unfold leafLength
    dsimp only
    rw [lift_bind]
    exact (childLength_gives (hchild _ rfl)).bindHalts (sizedLength_halts (by decide))
  | scalar => exact sizedLength_halts (by decide)
  | integer hpayload hsmall hminimal =>
    unfold leafLength
    dsimp only
    rw [lift_bind]
    exact (integerVarintChunks_halts hminimal).bind fun _ _ => .checkedAdd (.overflow (by decide))
  | collection hkind =>
    have hcollection := hleaf.not_collection
    obtain rfl | rfl := hkind
    · cases hcollection
    · cases hcollection

/-- One item of a collection, whose nodes have lengths. -/
theorem itemTurn_halts (hfits : d.columns.scalarBytes.length < usizeLimit) {kind total : Nat}
    (hitem : ItemRow d kind index)
    (hchild : ∀ id, d.columns.cellAt index true = some ⟨COMPONENT_NODE, id, 0⟩ → lengths id ≠ 0) :
    Halts m (BuildError d) (itemTurn m d lengths kind total index) fun _ => True := by
  obtain ⟨row, hrow, hleaf, hset⟩ := hitem
  unfold itemTurn
  refine (Gives.consumed _).bindHalts ((leaf_halts hfits hrow hleaf).bind fun component h => ?_)
  have hlengths : ∀ id, row = ⟨COMPONENT_NODE, id, 0⟩ → lengths id ≠ 0 :=
    fun id he => hchild id (he ▸ hrow)
  split
  · rename_i hkind
    have hnode := hset hkind
    cases h with
    | node => exact (childLength_gives (hlengths _ rfl)).bindHalts (sizedLength_halts (by decide))
    | none => cases hnode
    | integer => cases hnode
    | scalar kind =>
      cases kind
      · cases hnode
      · cases hnode
      · cases hnode
    | collection hcollection =>
      obtain rfl | rfl := hcollection
      · cases hnode
      · cases hnode
  · exact (Gives.consumed _).bindHalts ((leafLength_halts hleaf h hlengths).bind fun _ _ =>
      .checkedAdd (.overflow (by decide)))

/-- A field is read, or a payload in it is not canonical. -/
theorem field_halts (hfits : d.columns.scalarBytes.length < usizeLimit) (h : FieldHolds d index) :
    Halts m (BuildError d) (canonicalComponent m d index false) fun component =>
      ∃ row, d.columns.cellAt index false = some row ∧ ComponentAt d index false row component := by
  cases h with
  | leaf hrow hleaf =>
    exact (leaf_halts hfits hrow hleaf).mono fun component hc => ⟨_, hrow, hc⟩
  | @collection kind start length hrow hkind hinside hitems =>
    have hcomponent : ComponentAt d index false ⟨kind, start, length⟩
        (.collection kind start length) := .collection hkind rfl ⟨by omega, by omega⟩
    exact (canonicalComponent_gives ⟨_, hrow, hcomponent⟩).halts ⟨_, hrow, hcomponent⟩

/-- The length of a field whose children have lengths is found, or it is too large. -/
theorem exitField_halts (hfits : d.columns.scalarBytes.length < usizeLimit) {total id : Nat}
    (h : FieldHolds d index) (hown : d.columns.Owns id index false)
    (hchild : ∀ c, d.columns.HasChild id c → lengths c ≠ 0) :
    Halts m (BuildError d) (exitField m d lengths total index) fun _ => True := by
  unfold exitField
  refine (field_halts hfits h).bind fun component hcomponent => ?_
  obtain ⟨row, hrow, hcomponent⟩ := hcomponent
  refine Halts.bind (P := fun _ => True) ?_ fun _ _ => .checkedAdd (.overflow (by decide))
  unfold componentLength
  refine (Gives.consumed _).bindHalts ?_
  cases h with
  | leaf hrow' hleaf =>
    obtain rfl := Option.some.inj (hrow.symm.trans hrow')
    have hlengths : ∀ c, row = ⟨COMPONENT_NODE, c, 0⟩ → lengths c ≠ 0 :=
      fun c he => hchild c ⟨index, false, 0, hown, he ▸ hrow⟩
    have hlength := leafLength_halts (m := m) hleaf hcomponent hlengths
    cases hcomponent with
    | collection hkind =>
      have hcollection := hleaf.not_collection
      obtain rfl | rfl := hkind
      · cases hcollection
      · cases hcollection
    | _ => exact hlength
  | @collection kind start length hrow' hkind hinside hitems =>
    obtain rfl := Option.some.inj (hrow.symm.trans hrow')
    have hsame : component = .collection kind start length := by
      cases hcomponent with
      | collection => rfl
      | none => obtain h | h := hkind <;> cases h
      | node => obtain h | h := hkind <;> cases h
      | integer => obtain h | h := hkind <;> cases h
      | scalar k => cases k <;> obtain h | h := hkind <;> cases h
    subst hsame
    refine (Halts.checkedAdd (.overflow (by decide))).bind fun total _ => ?_
    refine (Halts.foldlM (fun _ _ => True) (fun done j rest c hj _ => ?_) trivial)
    have hin : j ∈ List.range' start length := by
      rw [hj]
      simp
    obtain ⟨hlow, hhigh⟩ := List.mem_range'_1.mp hin
    refine itemTurn_halts hfits (hitems j hlow hhigh) fun c hc => ?_
    exact hchild c ⟨j, true, 0, .item hown hrow hkind ⟨hlow, hhigh⟩, hc⟩

end Lengths

section Places
variable (d : DirectColumns)

/-- The items that a field holds. -/
def itemPlaces (index : Nat) : Nat :=
  if (d.columns.cellAt index false).any fun row => isCollectionKind row.kind then
    (itemSpan d index).2
  else 0

/-- The places of a field that may refer to a node: the field and its items. -/
def fieldPlaces (index : Nat) : Nat := 1 + itemPlaces d index

/-- The events that a node may add: the one to leave it, and one for every place of its fields. -/
def nodePlaces (id : Nat) : Nat :=
  1 + ((List.range' (fieldSpan d id).1 (fieldSpan d id).2).map (fieldPlaces d)).sum

theorem sum_filter (xs : List Nat) (p : Nat → Bool) (f : Nat → Nat) :
    ((xs.filter p).map f).sum = (xs.map fun x => if p x then f x else 0).sum := by
  induction xs with
  | nil => rfl
  | cons x xs ih =>
    rw [List.map_cons, List.sum_cons]
    cases hp : p x with
    | true => rw [List.filter_cons_of_pos hp, List.map_cons, List.sum_cons, ih, if_pos rfl]
    | false =>
      rw [List.filter_cons_of_neg (by rw [hp]; decide), ih, if_neg (by decide), Nat.zero_add]

theorem sum_one_add (xs : List Nat) (f : Nat → Nat) :
    (xs.map fun x => 1 + f x).sum = xs.length + (xs.map f).sum := by
  induction xs with
  | nil => rfl
  | cons x xs ih =>
    rw [List.map_cons, List.sum_cons, ih, List.map_cons, List.sum_cons, List.length_cons]
    omega

/-- Every field and every item is a place of one node. -/
theorem sum_nodePlaces {d : DirectColumns} (h : SoundTable d) :
    ((List.range' 1 d.columns.nodeCount).map (nodePlaces d)).sum =
      d.columns.nodeCount + (d.columns.fieldCount + d.columns.itemCount) := by
  have hfields := h.fieldTiles.sum_places (fieldPlaces d)
  have hitems := h.itemTiles.sum_lengths
  rw [Nat.sub_zero, ← List.range_eq_range'] at hfields
  unfold collections at hitems
  rw [sum_filter, Nat.zero_add] at hitems
  have hplaces : ((List.range d.columns.fieldCount).map (fieldPlaces d)).sum =
      d.columns.fieldCount + d.columns.itemCount := by
    rw [← hitems]
    exact (sum_one_add _ _).trans (by rw [List.length_range]; rfl)
  rw [← hplaces, ← hfields]
  exact (sum_one_add _ _).trans (by rw [List.length_range'])

/-- The nodes that have been entered add no more events than all nodes. -/
theorem sum_entered {d : DirectColumns} (h : SoundTable d) {entered : List Nat}
    (hnodup : entered.Nodup) (hin : ∀ id ∈ entered, 1 ≤ id ∧ id ≤ d.columns.nodeCount) :
    (entered.map (nodePlaces d)).sum ≤
      d.columns.nodeCount + (d.columns.fieldCount + d.columns.itemCount) := by
  have hsub : entered ⊆ List.range' 1 d.columns.nodeCount := fun id hid =>
    List.mem_range'_1.mpr ⟨(hin id hid).1, by have := (hin id hid).2; omega⟩
  obtain ⟨sorted, hperm, hsorted⟩ := List.subperm_of_subset hnodup hsub
  rw [← sum_nodePlaces h, ← (hperm.map (nodePlaces d)).sum_eq]
  exact (hsorted.map (nodePlaces d)).sum_le_sum fun _ _ => Nat.zero_le _

end Places

section Enter
variable {β : Type} {m : Meter β} {d : DirectColumns} {id index : Nat} {s₀ s : Building}

/-- The nodes that a field refers to. -/
inductive FieldChild (d : DirectColumns) (index : Nat) (child : Nat) : Prop where
  | own {length : Nat}
      (hrow : d.columns.cellAt index false = some ⟨COMPONENT_NODE, child, length⟩)
  | member {kind start length j none : Nat}
      (hrow : d.columns.cellAt index false = some ⟨kind, start, length⟩)
      (hkind : kind = COMPONENT_SET ∨ kind = COMPONENT_SEQUENCE)
      (hj : start ≤ j ∧ j < start + length)
      (hitem : d.columns.cellAt j true = some ⟨COMPONENT_NODE, child, none⟩)

theorem fieldChild_of_hasChild {child : Nat} (h : d.columns.HasChild id child) :
    ∃ index, d.columns.Owns id index false ∧ FieldChild d index child := by
  obtain ⟨index, item, length, hown, hrow⟩ := h
  cases hown with
  | field hrange hindex => exact ⟨index, .field hrange hindex, .own hrow⟩
  | @item field _ row hfield hcell hkind hindex =>
    exact ⟨field, hfield, .member hcell hkind hindex hrow⟩

/-- The only node that a field without items refers to is the one that it holds. -/
theorem fieldChild_of_leaf {row : ComponentRow} {child : Nat}
    (hrow : d.columns.cellAt index false = some row) (hleaf : LeafRow d row)
    (h : FieldChild d index child) : ∃ length, row = ⟨COMPONENT_NODE, child, length⟩ := by
  cases h with
  | @own length hcell =>
    rw [hrow] at hcell
    exact ⟨length, Option.some.inj hcell⟩
  | member hcell hkind =>
    rw [hrow] at hcell
    cases hcell
    have hno := hleaf.not_collection
    obtain rfl | rfl := hkind
    · cases hno
    · cases hno

/-- The nodes that a collection refers to are those of its items. -/
theorem fieldChild_of_collection {kind start length child : Nat}
    (hrow : d.columns.cellAt index false = some ⟨kind, start, length⟩)
    (hkind : kind = COMPONENT_SET ∨ kind = COMPONENT_SEQUENCE) (h : FieldChild d index child) :
    ∃ j, (start ≤ j ∧ j < start + length) ∧
      ∃ none, d.columns.cellAt j true = some ⟨COMPONENT_NODE, child, none⟩ := by
  cases h with
  | own hcell =>
    rw [hrow] at hcell
    cases hcell
    obtain h | h := hkind
    · cases h
    · cases h
  | @member _ _ _ j none hcell _ hj hitem =>
    rw [hrow] at hcell
    cases hcell
    exact ⟨j, hj, none, hitem⟩

/-- A node that is entered: a child on the path closes a cycle, and there is room for all
children. -/
structure Entering (d : DirectColumns) (id : Nat) (s₀ : Building) : Prop where
  colors : ∀ c, s₀.colors c ≤ 2
  grey : ∀ c, d.columns.HasChild id c → s₀.colors c = 1 → ∃ a, TransGen d.columns.HasChild a a
  room : s₀.events.length +
    ((List.range' (fieldSpan d id).1 (fieldSpan d id).2).map (fieldPlaces d)).sum ≤ eventCapacity d

/-- Some white children of a node are pushed, no more than there are places; those that were seen
are pushed or have been left. -/
structure PushedWhite (d : DirectColumns) (id : Nat) (s₀ : Building) (places : Nat)
    (seen : Nat → Prop) (s : Building) (pushed : List Nat) : Prop where
  lengths : s.lengths = s₀.lengths
  colors : s.colors = s₀.colors
  events : s.events = pushed.map .enter ++ s₀.events
  few : pushed.length ≤ places
  white : ∀ c ∈ pushed, d.columns.HasChild id c ∧ s₀.colors c = 0
  covers : ∀ c, seen c → s₀.colors c = 2 ∨ c ∈ pushed

theorem PushedWhite.mono {places places' : Nat} {seen seen' : Nat → Prop} {pushed : List Nat}
    (h : PushedWhite d id s₀ places seen s pushed) (hplaces : places ≤ places')
    (hseen : ∀ c, seen' c → seen c) : PushedWhite d id s₀ places' seen' s pushed :=
  ⟨h.lengths, h.colors, h.events, h.few.trans hplaces, h.white, fun c hc => h.covers c (hseen c hc)⟩

/-- A child is pushed if it is white; one that is on the path closes a cycle. -/
theorem pushChild_halts (hentering : Entering d id s₀) {places : Nat} {seen : Nat → Prop}
    {pushed : List Nat} (h : PushedWhite d id s₀ places seen s pushed) {child : Nat}
    (hchild : d.columns.HasChild id child)
    (hroom : s₀.events.length + (places + 1) ≤ eventCapacity d) :
    Halts m (BuildError d) (lift (pushChild d child s)) fun s' =>
      ∃ pushed', PushedWhite d id s₀ (places + 1) (fun c => seen c ∨ c = child) s' pushed' := by
  have hcolor := hentering.colors child
  unfold pushChild
  rw [h.colors]
  split
  · rename_i hgrey
    obtain ⟨a, hcycle⟩ := hentering.grey child hchild hgrey
    exact .raises (.cycle hcycle)
  · rename_i hnot
    split
    · rename_i hwhite
      have hlength : s.events.length = pushed.length + s₀.events.length := by
        rw [h.events, List.length_append, List.length_map]
      have hfew := h.few
      unfold pushEvent
      rw [if_neg (by omega)]
      refine (Gives.lift rfl).halts ⟨child :: pushed, h.lengths, h.colors, ?_, ?_, ?_, ?_⟩
      · rw [List.map_cons, List.cons_append, ← h.events]
      · exact Nat.succ_le_succ hfew
      · intro c hc
        rcases List.mem_cons.mp hc with rfl | hc
        · exact ⟨hchild, hwhite⟩
        · exact h.white c hc
      · rintro c (hc | rfl)
        · exact (h.covers c hc).imp_right (List.mem_cons_of_mem child)
        · exact .inr List.mem_cons_self
    · rename_i hblack
      have hleft : s₀.colors child = 2 := by omega
      refine (Gives.lift rfl).halts ⟨pushed, h.lengths, h.colors, h.events, ?_, h.white, ?_⟩
      · exact h.few.trans (Nat.le_succ places)
      · rintro c (hc | rfl)
        · exact h.covers c hc
        · exact .inl hleft

/-- An item of a field is looked at: the node that it refers to is seen. -/
theorem enterItem_halts (hfits : d.columns.scalarBytes.length < usizeLimit)
    (hentering : Entering d id s₀) {places : Nat} {seen : Nat → Prop} {pushed : List Nat}
    (h : PushedWhite d id s₀ places seen s pushed) {kind : Nat} (hitem : ItemRow d kind index)
    (hchild : ∀ c length, d.columns.cellAt index true = some ⟨COMPONENT_NODE, c, length⟩ →
      d.columns.HasChild id c)
    (hroom : s₀.events.length + (places + 1) ≤ eventCapacity d) :
    Halts m (BuildError d) (enterItem m d kind s index) fun s' =>
      ∃ pushed', PushedWhite d id s₀ (places + 1)
        (fun c => seen c ∨ ∃ length, d.columns.cellAt index true = some ⟨COMPONENT_NODE, c, length⟩)
        s' pushed' := by
  obtain ⟨row, hrow, hleaf, hset⟩ := hitem
  -- An item that is no node adds nothing to what is seen.
  have hkept : row.kind ≠ COMPONENT_NODE → ∀ c, (seen c ∨ ∃ length,
      d.columns.cellAt index true = some ⟨COMPONENT_NODE, c, length⟩) → seen c := by
    rintro hkind c (hc | ⟨length, hc⟩)
    · exact hc
    · rw [hrow] at hc
      cases hc
      exact absurd rfl hkind
  unfold enterItem
  refine (Gives.consumed _).bindHalts ((leaf_halts hfits hrow hleaf).bind fun component hc => ?_)
  have hother : row.kind ≠ COMPONENT_NODE → Halts m (BuildError d)
      (if kind = COMPONENT_SET then Native.malformed "encoded canonical set contains a scalar"
        else Pure.pure s : Metered β Building) fun s' =>
      ∃ pushed', PushedWhite d id s₀ (places + 1)
        (fun c => seen c ∨ ∃ length, d.columns.cellAt index true = some ⟨COMPONENT_NODE, c, length⟩)
        s' pushed' := by
    intro hkind
    rw [if_neg fun he => hkind (hset he)]
    exact .pure ⟨pushed, h.mono (Nat.le_succ places) (hkept hkind)⟩
  cases hc with
  | node hid =>
    refine (pushChild_halts hentering h (hchild _ _ hrow) hroom).mono fun s' hpushed => ?_
    obtain ⟨pushed', hpushed⟩ := hpushed
    refine ⟨pushed', hpushed.mono (Nat.le_refl _) fun c hc => hc.imp_right ?_⟩
    rintro ⟨length, hc⟩
    rw [hrow] at hc
    cases hc
    rfl
  | none => exact hother (by decide)
  | scalar kind => exact hother (scalar_ne kind).2.1
  | integer => exact hother fun he => by cases he
  | collection hkind =>
    obtain rfl | rfl := hkind
    · exact hother fun he => by cases he
    · exact hother fun he => by cases he

/-- What is pushed once some items were looked at. -/
def ItemsSeen (d : DirectColumns) (id : Nat) (s₀ : Building) (places : Nat) (seen : Nat → Prop)
    (done : List Nat) (s : Building) : Prop :=
  ∃ pushed, PushedWhite d id s₀ (places + done.length)
    (fun c => seen c ∨ ∃ j ∈ done, ∃ none,
      d.columns.cellAt j true = some ⟨COMPONENT_NODE, c, none⟩) s pushed

/-- The items of a collection are looked at one after another. -/
theorem enterItems_halts (hfits : d.columns.scalarBytes.length < usizeLimit)
    (hentering : Entering d id s₀) {places : Nat} {seen : Nat → Prop} {pushed : List Nat}
    (h : PushedWhite d id s₀ places seen s pushed) {kind start length : Nat}
    (hrow : d.columns.cellAt index false = some ⟨kind, start, length⟩)
    (hkind : kind = COMPONENT_SET ∨ kind = COMPONENT_SEQUENCE)
    (hitems : ∀ j, start ≤ j → j < start + length → ItemRow d kind j)
    (hown : d.columns.Owns id index false)
    (hroom : s₀.events.length + (places + length) ≤ eventCapacity d) :
    Halts m (BuildError d) ((List.range' start length).reverse.foldlM (enterItem m d kind) s)
      (ItemsSeen d id s₀ places seen (List.range' start length).reverse) := by
  apply Halts.foldlM (ItemsSeen d id s₀ places seen)
  · rintro done j rest s' hsplit ⟨pushed', hpushed⟩
    have hin : j ∈ List.range' start length := by
      rw [← List.mem_reverse, hsplit]
      simp
    have hlength : done.length + (rest.length + 1) = length := by
      have hall := congrArg List.length hsplit
      rw [List.length_reverse, List.length_range', List.length_append, List.length_cons] at hall
      exact hall.symm
    obtain ⟨hlow, hhigh⟩ := List.mem_range'_1.mp hin
    have hhas : ∀ c length', d.columns.cellAt j true = some ⟨COMPONENT_NODE, c, length'⟩ →
        d.columns.HasChild id c :=
      fun c length' hcell => ⟨j, true, length', .item hown hrow hkind ⟨hlow, hhigh⟩, hcell⟩
    refine (enterItem_halts hfits hentering hpushed (hitems j hlow hhigh) hhas (by omega)).mono
      fun s'' hnext => ?_
    obtain ⟨pushed'', hnext⟩ := hnext
    refine ⟨pushed'', hnext.mono ?_ fun c hc => ?_⟩
    · rw [List.length_append, List.length_singleton]
      omega
    · rcases hc with hc | ⟨k, hk, none, hcell⟩
      · exact .inl (.inl hc)
      · rcases List.mem_append.mp hk with hk | hk
        · exact .inl (.inr ⟨k, hk, none, hcell⟩)
        · exact .inr ⟨none, List.mem_singleton.mp hk ▸ hcell⟩
  · exact ⟨pushed, h.mono (Nat.le_refl _) fun c hc =>
      hc.resolve_right fun ⟨_, hin, _⟩ => absurd hin List.not_mem_nil⟩

/-- A field of the node is looked at: all nodes that it refers to are seen. -/
theorem enterField_halts (hfits : d.columns.scalarBytes.length < usizeLimit)
    (hentering : Entering d id s₀) {places : Nat} {seen : Nat → Prop} {pushed : List Nat}
    (h : PushedWhite d id s₀ places seen s pushed) (hfield : FieldHolds d index)
    (hown : d.columns.Owns id index false)
    (hroom : s₀.events.length + (places + fieldPlaces d index) ≤ eventCapacity d) :
    Halts m (BuildError d) (enterField m d s index) fun s' =>
      ∃ pushed', PushedWhite d id s₀ (places + fieldPlaces d index)
        (fun c => seen c ∨ FieldChild d index c) s' pushed' := by
  have hplaces : places + 1 ≤ places + fieldPlaces d index := by
    unfold fieldPlaces
    omega
  unfold enterField
  refine (Gives.consumed _).bindHalts ?_
  cases hfield with
  | @leaf row hrow hleaf =>
    refine (leaf_halts hfits hrow hleaf).bind fun component hc => ?_
    have hother : row.kind ≠ COMPONENT_NODE → Halts m (BuildError d)
        (Pure.pure s : Metered β Building) fun s' =>
          ∃ pushed', PushedWhite d id s₀ (places + fieldPlaces d index)
            (fun c => seen c ∨ FieldChild d index c) s' pushed' := by
      intro hkind
      refine .pure ⟨pushed, h.mono (by omega) fun c hc => hc.resolve_right fun hchild => ?_⟩
      obtain ⟨length, rfl⟩ := fieldChild_of_leaf hrow hleaf hchild
      exact hkind rfl
    cases hc with
    | @node child hid =>
      have hhas : d.columns.HasChild id child := ⟨index, false, 0, hown, hrow⟩
      refine (pushChild_halts hentering h hhas (by omega)).mono fun s' hpushed => ?_
      obtain ⟨pushed', hpushed⟩ := hpushed
      refine ⟨pushed', hpushed.mono hplaces fun c hc => hc.imp_right fun hchild => ?_⟩
      obtain ⟨length, hsame⟩ := fieldChild_of_leaf hrow hleaf hchild
      cases hsame
      rfl
    | none => exact hother (by decide)
    | scalar kind => exact hother (scalar_ne kind).2.1
    | integer => exact hother fun he => by cases he
    | collection hkind =>
      have hno := hleaf.not_collection
      obtain rfl | rfl := hkind
      · cases hno
      · cases hno
  | @collection kind start length hrow hkind hinside hitems =>
    have hcomponent : ComponentAt d index false ⟨kind, start, length⟩
        (.collection kind start length) := .collection hkind rfl ⟨by omega, by omega⟩
    have hcount : fieldPlaces d index = 1 + length := by
      unfold fieldPlaces itemPlaces itemSpan
      rw [hrow]
      obtain rfl | rfl := hkind
      · rfl
      · rfl
    refine (canonicalComponent_gives ⟨_, hrow, hcomponent⟩).bindHalts ?_
    refine (enterItems_halts hfits hentering h hrow hkind hitems hown (by omega)).mono ?_
    rintro s' ⟨pushed', hpushed⟩
    refine ⟨pushed', hpushed.mono ?_ fun c hc => hc.imp_right fun hchild => ?_⟩
    · rw [List.length_reverse, List.length_range']
      omega
    · obtain ⟨j, hj, hitem⟩ := fieldChild_of_collection hrow hkind hchild
      exact ⟨j, List.mem_reverse.mpr (List.mem_range'_1.mpr hj), hitem⟩

/-- What is pushed once some fields were looked at. -/
def FieldsSeen (d : DirectColumns) (id : Nat) (s₀ : Building) (done : List Nat) (s : Building) :
    Prop :=
  ∃ pushed, PushedWhite d id s₀ ((done.map (fieldPlaces d)).sum)
    (fun c => ∃ index ∈ done, FieldChild d index c) s pushed

/-- All fields of a node are looked at: its white children are pushed. -/
theorem enterFields_halts (hsound : SoundTable d)
    (hfits : d.columns.scalarBytes.length < usizeLimit) (hentering : Entering d id s₀)
    {start stop : Nat} (hrange : d.columns.rangeAt id = some (start, stop))
    (hspan : fieldSpan d id = (start, stop - start)) :
    Halts m (BuildError d) ((List.range' start (stop - start)).reverse.foldlM (enterField m d) s₀)
      fun s' => ∃ pushed, PushedWhite d id s₀
        ((List.range' start (stop - start)).map (fieldPlaces d)).sum (d.columns.HasChild id) s'
        pushed := by
  have hroom := hentering.room
  have hinside := Columns.rangeAt_inside hrange
  have hwithin := (hsound.fieldTiles.within (List.mem_range'_1.mpr ⟨hinside.1, by omega⟩)).2
  rw [hspan] at hroom hwithin
  dsimp only at hroom hwithin
  apply (Halts.foldlM (FieldsSeen d id s₀) ?_ ?_).mono
  · rintro s' ⟨pushed, hpushed⟩
    refine ⟨pushed, hpushed.mono ?_ fun c hc => ?_⟩
    · rw [List.map_reverse, List.sum_reverse]
    · obtain ⟨index, hown, hchild⟩ := fieldChild_of_hasChild hc
      refine ⟨index, List.mem_reverse.mpr (List.mem_range'_1.mpr ?_), hchild⟩
      cases hown with
      | field hrange' hindex =>
        rw [hrange] at hrange'
        cases hrange'
        omega
  · rintro done index rest s hsplit ⟨pushed, hpushed⟩
    have hin : index ∈ List.range' start (stop - start) := by
      rw [← List.mem_reverse, hsplit]
      simp
    obtain ⟨hlow, hhigh⟩ := List.mem_range'_1.mp hin
    have hown : d.columns.Owns id index false := .field hrange (by omega)
    have hall : ((List.range' start (stop - start)).map (fieldPlaces d)).sum =
        (done.map (fieldPlaces d)).sum + (fieldPlaces d index + (rest.map (fieldPlaces d)).sum) := by
      rw [← List.sum_reverse, ← List.map_reverse, hsplit, List.map_append, List.sum_append,
        List.map_cons, List.sum_cons]
    refine (enterField_halts hfits hentering hpushed (hsound.fields index (by omega)) hown
      (by omega)).mono fun s' hnext => ?_
    obtain ⟨pushed', hnext⟩ := hnext
    refine ⟨pushed', hnext.mono ?_ fun c hc => ?_⟩
    · rw [List.map_append, List.sum_append, List.map_singleton, List.sum_singleton]
    · obtain ⟨k, hk, hchild⟩ := hc
      rcases List.mem_append.mp hk with hk | hk
      · exact .inl ⟨k, hk, hchild⟩
      · exact .inr (List.mem_singleton.mp hk ▸ hchild)
  · exact ⟨[], rfl, rfl, rfl, Nat.zero_le _, fun c hc => absurd hc List.not_mem_nil,
      fun c ⟨_, hin, _⟩ => absurd hin List.not_mem_nil⟩

end Enter

section Turns
variable {β : Type} {m : Meter β} {d : DirectColumns} {scopeMap : Bytes → Option Bytes}
  {s : Building} {rest : List (Nat × Bool)} {colours : Colours Nat} {id : Nat}

def lengthEvent : Nat × Bool → LengthEvent
  | (id, false) => .enter id
  | (id, true) => .exit id

/-- All events that a table may ever add. -/
def allPlaces (d : DirectColumns) : Nat :=
  d.columns.nodeCount + (d.columns.fieldCount + d.columns.itemCount)

/-- The invariant of the traversal: its colours are those of a depth-first walk over the children,
its lengths are right, and the events that wait were added by nodes that have been entered. -/
structure Traversing (d : DirectColumns) (scopeMap : Bytes → Option Bytes) (s : Building)
    (stack : List (Nat × Bool)) (colours : Colours Nat) : Prop where
  events : s.events = stack.map lengthEvent
  colors : ∀ id, s.colors id = if id ∈ colours.left then 2 else if id ∈ colours.entered then 1 else 0
  walking : Walking d.columns.HasChild stack colours
  waiting : ∀ entry ∈ stack, 1 ≤ entry.1 ∧ entry.1 ≤ d.columns.nodeCount
  entered : ∀ id ∈ colours.entered, 1 ≤ id ∧ id ≤ d.columns.nodeCount
  nodup : colours.entered.Nodup
  measuring : Measuring d scopeMap s
  reserved : stack.length ≤ 1 + (colours.entered.map (nodePlaces d)).sum

theorem Traversing.black (h : Traversing d scopeMap s rest colours) :
    s.colors id = 2 ↔ id ∈ colours.left := by
  rw [h.colors]
  split
  · simp [*]
  · split
    · simp [*]
    · simp [*]

theorem Traversing.white (h : Traversing d scopeMap s rest colours) :
    s.colors id = 0 ↔ id ∉ colours.entered := by
  rw [h.colors]
  split
  · rename_i hleft
    simp [h.walking.left id hleft]
  · split
    · simp [*]
    · simp [*]

/-- The stack of events never takes more than its reservation. -/
theorem Traversing.within (hsound : SoundTable d) (h : Traversing d scopeMap s rest colours) :
    s.events.length ≤ 1 + allPlaces d := by
  have hentered := sum_entered hsound h.nodup h.entered
  have hreserved := h.reserved
  rw [h.events, List.length_map]
  unfold allPlaces
  omega

theorem allPlaces_lt (d : DirectColumns) : allPlaces d < eventCapacity d := by
  unfold allPlaces eventCapacity
  omega

/-- A node is left: all its children have lengths, so that it gets one. -/
theorem exitTurn_halts (hsound : SoundTable d) (hfits : d.columns.scalarBytes.length < usizeLimit)
    (hrows : Rows32 scopeMap) (h : Traversing d scopeMap s ((id, true) :: rest) colours) :
    Halts m (BuildError d) (eventTurn m d (.exit id) { s with events := rest.map lengthEvent })
      fun s' => Traversing d scopeMap s' rest { colours with left := id :: colours.left } := by
  have hin := h.waiting (id, true) List.mem_cons_self
  obtain ⟨start, stop, tag, hrange, hspan, htag⟩ := hsound.nodes id hin
  have hwithin := (hsound.fieldTiles.within (List.mem_range'_1.mpr ⟨hin.1, by omega⟩)).2
  rw [hspan] at hwithin
  dsimp only at hwithin
  have hchild : ∀ c, d.columns.HasChild id c → s.lengths c ≠ 0 := by
    intro c hc
    rcases h.walking.waiting [] id rest rfl c hc with hleft | ⟨flag, hnone⟩
    · exact h.measuring.left c (h.black.mpr hleft)
    · exact absurd hnone List.not_mem_nil
  have hturn : Halts m (BuildError d)
      (eventTurn m d (.exit id) { s with events := rest.map lengthEvent }) fun s' =>
        ∃ length, s' = ⟨update s.lengths id length, update s.colors id 2, rest.map lengthEvent⟩ := by
    unfold eventTurn
    refine (Gives.lift ((nodeTag_ok hrange).mpr htag)).bindHalts ?_
    refine (Gives.lift (fieldRange_ok.mpr hrange)).bindHalts ?_
    refine (Halts.foldlM (fun _ _ => True) ?_ trivial).bind fun length _ => .pure ⟨length, rfl⟩
    intro done index after total hsplit _
    have hindex : index ∈ List.range' start (stop - start) := by
      rw [hsplit]
      simp
    obtain ⟨hlow, hhigh⟩ := List.mem_range'_1.mp hindex
    exact exitField_halts hfits (hsound.fields index (by omega)) (.field hrange (by omega)) hchild
  have hpopped : Measuring d scopeMap { s with events := rest.map lengthEvent } :=
    ⟨h.measuring.table, h.measuring.left⟩
  apply (hturn.known fun b s' b' hb => (exitTurn_ok hrows hpopped hb).1).mono
  rintro _ ⟨⟨length, rfl⟩, hmeasuring⟩
  refine ⟨rfl, fun c => ?_, h.walking.leave, fun entry he => h.waiting entry (.tail _ he), h.entered,
    h.nodup, hmeasuring, ?_⟩
  · by_cases hc : c = id
    · simp [update, hc]
    · simp [update, hc, h.colors]
  · have hreserved := h.reserved
    rw [List.length_cons] at hreserved
    exact Nat.le_of_succ_le hreserved

/-- A node that was left since it was pushed is passed over. -/
theorem staleTurn_halts (h : Traversing d scopeMap s ((id, false) :: rest) colours)
    (hleft : id ∈ colours.left) :
    Halts m (BuildError d) (eventTurn m d (.enter id) { s with events := rest.map lengthEvent })
      fun s' => Traversing d scopeMap s' rest colours := by
  unfold eventTurn
  dsimp only
  rw [if_pos (h.black.mpr hleft)]
  refine .pure ⟨rfl, h.colors, h.walking.skip hleft, fun entry he => h.waiting entry (.tail _ he),
    h.entered, h.nodup, ⟨h.measuring.table, h.measuring.left⟩, ?_⟩
  have hreserved := h.reserved
  rw [List.length_cons] at hreserved
  exact Nat.le_of_succ_le hreserved

/-- A node that is entered is grey, and the others keep their colours. -/
theorem Traversing.painted (h : Traversing d scopeMap s ((id, false) :: rest) colours)
    (hwhite : id ∉ colours.entered) (c : Nat) : update s.colors id 1 c =
      if c ∈ colours.left then 2 else if c ∈ id :: colours.entered then 1 else 0 := by
  by_cases hc : c = id
  · subst hc
    rw [if_neg fun hleft => hwhite (h.walking.left c hleft), if_pos List.mem_cons_self]
    exact if_pos rfl
  · simp [update, hc, h.colors]

/-- What has been entered with one node more adds no more events than there are. -/
theorem Traversing.room (hsound : SoundTable d)
    (h : Traversing d scopeMap s ((id, false) :: rest) colours) (hwhite : id ∉ colours.entered) :
    nodePlaces d id + (colours.entered.map (nodePlaces d)).sum ≤ allPlaces d := by
  refine sum_entered hsound (List.nodup_cons.mpr ⟨hwhite, h.nodup⟩) fun c hc => ?_
  rcases List.mem_cons.mp hc with rfl | hc
  · exact h.waiting (c, false) List.mem_cons_self
  · exact h.entered c hc

theorem Traversing.entering (hsound : SoundTable d)
    (h : Traversing d scopeMap s ((id, false) :: rest) colours) (hwhite : id ∉ colours.entered) :
    Entering d id ⟨s.lengths, update s.colors id 1, .exit id :: rest.map lengthEvent⟩ := by
  refine ⟨fun c => ?_, fun c hc hgrey => ?_, ?_⟩
  · dsimp only
    rw [h.painted hwhite]
    split
    · omega
    · split <;> omega
  · dsimp only at hgrey
    rw [h.painted hwhite] at hgrey
    split at hgrey
    · cases hgrey
    · rename_i hleft
      split at hgrey
      · rename_i hpath
        exact h.walking.cycle hc hpath hleft
      · cases hgrey
  · have hreserved := h.reserved
    have hroom := h.room hsound hwhite
    have hcapacity := allPlaces_lt d
    have hplaces : nodePlaces d id = 1 +
        ((List.range' (fieldSpan d id).1 (fieldSpan d id).2).map (fieldPlaces d)).sum := rfl
    rw [List.length_cons] at hreserved
    rw [List.length_cons, List.length_map]
    omega

/-- A child is a node of the table. -/
theorem child_inside (hsound : SoundTable d) {child : Nat} (h : d.columns.HasChild id child) :
    1 ≤ child ∧ child ≤ d.columns.nodeCount := by
  obtain ⟨index, hown, hchild⟩ := fieldChild_of_hasChild h
  have hindex : index < d.columns.fieldCount := by
    cases hown with
    | field hrange hindex =>
      obtain ⟨start, stop, tag, hrange', hspan, -⟩ :=
        hsound.nodes id (Columns.rangeAt_inside hrange)
      rw [hrange] at hrange'
      cases hrange'
      have hinside := Columns.rangeAt_inside hrange
      have hwithin := (hsound.fieldTiles.within (List.mem_range'_1.mpr ⟨hinside.1, by omega⟩)).2
      rw [hspan] at hwithin
      dsimp only at hwithin
      omega
  have hleaf : ∀ {row : ComponentRow}, LeafRow d row → row.kind = COMPONENT_NODE →
      1 ≤ row.value ∧ row.value ≤ d.columns.nodeCount := by
    intro row hleaf hkind
    cases hleaf with
    | none => cases hkind
    | node hid => exact hid
    | scalar hscalar => obtain rfl | rfl | rfl | rfl := hscalar <;> cases hkind
  cases hchild with
  | own hrow =>
    cases hsound.fields index hindex with
    | leaf hrow' hrowLeaf =>
      rw [hrow] at hrow'
      cases hrow'
      exact hleaf hrowLeaf rfl
    | collection hrow' hkind =>
      rw [hrow] at hrow'
      cases hrow'
      obtain h | h := hkind
      · cases h
      · cases h
  | member hrow hkind hj hitem =>
    cases hsound.fields index hindex with
    | leaf hrow' hrowLeaf =>
      rw [hrow] at hrow'
      cases hrow'
      have hno := hrowLeaf.not_collection
      obtain rfl | rfl := hkind
      · cases hno
      · cases hno
    | collection hrow' _ _ hitems =>
      rw [hrow] at hrow'
      cases hrow'
      obtain ⟨row, hcell, hrowLeaf, -⟩ := hitems _ hj.1 hj.2
      rw [hitem] at hcell
      cases hcell
      exact hleaf hrowLeaf rfl

/-- The white children of a node that is entered wait above the event to leave it. -/
theorem Traversing.enter (hsound : SoundTable d)
    (h : Traversing d scopeMap s ((id, false) :: rest) colours) (hwhite : id ∉ colours.entered)
    {s' : Building} {pushed : List Nat} {places : Nat} (hplaces : nodePlaces d id = 1 + places)
    (hpushed : PushedWhite d id ⟨s.lengths, update s.colors id 1, .exit id :: rest.map lengthEvent⟩
      places (d.columns.HasChild id) s' pushed) :
    Traversing d scopeMap s' (pushed.map (fun c => (c, false)) ++ (id, true) :: rest)
      { colours with entered := id :: colours.entered } where
  events := by
    rw [hpushed.events, List.map_append, List.map_map, List.map_cons]
    rfl
  colors c := by
    rw [hpushed.colors]
    exact h.painted hwhite c
  walking := by
    refine h.walking.enter hwhite (fun c hc => ?_) fun c hc => ?_
    · obtain ⟨hedge, hzero⟩ := hpushed.white c hc
      refine ⟨hedge, fun hmem => ?_⟩
      dsimp only at hzero
      rw [h.painted hwhite, if_pos hmem] at hzero
      split at hzero
      · cases hzero
      · cases hzero
    · rcases hpushed.covers c hc with hblack | hin
      · left
        dsimp only at hblack
        rw [h.painted hwhite] at hblack
        split at hblack
        · assumption
        · split at hblack <;> cases hblack
      · exact .inr hin
  waiting entry he := by
    rcases List.mem_append.mp he with he | he
    · obtain ⟨c, hc, rfl⟩ := List.mem_map.mp he
      exact child_inside hsound (hpushed.white c hc).1
    · rcases List.mem_cons.mp he with rfl | he
      · exact h.waiting (id, false) List.mem_cons_self
      · exact h.waiting entry (.tail _ he)
  entered c hc := by
    rcases List.mem_cons.mp hc with rfl | hc
    · exact h.waiting (c, false) List.mem_cons_self
    · exact h.entered c hc
  nodup := List.nodup_cons.mpr ⟨hwhite, h.nodup⟩
  measuring := by
    refine ⟨by rw [hpushed.lengths]; exact h.measuring.table, fun c hc => ?_⟩
    rw [hpushed.lengths]
    apply h.measuring.left
    rw [hpushed.colors] at hc
    dsimp only [update] at hc
    split at hc
    · cases hc
    · exact hc
  reserved := by
    have hfew := hpushed.few
    have hreserved := h.reserved
    rw [List.length_cons] at hreserved
    rw [List.length_append, List.length_map, List.length_cons, List.map_cons, List.sum_cons]
    omega

/-- A white node is entered. -/
theorem enterTurn_halts (hsound : SoundTable d) (hfits : d.columns.scalarBytes.length < usizeLimit)
    (h : Traversing d scopeMap s ((id, false) :: rest) colours) (hwhite : id ∉ colours.entered) :
    Halts m (BuildError d) (eventTurn m d (.enter id) { s with events := rest.map lengthEvent })
      fun s' => ∃ pushed : List Nat, pushed.length + 1 ≤ nodePlaces d id ∧
        Traversing d scopeMap s' (pushed.map (fun c => (c, false)) ++ (id, true) :: rest)
          { colours with entered := id :: colours.entered } := by
  obtain ⟨start, stop, tag, hrange, hspan, htag⟩ :=
    hsound.nodes id (h.waiting (id, false) List.mem_cons_self)
  have hentering := h.entering hsound hwhite
  have hplaces : nodePlaces d id =
      1 + ((List.range' start (stop - start)).map (fieldPlaces d)).sum := by
    unfold nodePlaces
    rw [hspan]
  have hpush : pushEvent d (.exit id) ⟨s.lengths, update s.colors id 1, rest.map lengthEvent⟩ =
      .ok ⟨s.lengths, update s.colors id 1, .exit id :: rest.map lengthEvent⟩ := by
    have hroom := hentering.room
    rw [List.length_cons] at hroom
    exact if_neg (by dsimp only; omega)
  unfold eventTurn
  dsimp only
  rw [if_neg fun hblack => hwhite (h.walking.left id (h.black.mp hblack)), if_neg (by
    rw [h.white.mpr hwhite]
    decide)]
  refine (Gives.lift hpush).bindHalts ?_
  refine (Gives.lift (fieldRange_ok.mpr hrange)).bindHalts ?_
  refine (enterFields_halts hsound hfits hentering hrange hspan).mono ?_
  rintro s' ⟨pushed, hpushed⟩
  have hfew := hpushed.few
  exact ⟨pushed, by omega, h.enter hsound hwhite hplaces hpushed⟩

end Turns

section Run
variable {β : Type} {m : Meter β} {d : DirectColumns} {scopeMap : Bytes → Option Bytes}

/-- The loop ends with everything on the stack left. The fuel pays for the events that wait and
for those that the nodes not entered yet may add. -/
theorem eventLoop_halts (hsound : SoundTable d) (hfits : d.columns.scalarBytes.length < usizeLimit)
    (hrows : Rows32 scopeMap) {fuel : Nat} {s : Building} {stack : List (Nat × Bool)}
    {colours : Colours Nat} (h : Traversing d scopeMap s stack colours)
    (hfuel : stack.length + allPlaces d < fuel + (colours.entered.map (nodePlaces d)).sum) :
    Halts m (BuildError d) (eventLoop m d fuel s) fun result => ∃ s' colours', result = some s' ∧
      Traversing d scopeMap s' [] colours' ∧ (∀ id ∈ colours.left, id ∈ colours'.left) ∧
      ∀ entry ∈ stack, entry.1 ∈ colours'.left := by
  induction fuel generalizing s stack colours with
  | zero =>
    have hentered := sum_entered hsound h.nodup h.entered
    unfold allPlaces at hfuel
    omega
  | succ fuel ih =>
    unfold eventLoop
    rw [h.events]
    cases stack with
    | nil =>
      exact .pure ⟨s, colours, rfl, h, fun _ hleft => hleft,
        fun _ he => absurd he List.not_mem_nil⟩
    | cons entry rest =>
      obtain ⟨id, exits⟩ := entry
      cases exits with
      | true =>
        refine (Gives.consumed 1).bindHalts ((exitTurn_halts hsound hfits hrows h).bind ?_)
        intro s' h'
        rw [List.length_cons] at hfuel
        refine (ih h' (by dsimp only; omega)).mono ?_
        rintro result ⟨s'', colours', rfl, hend, hleft, hall⟩
        refine ⟨s'', colours', rfl, hend, fun c hc => hleft c (.tail _ hc), fun entry he => ?_⟩
        rcases List.mem_cons.mp he with rfl | he
        · exact hleft id List.mem_cons_self
        · exact hall entry he
      | false =>
        rw [List.length_cons] at hfuel
        by_cases hblack : id ∈ colours.left
        · refine (Gives.consumed 1).bindHalts ((staleTurn_halts h hblack).bind fun s' h' => ?_)
          refine (ih h' (by omega)).mono ?_
          rintro result ⟨s'', colours', rfl, hend, hleft, hall⟩
          refine ⟨s'', colours', rfl, hend, hleft, fun entry he => ?_⟩
          rcases List.mem_cons.mp he with rfl | he
          · exact hleft id hblack
          · exact hall entry he
        · have hwhite : id ∉ colours.entered := fun hin => hblack (h.walking.not_grey hin)
          refine (Gives.consumed 1).bindHalts ((enterTurn_halts hsound hfits h hwhite).bind ?_)
          rintro s' ⟨pushed, hfew, h'⟩
          refine (ih h' ?_).mono ?_
          · rw [List.length_append, List.length_map, List.length_cons, List.map_cons, List.sum_cons]
            omega
          · rintro result ⟨s'', colours', rfl, hend, hleft, hall⟩
            refine ⟨s'', colours', rfl, hend, hleft, fun entry he => ?_⟩
            rcases List.mem_cons.mp he with rfl | he
            · exact hall (id, true) (by simp)
            · exact hall entry (by simp [he])

/-- Every node that a walk starts from is left. -/
theorem buildFrom_halts (hsound : SoundTable d) (hfits : d.columns.scalarBytes.length < usizeLimit)
    (hrows : Rows32 scopeMap) {fuel : Nat} (hfuel : eventCapacity d < fuel) {nodes : List Nat}
    {s : Building} {colours : Colours Nat} (hin : ∀ id ∈ nodes, 1 ≤ id ∧ id ≤ d.columns.nodeCount)
    (h : Traversing d scopeMap s [] colours) :
    Halts m (BuildError d) (buildFrom m d fuel nodes s) fun result => ∃ s' colours',
      result = some s' ∧ Traversing d scopeMap s' [] colours' ∧
      (∀ id ∈ colours.left, id ∈ colours'.left) ∧ ∀ id ∈ nodes, id ∈ colours'.left := by
  induction nodes generalizing s colours with
  | nil =>
    exact .pure ⟨s, colours, rfl, h, fun _ hleft => hleft, fun _ he => absurd he List.not_mem_nil⟩
  | cons initial nodes ih =>
    have hrest : ∀ id ∈ nodes, 1 ≤ id ∧ id ≤ d.columns.nodeCount :=
      fun id hid => hin id (.tail _ hid)
    have hcapacity := allPlaces_lt d
    unfold buildFrom
    refine (Gives.consumed 1).bindHalts ?_
    split
    · rename_i hblack
      refine (ih hrest h).mono ?_
      rintro result ⟨s', colours', rfl, hend, hleft, hall⟩
      refine ⟨s', colours', rfl, hend, hleft, fun id hid => ?_⟩
      rcases List.mem_cons.mp hid with rfl | hid
      · exact hleft id (h.black.mp hblack)
      · exact hall id hid
    · have hpush : pushEvent d (.enter initial) s =
          .ok { s with events := [(initial, false)].map lengthEvent } := by
        unfold pushEvent
        rw [h.events]
        exact if_neg (by rw [List.map_nil, List.length_nil]; omega)
      have hstart : Traversing d scopeMap { s with events := [(initial, false)].map lengthEvent }
          [(initial, false)] colours := by
        refine ⟨rfl, h.colors, h.walking.start, fun entry he => ?_, h.entered, h.nodup,
          ⟨h.measuring.table, h.measuring.left⟩, ?_⟩
        · rw [List.mem_singleton.mp he]
          exact hin initial List.mem_cons_self
        · rw [List.length_singleton]
          omega
      refine (Gives.lift hpush).bindHalts ?_
      have hloop := eventLoop_halts (m := m) hsound hfits hrows hstart (show _ < fuel + _ by
        rw [List.length_singleton]
        omega)
      refine hloop.bind ?_
      rintro result ⟨s', colours', rfl, hend, hleft, hall⟩
      refine (ih hrest hend).mono ?_
      rintro result ⟨s'', colours'', rfl, hend', hleft', hall'⟩
      refine ⟨s'', colours'', rfl, hend', fun id hid => hleft' id (hleft id hid), fun id hid => ?_⟩
      rcases List.mem_cons.mp hid with rfl | hid
      · exact hleft' id (hall (id, false) List.mem_cons_self)
      · exact hall' id hid

end Run

section Builder
variable {β : Type} {d : SelectedColumns}

/-- What the scope maps of a table change. -/
def directMap (d : DirectColumns) (scope : Bytes) : Option Bytes :=
  if d.remapAnonymousScope scope = scope then none else some (d.remapAnonymousScope scope)

theorem directMap_getD (d : DirectColumns) (scope : Bytes) :
    d.remapAnonymousScope scope = (directMap d scope).getD scope := by
  unfold directMap
  split
  · assumption
  · rfl

/-- Maps applied one after another change only scopes of 32 bytes, to such scopes. -/
theorem remapped_width (maps : List Bytes) (hsorted : ∀ map ∈ maps, AscendingSources map)
    (scope : Bytes) :
    maps.foldl (fun current map =>
      DirectColumns.searchScope map current (map.length / 64) 0 (map.length / 64)) scope = scope ∨
    scope.length = 32 ∧ (maps.foldl (fun current map =>
      DirectColumns.searchScope map current (map.length / 64) 0 (map.length / 64)) scope).length =
        32 := by
  induction maps generalizing scope with
  | nil => exact .inl rfl
  | cons map maps ih =>
    rw [List.foldl_cons, searchScope_eq (hsorted map List.mem_cons_self) (by omega) (Nat.le_refl _)
      (fun i hi => by omega) (fun i hlow hhigh => by omega)]
    have hrest := ih (fun more hmore => hsorted more (.tail _ hmore))
    cases hmap : scopeMapOf map scope with
    | none => exact hrest scope
    | some target =>
      obtain ⟨hsource, htarget⟩ := rows32_scopeMapOf map scope target hmap
      rw [Option.getD_some]
      rcases hrest target with hsame | ⟨-, hwide⟩
      · exact .inr ⟨hsource, by rw [hsame]; exact htarget⟩
      · exact .inr ⟨hsource, hwide⟩

theorem rows32_directMap {d : DirectColumns} (h : SoundTable d) : Rows32 (directMap d) := by
  intro source target hmap
  unfold directMap at hmap
  split at hmap
  · cases hmap
  · rename_i hchanged
    cases hmap
    exact (remapped_width d.scopeMaps h.scopes source).resolve_left hchanged

/-- A complement after the name of the class: two nodes, with lengths in either order. -/
def complementTable : SelectedColumns := ⟨.ofTable (tableOf complement) [], [], []⟩

end Builder

end Projector.Native
