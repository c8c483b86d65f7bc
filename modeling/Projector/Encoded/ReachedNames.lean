import Projector.Encoded.Occurrences
import Projector.Lib.Numbering

namespace Projector.Encoded
open Lib Projector.Core Compiler

section Listing
variable {cols : Columns} {nodes : List Node} (table : EncodesNodes cols nodes) {ids : List Nat}

theorem partners_of_all {α β : Type} {rel : α → β → Prop} {xs : List α}
    (h : ∀ x ∈ xs, ∃ y, rel x y) : ∃ ys, List.Forall₂ rel xs ys := by
  induction xs with
  | nil => exact ⟨[], .nil⟩
  | cons x xs ih =>
    obtain ⟨y, hy⟩ := h x List.mem_cons_self
    obtain ⟨ys, hys⟩ := ih fun x' hx' => h x' (List.mem_cons_of_mem x hx')
    exact ⟨y :: ys, .cons hy hys⟩

/-- Ascending identifiers are of values in canonical order. -/
theorem strict_of_ascending {vs : List Node} (hcanonical : StrictOn Node.canonicalBytes nodes)
    (h : List.Forall₂ (Holds nodes) ids vs) (hids : StrictOn id ids) :
    StrictOn Node.canonicalBytes vs :=
  pairwise_of_forall₂ h hids fun _ _ _ _ hv hw hlt => (hv.lt_iff hcanonical hw).mp hlt

theorem ascending_of_sorted (hids : ids.Nodup) : StrictOn id (sortOn id ids) := by
  apply strict_of_sorted_nodup
  · intro a _ b _ hab
    exact hab
  · exact sortOn_sorted id ids
  · exact (sortOn_perm id ids).nodup_iff.mpr hids

include table in
theorem anonymousNodes_eq {found : List Nat} (hr : cols.anonymousNodes ids = .ok found) {j : Nat}
    {w : Node} (hw : Holds nodes j w) :
    j ∈ found ↔ j ∈ ids ∧ w.constructor = .anonymousIndividual := by
  obtain ⟨tagged, htagged, hr⟩ := bind_ok hr
  cases hr
  have hread := forall₂_of_mapM htagged
  have htag := tagIs_eq table hw .anonymousIndividual
  constructor
  · intro hj
    obtain ⟨⟨i, anonymous⟩, hpair, rfl⟩ := List.mem_map.mp hj
    obtain ⟨hpair, hanonymous⟩ := List.mem_filter.mp hpair
    obtain ⟨i', hi', hturn⟩ := partner_of_right hread hpair
    obtain ⟨anonymous', htest, hturn⟩ := bind_ok hturn
    cases hturn
    rw [htag] at htest
    exact ⟨hi', isOf_iff.mp ((Except.ok.inj htest).trans hanonymous)⟩
  · rintro ⟨hj, hc⟩
    obtain ⟨⟨i, anonymous⟩, hpair, hturn⟩ := partner_of_right hread.flip hj
    obtain ⟨anonymous', htest, hturn⟩ := bind_ok hturn
    cases hturn
    rw [htag, isOf_iff.mpr hc] at htest
    exact List.mem_map.mpr ⟨(j, anonymous), List.mem_filter.mpr ⟨hpair, (Except.ok.inj htest).symm⟩,
      rfl⟩

theorem anonymousNodes_sublist {found : List Nat} (h : cols.anonymousNodes ids = .ok found) :
    found.Sublist ids := by
  obtain ⟨tagged, htagged, hr⟩ := bind_ok h
  cases hr
  have hfst : tagged.map Prod.fst = ids := by
    have hread := forall₂_of_mapM htagged
    clear h htagged
    induction hread with
    | nil => rfl
    | @cons i pair ids tagged hturn _ ih =>
      obtain ⟨anonymous, -, hturn⟩ := bind_ok hturn
      cases hturn
      rw [List.map_cons, ih]
  rw [← hfst]
  exact List.Sublist.map Prod.fst List.filter_sublist

include table in
/-- What a walk reaches is in the table. -/
theorem reachable_holds_some {found : List Nat} (hr : cols.reachableNodeIds ids = .ok found) :
    ∀ i ∈ found, ∃ u, Holds nodes i u := by
  intro i hi
  rcases (explore_listed hr).2 i hi with hnone | hchildren
  · cases hnone
  · obtain ⟨range, hrange, -⟩ := bind_ok hchildren
    obtain ⟨i', hid, -⟩ := bind_ok hrange
    exact (nodeId_ok table hid).2

end Listing

section Names
variable {cols : Columns} {nodes : List Node} (pre : Preflighted cols nodes) {ids : List Nat}
  {roots : List Node} (hroots : List.Forall₂ (Holds nodes) ids roots)
  (hfew : ids.length ≤ cols.rootCount)
include pre hroots hfew

/-- The generated identifiers of the reached individuals are those of the scalar compiler. -/
theorem anonymousIdMap_eq {map : Columns.AnonymousIds} (hr : cols.anonymousIdMap ids = .ok map)
    {j : Nat} {w : Node} (hw : Holds nodes j w) (hlisted : w ∈ roots.flatMap Node.anonymousValues) :
    ∃ s, map.lookup j = some s ∧
      (numberAnonymous (roots.flatMap Node.anonymousValues)).lookup w = some s := by
  have table := pre.toEncodesNodes
  obtain ⟨reachable, hreachable, hr⟩ := bind_ok hr
  obtain ⟨found, hfound, hr⟩ := bind_ok hr
  obtain ⟨_, -, hr⟩ := bind_ok hr
  cases hr
  have hheld := reachable_holds_some table hreachable
  have hsublist := anonymousNodes_sublist hfound
  have hascending := ascending_of_sorted (explore_nodup List.nodup_nil hreachable)
  have hall : ∀ i ∈ found, ∃ u, Holds nodes i u :=
    fun i hi => hheld i (mem_sortOn.mp (hsublist.subset hi))
  obtain ⟨values, hvalues⟩ := partners_of_all hall
  have hmem : ∀ {i u}, Holds nodes i u →
      (i ∈ found ↔ u ∈ roots.flatMap Node.anonymousValues) := by
    intro i u hu
    rw [anonymousNodes_eq table hfound hu, mem_sortOn]
    constructor
    · rintro ⟨hi, hc⟩
      exact (reachable_anonymous pre hroots hfew hreachable hu hc).mp hi
    · intro hin
      obtain ⟨r, -, hr⟩ := List.mem_flatMap.mp hin
      have hc := (Node.occurs_of_anonymousValues r hr).2
      exact ⟨(reachable_anonymous pre hroots hfew hreachable hu hc).mpr hin, hc⟩
  -- The numbered nodes are the numbered values, in the same order.
  have hsame : values = canonicalSort (roots.flatMap Node.anonymousValues).eraseDups := by
    have hinj : ∀ a ∈ canonicalSort (roots.flatMap Node.anonymousValues).eraseDups,
        ∀ b ∈ canonicalSort (roots.flatMap Node.anonymousValues).eraseDups,
          a.canonicalBytes = b.canonicalBytes → a = b :=
      fun a _ b _ hab => Node.canonicalBytes_inj a b hab
    apply strict_unique (strict_of_ascending table.canonical hvalues (hascending.sublist hsublist))
    · apply strict_of_sorted_nodup hinj (sortOn_sorted _ _)
      exact (sortOn_perm _ _).nodup_iff.mpr (nodup_eraseDups _)
    · intro u
      rw [canonicalSort, mem_sortOn, List.mem_eraseDups]
      constructor
      · intro hu
        obtain ⟨i, hi, hholds⟩ := partner_of_right hvalues hu
        exact (hmem hholds).mp hi
      · intro hu
        obtain ⟨r, hrmem, hlisted⟩ := List.mem_flatMap.mp hu
        obtain ⟨a, -, ha⟩ := partner_of_right hroots hrmem
        obtain ⟨i, hi⟩ := follows_path_holds table ha ((mem_anonymousValues_iff pre ha).mp hlisted).1
        obtain ⟨u', hu', hholds⟩ := partner_of_right hvalues.flip ((hmem hi).mpr hu)
        exact hi.value hholds ▸ hu'
  rw [hsame] at hvalues
  have hnodup : (canonicalSort (roots.flatMap Node.anonymousValues).eraseDups).Nodup :=
    (sortOn_perm _ _).nodup_iff.mpr (nodup_eraseDups _)
  obtain ⟨u, -, hu, s, hs, hs'⟩ := Dict.number_partners genid 0 ∅ ∅ hvalues
    (hascending.nodup.sublist hsublist) hnodup ((hmem hw).mpr hlisted)
  rw [hu.value hw] at hs'
  exact ⟨s, hs, hs'⟩

/-- The class names of the reached nodes are those of the classes that occur. -/
theorem classIris_mem {reachable : List Nat} (hreachable : cols.reachableNodeIds ids = .ok reachable)
    {iris : List String} (hr : cols.classIris reachable = .ok iris) (iri : String) :
    iri ∈ iris ↔
      ∃ r ∈ roots, ∃ w, r.Occurs w ∧ w.isEntity .classEntity = true ∧ w.entityIri = iri := by
  have table := pre.toEncodesNodes
  obtain ⟨named, hnamed, hr⟩ := bind_ok hr
  cases hr
  have hread := forall₂_of_mapM hnamed
  rw [List.mem_filterMap]
  constructor
  · rintro ⟨name, hname, rfl⟩
    obtain ⟨i, hi, hturn⟩ := partner_of_right hread hname
    obtain ⟨w, hw⟩ := reachable_holds_some table hreachable i (mem_sortOn.mp hi)
    rw [Columns.namedClassIri, namedIri_eq pre hw] at hturn
    cases hc : w.isEntity .classEntity with
    | false => simp [hc] at hturn
    | true =>
      obtain ⟨r, hrmem, hoccurs⟩ :=
        (reachable_class pre hroots hfew hreachable hw hc).mp (mem_sortOn.mp hi)
      refine ⟨r, hrmem, w, hoccurs, hc, ?_⟩
      simpa [hc] using hturn
  · rintro ⟨r, hrmem, w, hoccurs, hc, rfl⟩
    obtain ⟨a, -, ha⟩ := partner_of_right hroots hrmem
    obtain ⟨i, hi⟩ := follows_path_holds table ha (occurs_follows pre ha hoccurs (.inr hc))
    have hin := (reachable_class pre hroots hfew hreachable hi hc).mpr ⟨r, hrmem, hoccurs⟩
    obtain ⟨name, hname, hturn⟩ := partner_of_right hread.flip (mem_sortOn.mpr hin)
    rw [Columns.namedClassIri, namedIri_eq pre hi] at hturn
    simp only [hc, if_true] at hturn
    exact ⟨name, hname, (Except.ok.inj hturn).symm⟩

end Names

end Projector.Encoded
