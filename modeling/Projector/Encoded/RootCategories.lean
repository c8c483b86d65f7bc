import Projector.Compiler.ScanProofs
import Projector.Encoded.RootProofs

namespace Projector.Encoded
open Lib Projector.Core Compiler

section Order
variable {v w : Node}

/-- Values are in the order of their constructors first. -/
theorem lt_of_tag (hlt : v.constructor.tag < w.constructor.tag) (hsmall : w.constructor.tag < 128) :
    v.canonicalBytes < w.canonicalBytes := by
  obtain ⟨c, fields⟩ := v
  obtain ⟨d, others⟩ := w
  have htags : c.tag < d.tag := hlt
  have hd : d.tag < 128 := hsmall
  unfold Node.canonicalBytes
  rw [varint_small (htags.trans hd), varint_small hd]
  apply List.Lex.rel
  rw [UInt8.lt_iff_toNat_lt, UInt8.toNat_ofNat', UInt8.toNat_ofNat']
  omega

end Order

section Roots
variable {cols : Columns} {nodes : List Node} {rootValues : List (Nat × Node)}
  {roots : List Columns.Root} (acc : Accepted cols nodes rootValues roots)

/-- What only axioms among the roots can be. -/
def OfAxioms (p : Node → Bool) : Prop :=
  ∀ v, p v = true → Columns.rootAxiomTags.contains v.constructor = true

theorem ofAxioms_isOf {c : Constructor} (h : Columns.rootAxiomTags.contains c = true) :
    OfAxioms fun v => v.isOf c := by
  intro v hv
  rwa [isOf_iff.mp hv]

include acc

/-- The root of an axiom is of the axiom kind. -/
theorem kind_of_skippedTag {p : Node → Bool} (hp : OfAxioms p) {value : Nat × Node}
    (hv : value ∈ rootValues) (hof : p value.2 = true) : value.1 = ROOT_AXIOM := by
  have hclass := acc.classified value hv
  have htag := hp _ hof
  rcases hclass.kind with hk | hk | hk
  · rw [hclass.annotated hk] at htag
    cases htag
  · rw [hclass.rule hk] at htag
    cases htag
  · exact hk

theorem filter_axiomsOf {p : Node → Bool} (hp : OfAxioms p) :
    (axiomsOf rootValues).filter p = (rootValues.map Prod.snd).filter p := by
  unfold axiomsOf
  rw [List.filter_map, List.filter_map, List.filter_filter]
  congr 1
  apply List.filter_congr
  intro value hv
  rw [Function.comp_apply]
  cases hof : p value.2 with
  | false => rfl
  | true =>
    rw [Bool.true_and, beq_iff_eq]
    exact kind_of_skippedTag acc hp hv hof

/-- Roots of one kind are in canonical order. -/
theorem roots_ascend :
    rootValues.Pairwise fun a b => a.1 = b.1 → a.2.canonicalBytes < b.2.canonicalBytes := by
  have table := acc.toEncodesNodes
  apply pairwise_of_forall₂ acc.rooted acc.ascending
  intro a a' b b' hb hb' hab hkind
  rw [← hb.kind, ← hb'.kind] at hkind
  rw [← hb.holds.lt_iff table.canonical hb'.holds]
  rcases hab with hless | ⟨-, hless⟩
  · omega
  · exact hless

theorem axiomsOf_strict : StrictOn Node.canonicalBytes (axiomsOf rootValues) := by
  unfold axiomsOf StrictOn
  rw [List.pairwise_map]
  apply List.Pairwise.imp_of_mem _ ((roots_ascend acc).filter _)
  intro a b ha hb hab
  apply hab
  have hkind := beq_iff_eq.mp (List.mem_filter.mp ha).2
  have hkind' := beq_iff_eq.mp (List.mem_filter.mp hb).2
  exact hkind.trans hkind'.symm

/-- The canonical sort of a category of axioms is the order of the roots. -/
theorem sortedCategory_eq {closure : List Node} (hclosure : closure.Perm (axiomsOf rootValues))
    (c : Constructor) (hc : Columns.rootAxiomTags.contains c = true) :
    sortedCategory closure c = (rootValues.map Prod.snd).filter (·.isOf c) := by
  have hstrict : StrictOn Node.canonicalBytes ((axiomsOf rootValues).filter (·.isOf c)) :=
    List.Pairwise.filter _ (axiomsOf_strict acc)
  rw [sortedCategory, canonicalSort_of_perm (hclosure.filter _), canonicalSort,
    sortOn_of_sorted hstrict.sorted, filter_axiomsOf acc (ofAxioms_isOf hc)]

/-- Axioms of a smaller constructor come first. -/
theorem roots_ordered {c d : Constructor} (hc : Columns.rootAxiomTags.contains c = true)
    (hd : Columns.rootAxiomTags.contains d = true) (hlt : c.tag < d.tag) (hsmall : d.tag < 128) :
    (rootValues.map Prod.snd).Pairwise fun a b => a.isOf d = true → b.isOf c = false := by
  rw [List.pairwise_map]
  apply List.Pairwise.imp_of_mem _ (roots_ascend acc)
  intro a b ha hb hab hof
  by_contra hne
  have hof' : b.2.isOf c = true := Bool.not_eq_false _ ▸ hne
  have hless := hab ((kind_of_skippedTag acc (ofAxioms_isOf hd) ha hof).trans
    (kind_of_skippedTag acc (ofAxioms_isOf hc) hb hof').symm)
  have htags : b.2.constructor.tag < a.2.constructor.tag := by
    rw [isOf_iff.mp hof, isOf_iff.mp hof']
    exact hlt
  exact lt_asymm hless (lt_of_tag htags (by rw [isOf_iff.mp hof]; exact hsmall))

/-- The axioms among the roots are of constructors that the core model knows. -/
theorem axiomsOf_known : ∀ v ∈ axiomsOf rootValues,
    Columns.rootAxiomTags.contains v.constructor = true := by
  intro v hv
  obtain ⟨value, hvalue, rfl⟩ := List.mem_map.mp hv
  obtain ⟨hmem, hkind⟩ := List.mem_filter.mp hvalue
  exact (acc.classified value hmem).known (beq_iff_eq.mp hkind)

theorem axiomsOf_core : AllCore (axiomsOf rootValues) := by
  intro v hv
  have hall : ∀ c ∈ Columns.rootAxiomTags, c.isAxiom = true := by decide
  have htag := hall _ (List.contains_iff_mem.mp (axiomsOf_known acc v hv))
  unfold isCore
  rw [htag, Bool.or_true]

end Roots

end Projector.Encoded
