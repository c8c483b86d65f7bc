import Mathlib.Logic.Relation
import Projector.Core.Canonical

namespace Projector.Core

/-- A component that holds a node, directly or in a collection. -/
inductive Component.Has : Component → Node → Prop
  | node {w : Node} : Has (.node w) w
  | set {items : List Node} {w : Node} (h : w ∈ items) : Has (.set items) w
  | sequence {items : List Component} {c : Component} {w : Node} (hc : c ∈ items) (h : Has c w) :
      Has (.sequence items) w

def Node.Refers (v w : Node) : Prop := ∃ c ∈ v.fields, c.Has w

/-- A node occurs in itself and in what refers to something it occurs in. -/
def Node.Occurs (v w : Node) : Prop := Relation.ReflTransGen Node.Refers v w

theorem Node.Occurs.refl {v : Node} : v.Occurs v := Relation.ReflTransGen.refl

mutual

/-- What is listed as an anonymous value occurs, and is one. -/
theorem Node.occurs_of_anonymousValues (v : Node) {n : Node} (h : n ∈ v.anonymousValues) :
    v.Occurs n ∧ n.constructor = .anonymousIndividual := by
  match v with
  | .mk c fields =>
    unfold Node.anonymousValues at h
    split at h
    · rename_i hc
      rw [List.mem_singleton.mp h]
      exact ⟨.refl, hc⟩
    · obtain ⟨field, hfield, u, hu, hoccurs, hn⟩ := Component.list_has_of_anonymousValues fields h
      exact ⟨.head ⟨field, hfield, hu⟩ hoccurs, hn⟩

theorem Component.has_of_anonymousValues (c : Component) {n : Node} (h : n ∈ c.anonymousValues) :
    ∃ u, c.Has u ∧ u.Occurs n ∧ n.constructor = .anonymousIndividual := by
  match c with
  | .node v =>
    obtain ⟨hoccurs, hn⟩ := Node.occurs_of_anonymousValues v h
    exact ⟨v, .node, hoccurs, hn⟩
  | .set items =>
    obtain ⟨u, hu, hoccurs, hn⟩ := Node.list_occurs_of_anonymousValues items h
    exact ⟨u, .set hu, hoccurs, hn⟩
  | .sequence items =>
    obtain ⟨c, hc, u, hu, hoccurs, hn⟩ := Component.list_has_of_anonymousValues items h
    exact ⟨u, .sequence hc hu, hoccurs, hn⟩
  | .none | .text _ | .bytes _ | .integer _ | .enum _ => cases h

theorem Node.list_occurs_of_anonymousValues (items : List Node) {n : Node}
    (h : n ∈ Node.anonymousValuesList items) :
    ∃ u ∈ items, u.Occurs n ∧ n.constructor = .anonymousIndividual := by
  match items with
  | [] => cases h
  | v :: rest =>
    rcases List.mem_append.mp h with h | h
    · exact ⟨v, List.mem_cons_self, Node.occurs_of_anonymousValues v h⟩
    · obtain ⟨u, hu, hoccurs⟩ := Node.list_occurs_of_anonymousValues rest h
      exact ⟨u, List.mem_cons_of_mem v hu, hoccurs⟩

theorem Component.list_has_of_anonymousValues (items : List Component) {n : Node}
    (h : n ∈ Component.anonymousValuesList items) :
    ∃ c ∈ items, ∃ u, c.Has u ∧ u.Occurs n ∧ n.constructor = .anonymousIndividual := by
  match items with
  | [] => cases h
  | c :: rest =>
    rcases List.mem_append.mp h with h | h
    · exact ⟨c, List.mem_cons_self, Component.has_of_anonymousValues c h⟩
    · obtain ⟨d, hd, hoccurs⟩ := Component.list_has_of_anonymousValues rest h
      exact ⟨d, List.mem_cons_of_mem c hd, hoccurs⟩

end

section Listing
variable {v u n : Node}

theorem Node.anonymousValuesList_of_mem {items : List Node} (hu : u ∈ items)
    (h : n ∈ u.anonymousValues) : n ∈ Node.anonymousValuesList items := by
  induction items with
  | nil => cases hu
  | cons v rest ih =>
    rw [Node.anonymousValuesList, List.mem_append]
    rcases List.mem_cons.mp hu with rfl | hu
    · exact .inl h
    · exact .inr (ih hu)

theorem Component.anonymousValuesList_of_mem {items : List Component} {c : Component}
    (hc : c ∈ items) (h : n ∈ c.anonymousValues) : n ∈ Component.anonymousValuesList items := by
  induction items with
  | nil => cases hc
  | cons d rest ih =>
    rw [Component.anonymousValuesList, List.mem_append]
    rcases List.mem_cons.mp hc with rfl | hc
    · exact .inl h
    · exact .inr (ih hc)

theorem Component.Has.anonymousValues {c : Component} (hc : c.Has u) (h : n ∈ u.anonymousValues) :
    n ∈ c.anonymousValues := by
  induction hc with
  | node => exact h
  | set hu => exact Node.anonymousValuesList_of_mem hu h
  | sequence hd _ ih => exact Component.anonymousValuesList_of_mem hd (ih h)

/-- Where anonymous individuals refer to nothing, the listing finds all that occur. -/
theorem Node.mem_anonymousValues
    (hleaf : ∀ w, v.Occurs w → w.constructor = .anonymousIndividual → ∀ u, ¬ w.Refers u) :
    n ∈ v.anonymousValues ↔ v.Occurs n ∧ n.constructor = .anonymousIndividual := by
  refine ⟨Node.occurs_of_anonymousValues v, ?_⟩
  rintro ⟨hoccurs, hn⟩
  induction hoccurs using Relation.ReflTransGen.head_induction_on with
  | refl =>
    obtain ⟨c, fields⟩ := n
    obtain rfl : c = .anonymousIndividual := hn
    simp [Node.anonymousValues]
  | @head v u href hrest ih =>
    have hlisted := ih fun w hw => hleaf w (.head href hw)
    have hnot : v.constructor ≠ .anonymousIndividual := fun hv => hleaf v .refl hv u href
    obtain ⟨c, hc, hu⟩ := href
    obtain ⟨k, fields⟩ := v
    unfold Node.anonymousValues
    rw [if_neg (show ¬k = .anonymousIndividual from hnot)]
    exact Component.anonymousValuesList_of_mem hc (hu.anonymousValues hlisted)

end Listing

end Projector.Core
