import Projector.Core.Node
import Projector.Lib.Sorting

namespace Projector.Core
open Lib

mutual

/-- The canonical bytes of a structural value: its tag and its fields. Nothing
counts the fields, so the bytes delimit a value only inside a sized field. -/
def Node.canonicalBytes : Node → Bytes
  | .mk c fields => varint c.tag ++ Component.sequenceBytes fields

def Component.canonicalBytes : Component → Bytes
  | .none => [0]
  | .node n => 1 :: sized n.canonicalBytes
  | .text text => 2 :: sized (utf8 text)
  | .bytes payload => 3 :: sized payload
  | .integer value => 4 :: varint value
  | .enum kind => 5 :: sized (utf8 kind.text)
  | .set items => 6 :: (varint items.length ++ Node.setBytes items)
  | .sequence items => 7 :: (varint items.length ++ Component.sequenceBytes items)

def Node.setBytes : List Node → Bytes
  | [] => []
  | n :: rest => sized n.canonicalBytes ++ Node.setBytes rest

def Component.sequenceBytes : List Component → Bytes
  | [] => []
  | c :: rest => c.canonicalBytes ++ Component.sequenceBytes rest

end

theorem EntityKind.text_inj {k l : EntityKind} (h : k.text = l.text) : k = l := by
  cases k <;> cases l <;> first | rfl | exact absurd h (by decide)

/-- Every field starts with its kind. -/
theorem Component.canonicalBytes_head (c : Component) :
    ∃ rest, c.canonicalBytes = c.kind :: rest := by
  cases c <;> exact ⟨_, rfl⟩

theorem Component.kind_eq {a b : Component} {r s : Bytes}
    (h : a.canonicalBytes ++ r = b.canonicalBytes ++ s) : a.kind = b.kind := by
  obtain ⟨x, hx⟩ := a.canonicalBytes_head
  obtain ⟨y, hy⟩ := b.canonicalBytes_head
  rw [hx, hy, List.cons_append, List.cons_append, List.cons.injEq] at h
  exact h.1

mutual

theorem Node.canonicalBytes_inj (a b : Node) (h : a.canonicalBytes = b.canonicalBytes) :
    a = b := by
  match a, b with
  | .mk c fs, .mk d gs =>
    simp only [Node.canonicalBytes] at h
    obtain ⟨htag, hfields⟩ := varint_append_inj h
    rw [Constructor.tag_inj htag, Component.fields_inj fs gs hfields]

theorem Component.canonicalBytes_inj (a b : Component) (r s : Bytes)
    (h : a.canonicalBytes ++ r = b.canonicalBytes ++ s) : a = b ∧ r = s := by
  have hkind := Component.kind_eq h
  -- Different kinds differ in the first byte.
  cases a <;> cases b <;> try (simp [Component.kind] at hkind; done)
  case none.none =>
    exact ⟨rfl, by simpa [Component.canonicalBytes] using h⟩
  case node.node m n =>
    simp only [Component.canonicalBytes, List.cons_append, List.cons.injEq, true_and] at h
    obtain ⟨hb, hr⟩ := sized_append_inj h
    exact ⟨by rw [Node.canonicalBytes_inj m n hb], hr⟩
  case text.text x y =>
    simp only [Component.canonicalBytes, List.cons_append, List.cons.injEq, true_and] at h
    obtain ⟨hb, hr⟩ := sized_append_inj h
    exact ⟨by rw [utf8_inj hb], hr⟩
  case bytes.bytes x y =>
    simp only [Component.canonicalBytes, List.cons_append, List.cons.injEq, true_and] at h
    obtain ⟨hb, hr⟩ := sized_append_inj h
    exact ⟨by rw [hb], hr⟩
  case integer.integer x y =>
    simp only [Component.canonicalBytes, List.cons_append, List.cons.injEq, true_and] at h
    obtain ⟨hb, hr⟩ := varint_append_inj h
    exact ⟨by rw [hb], hr⟩
  case enum.enum x y =>
    simp only [Component.canonicalBytes, List.cons_append, List.cons.injEq, true_and] at h
    obtain ⟨hb, hr⟩ := sized_append_inj h
    exact ⟨by rw [EntityKind.text_inj (utf8_inj hb)], hr⟩
  case set.set xs ys =>
    simp only [Component.canonicalBytes, List.cons_append, List.cons.injEq, true_and,
      List.append_assoc] at h
    obtain ⟨hl, hrest⟩ := varint_append_inj h
    obtain ⟨hxs, hr⟩ := Node.setBytes_inj xs ys r s hl hrest
    exact ⟨by rw [hxs], hr⟩
  case sequence.sequence xs ys =>
    simp only [Component.canonicalBytes, List.cons_append, List.cons.injEq, true_and,
      List.append_assoc] at h
    obtain ⟨hl, hrest⟩ := varint_append_inj h
    obtain ⟨hxs, hr⟩ := Component.sequenceBytes_inj xs ys r s hl hrest
    exact ⟨by rw [hxs], hr⟩

theorem Node.setBytes_inj (xs ys : List Node) (r s : Bytes) (hl : xs.length = ys.length)
    (h : Node.setBytes xs ++ r = Node.setBytes ys ++ s) : xs = ys ∧ r = s := by
  match xs, ys with
  | [], [] => exact ⟨rfl, h⟩
  | x :: xs, y :: ys =>
    simp only [Node.setBytes, List.append_assoc] at h
    obtain ⟨hx, hrest⟩ := sized_append_inj h
    obtain ⟨hxs, hr⟩ := Node.setBytes_inj xs ys r s (by simpa using hl) hrest
    exact ⟨by rw [Node.canonicalBytes_inj x y hx, hxs], hr⟩

theorem Component.sequenceBytes_inj (xs ys : List Component) (r s : Bytes)
    (hl : xs.length = ys.length)
    (h : Component.sequenceBytes xs ++ r = Component.sequenceBytes ys ++ s) :
    xs = ys ∧ r = s := by
  match xs, ys with
  | [], [] => exact ⟨rfl, h⟩
  | x :: xs, y :: ys =>
    simp only [Component.sequenceBytes, List.append_assoc] at h
    obtain ⟨hx, hrest⟩ := Component.canonicalBytes_inj x y _ _ h
    obtain ⟨hxs, hr⟩ := Component.sequenceBytes_inj xs ys r s (by simpa using hl) hrest
    exact ⟨by rw [hx, hxs], hr⟩

/-- Without a count the end of the bytes is the end of the fields. -/
theorem Component.fields_inj (xs ys : List Component)
    (h : Component.sequenceBytes xs = Component.sequenceBytes ys) : xs = ys := by
  match xs, ys with
  | [], [] => rfl
  | [], y :: ys =>
    obtain ⟨rest, hy⟩ := y.canonicalBytes_head
    simp [Component.sequenceBytes, hy] at h
  | x :: xs, [] =>
    obtain ⟨rest, hx⟩ := x.canonicalBytes_head
    simp [Component.sequenceBytes, hx] at h
  | x :: xs, y :: ys =>
    simp only [Component.sequenceBytes] at h
    obtain ⟨hx, hrest⟩ := Component.canonicalBytes_inj x y _ _ h
    rw [hx, Component.fields_inj xs ys hrest]

end

/-- Structural equality is equality of canonical bytes. -/
instance : DecidableEq Node := fun a b =>
  decidable_of_iff (a.canonicalBytes = b.canonicalBytes)
    ⟨Node.canonicalBytes_inj a b, fun h => congrArg Node.canonicalBytes h⟩

/-- The canonical sort of a category. -/
def canonicalSort (values : List Node) : List Node := sortOn Node.canonicalBytes values

theorem canonicalSort_of_perm {xs ys : List Node} (h : xs.Perm ys) :
    canonicalSort xs = canonicalSort ys :=
  sortOn_eq_of_perm (fun a _ b _ hab => Node.canonicalBytes_inj a b hab) h

mutual

/-- `_anonymous_values`: the anonymous individuals inside a value, in field order. -/
def Node.anonymousValues : Node → List Node
  | .mk c fields =>
    if c = .anonymousIndividual then [.mk c fields] else Component.anonymousValuesList fields

def Component.anonymousValues : Component → List Node
  | .node n => n.anonymousValues
  | .set items => Node.anonymousValuesList items
  | .sequence items => Component.anonymousValuesList items
  | _ => []

def Node.anonymousValuesList : List Node → List Node
  | [] => []
  | n :: rest => n.anonymousValues ++ Node.anonymousValuesList rest

def Component.anonymousValuesList : List Component → List Node
  | [] => []
  | c :: rest => c.anonymousValues ++ Component.anonymousValuesList rest

end

end Projector.Core
