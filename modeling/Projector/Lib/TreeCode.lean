import Projector.Lib.Bytes

namespace Projector.Lib

/-- Payloads that are written as they are. -/
inductive ScalarKind where
  | text
  | bytes
  | enum
  deriving DecidableEq, Repr

def ScalarKind.code : ScalarKind → UInt8
  | .text => 2
  | .bytes => 3
  | .enum => 5

mutual

/-- A tree whose nodes carry a tag and ordered fields. -/
inductive Term where
  | mk (tag : Nat) (fields : List Piece)

inductive Piece where
  | none
  | node (term : Term)
  | scalar (kind : ScalarKind) (payload : Bytes)
  | integer (value : Nat)
  | set (items : List Term)
  | sequence (items : List Piece)

end

def Term.tag : Term → Nat
  | .mk tag _ => tag

mutual

/-- The code of a tree: nothing counts the fields of a node. -/
def Term.encode : Term → Bytes
  | .mk tag fields => varint tag ++ Piece.encodeAll fields

def Piece.encode : Piece → Bytes
  | .none => [0]
  | .node term => 1 :: sized term.encode
  | .scalar kind payload => kind.code :: sized payload
  | .integer value => 4 :: varint value
  | .set items => 6 :: (varint items.length ++ Term.encodeAll items)
  | .sequence items => 7 :: (varint items.length ++ Piece.encodeAll items)

def Term.encodeAll : List Term → Bytes
  | [] => []
  | term :: rest => sized term.encode ++ Term.encodeAll rest

def Piece.encodeAll : List Piece → Bytes
  | [] => []
  | piece :: rest => piece.encode ++ Piece.encodeAll rest

end

def Piece.code : Piece → UInt8
  | .none => 0
  | .node _ => 1
  | .scalar kind _ => kind.code
  | .integer _ => 4
  | .set _ => 6
  | .sequence _ => 7

mutual

/-- Every node has as many fields as its tag asks for. -/
def Term.Fits (arity : Nat → Nat) : Term → Prop
  | .mk tag fields => fields.length = arity tag ∧ Piece.FitsAll arity fields

def Piece.Fits (arity : Nat → Nat) : Piece → Prop
  | .node term => term.Fits arity
  | .set items => Term.FitsAll arity items
  | .sequence items => Piece.FitsAll arity items
  | _ => True

def Term.FitsAll (arity : Nat → Nat) : List Term → Prop
  | [] => True
  | term :: rest => term.Fits arity ∧ Term.FitsAll arity rest

def Piece.FitsAll (arity : Nat → Nat) : List Piece → Prop
  | [] => True
  | piece :: rest => piece.Fits arity ∧ Piece.FitsAll arity rest

end

theorem Piece.encode_head (p : Piece) : ∃ rest, p.encode = p.code :: rest := by
  cases p <;> exact ⟨_, rfl⟩

theorem Piece.code_eq {p q : Piece} {r s : Bytes} (h : p.encode ++ r = q.encode ++ s) :
    p.code = q.code := by
  obtain ⟨x, hx⟩ := p.encode_head
  obtain ⟨y, hy⟩ := q.encode_head
  rw [hx, hy, List.cons_append, List.cons_append, List.cons.injEq] at h
  exact h.1

theorem ScalarKind.code_inj {k l : ScalarKind} (h : k.code = l.code) : k = l := by
  cases k <;> cases l <;> first | rfl | exact absurd h (by decide)

theorem ScalarKind.code_ne (k : ScalarKind) :
    k.code ≠ 0 ∧ k.code ≠ 1 ∧ k.code ≠ 4 ∧ k.code ≠ 6 ∧ k.code ≠ 7 := by
  cases k <;> decide

section Delimits

mutual

/-- A code tells the trees apart: every field marks its own end. -/
theorem Term.encode_eq (s t : Term) (h : s.encode = t.encode) : s = t := by
  match s, t with
  | .mk tag fields, .mk tag' fields' =>
    simp only [Term.encode] at h
    obtain ⟨rfl, hrest⟩ := varint_append_inj h
    obtain rfl := Piece.encodeAll_eq_inj fields fields' hrest
    rfl

theorem Piece.encode_append_inj (a b : Piece) (r q : Bytes) (h : a.encode ++ r = b.encode ++ q) :
    a = b ∧ r = q := by
  have hcode := Piece.code_eq h
  -- Different kinds of fields differ in the first byte.
  cases a <;> cases b
  case none.none =>
    exact ⟨rfl, by simpa [Piece.encode] using h⟩
  case node.node s t =>
    simp only [Piece.encode, List.cons_append, List.cons.injEq, true_and] at h
    obtain ⟨hst, hr⟩ := sized_append_inj h
    obtain rfl := Term.encode_eq s t hst
    exact ⟨rfl, hr⟩
  case scalar.scalar k x l y =>
    obtain rfl := ScalarKind.code_inj hcode
    simp only [Piece.encode, List.cons_append, List.cons.injEq, true_and] at h
    obtain ⟨rfl, hr⟩ := sized_append_inj h
    exact ⟨rfl, hr⟩
  case integer.integer x y =>
    simp only [Piece.encode, List.cons_append, List.cons.injEq, true_and] at h
    obtain ⟨rfl, hr⟩ := varint_append_inj h
    exact ⟨rfl, hr⟩
  case set.set xs ys =>
    simp only [Piece.encode, List.cons_append, List.cons.injEq, true_and, List.append_assoc] at h
    obtain ⟨hlength, hrest⟩ := varint_append_inj h
    obtain ⟨rfl, hr⟩ := Term.encodeAll_append_inj xs ys hlength r q hrest
    exact ⟨rfl, hr⟩
  case sequence.sequence xs ys =>
    simp only [Piece.encode, List.cons_append, List.cons.injEq, true_and, List.append_assoc] at h
    obtain ⟨hlength, hrest⟩ := varint_append_inj h
    obtain ⟨rfl, hr⟩ := Piece.encodeAll_append_inj xs ys hlength r q hrest
    exact ⟨rfl, hr⟩
  all_goals
    simp only [Piece.code] at hcode
    first
    | exact absurd hcode (by decide)
    | exact absurd hcode (ScalarKind.code_ne _).1
    | exact absurd hcode (ScalarKind.code_ne _).2.1
    | exact absurd hcode (ScalarKind.code_ne _).2.2.1
    | exact absurd hcode (ScalarKind.code_ne _).2.2.2.1
    | exact absurd hcode (ScalarKind.code_ne _).2.2.2.2
    | exact absurd hcode.symm (ScalarKind.code_ne _).1
    | exact absurd hcode.symm (ScalarKind.code_ne _).2.1
    | exact absurd hcode.symm (ScalarKind.code_ne _).2.2.1
    | exact absurd hcode.symm (ScalarKind.code_ne _).2.2.2.1
    | exact absurd hcode.symm (ScalarKind.code_ne _).2.2.2.2

theorem Term.encodeAll_append_inj (xs ys : List Term) (hlength : xs.length = ys.length)
    (r q : Bytes) (h : Term.encodeAll xs ++ r = Term.encodeAll ys ++ q) : xs = ys ∧ r = q := by
  match xs, ys with
  | [], [] => exact ⟨rfl, h⟩
  | x :: xs, y :: ys =>
    simp only [Term.encodeAll, List.append_assoc] at h
    obtain ⟨hxy, hrest⟩ := sized_append_inj h
    obtain rfl := Term.encode_eq x y hxy
    obtain ⟨rfl, hr⟩ := Term.encodeAll_append_inj xs ys (by simpa using hlength) r q hrest
    exact ⟨rfl, hr⟩

theorem Piece.encodeAll_append_inj (xs ys : List Piece) (hlength : xs.length = ys.length)
    (r q : Bytes) (h : Piece.encodeAll xs ++ r = Piece.encodeAll ys ++ q) : xs = ys ∧ r = q := by
  match xs, ys with
  | [], [] => exact ⟨rfl, h⟩
  | x :: xs, y :: ys =>
    simp only [Piece.encodeAll, List.append_assoc] at h
    obtain ⟨rfl, hrest⟩ := Piece.encode_append_inj x y _ _ h
    obtain ⟨rfl, hr⟩ := Piece.encodeAll_append_inj xs ys (by simpa using hlength) r q hrest
    exact ⟨rfl, hr⟩

theorem Piece.encodeAll_eq_inj (xs ys : List Piece)
    (h : Piece.encodeAll xs = Piece.encodeAll ys) : xs = ys := by
  match xs, ys with
  | [], [] => rfl
  | [], y :: ys =>
    obtain ⟨rest, hrest⟩ := y.encode_head
    rw [Piece.encodeAll, Piece.encodeAll, hrest] at h
    cases h
  | x :: xs, [] =>
    obtain ⟨rest, hrest⟩ := x.encode_head
    rw [Piece.encodeAll, Piece.encodeAll, hrest] at h
    cases h
  | x :: xs, y :: ys =>
    simp only [Piece.encodeAll] at h
    obtain ⟨rfl, hrest⟩ := Piece.encode_append_inj x y _ _ h
    rw [Piece.encodeAll_eq_inj xs ys hrest]

end

theorem Term.encode_inj {s t : Term} (h : s.encode = t.encode) : s = t := Term.encode_eq s t h

/-- No code is the beginning of another: the number of fields is known from the tag. -/
theorem Term.prefix_free {arity : Nat → Nat} {s t : Term} (hs : s.Fits arity) (ht : t.Fits arity)
    (h : s.encode <+: t.encode) : s = t := by
  obtain ⟨rest, hrest⟩ := h
  obtain ⟨tag, fields⟩ := s
  obtain ⟨tag', fields'⟩ := t
  have happend : varint tag ++ (Piece.encodeAll fields ++ rest) =
      varint tag' ++ (Piece.encodeAll fields' ++ []) := by
    rw [← List.append_assoc, List.append_nil]
    exact hrest
  obtain ⟨rfl, hfields⟩ := varint_append_inj happend
  have hcount : fields.length = fields'.length := hs.1.trans ht.1.symm
  rw [(Piece.encodeAll_append_inj fields fields' hcount rest [] hfields).1]

end Delimits

theorem Term.encodeAll_eq (items : List Term) :
    Term.encodeAll items = items.flatMap (fun t => sized t.encode) := by
  induction items with
  | nil => rfl
  | cons t rest ih => rw [Term.encodeAll, ih, List.flatMap_cons]

theorem Piece.encodeAll_eq (pieces : List Piece) :
    Piece.encodeAll pieces = pieces.flatMap Piece.encode := by
  induction pieces with
  | nil => rfl
  | cons p rest ih => rw [Piece.encodeAll, ih, List.flatMap_cons]

theorem varint_ne_nil (n : Nat) : varint n ≠ [] := by
  rcases Nat.lt_or_ge n 128 with h | h
  · rw [varint_small h]
    exact List.cons_ne_nil _ _
  · rw [varint_large h]
    exact List.cons_ne_nil _ _

/-- A code is never empty. -/
theorem Term.encode_length_pos (t : Term) : 0 < t.encode.length := by
  obtain ⟨tag, fields⟩ := t
  have h := List.length_pos_iff.mpr (varint_ne_nil tag)
  simp only [Term.encode, List.length_append]
  omega

end Projector.Lib
