import Projector.Lib.Sorting
import Projector.Lib.TreeCode

namespace Projector.Lib

/-- The first difference comes before the end of either and is an ascent. -/
inductive Before : Bytes → Bytes → Prop
  | head {a b : UInt8} {xs ys : Bytes} (h : a < b) : Before (a :: xs) (b :: ys)
  | tail {a : UInt8} {xs ys : Bytes} (h : Before xs ys) : Before (a :: xs) (a :: ys)

section Before
variable {xs ys us vs : Bytes}

theorem Before.lt (h : Before xs ys) : xs < ys := by
  induction h with
  | head hab => exact List.cons_lt_cons_iff.mpr (Or.inl hab)
  | tail _ ih => exact List.cons_lt_cons_iff.mpr (Or.inr ⟨rfl, ih⟩)

theorem Before.append (h : Before xs ys) (us vs : Bytes) : Before (xs ++ us) (ys ++ vs) := by
  induction h with
  | head hab => exact .head hab
  | tail _ ih => exact .tail ih

theorem Before.after (h : Before xs ys) (us : Bytes) : Before (us ++ xs) (us ++ ys) := by
  induction us with
  | nil => exact h
  | cons u us ih => exact .tail ih

/-- What is less and of the same length differs before the end. -/
theorem before_of_lt (hlength : xs.length = ys.length) (h : xs < ys) : Before xs ys := by
  induction xs generalizing ys with
  | nil =>
    cases ys with
    | nil => exact absurd h (lt_irrefl _)
    | cons y ys => cases hlength
  | cons x xs ih =>
    cases ys with
    | nil => cases hlength
    | cons y ys =>
      rcases List.cons_lt_cons_iff.mp h with hxy | ⟨rfl, hrest⟩
      · exact .head hxy
      · exact .tail (ih (Nat.succ.inj hlength) hrest)

/-- Two words that no continuation makes equal differ before the end of either. -/
theorem before_or_before (h : ∀ us vs, xs ++ us ≠ ys ++ vs) : Before xs ys ∨ Before ys xs := by
  induction xs generalizing ys with
  | nil => exact absurd (List.append_nil ys).symm (h ys [])
  | cons x xs ih =>
    cases ys with
    | nil => exact absurd (List.append_nil (x :: xs)) (h [] (x :: xs))
    | cons y ys =>
      rcases lt_trichotomy x y with hxy | rfl | hxy
      · exact .inl (.head hxy)
      · have hrest : ∀ us vs, xs ++ us ≠ ys ++ vs := fun us vs he =>
          h us vs (congrArg (x :: ·) he)
        exact (ih hrest).imp .tail .tail
      · exact .inr (.head hxy)

end Before

/-- Two words compare as two others do, and without looking at what may follow them. -/
inductive Alike (xs ys xs' ys' : Bytes) : Prop
  | same (h : xs = ys) (h' : xs' = ys')
  | before (h : Before xs ys) (h' : Before xs' ys')
  | after (h : Before ys xs) (h' : Before ys' xs')

section Alike
variable {xs ys xs' ys' us vs us' vs' : Bytes}

theorem Alike.lt_iff (h : Alike xs ys xs' ys') : xs < ys ↔ xs' < ys' := by
  cases h with
  | same h h' => simp [h, h']
  | before h h' => exact ⟨fun _ => h'.lt, fun _ => h.lt⟩
  | after h h' =>
    exact ⟨fun hlt => absurd hlt (lt_asymm h.lt), fun hlt => absurd hlt (lt_asymm h'.lt)⟩

/-- The first words decide unless they are the same. -/
theorem Alike.append (h : Alike xs ys xs' ys') (hrest : xs = ys → Alike us vs us' vs') :
    Alike (xs ++ us) (ys ++ vs) (xs' ++ us') (ys' ++ vs') := by
  cases h with
  | same h h' =>
    subst h h'
    cases hrest rfl with
    | same hu hu' => exact .same (by rw [hu]) (by rw [hu'])
    | before hu hu' => exact .before (hu.after xs) (hu'.after xs')
    | after hu hu' => exact .after (hu.after xs) (hu'.after xs')
  | before h h' => exact .before (h.append us vs) (h'.append us' vs')
  | after h h' => exact .after (h.append vs us) (h'.append vs' us')

/-- Words of a prefix-free code compare as themselves. -/
theorem Alike.refl (h : ∀ us vs, xs ++ us = ys ++ vs → xs = ys) : Alike xs ys xs ys := by
  by_cases he : xs = ys
  · exact .same he he
  · rcases before_or_before (fun us vs hv => he (h us vs hv)) with hb | hb
    · exact .before hb hb
    · exact .after hb hb

theorem varint_alike (m n : Nat) : Alike (varint m) (varint n) (varint m) (varint n) :=
  Alike.refl fun _ _ h => congrArg varint (varint_append_inj h).1

theorem varint_inj {m n : Nat} (h : varint m = varint n) : m = n :=
  (varint_append_inj (congrArg (· ++ []) h)).1

theorem Alike.cons (a b : UInt8) (hrest : a = b → Alike us vs us' vs') :
    Alike (a :: us) (b :: vs) (a :: us') (b :: vs') := by
  have hhead : Alike [a] [b] [a] [b] := Alike.refl fun _ _ h => by
    rw [List.singleton_append, List.singleton_append, List.cons.injEq] at h
    rw [h.1]
  exact hhead.append fun h => hrest (List.cons.inj h).1

/-- Sizes compare first, and they are not changed. -/
theorem Alike.sized (h : Alike xs ys xs' ys') (hx : xs'.length = xs.length)
    (hy : ys'.length = ys.length) : Alike (sized xs) (sized ys) (sized xs') (sized ys') := by
  unfold Lib.sized
  rw [hx, hy]
  exact (varint_alike _ _).append fun _ => h

theorem sized_alike (xs ys : Bytes) : Alike (sized xs) (sized ys) (sized xs) (sized ys) :=
  Alike.refl fun _ _ h => congrArg sized (sized_append_inj h).1

end Alike

section Relabel
variable (mark : Nat) (f : Bytes → Bytes)

mutual

/-- Map the label of every marked node: its first field, when that is a payload of bytes. -/
def Term.relabel : Term → Term
  | .mk tag [] => .mk tag []
  | .mk tag (.scalar .bytes payload :: rest) =>
    .mk tag (.scalar .bytes (if tag = mark then f payload else payload) :: Piece.relabelAll rest)
  | .mk tag (piece :: rest) => .mk tag (piece.relabel :: Piece.relabelAll rest)

def Piece.relabel : Piece → Piece
  | .node term => .node term.relabel
  | .set items => .set (Term.relabelAll items)
  | .sequence items => .sequence (Piece.relabelAll items)
  | piece => piece

def Term.relabelAll : List Term → List Term
  | [] => []
  | term :: rest => term.relabel :: Term.relabelAll rest

def Piece.relabelAll : List Piece → List Piece
  | [] => []
  | piece :: rest => piece.relabel :: Piece.relabelAll rest

end

/-- The first field of a node with this tag. -/
def Piece.relabelHead (tag : Nat) : Piece → Piece
  | .scalar .bytes payload => .scalar .bytes (if tag = mark then f payload else payload)
  | piece => piece.relabel mark f

theorem Term.relabel_cons (tag : Nat) (piece : Piece) (rest : List Piece) :
    (Term.mk tag (piece :: rest)).relabel mark f =
      .mk tag (piece.relabelHead mark f tag :: Piece.relabelAll mark f rest) := by
  cases piece with
  | scalar kind payload => cases kind <;> rfl
  | _ => rfl

theorem Piece.relabelHead_bytes (tag : Nat) (payload : Bytes) :
    (Piece.scalar .bytes payload).relabelHead mark f tag =
      .scalar .bytes (if tag = mark then f payload else payload) := rfl

/-- A label that begins a list of fields is admitted. -/
def Piece.HeadIn (S : Bytes → Prop) : List Piece → Prop
  | .scalar .bytes payload :: _ => S payload
  | _ => True

mutual

/-- Every label in a tree is admitted. -/
def Term.LabelsIn (S : Bytes → Prop) : Term → Prop
  | .mk tag fields => (tag = mark → Piece.HeadIn S fields) ∧ Piece.LabelsInAll S fields

def Piece.LabelsIn (S : Bytes → Prop) : Piece → Prop
  | .node term => term.LabelsIn S
  | .set items => Term.LabelsInAll S items
  | .sequence items => Piece.LabelsInAll S items
  | _ => True

def Term.LabelsInAll (S : Bytes → Prop) : List Term → Prop
  | [] => True
  | term :: rest => term.LabelsIn S ∧ Term.LabelsInAll S rest

def Piece.LabelsInAll (S : Bytes → Prop) : List Piece → Prop
  | [] => True
  | piece :: rest => piece.LabelsIn S ∧ Piece.LabelsInAll S rest

end

end Relabel

section Admitted
variable {mark : Nat} {S S' : Bytes → Prop}

theorem Piece.HeadIn.mono (h : ∀ p, S p → S' p) {pieces : List Piece}
    (hp : Piece.HeadIn S pieces) : Piece.HeadIn S' pieces := by
  unfold Piece.HeadIn at hp ⊢
  split
  · exact h _ hp
  · trivial

mutual

theorem Term.LabelsIn.mono (h : ∀ p, S p → S' p) (t : Term) (ht : t.LabelsIn mark S) :
    t.LabelsIn mark S' := by
  match t with
  | .mk tag fields =>
    exact ⟨fun hmark => (ht.1 hmark).mono h, Piece.LabelsInAll.mono h fields ht.2⟩

theorem Piece.LabelsIn.mono (h : ∀ p, S p → S' p) (p : Piece) (hp : p.LabelsIn mark S) :
    p.LabelsIn mark S' := by
  match p with
  | .none => trivial
  | .scalar _ _ => trivial
  | .integer _ => trivial
  | .node term => exact Term.LabelsIn.mono h term hp
  | .set items => exact Term.LabelsInAll.mono h items hp
  | .sequence items => exact Piece.LabelsInAll.mono h items hp

theorem Term.LabelsInAll.mono (h : ∀ p, S p → S' p) (terms : List Term)
    (ht : Term.LabelsInAll mark S terms) : Term.LabelsInAll mark S' terms := by
  match terms with
  | [] => trivial
  | term :: rest =>
    exact ⟨Term.LabelsIn.mono h term ht.1, Term.LabelsInAll.mono h rest ht.2⟩

theorem Piece.LabelsInAll.mono (h : ∀ p, S p → S' p) (pieces : List Piece)
    (hp : Piece.LabelsInAll mark S pieces) : Piece.LabelsInAll mark S' pieces := by
  match pieces with
  | [] => trivial
  | piece :: rest =>
    exact ⟨Piece.LabelsIn.mono h piece hp.1, Piece.LabelsInAll.mono h rest hp.2⟩

end

theorem Term.labelsInAll_of_forall {terms : List Term} (h : ∀ t ∈ terms, t.LabelsIn mark S) :
    Term.LabelsInAll mark S terms := by
  induction terms with
  | nil => trivial
  | cons t rest ih =>
    exact ⟨h t List.mem_cons_self, ih fun u hu => h u (List.mem_cons_of_mem t hu)⟩

theorem Piece.labelsInAll_of_forall {pieces : List Piece} (h : ∀ p ∈ pieces, p.LabelsIn mark S) :
    Piece.LabelsInAll mark S pieces := by
  induction pieces with
  | nil => trivial
  | cons p rest ih =>
    exact ⟨h p List.mem_cons_self, ih fun q hq => h q (List.mem_cons_of_mem p hq)⟩

end Admitted

/-- On these labels a mapping ascends and keeps one width. -/
structure Ascends (S : Bytes → Prop) (width : Nat) (f : Bytes → Bytes) : Prop where
  source : ∀ p, S p → p.length = width
  target : ∀ p, S p → (f p).length = width
  lt : ∀ p q, S p → S q → p < q → f p < f q

section Order
variable {mark width : Nat} {f : Bytes → Bytes} {S : Bytes → Prop} {arity : Nat → Nat}

theorem Ascends.alike (h : Ascends S width f) {p q : Bytes} (hp : S p) (hq : S q) :
    Alike p q (f p) (f q) := by
  have hsource : p.length = q.length := (h.source p hp).trans (h.source q hq).symm
  have htarget : (f p).length = (f q).length := (h.target p hp).trans (h.target q hq).symm
  rcases lt_trichotomy p q with hlt | rfl | hlt
  · exact .before (before_of_lt hsource hlt) (before_of_lt htarget (h.lt p q hp hq hlt))
  · exact .same rfl rfl
  · exact .after (before_of_lt hsource.symm hlt)
      (before_of_lt htarget.symm (h.lt q p hq hp hlt))

theorem Piece.relabel_code (piece : Piece) : (piece.relabel mark f).code = piece.code := by
  cases piece <;> rfl

theorem Piece.relabelHead_code (tag : Nat) (piece : Piece) :
    (piece.relabelHead mark f tag).code = piece.code := by
  cases piece with
  | scalar kind payload => cases kind <;> rfl
  | _ => rfl

/-- Two pieces of one kind. -/
inductive SameKind : Piece → Piece → Prop
  | none : SameKind .none .none
  | node (s t : Term) : SameKind (.node s) (.node t)
  | scalar (kind : ScalarKind) (p q : Bytes) : SameKind (.scalar kind p) (.scalar kind q)
  | integer (m n : Nat) : SameKind (.integer m) (.integer n)
  | set (xs ys : List Term) : SameKind (.set xs) (.set ys)
  | sequence (xs ys : List Piece) : SameKind (.sequence xs) (.sequence ys)

theorem sameKind_of_code {a b : Piece} (h : a.code = b.code) : SameKind a b := by
  cases a with
  | scalar kind p =>
    cases b with
    | scalar kind' q =>
      obtain rfl : kind = kind' := ScalarKind.code_inj h
      exact .scalar kind p q
    | _ => cases kind <;> simp [Piece.code, ScalarKind.code] at h
  | _ =>
    cases b with
    | scalar kind q => cases kind <;> simp [Piece.code, ScalarKind.code] at h
    | _ => first | constructor | simp [Piece.code] at h

theorem Piece.bytes_of_code {piece : Piece} (h : piece.code = 3) :
    ∃ payload, piece = .scalar .bytes payload := by
  cases piece with
  | scalar kind payload =>
    cases kind with
    | bytes => exact ⟨payload, rfl⟩
    | text => simp [Piece.code, ScalarKind.code] at h
    | enum => simp [Piece.code, ScalarKind.code] at h
  | _ => simp [Piece.code] at h

theorem Piece.relabelHead_other {tag : Nat} {piece : Piece} (h : piece.code ≠ 3) :
    piece.relabelHead mark f tag = piece.relabel mark f := by
  cases piece with
  | scalar kind payload =>
    cases kind with
    | bytes => exact absurd rfl h
    | text => rfl
    | enum => rfl
  | _ => rfl

theorem Term.relabelAll_length (terms : List Term) :
    (Term.relabelAll mark f terms).length = terms.length := by
  induction terms with
  | nil => rfl
  | cons term rest ih => rw [Term.relabelAll, List.length_cons, ih, List.length_cons]

theorem Piece.relabelAll_length (pieces : List Piece) :
    (Piece.relabelAll mark f pieces).length = pieces.length := by
  induction pieces with
  | nil => rfl
  | cons piece rest ih => rw [Piece.relabelAll, List.length_cons, ih, List.length_cons]

theorem sized_length {xs ys : Bytes} (h : xs.length = ys.length) :
    (sized xs).length = (sized ys).length := by
  unfold sized
  rw [List.length_append, List.length_append, h]

section Trees

theorem Piece.relabelHead_length (h : Ascends S width f) (tag : Nat) (piece : Piece)
    (rest : List Piece)
    (hhead : tag = mark → Piece.HeadIn S (piece :: rest))
    (hpiece : (piece.relabel mark f).encode.length = piece.encode.length) :
    (piece.relabelHead mark f tag).encode.length = piece.encode.length := by
  by_cases hbytes : piece.code = 3
  · obtain ⟨payload, rfl⟩ := Piece.bytes_of_code hbytes
    rw [Piece.relabelHead_bytes]
    by_cases hmark : tag = mark
    · have hin : S payload := hhead hmark
      rw [if_pos hmark, Piece.encode, Piece.encode, List.length_cons, List.length_cons,
        sized_length ((h.target payload hin).trans (h.source payload hin).symm)]
    · rw [if_neg hmark]
  · rw [Piece.relabelHead_other hbytes]
    exact hpiece

mutual

theorem Term.relabel_length (h : Ascends S width f) (t : Term) (ht : t.LabelsIn mark S) :
    (t.relabel mark f).encode.length = t.encode.length := by
  match t with
  | .mk tag [] => rfl
  | .mk tag (piece :: rest) =>
    obtain ⟨hhead, hpiece, hrest⟩ := ht
    rw [Term.relabel_cons]
    simp only [Term.encode, Piece.encodeAll, List.length_append]
    rw [Piece.relabelHead_length h tag piece rest hhead (Piece.relabel_length h piece hpiece),
      Piece.relabelAll_size h rest hrest]

theorem Piece.relabel_length (h : Ascends S width f) (p : Piece) (hp : p.LabelsIn mark S) :
    (p.relabel mark f).encode.length = p.encode.length := by
  match p with
  | .none => rfl
  | .scalar _ _ => rfl
  | .integer _ => rfl
  | .node term =>
    simp only [Piece.relabel, Piece.encode, List.length_cons]
    rw [sized_length (Term.relabel_length h term hp)]
  | .set items =>
    simp only [Piece.relabel, Piece.encode, List.length_cons, List.length_append]
    rw [Term.relabelAll_length, Term.relabelAll_size h items hp]
  | .sequence items =>
    simp only [Piece.relabel, Piece.encode, List.length_cons, List.length_append]
    rw [Piece.relabelAll_length, Piece.relabelAll_size h items hp]

theorem Term.relabelAll_size (h : Ascends S width f) (terms : List Term)
    (ht : Term.LabelsInAll mark S terms) :
    (Term.encodeAll (Term.relabelAll mark f terms)).length = (Term.encodeAll terms).length := by
  match terms with
  | [] => rfl
  | term :: rest =>
    obtain ⟨hterm, hrest⟩ := ht
    simp only [Term.relabelAll, Term.encodeAll, List.length_append]
    rw [sized_length (Term.relabel_length h term hterm), Term.relabelAll_size h rest hrest]

theorem Piece.relabelAll_size (h : Ascends S width f) (pieces : List Piece)
    (hp : Piece.LabelsInAll mark S pieces) :
    (Piece.encodeAll (Piece.relabelAll mark f pieces)).length =
      (Piece.encodeAll pieces).length := by
  match pieces with
  | [] => rfl
  | piece :: rest =>
    obtain ⟨hpiece, hrest⟩ := hp
    simp only [Piece.relabelAll, Piece.encodeAll, List.length_append]
    rw [Piece.relabel_length h piece hpiece, Piece.relabelAll_size h rest hrest]

end

/-- Pieces of different kinds differ in their first byte, which is not changed. -/
theorem alike_of_code_ne {a b a' b' : Piece} (hne : a.code ≠ b.code) (ha : a'.code = a.code)
    (hb : b'.code = b.code) : Alike a.encode b.encode a'.encode b'.encode := by
  obtain ⟨u, hu⟩ := a.encode_head
  obtain ⟨v, hv⟩ := b.encode_head
  obtain ⟨u', hu'⟩ := a'.encode_head
  obtain ⟨v', hv'⟩ := b'.encode_head
  rw [hu, hv, hu', hv', ha, hb]
  exact Alike.cons _ _ fun he => absurd he hne

theorem Piece.relabelHead_alike (h : Ascends S width f) (tag : Nat) (a b : Piece)
    (as bs : List Piece)
    (ha : tag = mark → Piece.HeadIn S (a :: as)) (hb : tag = mark → Piece.HeadIn S (b :: bs))
    (hab : Alike a.encode b.encode (a.relabel mark f).encode (b.relabel mark f).encode) :
    Alike a.encode b.encode (a.relabelHead mark f tag).encode
      (b.relabelHead mark f tag).encode := by
  by_cases hcode : a.code = b.code
  · by_cases hbytes : a.code = 3
    · obtain ⟨payload, rfl⟩ := Piece.bytes_of_code hbytes
      obtain ⟨payload', rfl⟩ := Piece.bytes_of_code (hcode.symm.trans hbytes)
      rw [Piece.relabelHead_bytes, Piece.relabelHead_bytes]
      by_cases hmark : tag = mark
      · rw [if_pos hmark, if_pos hmark]
        have hp : S payload := ha hmark
        have hq : S payload' := hb hmark
        refine Alike.cons _ _ fun _ => (h.alike hp hq).sized ?_ ?_
        · exact (h.target payload hp).trans (h.source payload hp).symm
        · exact (h.target payload' hq).trans (h.source payload' hq).symm
      · rw [if_neg hmark, if_neg hmark]
        exact hab
    · rw [Piece.relabelHead_other hbytes, Piece.relabelHead_other (hcode ▸ hbytes)]
      exact hab
  · exact alike_of_code_ne hcode (Piece.relabelHead_code tag a) (Piece.relabelHead_code tag b)

mutual

/-- The first difference of two codes stands at one place before and after the mapping. -/
theorem Term.relabel_alike (h : Ascends S width f) (s t : Term) (hs : s.Fits arity)
    (ht : t.Fits arity) (hsl : s.LabelsIn mark S) (htl : t.LabelsIn mark S) :
    Alike s.encode t.encode (s.relabel mark f).encode (t.relabel mark f).encode := by
  match s, t with
  | .mk tag fields, .mk tag' fields' =>
    obtain ⟨hcount, hfields⟩ := hs
    obtain ⟨hcount', hfields'⟩ := ht
    obtain ⟨hhead, hlabels⟩ := hsl
    obtain ⟨hhead', hlabels'⟩ := htl
    match fields, fields' with
    | [], [] => exact (varint_alike tag tag').append fun _ => .same rfl rfl
    | [], b :: bs =>
      rw [Term.relabel_cons]
      refine (varint_alike tag tag').append fun htag => ?_
      obtain rfl := varint_inj htag
      cases hcount.trans hcount'.symm
    | a :: as, [] =>
      rw [Term.relabel_cons]
      refine (varint_alike tag tag').append fun htag => ?_
      obtain rfl := varint_inj htag
      cases hcount.trans hcount'.symm
    | a :: as, b :: bs =>
      rw [Term.relabel_cons, Term.relabel_cons]
      refine (varint_alike tag tag').append fun htag => ?_
      obtain rfl := varint_inj htag
      have hlength : as.length = bs.length := Nat.succ.inj (hcount.trans hcount'.symm)
      have hfirst := Piece.relabelHead_alike h tag a b as bs hhead hhead'
        (Piece.relabel_alike h a b hfields.1 hfields'.1 hlabels.1 hlabels'.1)
      exact hfirst.append fun _ =>
        Piece.relabelAll_alike h as bs hfields.2 hfields'.2 hlabels.2 hlabels'.2 hlength
termination_by structural s

theorem Piece.relabel_alike (h : Ascends S width f) (a b : Piece) (ha : a.Fits arity)
    (hb : b.Fits arity) (hal : a.LabelsIn mark S) (hbl : b.LabelsIn mark S) :
    Alike a.encode b.encode (a.relabel mark f).encode (b.relabel mark f).encode := by
  by_cases hcode : a.code = b.code
  · have hkind := sameKind_of_code hcode
    cases a <;> cases b
    case none.none => exact .same rfl rfl
    case node.node s t =>
      refine Alike.cons _ _ fun _ => (Term.relabel_alike h s t ha hb hal hbl).sized ?_ ?_
      · exact Term.relabel_length h s hal
      · exact Term.relabel_length h t hbl
    case scalar.scalar kind p kind' q => exact Alike.cons _ _ fun _ => sized_alike p q
    case integer.integer m n => exact Alike.cons _ _ fun _ => varint_alike m n
    case set.set xs ys =>
      simp only [Piece.relabel, Piece.encode, Term.relabelAll_length]
      refine Alike.cons _ _ fun _ => (varint_alike _ _).append fun hlength => ?_
      exact Term.relabelAll_alike h xs ys ha hb hal hbl (varint_inj hlength)
    case sequence.sequence xs ys =>
      simp only [Piece.relabel, Piece.encode, Piece.relabelAll_length]
      refine Alike.cons _ _ fun _ => (varint_alike _ _).append fun hlength => ?_
      exact Piece.relabelAll_alike h xs ys ha hb hal hbl (varint_inj hlength)
    all_goals cases hkind
  · exact alike_of_code_ne hcode a.relabel_code b.relabel_code
termination_by structural a

theorem Term.relabelAll_alike (h : Ascends S width f) (xs ys : List Term)
    (hx : Term.FitsAll arity xs) (hy : Term.FitsAll arity ys) (hxl : Term.LabelsInAll mark S xs)
    (hyl : Term.LabelsInAll mark S ys) (hlength : xs.length = ys.length) :
    Alike (Term.encodeAll xs) (Term.encodeAll ys) (Term.encodeAll (Term.relabelAll mark f xs))
      (Term.encodeAll (Term.relabelAll mark f ys)) := by
  match xs, ys with
  | [], [] => exact .same rfl rfl
  | x :: xs, y :: ys =>
    have hfirst := (Term.relabel_alike h x y hx.1 hy.1 hxl.1 hyl.1).sized
      (Term.relabel_length h x hxl.1) (Term.relabel_length h y hyl.1)
    exact hfirst.append fun _ =>
      Term.relabelAll_alike h xs ys hx.2 hy.2 hxl.2 hyl.2 (Nat.succ.inj hlength)
termination_by structural xs

theorem Piece.relabelAll_alike (h : Ascends S width f) (xs ys : List Piece)
    (hx : Piece.FitsAll arity xs) (hy : Piece.FitsAll arity ys) (hxl : Piece.LabelsInAll mark S xs)
    (hyl : Piece.LabelsInAll mark S ys) (hlength : xs.length = ys.length) :
    Alike (Piece.encodeAll xs) (Piece.encodeAll ys) (Piece.encodeAll (Piece.relabelAll mark f xs))
      (Piece.encodeAll (Piece.relabelAll mark f ys)) := by
  match xs, ys with
  | [], [] => exact .same rfl rfl
  | x :: xs, y :: ys =>
    exact (Piece.relabel_alike h x y hx.1 hy.1 hxl.1 hyl.1).append fun _ =>
      Piece.relabelAll_alike h xs ys hx.2 hy.2 hxl.2 hyl.2 (Nat.succ.inj hlength)
termination_by structural xs

end

/-- The byte order of two trees is the same before and after the mapping. -/
theorem Term.relabel_lt_iff (h : Ascends S width f) {s t : Term} (hs : s.Fits arity)
    (ht : t.Fits arity) (hsl : s.LabelsIn mark S) (htl : t.LabelsIn mark S) :
    s.encode < t.encode ↔ (s.relabel mark f).encode < (t.relabel mark f).encode :=
  (Term.relabel_alike h s t hs ht hsl htl).lt_iff

end Trees

end Order

end Projector.Lib
