import Projector.Lib.Bytes
import Projector.Lib.Sorting

namespace Projector
open Lib

/-- Text with a strict UTF-8 codec. Encoding fails on text that has no UTF-8 form;
what it produces decodes back to the same text. -/
class PyText (τ : Type) where
  encode : τ → Option Bytes
  decode : Bytes → Option τ
  decode_encode : ∀ {text bytes}, encode text = some bytes → decode bytes = some text

theorem PyText.encode_inj {τ : Type} [PyText τ] {a b : τ} {bytes : Bytes}
    (ha : encode a = some bytes) (hb : encode b = some bytes) : a = b := by
  have h := (decode_encode ha).symm.trans (decode_encode hb)
  simpa using h

def utf8 (s : String) : Bytes := s.toByteArray.data.toList

def fromUtf8? (bytes : Bytes) : Option String := String.fromUTF8? ⟨bytes.toArray⟩

theorem fromUtf8_utf8 (s : String) : fromUtf8? (utf8 s) = some s := by
  simp only [fromUtf8?, utf8, Array.toArray_toList]
  unfold String.fromUTF8?
  rw [dif_pos s.isValidUTF8]
  rfl

theorem utf8_inj {s t : String} (h : utf8 s = utf8 t) : s = t := by
  have hs := fromUtf8_utf8 s
  rw [h, fromUtf8_utf8] at hs
  simpa using hs.symm

theorem utf8_fromUtf8 {bytes : Bytes} {s : String} (h : fromUtf8? bytes = some s) :
    utf8 s = bytes := by
  simp only [fromUtf8?] at h
  unfold String.fromUTF8? at h
  split at h
  · simp only [Option.some.injEq] at h
    subst h
    rfl
  · cases h

/-- Text whose codec accepts nothing but what it produces. -/
class StrictText (τ : Type) [PyText τ] : Prop where
  encode_decode : ∀ {bytes : Bytes} {text : τ},
    PyText.decode bytes = some text → PyText.encode text = some bytes

/-- Text without lone surrogates. -/
instance : PyText String where
  encode s := some (utf8 s)
  decode := fromUtf8?
  decode_encode := by
    intro s bytes h
    simp only [Option.some.injEq] at h
    subst h
    exact fromUtf8_utf8 s

instance : StrictText String where
  encode_decode := by
    intro bytes s h
    exact congrArg some (utf8_fromUtf8 h)

/-- A code point of a Python `str`: a Unicode scalar value, or a surrogate
(`surrogate k` is U+D800 + k), which strict UTF-8 cannot encode. -/
inductive PyChar where
  | scalar (c : Char)
  | surrogate (k : Fin 2048)
  deriving DecidableEq, Repr

def PyChar.toChar? : PyChar → Option Char
  | .scalar c => some c
  | .surrogate _ => none

/-- A Python `str`. -/
abbrev PyStr := List PyChar

def PyStr.toString? (text : PyStr) : Option String :=
  (text.mapM PyChar.toChar?).map String.ofList

def PyStr.ofString (s : String) : PyStr := s.toList.map PyChar.scalar

theorem mapM_toChar {text : PyStr} {cs : List Char} (h : text.mapM PyChar.toChar? = some cs) :
    text = cs.map PyChar.scalar := by
  induction text generalizing cs with
  | nil => simp_all
  | cons c text ih =>
    simp only [List.mapM_cons, Option.bind_eq_bind, Option.bind_eq_some_iff, Option.pure_def,
      Option.some.injEq] at h
    obtain ⟨x, hx, xs, hxs, rfl⟩ := h
    cases c with
    | scalar d =>
      simp only [PyChar.toChar?, Option.some.injEq] at hx
      simp [hx, ih hxs]
    | surrogate k => simp [PyChar.toChar?] at hx

theorem PyStr.ofString_of_toString {text : PyStr} {s : String}
    (h : PyStr.toString? text = some s) : PyStr.ofString s = text := by
  simp only [PyStr.toString?, Option.map_eq_some_iff] at h
  obtain ⟨cs, hcs, rfl⟩ := h
  simp [PyStr.ofString, mapM_toChar hcs]

instance : PyText PyStr where
  encode text := text.toString?.map utf8
  decode bytes := (fromUtf8? bytes).map PyStr.ofString
  decode_encode := by
    intro text bytes h
    simp only [Option.map_eq_some_iff] at h
    obtain ⟨s, hs, rfl⟩ := h
    simp [fromUtf8_utf8, PyStr.ofString_of_toString hs]

theorem PyStr.toString_ofString (s : String) : PyStr.toString? (PyStr.ofString s) = some s := by
  have h : ∀ cs : List Char, (cs.map PyChar.scalar).mapM PyChar.toChar? = some cs := by
    intro cs
    induction cs with
    | nil => rfl
    | cons c cs ih => simp [PyChar.toChar?, ih]
  simp [PyStr.toString?, PyStr.ofString, h]

instance : StrictText PyStr where
  encode_decode := by
    intro bytes text h
    simp only [PyText.decode, Option.map_eq_some_iff] at h
    obtain ⟨s, hs, rfl⟩ := h
    simp [PyText.encode, PyStr.toString_ofString, utf8_fromUtf8 hs]

/-- One OWL2Vec* edge with value equality. -/
structure Edge (τ : Type) where
  source : τ
  relation : τ
  destination : τ
  deriving DecidableEq, Repr

namespace Edge
variable {τ : Type} [PyText τ]

abbrev Key := Bytes ×ₗ Bytes ×ₗ Bytes

/-- The UTF-8 forms of the three fields, when all of them have one. -/
def encoded? (e : Edge τ) : Option (Bytes × Bytes × Bytes) := do
  let s ← PyText.encode e.source
  let r ← PyText.encode e.relation
  let d ← PyText.encode e.destination
  pure (s, r, d)

def encodable (e : Edge τ) : Bool := e.encoded?.isSome

/-- The locale-independent UTF-8 ordering key. It is meaningful for an encodable
edge only: on any other the source raises before it has a key. -/
def canonicalKey (e : Edge τ) : Key :=
  match e.encoded? with
  | some (s, r, d) => toLex (s, toLex (r, d))
  | none => toLex ([], toLex ([], []))

theorem encoded_inj {a b : Edge τ} {t : Bytes × Bytes × Bytes}
    (ha : a.encoded? = some t) (hb : b.encoded? = some t) : a = b := by
  simp only [encoded?, Option.bind_eq_bind, Option.bind_eq_some_iff, Option.pure_def,
    Option.some.injEq] at ha hb
  obtain ⟨s, hs, r, hr, d, hd, rfl⟩ := ha
  obtain ⟨s', hs', r', hr', d', hd', he⟩ := hb
  simp only [Prod.mk.injEq] at he
  obtain ⟨rfl, rfl, rfl⟩ := he
  cases a
  cases b
  simp only [mk.injEq]
  exact ⟨PyText.encode_inj hs hs', PyText.encode_inj hr hr', PyText.encode_inj hd hd'⟩

/-- The key is total on encodable edges: it tells any two of them apart. -/
theorem canonicalKey_inj {a b : Edge τ} (ha : a.encodable = true) (hb : b.encodable = true)
    (h : a.canonicalKey = b.canonicalKey) : a = b := by
  obtain ⟨⟨s, r, d⟩, hs⟩ := Option.isSome_iff_exists.mp ha
  obtain ⟨⟨s', r', d'⟩, hs'⟩ := Option.isSome_iff_exists.mp hb
  simp only [canonicalKey, hs, hs', toLex_inj, Prod.mk.injEq] at h
  obtain ⟨rfl, rfl, rfl⟩ := h
  exact encoded_inj hs hs'

@[simp]
theorem encodable_string (e : Edge String) : e.encodable = true := rfl

end Edge

end Projector
