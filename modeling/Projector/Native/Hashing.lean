import Projector.Compiler.Hashing

namespace Projector.Native
open Lib Projector.Core Compiler

section Texts

/-- `str::encode_utf16` -/
def encodeUtf16 (value : List Char) : List UInt16 :=
  value.flatMap fun c =>
    let code : UInt32 := c.val
    if code < 0x10000 then [code.toUInt16]
    else
      let code : UInt32 := code - 0x10000
      [(0xD800 : UInt16) ||| (code >>> 10).toUInt16,
       (0xDC00 : UInt16) ||| (code.toUInt16 &&& 0x3FF)]

/-- `str::char_indices`, from a byte offset on. -/
def charIndices (offset : Nat) : List Char → List (Nat × Char)
  | [] => []
  | c :: rest => (offset, c) :: charIndices (offset + c.utf8Size) rest

/-- `str::split_at` at a byte offset between two characters. -/
def splitAt (offset : Nat) : List Char → List Char × List Char
  | [] => ([], [])
  | c :: rest =>
    if offset = 0 then ([], c :: rest)
    else
      let (first, last) := splitAt (offset - c.utf8Size) rest
      (c :: first, last)

end Texts

section Hashes

/-- `java_string_hash`: the arithmetic of `i32` wraps around. -/
def javaStringHash (value : List Char) : Int32 :=
  (encodeUtf16 value).foldl (fun result unit => result * 31 + unit.toUInt32.toInt32) 0

/-- `owlapi_iri_hash`: the namespace ends after the last separator. -/
def owlapiIriHash (value : String) : Int32 :=
  let offset := ((charIndices 0 value.toList).reverse.findSome? fun (index, character) =>
    if ['#', '/', ':'].contains character then some (index + character.utf8Size) else none).getD 0
  let (iriNamespace, remainder) := splitAt offset value.toList
  javaStringHash iriNamespace + javaStringHash remainder

def combineHash (seed : Int32) (components : List Int32) : Int32 :=
  components.foldl (fun result component => result * 31 + component) seed

/-- The bits of a hash mixed with their upper half. -/
def spreadHash (owlapiHash : Int32) : UInt32 := owlapiHash.toUInt32 ^^^ (owlapiHash.toUInt32 >>> 16)

end Hashes

section Wrapping

theorem int32_eq_bmod (value : Int) : int32 value = value.bmod 4294967296 := by
  unfold int32
  simp only [Int.bmod_def]
  split <;> omega

/-- One step of a fold of hashes. -/
theorem toInt_step (result component : Int32) :
    (result * 31 + component).toInt = int32 (31 * result.toInt + component.toInt) := by
  rw [int32_eq_bmod, Int32.toInt_add, Int32.toInt_mul, Int.bmod_add_bmod, mul_comm]
  rfl

theorem toInt_sum (a b : Int32) : (a + b).toInt = int32 (a.toInt + b.toInt) := by
  rw [int32_eq_bmod, Int32.toInt_add]

theorem combineHash_toInt (seed : Int32) (components : List Int32) :
    (combineHash seed components).toInt = combine seed.toInt (components.map Int32.toInt) := by
  unfold combineHash combine
  induction components generalizing seed with
  | nil => rfl
  | cons component rest ih =>
    rw [List.foldl_cons, ih, List.map_cons, List.foldl_cons, toInt_step]

theorem spreadHash_toNat (hash : Int32) : (spreadHash hash).toNat = spreadOf hash.toInt := by
  have hunsigned : hash.toUInt32.toNat = (hash.toInt % 4294967296).toNat := by
    have h := BitVec.toInt_eq_toNat_bmod hash.toBitVec
    rw [Int32.toInt_toBitVec, Int32.toNat_toBitVec] at h
    have hlt := hash.toUInt32.toNat_lt
    rw [h]
    simp only [Int.bmod_def]
    omega
  unfold spreadHash spreadOf
  rw [UInt32.toNat_xor, UInt32.toNat_shiftRight, hunsigned]
  rfl

end Wrapping

section Units

theorem unit_toInt (unit : UInt16) : unit.toUInt32.toInt32.toInt = unit.toNat := by
  have hlt := unit.toNat_lt
  have h := BitVec.toInt_eq_toNat_bmod unit.toUInt32.toInt32.toBitVec
  rw [Int32.toInt_toBitVec, Int32.toNat_toBitVec] at h
  rw [h]
  simp only [UInt32.toUInt32_toInt32, UInt16.toNat_toUInt32, Int.bmod_def]
  omega

/-- The surrogates of a supplementary character, added and not joined bit by bit. -/
theorem surrogates_eq (code : UInt32) (h : code.toNat < 1048576) :
    ((0xD800 : UInt16) ||| (code >>> 10).toUInt16).toNat = 55296 + code.toNat / 1024 ∧
      ((0xDC00 : UInt16) ||| (code.toUInt16 &&& 0x3FF)).toNat = 56320 + code.toNat % 1024 := by
  have hhigh : code.toNat / 1024 < 2 ^ 10 := by omega
  have hlow : code.toNat % 1024 < 2 ^ 10 := Nat.mod_lt _ (by omega)
  have hjoin : ∀ top low : Nat, low < 2 ^ 10 → top * 2 ^ 10 ||| low = top * 2 ^ 10 + low := by
    intro top low hlt
    rw [mul_comm, Nat.two_pow_add_eq_or_of_lt hlt]
  constructor
  · have hshift : ((code >>> 10).toUInt16).toNat = code.toNat / 1024 := by
      rw [UInt32.toNat_toUInt16, UInt32.toNat_shiftRight]
      change code.toNat >>> 10 % 65536 = _
      rw [Nat.shiftRight_eq_div_pow]
      omega
    rw [UInt16.toNat_or, hshift]
    exact hjoin 54 _ hhigh
  · have hmask : (code.toUInt16 &&& 0x3FF).toNat = code.toNat % 1024 := by
      rw [UInt16.toNat_and, UInt32.toNat_toUInt16]
      change code.toNat % 65536 &&& (2 ^ 10 - 1) = _
      rw [Nat.and_two_pow_sub_one_eq_mod]
      omega
    rw [UInt16.toNat_or, hmask]
    exact hjoin 55 _ hlow

theorem char_code_lt (c : Char) : c.toNat < 1114112 := by
  have h := c.valid
  unfold UInt32.isValidChar Nat.isValidChar at h
  change c.val.toNat < 1114112
  omega

/-- Both sides cut a text into the same code units. -/
theorem encodeUtf16_toNat (value : List Char) :
    (encodeUtf16 value).map UInt16.toNat = utf16Units value := by
  unfold encodeUtf16 utf16Units
  rw [List.map_flatMap]
  apply List.flatMap_congr
  intro c _
  have hmax := char_code_lt c
  have hsize : c.toNat = c.val.toNat := rfl
  by_cases hc : c.val < 0x10000
  · have hsmall : c.toNat < 65536 := by
      rw [hsize]
      exact UInt32.lt_iff_toNat_lt.mp hc
    rw [if_pos hc, if_pos hsmall]
    simp only [List.map_cons, List.map_nil, UInt32.toNat_toUInt16, List.cons.injEq, and_true]
    omega
  · have hlarge : ¬c.toNat < 65536 := by
      rw [hsize]
      exact fun h => hc (UInt32.lt_iff_toNat_lt.mpr h)
    rw [if_neg hc, if_neg hlarge]
    have hcode : (c.val - 0x10000).toNat = c.toNat - 65536 := by
      rw [UInt32.toNat_sub_of_le _ _ (UInt32.not_lt.mp hc)]
      rfl
    obtain ⟨hhigh, hlow⟩ := surrogates_eq (c.val - 0x10000) (by omega)
    simp only [List.map_cons, List.map_nil, hhigh, hlow, hcode]

theorem javaStringHash_toInt (value : List Char) :
    (javaStringHash value).toInt = javaCharsHash value := by
  unfold javaStringHash javaCharsHash
  rw [← encodeUtf16_toNat]
  simp only [bind_pure_comp, List.map_eq_map, List.foldl_map]
  have hfold : ∀ (units : List UInt16) (result : Int32),
      (units.foldl (fun result unit => result * 31 + unit.toUInt32.toInt32) result).toInt =
        units.foldl (fun result unit => int32 (31 * result + unit.toNat)) result.toInt := by
    intro units
    induction units with
    | nil => exact fun _ => rfl
    | cons unit rest ih =>
      intro result
      rw [List.foldl_cons, ih, toInt_step, unit_toInt, List.foldl_cons]
  exact hfold _ 0

end Units

section Separators

def utf8Width (value : List Char) : Nat := (value.map Char.utf8Size).sum

theorem charIndices_append (offset : Nat) (first last : List Char) :
    charIndices offset (first ++ last) =
      charIndices offset first ++ charIndices (offset + utf8Width first) last := by
  induction first generalizing offset with
  | nil => simp [charIndices, utf8Width]
  | cons c rest ih =>
    simp only [List.cons_append, charIndices, ih, utf8Width, List.map_cons, List.sum_cons]
    rw [Nat.add_assoc]

theorem charIndices_mem {offset : Nat} {value : List Char} {entry : Nat × Char}
    (h : entry ∈ charIndices offset value) : entry.2 ∈ value := by
  induction value generalizing offset with
  | nil => cases h
  | cons c rest ih =>
    rcases List.mem_cons.mp h with rfl | hrest
    · exact List.mem_cons_self
    · exact List.mem_cons_of_mem c (ih hrest)

/-- The text is cut where the offset says when a character ends there. -/
theorem splitAt_width (first last : List Char) :
    splitAt (utf8Width first) (first ++ last) = (first, last) := by
  induction first with
  | nil => cases last <;> rfl
  | cons c rest ih =>
    have hpos := c.utf8Size_pos
    have hwidth : utf8Width (c :: rest) = c.utf8Size + utf8Width rest := by
      simp [utf8Width]
    have hrest : c.utf8Size + utf8Width rest - c.utf8Size = utf8Width rest := by omega
    rw [hwidth, List.cons_append, splitAt, if_neg (by omega), hrest, ih]

theorem separators_contains (c : Char) : ['#', '/', ':'].contains c = isIriSeparator c := by
  rw [Bool.eq_iff_iff]
  simp [isIriSeparator, or_assoc]

/-- The byte offset after the last separator is where the namespace ends. -/
theorem separator_offset {iriNamespace remainder : List Char}
    (hnamespace : iriNamespace = [] ∨ ∃ rest c, iriNamespace = rest ++ [c] ∧ isIriSeparator c = true)
    (hremainder : ∀ c ∈ remainder, isIriSeparator c = false) :
    ((charIndices 0 (iriNamespace ++ remainder)).reverse.findSome? fun (index, character) =>
      if ['#', '/', ':'].contains character then some (index + character.utf8Size)
      else none).getD 0 = utf8Width iriNamespace := by
  have hnone : (charIndices (0 + utf8Width iriNamespace) remainder).reverse.findSome?
      (fun (index, character) =>
        if ['#', '/', ':'].contains character then some (index + character.utf8Size)
        else none) = none := by
    rw [List.findSome?_eq_none_iff]
    intro entry hentry
    have hmem := charIndices_mem (List.mem_reverse.mp hentry)
    simp only [separators_contains, hremainder _ hmem, Bool.false_eq_true, if_false]
  rw [charIndices_append, List.reverse_append, List.findSome?_append, hnone, Option.none_or]
  rcases hnamespace with rfl | ⟨rest, c, rfl, hc⟩
  · rfl
  · rw [charIndices_append, List.reverse_append]
    simp only [charIndices, List.reverse_cons, List.reverse_nil, List.nil_append,
      List.cons_append, List.findSome?_cons, separators_contains, hc, if_true, Option.getD_some]
    simp [utf8Width]

/-- The split by bytes and the split by characters give one hash. -/
theorem owlapiIriHash_toInt (value : String) :
    (owlapiIriHash value).toInt = Compiler.owlapiIriHash value := by
  have hparts : value.toList = value.toList.rdropWhile (fun c => !isIriSeparator c) ++
      value.toList.rtakeWhile (fun c => !isIriSeparator c) :=
    List.rdropWhile_append_rtakeWhile.symm
  have hremainder : ∀ c ∈ value.toList.rtakeWhile (fun c => !isIriSeparator c),
      isIriSeparator c = false := by
    intro c hc
    have h := List.mem_rtakeWhile_imp hc
    simpa using h
  have hnamespace : value.toList.rdropWhile (fun c => !isIriSeparator c) = [] ∨
      ∃ rest c, value.toList.rdropWhile (fun c => !isIriSeparator c) = rest ++ [c] ∧
        isIriSeparator c = true := by
    rcases List.eq_nil_or_concat (value.toList.rdropWhile (fun c => !isIriSeparator c)) with
      hnil | ⟨rest, c, hlast⟩
    · exact .inl hnil
    · have hne : value.toList.rdropWhile (fun c => !isIriSeparator c) ≠ [] := by
        simp [hlast]
      have h := List.rdropWhile_last_not (fun c => !isIriSeparator c) value.toList hne
      simp only [hlast, List.concat_eq_append, List.getLast_append_singleton, Bool.not_eq_true',
        Bool.not_eq_false] at h
      exact .inr ⟨rest, c, by simp [hlast], h⟩
  have hoffset := separator_offset hnamespace hremainder
  unfold owlapiIriHash Compiler.owlapiIriHash
  rw [← hparts] at hoffset
  simp only [hoffset]
  have hsplit := splitAt_width (value.toList.rdropWhile (fun c => !isIriSeparator c))
    (value.toList.rtakeWhile (fun c => !isIriSeparator c))
  rw [← hparts] at hsplit
  simp only [hsplit, toInt_sum, javaStringHash_toInt]

end Separators

end Projector.Native
