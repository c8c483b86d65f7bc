import Projector.Edge

namespace Projector.Artifact
open Lib

/-- The values the records of an artifact are made of. A dictionary lists its entries in
insertion order. -/
inductive Json where
  | null
  | bool (b : Bool)
  | int (n : Int)
  | str (s : PyStr)
  | arr (items : List Json)
  | obj (fields : List (PyStr × Json))

def ascii (s : String) : PyStr := PyStr.ofString s

def hexDigit (n : Nat) : Char :=
  if n < 10 then Char.ofNat (48 + n) else Char.ofNat (87 + n)

/-- What `json.dumps` writes for one character without `ensure_ascii`. -/
def escape : PyChar → PyStr
  | .surrogate k => [.surrogate k]
  | .scalar c =>
    if c = '"' then ascii "\\\""
    else if c = '\\' then ascii "\\\\"
    else if c = '\n' then ascii "\\n"
    else if c = '\r' then ascii "\\r"
    else if c = '\t' then ascii "\\t"
    else if c.toNat = 12 then ascii "\\f"
    else if c.toNat = 8 then ascii "\\b"
    else if c.toNat < 32 then
      ascii "\\u00" ++ [.scalar (hexDigit (c.toNat / 16)), .scalar (hexDigit (c.toNat % 16))]
    else [.scalar c]

def quote (s : PyStr) : PyStr := ascii "\"" ++ s.flatMap escape ++ ascii "\""

def commaSeparated : List PyStr → PyStr
  | [] => []
  | [s] => s
  | s :: rest => s ++ ascii "," ++ commaSeparated rest

def codePoint : PyChar → Nat
  | .scalar c => c.toNat
  | .surrogate k => 55296 + k

/-- Strings are ordered by their code points. -/
def codePoints (s : PyStr) : List Nat := s.map codePoint

mutual

/-- `json.dumps` with the separators `,` and `:`. -/
def Json.dumps (sortKeys : Bool) : Json → PyStr
  | .null => ascii "null"
  | .bool true => ascii "true"
  | .bool false => ascii "false"
  | .int n => ascii (toString n)
  | .str s => quote s
  | .arr items => ascii "[" ++ commaSeparated (dumpItems sortKeys items) ++ ascii "]"
  | .obj fields =>
    let entries := dumpFields sortKeys fields
    let entries := if sortKeys then sortOn (fun entry => codePoints entry.1) entries else entries
    ascii "\x7b" ++ commaSeparated (entries.map fun entry => quote entry.1 ++ ascii ":" ++ entry.2) ++
      ascii "\x7d"

def dumpItems (sortKeys : Bool) : List Json → List PyStr
  | [] => []
  | item :: items => item.dumps sortKeys :: dumpItems sortKeys items

def dumpFields (sortKeys : Bool) : List (PyStr × Json) → List (PyStr × PyStr)
  | [] => []
  | (name, value) :: fields => (name, value.dumps sortKeys) :: dumpFields sortKeys fields

end

/-- One line of an artifact; none for text with a lone surrogate. -/
def recordLine (text : PyStr) : Option Bytes := (PyText.encode text).map (· ++ [10])

def jsonRecord (fields : List (PyStr × Json)) : Option Bytes :=
  recordLine ((Json.obj fields).dumps true)

def edgeJsonRecord (edge : Edge PyStr) : Option Bytes :=
  recordLine ((Json.obj [(ascii "source", .str edge.source), (ascii "relation", .str edge.relation),
    (ascii "destination", .str edge.destination)]).dumps false)

/-- A dictionary entry set by name; a new one goes to the end. -/
def setField (fields : List (PyStr × Json)) (name : PyStr) (value : Json) : List (PyStr × Json) :=
  if fields.any (fun entry => entry.1 = name) then
    fields.map (fun entry => if entry.1 = name then (name, value) else entry)
  else fields ++ [(name, value)]

def eraseField (fields : List (PyStr × Json)) (name : PyStr) : List (PyStr × Json) :=
  fields.filter (fun entry => entry.1 ≠ name)

theorem eraseField_setField {fields : List (PyStr × Json)} {name : PyStr} (value : Json)
    (h : ∀ entry ∈ fields, entry.1 ≠ name) : eraseField (setField fields name value) name = fields := by
  have hany : (fields.any fun entry => decide (entry.1 = name)) = false := by
    rw [List.any_eq_false]
    intro entry hm
    simpa using h entry hm
  have hkept : fields.filter (fun entry => entry.1 ≠ name) = fields :=
    List.filter_eq_self.mpr (fun entry hm => by simpa using h entry hm)
  simp only [eraseField, setField, hany, Bool.false_eq_true, if_false, List.filter_append, hkept]
  simp

/-- Text without a line break. -/
def SingleLine (s : PyStr) : Prop := PyChar.scalar '\n' ∉ s

theorem SingleLine.append {s t : PyStr} (hs : SingleLine s) (ht : SingleLine t) :
    SingleLine (s ++ t) := by
  intro hm
  rcases List.mem_append.mp hm with hm | hm
  · exact hs hm
  · exact ht hm

theorem ascii_singleLine {s : String} (h : '\n' ∉ s.toList) : SingleLine (ascii s) := by
  intro hm
  obtain ⟨c, hc, he⟩ := List.mem_map.mp hm
  obtain rfl := PyChar.scalar.inj he
  exact h hc

theorem hexDigit_ne : ∀ n < 16, hexDigit n ≠ '\n' := by decide

theorem escape_singleLine (c : PyChar) : SingleLine (escape c) := by
  cases c with
  | surrogate k => simp [escape, SingleLine]
  | scalar c =>
    have hcontrol : SingleLine (ascii "\\u00") := ascii_singleLine (by decide)
    simp only [escape]
    repeat' split
    any_goals exact ascii_singleLine (by decide)
    · rename_i hlt
      have hhigh := hexDigit_ne (c.toNat / 16) (by omega)
      have hlow := hexDigit_ne (c.toNat % 16) (by omega)
      refine hcontrol.append ?_
      intro hm
      simp only [List.mem_cons, PyChar.scalar.injEq, List.not_mem_nil, or_false] at hm
      rcases hm with hm | hm
      · exact hhigh hm.symm
      · exact hlow hm.symm
    · rename_i hnewline _ _ _ _ _
      intro hm
      exact hnewline (PyChar.scalar.inj (List.mem_singleton.mp hm)).symm

theorem flatMap_singleLine {α : Type} {f : α → PyStr} (xs : List α)
    (h : ∀ x, SingleLine (f x)) : SingleLine (xs.flatMap f) := by
  intro hm
  obtain ⟨x, -, hx⟩ := List.mem_flatMap.mp hm
  exact h x hx

theorem quote_singleLine (s : PyStr) : SingleLine (quote s) :=
  ((ascii_singleLine (by decide)).append (flatMap_singleLine s escape_singleLine)).append
    (ascii_singleLine (by decide))

theorem commaSeparated_singleLine {xs : List PyStr} (h : ∀ s ∈ xs, SingleLine s) :
    SingleLine (commaSeparated xs) := by
  fun_induction commaSeparated xs with
  | case1 => exact List.not_mem_nil
  | case2 s => exact h s (by simp)
  | case3 s rest _ ih =>
    exact ((h s (by simp)).append (ascii_singleLine (by decide))).append
      (ih (fun t ht => h t (List.mem_cons_of_mem _ ht)))

theorem toString_singleLine (n : Int) : SingleLine (ascii (toString n)) := by
  have hdigits : ∀ m : Nat, '\n' ∉ (Nat.repr m).toList := by
    intro m hm
    have hd := Nat.isDigit_of_mem_toDigits (by decide) (by decide)
      (by simpa [Nat.repr] using hm : '\n' ∈ Nat.toDigits 10 m)
    simp at hd
  apply ascii_singleLine
  cases n with
  | ofNat m => simpa [toString, Int.repr] using hdigits m
  | negSucc m => simpa [toString, Int.repr] using hdigits (m + 1)

mutual

/-- A rendered value is one line: every line break in it is escaped. -/
theorem Json.dumps_singleLine (sortKeys : Bool) : ∀ value : Json, SingleLine (value.dumps sortKeys)
  | .null => by
    rw [Json.dumps]
    exact ascii_singleLine (by decide)
  | .bool true => by
    rw [Json.dumps]
    exact ascii_singleLine (by decide)
  | .bool false => by
    rw [Json.dumps]
    exact ascii_singleLine (by decide)
  | .int n => by
    rw [Json.dumps]
    exact toString_singleLine n
  | .str s => by
    rw [Json.dumps]
    exact quote_singleLine s
  | .arr items => by
    rw [Json.dumps]
    exact ((ascii_singleLine (by decide)).append
      (commaSeparated_singleLine (dumpItems_singleLine sortKeys items))).append
      (ascii_singleLine (by decide))
  | .obj fields => by
    have hfields := dumpFields_singleLine sortKeys fields
    rw [Json.dumps]
    refine ((ascii_singleLine (by decide)).append (commaSeparated_singleLine ?_)).append
      (ascii_singleLine (by decide))
    intro t ht
    obtain ⟨entry, hentry, rfl⟩ := List.mem_map.mp ht
    have hm : entry ∈ dumpFields sortKeys fields := by
      split at hentry
      · exact mem_sortOn.mp hentry
      · exact hentry
    exact ((quote_singleLine _).append (ascii_singleLine (by decide))).append (hfields entry hm)

theorem dumpItems_singleLine (sortKeys : Bool) :
    ∀ items : List Json, ∀ s ∈ dumpItems sortKeys items, SingleLine s
  | [] => by
    rw [dumpItems]
    exact fun s hs => (List.not_mem_nil hs).elim
  | item :: items => by
    have hitem := item.dumps_singleLine sortKeys
    have hitems := dumpItems_singleLine sortKeys items
    rw [dumpItems]
    intro s hs
    cases hs with
    | head => exact hitem
    | tail _ hs => exact hitems s hs

theorem dumpFields_singleLine (sortKeys : Bool) :
    ∀ fields : List (PyStr × Json), ∀ entry ∈ dumpFields sortKeys fields, SingleLine entry.2
  | [] => by
    rw [dumpFields]
    exact fun s hs => (List.not_mem_nil hs).elim
  | (name, value) :: fields => by
    have hvalue := value.dumps_singleLine sortKeys
    have hfields := dumpFields_singleLine sortKeys fields
    rw [dumpFields]
    intro entry hs
    cases hs with
    | head => exact hvalue
    | tail _ hs => exact hfields entry hs

end

/-- Only a line break is encoded with its byte. -/
theorem utf8_newline {s : String} (h : (10 : UInt8) ∈ utf8 s) : '\n' ∈ s.toList := by
  have hbytes : utf8 s = s.toList.flatMap String.utf8EncodeChar := by
    have hencode : s.toByteArray = s.toList.utf8Encode := String.utf8Encode_toList.symm
    simp [utf8, hencode, List.utf8Encode]
  rw [hbytes] at h
  obtain ⟨c, hc, hm⟩ := List.mem_flatMap.mp h
  have hval : c.val.toNat = 10 := by
    have hrange : ∀ k, k < 256 → UInt8.ofNat k = 10 → k = 10 := by
      intro k hk he
      have hv := congrArg UInt8.toNat he
      simp only [UInt8.toNat_ofNat'] at hv
      have h10 : (10 : UInt8).toNat = 10 := rfl
      omega
    simp only [String.utf8EncodeChar] at hm
    repeat' split at hm
    all_goals
      simp only [List.mem_cons, List.not_mem_nil, or_false] at hm
    · exact hrange _ (by omega) hm.symm
    · rcases hm with hm | hm
      · have := hrange _ (by omega) hm.symm
        omega
      · have := hrange _ (by omega) hm.symm
        omega
    · rcases hm with hm | hm | hm
      · have := hrange _ (by omega) hm.symm
        omega
      · have := hrange _ (by omega) hm.symm
        omega
      · have := hrange _ (by omega) hm.symm
        omega
    · rcases hm with hm | hm | hm | hm
      · have := hrange _ (by omega) hm.symm
        omega
      · have := hrange _ (by omega) hm.symm
        omega
      · have := hrange _ (by omega) hm.symm
        omega
      · have := hrange _ (by omega) hm.symm
        omega
  have hnewline : c = '\n' := Char.ext (UInt32.toNat_inj.mp hval)
  exact hnewline ▸ hc

/-- Every record is one line of the file. -/
theorem recordLine_line {text : PyStr} {bytes : Bytes} (htext : SingleLine text)
    (h : recordLine text = some bytes) : ∃ line, bytes = line ++ [10] ∧ (10 : UInt8) ∉ line := by
  simp only [recordLine, Option.map_eq_some_iff] at h
  obtain ⟨line, hline, rfl⟩ := h
  refine ⟨line, rfl, fun hm => htext ?_⟩
  simp only [PyText.encode, Option.map_eq_some_iff] at hline
  obtain ⟨s, hs, rfl⟩ := hline
  rw [← PyStr.ofString_of_toString hs]
  exact List.mem_map.mpr ⟨'\n', utf8_newline hm, rfl⟩

theorem jsonRecord_line {fields : List (PyStr × Json)} {bytes : Bytes}
    (h : jsonRecord fields = some bytes) : ∃ line, bytes = line ++ [10] ∧ (10 : UInt8) ∉ line :=
  recordLine_line (Json.dumps_singleLine true (.obj fields)) h

theorem edgeJsonRecord_line {edge : Edge PyStr} {bytes : Bytes}
    (h : edgeJsonRecord edge = some bytes) : ∃ line, bytes = line ++ [10] ∧ (10 : UInt8) ∉ line :=
  recordLine_line (Json.dumps_singleLine false _) h

end Projector.Artifact
