import Mathlib.Data.List.DropRight
import Projector.Core.Canonical

namespace Projector.Compiler
open Lib Projector.Core

/-- A Java `int`: the low 32 bits, signed. -/
def int32 (value : Int) : Int :=
  let low := value % 4294967296
  if low < 2147483648 then low else low - 4294967296

/-- The UTF-16 code units of a text. -/
def utf16Units (chars : List Char) : List Nat :=
  chars.flatMap fun c =>
    if c.toNat < 65536 then [c.toNat]
    else [55296 + (c.toNat - 65536) / 1024, 56320 + (c.toNat - 65536) % 1024]

def javaCharsHash (chars : List Char) : Int :=
  (utf16Units chars).foldl (fun result unit => int32 (31 * result + unit)) 0

/-- Java hashes UTF-16 code units, not Unicode scalar values. -/
def javaStringHash (value : String) : Int := javaCharsHash value.toList

def isIriSeparator (c : Char) : Bool := c == '#' || c == '/' || c == ':'

/-- The namespace ends at the last separator; without one it is empty. -/
def owlapiIriHash (value : String) : Int :=
  let chars := value.toList
  let iriNamespace := chars.rdropWhile (fun c => !isIriSeparator c)
  let remainder := chars.rtakeWhile (fun c => !isIriSeparator c)
  int32 (javaCharsHash iriNamespace + javaCharsHash remainder)

def combine (seed : Int) (components : List Int) : Int :=
  components.foldl (fun result component => int32 (31 * result + component)) seed

def EntityKind.typeName : EntityKind → String
  | .classEntity => "Class"
  | .datatype => "Datatype"
  | .objectProperty => "ObjectProperty"
  | .dataProperty => "DataProperty"
  | .annotationProperty => "AnnotationProperty"
  | .namedIndividual => "NamedIndividual"

/-- The class name of a model value. Each entity kind is a class of its own. -/
def typeName (value : Node) : String :=
  match value.entityKind? with
  | some kind => EntityKind.typeName kind
  | none => value.constructor.name

/-- One level of `_owlapi_hash`, given the hashes of the fields. -/
def hashFrom (value : Node) (field : Nat → Option Int) : Option Int :=
  match value.constructor with
  | .iri => some (owlapiIriHash (value.text 0))
  | .entity =>
    match value.entityKind? with
    | some .classEntity => some (combine 2293 [owlapiIriHash value.entityIri])
    | some .objectProperty => some (combine 4153 [owlapiIriHash value.entityIri])
    | _ => some (owlapiIriHash value.entityIri)
  | .objectInverseOf => do
    let property ← field 0
    some (combine 4241 [property])
  | .objectAllValuesFrom => do
    let property ← field 0
    let filler ← field 1
    some (combine 2833 [property, filler])
  | .objectSomeValuesFrom => do
    let property ← field 0
    let filler ← field 1
    some (combine 3517 [property, filler])
  | .objectMinCardinality => do
    let property ← field 1
    let filler ← field 2
    some (combine 3259 [property, value.integer 0, filler])
  | .objectMaxCardinality => do
    let property ← field 1
    let filler ← field 2
    some (combine 3187 [property, value.integer 0, filler])
  | .objectIntersectionOf => do
    let operands ← field 0
    some (combine 3083 [operands])
  | .objectUnionOf => do
    let operands ← field 0
    some (combine 3581 [operands])
  | .annotationTerm => do
    -- Nested annotations are not part of an annotation's hash.
    let property ← field 0
    let annotated ← field 1
    some (combine 6311 [property, annotated])
  | .subObjectPropertyOf => do
    let sub ← field 0
    let sup ← field 1
    let annotations ← field 2
    some (combine 1823 [sub, sup, annotations])
  | .inverseObjectProperties => do
    let first ← field 0
    let second ← field 1
    let annotations ← field 2
    some (combine 1229 [int32 (first + second), annotations])
  | .literal => some (javaStringHash (value.text 0))
  | .anonymousIndividual => do
    -- A key that is not UTF-8 becomes surrogates, which the UTF-16 encoder refuses.
    let key ← fromUtf8? (value.payload 1)
    some (javaStringHash key)
  | _ => some (javaStringHash (typeName value))

mutual

/-- Relevant subset of OWLAPI 4.5.22 structural `hashCode`; `none` stands for the
`UnicodeEncodeError` that an anonymous key can raise. -/
def owlapiHash : Node → Option Int
  | .mk c fields => hashFrom (.mk c fields) (fun i => (fieldHashes fields).getD i (some 0))

def fieldHashes : List Component → List (Option Int)
  | [] => []
  | .node n :: rest => owlapiHash n :: fieldHashes rest
  | .set items :: rest => setHashFrom 0 items :: fieldHashes rest
  | _ :: rest => some 0 :: fieldHashes rest

/-- `_set_hash`, from a partial sum. -/
def setHashFrom (result : Int) : List Node → Option Int
  | [] => some result
  | n :: rest => do
    let hash ← owlapiHash n
    setHashFrom (int32 (result + hash)) rest

end

/-- The hash of one field. -/
def fieldHash : Component → Option Int
  | .node n => owlapiHash n
  | .set items => setHashFrom 0 items
  | _ => some 0

theorem fieldHashes_getD (fields : List Component) (i : Nat) :
    (fieldHashes fields).getD i (some 0) = fieldHash (fields.getD i .none) := by
  induction fields generalizing i with
  | nil => simp [fieldHashes, fieldHash]
  | cons c rest ih =>
    cases i with
    | zero => cases c <;> simp [fieldHashes, fieldHash]
    | succ i =>
      have hi := ih i
      cases c <;> simpa [fieldHashes] using hi

/-- The recursion as the source writes it. -/
theorem owlapiHash_eq (value : Node) :
    owlapiHash value = hashFrom value (fun i => fieldHash (value.field i)) := by
  cases value with
  | mk c fields =>
    simp only [owlapiHash, fieldHashes_getD]
    rfl

/-- Capacity of the hash table: doubled until the load factor holds `count`. -/
def growCapacity (count : Nat) : Nat → Nat → Nat
  | 0, capacity => capacity
  | fuel + 1, capacity =>
    if count > capacity * 3 / 4 then growCapacity count fuel (capacity * 2) else capacity

def hashsetCapacity (count : Nat) : Nat := growCapacity count count 16

/-- The doubling ends because the load factor holds, not because the fuel does. -/
theorem hashsetCapacity_holds (count : Nat) : count ≤ hashsetCapacity count * 3 / 4 := by
  have hgrow : ∀ fuel capacity, 16 ≤ capacity → count ≤ fuel + capacity * 3 / 4 →
      count ≤ growCapacity count fuel capacity * 3 / 4 := by
    intro fuel
    induction fuel with
    | zero =>
      intro capacity _ hc
      simpa [growCapacity] using hc
    | succ fuel ih =>
      intro capacity h16 hc
      unfold growCapacity
      split
      · exact ih (capacity * 2) (by omega) (by omega)
      · omega
  exact hgrow count 16 (le_refl 16) (by omega)

/-- The traversal key inside the Java hash table. -/
abbrev HashKey := Nat ×ₗ Nat ×ₗ Bytes

def spreadOf (hash : Int) : Nat :=
  let unsigned := (hash % 4294967296).toNat
  unsigned ^^^ (unsigned >>> 16)

def hashKey (capacity : Nat) (hash : Int) (canonical : Bytes) : HashKey :=
  toLex (spreadOf hash &&& (capacity - 1), toLex (spreadOf hash, canonical))

def keyedByHash (capacity : Nat) (value : Node) : Option (HashKey × Node) :=
  (owlapiHash value).map fun hash => (hashKey capacity hash value.canonicalBytes, value)

/-- Projector-private OWLAPI/Java hash traversal order; `none` when a hash raises. -/
def hashsetOrder (values : List Node) : Option (List Node) := do
  let keyed ← values.mapM (keyedByHash (hashsetCapacity values.length))
  some ((sortOn Prod.fst keyed).map Prod.snd)

section Order

def Hashable (values : List Node) : Prop := ∀ v ∈ values, (owlapiHash v).isSome

instance (values : List Node) : Decidable (Hashable values) :=
  inferInstanceAs (Decidable (∀ v ∈ values, (owlapiHash v).isSome))

def nodeHashKey (capacity : Nat) (value : Node) : HashKey :=
  hashKey capacity ((owlapiHash value).getD 0) value.canonicalBytes

theorem nodeHashKey_inj {capacity : Nat} {a b : Node}
    (h : nodeHashKey capacity a = nodeHashKey capacity b) : a = b := by
  simp only [nodeHashKey, hashKey, toLex_inj, Prod.mk.injEq] at h
  exact Node.canonicalBytes_inj a b h.2.2

theorem keyed_mapM (capacity : Nat) (values : List Node) :
    values.mapM (keyedByHash capacity) =
      if Hashable values then some (values.map (fun v => (nodeHashKey capacity v, v)))
      else none := by
  induction values with
  | nil => simp [Hashable]
  | cons v rest ih =>
    rw [List.mapM_cons, ih]
    cases hv : owlapiHash v with
    | none => simp [keyedByHash, Hashable, hv]
    | some hash =>
      by_cases hrest : Hashable rest
      · have hall : Hashable (v :: rest) := by
          intro w hw
          rcases List.mem_cons.mp hw with rfl | hw
          · simp [hv]
          · exact hrest w hw
        simp [keyedByHash, nodeHashKey, hv, hrest, hall]
      · have hnot : ¬Hashable (v :: rest) :=
          fun h => hrest (fun w hw => h w (List.mem_cons_of_mem v hw))
        simp [keyedByHash, hv, hrest, hnot]

/-- The traversal is a sort by a key that tells the axioms apart. -/
theorem hashsetOrder_eq (values : List Node) :
    hashsetOrder values =
      if Hashable values then
        some (sortOn (nodeHashKey (hashsetCapacity values.length)) values)
      else none := by
  unfold hashsetOrder
  rw [keyed_mapM]
  split
  · simp [sortOn_map_fst]
  · rfl

/-- Neither the order of the axioms nor the point where a hash raises shows. -/
theorem hashsetOrder_of_perm {xs ys : List Node} (h : xs.Perm ys) :
    hashsetOrder xs = hashsetOrder ys := by
  have hall : Hashable xs ↔ Hashable ys := by simp only [Hashable, h.mem_iff]
  rw [hashsetOrder_eq, hashsetOrder_eq, h.length_eq,
    sortOn_eq_of_perm (fun a _ b _ hab => nodeHashKey_inj hab) h]
  simp only [hall]

end Order

/-- Type indexes of the OWLAPI 4.5 class-expression order. -/
def expressionIndex (value : Node) : Nat :=
  match value.constructor with
  | .objectIntersectionOf => 3001
  | .objectUnionOf => 3002
  | .objectSomeValuesFrom => 3005
  | .objectAllValuesFrom => 3006
  | .objectMinCardinality => 3008
  | .objectMaxCardinality => 3010
  | _ => 3999

def expressionKey (value : Node) : Nat ×ₗ Bytes :=
  if value.isEntity .classEntity then toLex (1001, utf8 value.entityIri)
  else toLex (expressionIndex value, value.canonicalBytes)

/-- OWLAPI 4.5 order of the operands of an n-ary class expression. -/
def expressionOrder (values : List Node) : List Node := sortOn expressionKey values

end Projector.Compiler
