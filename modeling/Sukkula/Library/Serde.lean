import Mathlib.Data.Char
import Mathlib.Data.List.Lex
import Sukkula.Library.Json

/-! # Deserializers and visitors

A deserializer reads a text and hands what it finds to a visitor, value by value,
until the text ends or is no JSON. The visitor makes of it what it likes, and may
fail. Of a map it gets a key, then may ask for the value, so that it can fail on
a key before the value is read. The `tree` of a text is what is found in it,
repeated keys included. The text itself, with its escapes and numbers, is the
deserializer's.
-/

namespace Sukkula.Serde

open Json

/-- What there is to find in a text, up to where the deserializer fails. -/
inductive Source where
  | error
  | unit
  | bool (b : Bool)
  | i64 (v : Int64)
  | u64 (v : UInt64)
  | f64 (bits : BitVec 64)
  | str (s : Str)
  -- The elements, and whether the sequence is closed after the last of them.
  | seq (items : List Source) (closed : Bool)
  | map (entries : List (Str × Source)) (closed : Bool)

/-- A text, and whether there is nothing in it but the value. -/
structure Document where
  value : Source
  ends : Bool

/-- `Number::from_f64`: of a finite double. -/
def fromF64 (bits : BitVec 64) : Option Number :=
  if h : bits.extractLsb 62 52 ≠ 0x7FF#11 then some (.float ⟨bits, h⟩) else none

/-- What is made of each value, and of the entries of a map in turn. -/
structure Visitor where
  visitUnit : Option Json
  visitBool : Bool → Option Json
  visitI64 : Int64 → Option Json
  visitU64 : UInt64 → Option Json
  visitF64 : BitVec 64 → Option Json
  visitStr : Str → Option Json
  nextKey : List (Str × Json) → Str → Bool
  nextValue : List (Str × Json) → Str → Json → Option (List (Str × Json))

section Visit

variable (V : Visitor)

mutual

/-- `deserialize_any` -/
def visit : Source → Option Json
  | .error => none
  | .unit => V.visitUnit
  | .bool b => V.visitBool b
  | .i64 v => V.visitI64 v
  | .u64 v => V.visitU64 v
  | .f64 bits => V.visitF64 bits
  | .str s => V.visitStr s
  | .seq items closed => (visitSeq items closed).map .array
  | .map entries closed => (visitMap [] entries closed).map .object

def visitSeq : List Source → Bool → Option (List Json)
  | [], closed => if closed then some [] else none
  | s :: items, closed =>
    match visit s with
    | none => none
    | some v => (visitSeq items closed).map (v :: ·)

def visitMap (out : List (Str × Json)) : List (Str × Source) → Bool → Option (List (Str × Json))
  | [], closed => if closed then some out else none
  | (key, s) :: entries, closed =>
    if V.nextKey out key then
      match visit s with
      | none => none
      | some v =>
        match V.nextValue out key v with
        | none => none
        | some out => visitMap out entries closed
    else none

end

def fromStr (d : Document) : Option Json := if d.ends then visit V d.value else none

end Visit

/-- The visitor that keeps everything, in the order of the text. -/
def tree : Visitor where
  visitUnit := some .null
  visitBool b := some (.bool b)
  visitI64 v := some (integer v.toInt)
  visitU64 v := some (integer v.toNat)
  visitF64 bits := (fromF64 bits).map .number
  visitStr s := some (.string s)
  nextKey _ _ := true
  nextValue out key v := some (out ++ [(key, v)])

/-- `Map::insert`: a key that is there already gets the new value. -/
def insert (out : List (Str × Json)) (key : Str) (v : Json) : List (Str × Json) :=
  if key ∈ out.map Prod.fst then out.map fun e => if e.1 = key then (key, v) else e
  else Assoc.insert (key, v) out

/-- The key under which serde_json passes a raw value on to itself. -/
def rawValueKey : Str := "$serde_json::private::RawValue".toList

section Value

-- What is made of the text of a raw value, by parsing it in its turn.
variable (raw : Str → Option Json)

/-- A raw value is given as a string, and nothing else. -/
def rawValue : List (Str × Source) → Bool → Option Json
  | [(_, .str text)], true => raw text
  | _, _ => none

mutual

/-- serde_json's own `Value`, with its feature `raw_value`. -/
def value : Source → Option Json
  | .error => none
  | .unit => some .null
  | .bool b => some (.bool b)
  | .i64 v => some (integer v.toInt)
  | .u64 v => some (integer v.toNat)
  | .f64 bits => some (((fromF64 bits).map .number).getD .null)
  | .str s => some (.string s)
  | .seq items closed => (valueSeq items closed).map .array
  | .map entries closed =>
    if entries.head?.map Prod.fst = some rawValueKey then rawValue raw entries closed
    else (valueMap [] entries closed).map .object

def valueSeq : List Source → Bool → Option (List Json)
  | [], closed => if closed then some [] else none
  | s :: items, closed =>
    match value s with
    | none => none
    | some v => (valueSeq items closed).map (v :: ·)

def valueMap (out : List (Str × Json)) : List (Str × Source) → Bool → Option (List (Str × Json))
  | [], closed => if closed then some out else none
  | (key, s) :: entries, closed =>
    match value s with
    | none => none
    | some v => valueMap (insert out key v) entries closed

end

/-- `from_str` for a `Value` -/
def plain (d : Document) : Option Json := if d.ends then value raw d.value else none

end Value

namespace Source

variable {s : Source} {items : List Source} {entries : List (Str × Source)} {closed : Bool}

theorem ind {P : Source → Prop} (error : P .error) (unit : P .unit) (bool : ∀ b, P (.bool b))
    (i64 : ∀ v, P (.i64 v)) (u64 : ∀ v, P (.u64 v)) (f64 : ∀ bits, P (.f64 bits))
    (str : ∀ s, P (.str s)) (seq : ∀ items closed, (∀ s ∈ items, P s) → P (.seq items closed))
    (map : ∀ entries closed, (∀ e ∈ entries, P e.2) → P (.map entries closed)) (s : Source) : P s :=
  @Source.rec P (fun items => ∀ s ∈ items, P s) (fun entries => ∀ e ∈ entries, P e.2)
    (fun e => P e.2)
    error unit bool i64 u64 f64 str seq map (by simp)
    (fun _ _ hs hi => List.forall_mem_cons.mpr ⟨hs, hi⟩) (by simp)
    (fun _ _ he hs => List.forall_mem_cons.mpr ⟨he, hs⟩) (fun _ _ hs => hs) s

inductive Within (s : Source) : Source → Prop
  | self : Within s s
  | item {items : List Source} {closed : Bool} {i : Source} (hi : i ∈ items) (h : Within s i) :
      Within s (.seq items closed)
  | value {entries : List (Str × Source)} {closed : Bool} {e : Str × Source} (he : e ∈ entries)
      (h : Within s e.2) : Within s (.map entries closed)

def Finite (s : Source) : Prop := ∀ bits, Within (.f64 bits) s → bits.extractLsb 62 52 ≠ 0x7FF#11

theorem finite_seq : Finite (.seq items closed) ↔ ∀ s ∈ items, s.Finite := by
  constructor
  · intro h s hs bits hin
    exact h bits (.item hs hin)
  · intro h bits hin
    cases hin with
    | item hs hin => exact h _ hs bits hin

theorem finite_map : Finite (.map entries closed) ↔ ∀ e ∈ entries, e.2.Finite := by
  constructor
  · intro h e he bits hin
    exact h bits (.value he hin)
  · intro h bits hin
    cases hin with
    | value he hin => exact h _ he bits hin

end Source

/-- Some object, at any depth, has the key of a raw value first. -/
def Marked (v : Json) : Prop :=
  ∃ entries, Within (.object entries) v ∧ entries.head?.map Prod.fst = some rawValueKey

theorem marked_array {items : List Json} : Marked (.array items) ↔ ∃ v ∈ items, Marked v :=
  within_array

theorem marked_object {entries : List (Str × Json)} :
    Marked (.object entries) ↔ entries.head?.map Prod.fst = some rawValueKey ∨
    ∃ e ∈ entries, Marked e.2 :=
  within_object

theorem not_marked_of_leaf {v : Json} (h : v.Leaf) : ¬ Marked v :=
  fun ⟨_, hin, _⟩ => h.not_within hin

/-- The visitor makes of a value the value itself, and of a map one that has each key once. -/
structure Visitor.Once (V : Visitor) : Prop where
  unit : V.visitUnit = tree.visitUnit
  bool : V.visitBool = tree.visitBool
  i64 : V.visitI64 = tree.visitI64
  u64 : V.visitU64 = tree.visitU64
  f64 : ∀ {bits : BitVec 64}, bits.extractLsb 62 52 ≠ 0x7FF#11 → V.visitF64 bits =
    tree.visitF64 bits
  str : V.visitStr = tree.visitStr
  -- A key that is there already is refused, before or after the value is read.
  refuses : ∀ {out : List (Str × Json)} {key : Str}, key ∈ out.map Prod.fst →
    V.nextKey out key = true → ∀ v, V.nextValue out key v = none
  takes : ∀ {out : List (Str × Json)} {key : Str}, key ∉ out.map Prod.fst →
    V.nextKey out key = true ∧ ∀ v, V.nextValue out key v = some (Assoc.insert (key, v) out)

theorem visitMap_tree (out : List (Str × Json)) (entries : List (Str × Source)) (closed : Bool) :
    visitMap tree out entries closed = (visitMap tree [] entries closed).map (out ++ ·) := by
  have hnext (out : List (Str × Json)) (key : Str) (s : Source) (entries : List (Str × Source)) :
      visitMap tree out ((key, s) :: entries) closed =
        (visit tree s).bind fun v => visitMap tree (out ++ [(key, v)]) entries closed := by
    rw [visitMap]
    cases visit tree s <;> rfl
  induction entries generalizing out with
  | nil => cases closed <;> simp [visitMap]
  | cons e entries ih =>
    obtain ⟨key, s⟩ := e
    rw [hnext, hnext]
    cases visit tree s with
    | none => rfl
    | some v =>
      simp only [Option.bind_some]
      rw [ih, ih ([] ++ [(key, v)]), Option.map_map]
      simp [Function.comp_def]

theorem visitMap_tree_cons (key : Str) (s : Source) (entries : List (Str × Source))
    (closed : Bool) : visitMap tree [] ((key, s) :: entries) closed =
      (visit tree s).bind fun v => (visitMap tree [] entries closed).map ((key, v) :: ·) := by
  rw [visitMap]
  cases visit tree s with
  | none => rfl
  | some v => exact visitMap_tree [(key, v)] entries closed

end Sukkula.Serde
