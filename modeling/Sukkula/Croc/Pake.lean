import Mathlib.Algebra.Order.BigOperators.Group.List
import Mathlib.Algebra.Group.Action.Defs
import Sukkula.Croc.Decimal
import Sukkula.Library.Checks

/-! # The key exchange of the peers

One side starts with `X = w·U + a·G`, the other answers with `Y = w·V + b·G`, and
both get `Z = a·b·G`. The arithmetic of the curves and the reading of JSON are
parameters; what the exchange relies on is said of them as a law each.
-/

namespace Sukkula.Croc

instance two_neZero : NeZero 2 := ⟨Nat.succ_ne_zero 1⟩

def utf8 (s : Str) : Bytes := s.flatMap String.utf8EncodeChar

@[simp] theorem length_utf8 (s : Str) : (utf8 s).length = s.len := by
  induction s with
  | nil => rfl
  | cons c s ih =>
    simp only [utf8, List.flatMap_cons, List.length_append, String.length_utf8EncodeChar,
      Str.len_cons] at ih ⊢
    rw [ih]

def maxPakeBytes : ℕ := 8 * 1024

inductive Curve
  | siec
  | p256
  deriving DecidableEq, Repr

namespace Curve

def name : Curve → Str
  | siec => "siec".toList
  | p256 => "p256".toList

def fromName (name : Bytes) : Option Curve :=
  if name = utf8 siec.name then some siec
  else if name = utf8 p256.name then some p256
  else none

/-- The coordinates of the fixed points `U` and `V`. -/
def uv : Curve → Fin 2 → ℕ × ℕ
  | siec, 0 => (793136080485469241208656611513609866400481671853,
      18458907634222644275952014841865282643645472623913459400556233196838128612339)
  | siec, 1 => (1086685267857089638167386722555472967068468061489,
      19593504966619549205903364028255899745298716108914514072669075231742699650911)
  | p256, 0 => (793136080485469241208656611513609866400481671852,
      59748757929350367369315811184980635230185250460108398961713395032485227207304)
  | p256, 1 => (1086685267857089638167386722555472967068468061489,
      9157340230202296554417312816309453883742349874205386245733062928888341584123)

theorem uv_lt (c : Curve) (which : Fin 2) :
    (c.uv which).1 < 256 ^ 32 ∧ (c.uv which).2 < 256 ^ 32 := by
  cases c <;> revert which <;> decide

def order : Curve → ℕ
  | siec => 0x4000000000000000000000000200103f800000000000000000040040ff07ffc1
  | p256 => 0xffffffff00000000ffffffffffffffffbce6faada7179e84f3b9cac2fc632551

/-- The bytes, big-endian and of any length, as a scalar modulo the order. -/
def scalar (c : Curve) (bytes : Bytes) : ℕ :=
  bytes.foldl (fun acc b => (acc * 256 + b.toNat) % c.order) 0

end Curve

/-- The arithmetic of the curves. A point belongs to one curve, so none of them is added to a
point of the other. -/
structure Arithmetic where
  Point : Curve → Type
  group : ∀ c, AddCommGroup (Point c)
  generator : ∀ c, Point c
  -- The point with these coordinates, if on the curve.
  fromAffine : ∀ c, Bytes → Bytes → Option (Point c)
  coordinates : ∀ {c}, Point c → Option (Bytes × Bytes)

namespace Arithmetic

variable (A : Arithmetic)

instance (c : Curve) : AddCommGroup (A.Point c) := A.group c

/-- The point with these decimal coordinates, if on the curve. -/
def point (c : Curve) (x y : Str) : Option (A.Point c) := do
  let x ← decimalToBytes x
  let y ← decimalToBytes y
  A.fromAffine c x y

def fixed (c : Curve) (which : Fin 2) : Option (A.Point c) :=
  A.point c (Nat.toDigits 10 (c.uv which).1) (Nat.toDigits 10 (c.uv which).2)

/-- Only the identity has no coordinates, those of any other point are thirty-two bytes each
and give it back, and `U` and `V` are on their curves. -/
structure Lawful : Prop where
  coordinates_eq_none : ∀ {c} (p : A.Point c), A.coordinates p = none ↔ p = 0
  length_coordinates : ∀ {c} {p : A.Point c} {x y}, A.coordinates p = some (x, y) →
    x.length = 32 ∧ y.length = 32
  fromAffine_coordinates : ∀ {c} {p : A.Point c} {x y}, A.coordinates p = some (x, y) →
    A.fromAffine c x y = some p
  fixed_ne_none : ∀ c which, A.fixed c which ≠ none

variable {A}

theorem Lawful.point_coordinates (h : A.Lawful) {c : Curve} {p : A.Point c} {x y : Bytes}
    (hp : A.coordinates p = some (x, y)) :
    A.point c (bytesToDecimal x) (bytesToDecimal y) = some p := by
  obtain ⟨hx, hy⟩ := h.length_coordinates hp
  simp [point, decimalToBytes_bytesToDecimal hx, decimalToBytes_bytesToDecimal hy,
    h.fromAffine_coordinates hp]

theorem Lawful.exists_fixed (h : A.Lawful) (c : Curve) (which : Fin 2) :
    ∃ p, A.fixed c which = some p :=
  Option.ne_none_iff_exists'.mp (h.fixed_ne_none c which)

theorem Lawful.exists_coordinates (h : A.Lawful) {c : Curve} {p : A.Point c} (hp : p ≠ 0) :
    ∃ x y, A.coordinates p = some (x, y) := by
  obtain ⟨xy, hxy⟩ := Option.ne_none_iff_exists'.mp fun hn => hp ((h.coordinates_eq_none p).mp hn)
  exact ⟨xy.1, xy.2, hxy⟩

end Arithmetic

inductive PakeError
  -- The message is not pake's JSON, or is too long.
  | malformed
  -- It came from the same role, or is not the answer expected.
  | wrongRole
  | notOnCurve
  deriving DecidableEq, Repr

structure Pake where
  curve : Curve
  role : ℕ
  pw : Bytes
  secret : ℕ
  -- Role 0's own `X`, or the `X` role 1 received.
  x : Option (Bytes × Bytes)
  -- Role 1's own `Y`, or the `Y` role 0 received.
  y : Option (Bytes × Bytes)
  -- `Z`, once both have spoken.
  z : Option (Bytes × Bytes)
  deriving DecidableEq

structure Wire where
  role : ℕ
  xu : Option Str
  xv : Option Str
  yu : Option Str
  yv : Option Str
  deriving DecidableEq

def null : Str := "null".toList

section Text

def member (f : Str × Str) : Str := [':'].intercalate ['"' :: f.1 ++ ['"'], f.2]

def object (fields : List (Str × Str)) : Str :=
  '\x7b' :: [','].intercalate (fields.map member) ++ ['\x7d']

theorem len_intercalate_le (parts : List Str) :
    Str.len ([','].intercalate parts) ≤ (parts.map fun p => p.len + 1).sum := by
  induction parts with
  | nil => simp
  | cons p parts ih =>
    cases parts with
    | nil => simp
    | cons q parts =>
      rw [List.intercalate_cons_cons]
      simp only [Str.len_append, Str.len_cons, Str.len_nil, List.map_cons, List.sum_cons] at ih ⊢
      have : (',').utf8Size = 1 := rfl
      omega

theorem len_object_le (fields : List (Str × Str)) :
    Str.len (object fields) ≤ 2 + (fields.map fun f => f.1.len + f.2.len + 4).sum := by
  have h := len_intercalate_le (fields.map member)
  have hm : (fun f => (member f).len + 1) = fun f : Str × Str => f.1.len + f.2.len + 4 := by
    funext f
    simp only [member, List.intercalate_cons_cons, List.intercalate_singleton, Str.len_append,
      Str.len_cons, Str.len_nil, List.cons_append]
    have : ('"').utf8Size = 1 := rfl
    have : (':').utf8Size = 1 := rfl
    omega
  rw [List.map_map, show (fun p => Str.len p + 1) ∘ member = fun f => (member f).len + 1 from rfl,
    hm] at h
  simp only [object, Str.len_append, Str.len_cons, Str.len_nil, List.cons_append]
  have : ('\x7b').utf8Size = 1 := rfl
  have : ('\x7d').utf8Size = 1 := rfl
  omega

/-- Nothing in it is written in a special way or taken for a delimiter. -/
def Plain (s : Str) : Prop := ∀ c ∈ s, ' ' ≤ c ∧ c ∉ ['"', '\\', ',', ':']

instance : DecidablePred Plain := fun s =>
  List.decidableBAll (fun c => ' ' ≤ c ∧ c ∉ ['"', '\\', ',', ':']) s

def Value (s : Str) : Prop := s = null ∨ ∃ n, s = Nat.toDigits 10 n

/-- The text of a member, unless it is `null`. -/
def raw (fields : List (Str × Str)) (key : Str) : Option Str :=
  (fields.lookup key).filter (· ≠ null)

/-- Messages are read as JSON: the members by name, whatever the others are. -/
def Reads (parse : Bytes → Option Wire) : Prop :=
  ∀ fields, (fields.map Prod.fst).Nodup → (∀ f ∈ fields, Plain f.1 ∧ Value f.2) →
    ∀ role < 256, fields.lookup "Role".toList = some (Nat.toDigits 10 role) →
      parse (utf8 (object fields)) =
        some ⟨role, raw fields "Xᵤ".toList, raw fields "Xᵥ".toList, raw fields "Yᵤ".toList,
          raw fields "Yᵥ".toList⟩

end Text

namespace Pake

def pair : Option (Bytes × Bytes) → Str × Str
  | some (x, y) => (bytesToDecimal x, bytesToDecimal y)
  | none => (null, null)

def fields (p : Pake) : List (Str × Str) :=
  let u := p.curve.uv 0
  let v := p.curve.uv 1
  let decimal := Nat.toDigits 10
  let x := pair p.x
  -- Role 0's message has no `Y`, even after it has the answer.
  let y := pair (p.y.filter fun _ => p.role = 1)
  [("Role".toList, decimal p.role), ("Uᵤ".toList, decimal u.1), ("Uᵥ".toList, decimal u.2),
    ("Vᵤ".toList, decimal v.1), ("Vᵥ".toList, decimal v.2), ("Xᵤ".toList, x.1), ("Xᵥ".toList, x.2),
    ("Yᵤ".toList, y.1), ("Yᵥ".toList, y.2), ("P".toList, null), ("Pw".toList, null),
    ("Vpwᵤ".toList, null), ("Vpwᵥ".toList, null), ("Upwᵤ".toList, null), ("Upwᵥ".toList, null),
    ("Aα".toList, null), ("Aαᵤ".toList, null), ("Aαᵥ".toList, null), ("Zᵤ".toList, null),
    ("Zᵥ".toList, null), ("K".toList, null)]

def message (p : Pake) : Bytes := utf8 (object p.fields)

section Exchange

variable (A : Arithmetic) (parse : Bytes → Option Wire)

def read (json : Bytes) : Except PakeError Wire := do
  if maxPakeBytes < json.length then throw .malformed
  let wire ← okOr .malformed (parse json)
  if 1 < wire.role then throw .malformed
  return wire

def pointOf (c : Curve) : Option Str → Option Str → Except PakeError (A.Point c)
  | some x, some y => okOr .notOnCurve (A.point c x y)
  | _, _ => .error .malformed

def start (c : Curve) (pw random : Bytes) : Option Pake := do
  let w := c.scalar pw
  let a := c.scalar random
  let u ← A.fixed c 0
  let x ← A.coordinates (w • u + a • A.generator c)
  return { curve := c, role := 0, pw, secret := a, x := some x, y := none, z := none }

/-- Role 1, the side that answers: it has the key at once. -/
def answer (c : Curve) (pw random theirs : Bytes) : Except PakeError Pake := do
  let wire ← read parse theirs
  if wire.role ≠ 0 then throw .wrongRole
  let xPoint ← pointOf A c wire.xu wire.xv
  let w := c.scalar pw
  let b := c.scalar random
  let v ← okOr .notOnCurve (A.fixed c 1)
  let yPoint := w • v + b • A.generator c
  let u ← okOr .notOnCurve (A.fixed c 0)
  let z ← okOr .notOnCurve (A.coordinates (b • (xPoint + -(w • u))))
  let x ← okOr .notOnCurve (A.coordinates xPoint)
  let y ← okOr .notOnCurve (A.coordinates yPoint)
  return { curve := c, role := 1, pw, secret := b, x := some x, y := some y, z := some z }

/-- Role 0 takes role 1's answer and has the key. -/
def finish (p : Pake) (theirs : Bytes) : Except PakeError Pake := do
  if p.role ≠ 0 ∨ p.z.isSome then throw .wrongRole
  let wire ← read parse theirs
  if wire.role ≠ 1 then throw .wrongRole
  let yPoint ← pointOf A p.curve wire.yu wire.yv
  let w := p.curve.scalar p.pw
  let v ← okOr .notOnCurve (A.fixed p.curve 1)
  let z ← okOr .notOnCurve (A.coordinates (p.secret • (yPoint + -(w • v))))
  let y ← okOr .notOnCurve (A.coordinates yPoint)
  return { p with y := some y, z := some z }

end Exchange

section Messages

variable {p : Pake} {parse : Bytes → Option Wire}

def Sized (o : Option (Bytes × Bytes)) : Prop := ∀ xy ∈ o, xy.1.length = 32 ∧ xy.2.length = 32

theorem value_pair (o : Option (Bytes × Bytes)) : Value (pair o).1 ∧ Value (pair o).2 := by
  cases o with
  | none => exact ⟨.inl rfl, .inl rfl⟩
  | some xy => exact ⟨.inr ⟨_, bytesToDecimal_eq xy.1⟩, .inr ⟨_, bytesToDecimal_eq xy.2⟩⟩

theorem bytesToDecimal_ne_null (bytes : Bytes) : bytesToDecimal bytes ≠ null := by
  intro h
  rw [bytesToDecimal_eq] at h
  have hn : 'n' ∈ Nat.toDigits 10 (BigEndian.value bytes) := by
    rw [h]
    decide
  exact absurd (Nat.isDigit_of_mem_toDigits (by decide) (by decide) hn) (by decide)

theorem len_pair_le {o : Option (Bytes × Bytes)} (h : Sized o) :
    (pair o).1.len ≤ maxDigits ∧ (pair o).2.len ≤ maxDigits := by
  cases o with
  | none => exact ⟨by decide, by decide⟩
  | some xy =>
    obtain ⟨hx, hy⟩ := h xy rfl
    exact ⟨len_bytesToDecimal_le hx, len_bytesToDecimal_le hy⟩

theorem raw_pair (o : Option (Bytes × Bytes)) :
    (some (pair o).1).filter (· ≠ null) = o.map (fun xy => bytesToDecimal xy.1) ∧
      (some (pair o).2).filter (· ≠ null) = o.map (fun xy => bytesToDecimal xy.2) := by
  cases o with
  | none => exact ⟨rfl, rfl⟩
  | some xy => simp [pair, Option.filter, bytesToDecimal_ne_null]

theorem keys_fields (p q : Pake) : p.fields.map Prod.fst = q.fields.map Prod.fst := rfl

theorem nodup_fields (p : Pake) : (p.fields.map Prod.fst).Nodup := by
  rw [keys_fields p ⟨.siec, 0, [], 0, none, none, none⟩]
  decide +kernel

theorem plain_key {f : Str × Str} (hf : f ∈ p.fields) : Plain f.1 ∧ f.1.len ≤ 16 := by
  have hmem : f.1 ∈ p.fields.map Prod.fst := List.mem_map_of_mem hf
  rw [keys_fields p ⟨.siec, 0, [], 0, none, none, none⟩] at hmem
  revert hmem
  generalize f.1 = k
  revert k
  decide +kernel

theorem forall_fields {P : Str → Prop} (hrole : p.role ≤ 1)
    (hnum : ∀ n < 256 ^ 32, P (Nat.toDigits 10 n))
    (hx : P (pair p.x).1 ∧ P (pair p.x).2)
    (hy : P (pair (p.y.filter fun _ => p.role = 1)).1 ∧ P (pair (p.y.filter fun _ => p.role = 1)).2)
    (hnull : P null) {f : Str × Str} (hf : f ∈ p.fields) : P f.2 := by
  simp only [fields, List.mem_cons, List.not_mem_nil, or_false] at hf
  rcases hf with rfl | rfl | rfl | rfl | rfl | rfl | rfl | rfl | rfl | rfl | rfl | rfl | rfl |
    rfl | rfl | rfl | rfl | rfl | rfl | rfl | rfl
  · exact hnum _ (by omega)
  · exact hnum _ (p.curve.uv_lt 0).1
  · exact hnum _ (p.curve.uv_lt 0).2
  · exact hnum _ (p.curve.uv_lt 1).1
  · exact hnum _ (p.curve.uv_lt 1).2
  · exact hx.1
  · exact hx.2
  · exact hy.1
  · exact hy.2
  all_goals exact hnull

theorem value_field (hrole : p.role ≤ 1) {f : Str × Str} (hf : f ∈ p.fields) : Value f.2 :=
  forall_fields hrole (fun _ _ => .inr ⟨_, rfl⟩) (value_pair p.x) (value_pair _) (.inl rfl) hf

theorem length_message_le (hrole : p.role ≤ 1) (hx : Sized p.x) (hy : Sized p.y) :
    p.message.length ≤ maxPakeBytes := by
  have hval : ∀ f ∈ p.fields, Str.len f.2 ≤ maxDigits := fun f hf =>
    forall_fields (P := fun v => Str.len v ≤ maxDigits) hrole (fun _ => len_toDigits_le)
      (len_pair_le hx) (len_pair_le fun xy h => hy xy (Option.mem_filter_iff.mp h).1) (by decide) hf
  have hsum : (p.fields.map fun f => f.1.len + f.2.len + 4).sum ≤ p.fields.length * 98 := by
    have hlen : p.fields.length = (p.fields.map fun f => f.1.len + f.2.len + 4).length := by
      rw [List.length_map]
    rw [hlen, ← smul_eq_mul]
    apply List.sum_le_card_nsmul
    simp only [List.mem_map, forall_exists_index, and_imp]
    rintro n f hf rfl
    have hk := (plain_key hf).2
    have hv := hval f hf
    simp only [maxDigits] at hv
    omega
  rw [message, length_utf8]
  apply (len_object_le p.fields).trans
  simp only [maxPakeBytes, fields, List.length_cons, List.length_nil] at hsum ⊢
  omega

theorem read_message (hparse : Reads parse) (hrole : p.role ≤ 1) (hx : Sized p.x) (hy : Sized p.y) :
    read parse p.message = .ok
      ⟨p.role, p.x.map (fun xy => bytesToDecimal xy.1), p.x.map (fun xy => bytesToDecimal xy.2),
        (p.y.filter fun _ => p.role = 1).map (fun xy => bytesToDecimal xy.1),
        (p.y.filter fun _ => p.role = 1).map (fun xy => bytesToDecimal xy.2)⟩ := by
  have hlen : ¬ maxPakeBytes < p.message.length := Nat.not_lt_of_le (length_message_le hrole hx hy)
  have h :=
    hparse p.fields (nodup_fields p) (fun f hf => ⟨(plain_key hf).1, value_field hrole hf⟩) p.role
      (by omega) rfl
  have hxs := raw_pair p.x
  have hys := raw_pair (p.y.filter fun _ => p.role = 1)
  rw [← hxs.1, ← hxs.2, ← hys.1, ← hys.2]
  rw [message] at hlen
  simp only [read, message, h, okOr, if_neg hlen, bind, Except.bind,
    if_neg (Nat.not_lt_of_le hrole)]
  rfl

end Messages

section Honest

variable {A : Arithmetic} {parse : Bytes → Option Wire} {c : Curve} {pw ra rb : Bytes} {p q : Pake}

/-- The sides of an exchange between points `U` and `V`, before and after it. -/
def first (c : Curve) (pw ra : Bytes) (x : Bytes × Bytes) : Pake :=
  { curve := c, role := 0, pw, secret := c.scalar ra, x := some x, y := none, z := none }

def second (c : Curve) (pw rb : Bytes) (x y z : Bytes × Bytes) : Pake :=
  { curve := c, role := 1, pw, secret := c.scalar rb, x := some x, y := some y, z := some z }

variable {u v : A.Point c} {x y z : Bytes × Bytes}

theorem start_eq (hu : A.fixed c 0 = some u) : start A c pw ra =
    (A.coordinates (c.scalar pw • u + c.scalar ra • A.generator c)).map (first c pw ra) := by
  cases h : A.coordinates (c.scalar pw • u + c.scalar ra • A.generator c) <;>
    simp [start, hu, h, first]

theorem sized_of_coordinates (hA : A.Lawful) {t : A.Point c} (h : A.coordinates t = some x) :
    Sized (some x) := by
  rintro _ ⟨⟩
  exact hA.length_coordinates h

/-- An honest start is answered unless `Y` or `Z` is the identity. -/
theorem answer_first (hA : A.Lawful) (hparse : Reads parse) (hu : A.fixed c 0 = some u)
    (hv : A.fixed c 1 = some v)
    (hx : A.coordinates (c.scalar pw • u + c.scalar ra • A.generator c) = some x) :
    answer A parse c pw rb (first c pw ra x).message = okOr .notOnCurve (do
      let z ← A.coordinates (c.scalar rb • c.scalar ra • A.generator c)
      let y ← A.coordinates (c.scalar pw • v + c.scalar rb • A.generator c)
      return second c pw rb x y z) := by
  have hread : read parse (first c pw ra x).message =
      .ok ⟨0, some (bytesToDecimal x.1), some (bytesToDecimal x.2), none, none⟩ :=
    read_message hparse (Nat.zero_le 1) (sized_of_coordinates hA hx) (by rintro _ ⟨⟩)
  have hpoint := hA.point_coordinates hx
  simp only [answer, hread, pointOf, hpoint, okOr, hv, hu, bind, Except.bind, Option.bind, ne_eq,
    not_true_eq_false, if_false, add_neg_cancel_comm, hx]
  cases A.coordinates (c.scalar rb • c.scalar ra • A.generator c) with
  | none => rfl
  | some z =>
    cases A.coordinates (c.scalar pw • v + c.scalar rb • A.generator c) with
    | none => rfl
    | some y => rfl

theorem length_le_of_read {json : Bytes} {wire : Wire} (h : read parse json = .ok wire) :
    json.length ≤ maxPakeBytes := by
  by_contra hlen
  simp only [read, if_pos (Nat.lt_of_not_le hlen)] at h
  cases h

theorem length_le_of_answer {theirs : Bytes} (h : answer A parse c pw rb theirs = .ok q) :
    theirs.length ≤ maxPakeBytes := by
  cases hread : read parse theirs with
  | error e => simp [answer, hread, bind, Except.bind] at h
  | ok wire => exact length_le_of_read hread

theorem length_le_of_finish {theirs : Bytes} (h : finish A parse p theirs = .ok q) :
    theirs.length ≤ maxPakeBytes := by
  cases hread : read parse theirs with
  | error e =>
    by_cases hp : p.role ≠ 0 ∨ p.z.isSome
    · simp only [finish, if_pos hp] at h
      cases h
    · simp only [finish, if_neg hp, hread] at h
      cases h
  | ok wire => exact length_le_of_read hread

theorem finish_eq {p : Pake} {theirs : Bytes} {xu xv : Option Str} {yu yv : Str}
    {v t : A.Point p.curve} {y z : Bytes × Bytes} (hrole : p.role = 0) (hnone : p.z = none)
    (hread : read parse theirs = .ok ⟨1, xu, xv, some yu, some yv⟩)
    (hpoint : A.point p.curve yu yv = some t) (hv : A.fixed p.curve 1 = some v)
    (hz : A.coordinates (p.secret • (t + -(p.curve.scalar p.pw • v))) = some z)
    (hy : A.coordinates t = some y) :
    finish A parse p theirs = .ok { p with y := some y, z := some z } := by
  simp only [finish, hrole, hnone, hread, pointOf, hpoint, okOr, hv, hz, hy, bind, Except.bind]
  rfl

theorem finish_second (hA : A.Lawful) (hparse : Reads parse) (hv : A.fixed c 1 = some v)
    (hx : A.coordinates (c.scalar pw • u + c.scalar ra • A.generator c) = some x)
    (hy : A.coordinates (c.scalar pw • v + c.scalar rb • A.generator c) = some y)
    (hz : A.coordinates (c.scalar rb • c.scalar ra • A.generator c) = some z) :
    finish A parse (first c pw ra x) (second c pw rb x y z).message =
      .ok { first c pw ra x with y := some y, z := some z } := by
  have hread : read parse (second c pw rb x y z).message =
      .ok ⟨1, some (bytesToDecimal x.1), some (bytesToDecimal x.2), some (bytesToDecimal y.1),
        some (bytesToDecimal y.2)⟩ :=
    read_message hparse (le_refl 1) (sized_of_coordinates hA hx) (sized_of_coordinates hA hy)
  have hpoint := hA.point_coordinates hy
  apply finish_eq (p := first c pw ra x) rfl rfl hread hpoint hv _ hy
  change A.coordinates (c.scalar ra • (c.scalar pw • v + c.scalar rb • A.generator c +
    -(c.scalar pw • v))) = some z
  rwa [add_neg_cancel_comm, nsmul_left_comm]

end Honest

end Pake

end Sukkula.Croc
