import Mathlib.Data.ZMod.Defs
import Sukkula.Croc.Pake
import Sukkula.Croc.Serve

/-! # The keys of an exchange

croc 10's key is a hash of the password and the points. croc 11's binds who is
who, is derived from a transcript of the exchange, and comes with a proof for
each side. Two sides that took each other's messages have the same of each.
-/

namespace Sukkula.Croc

structure Hashes where
  sha256 : Bytes → Bytes
  hmac : Bytes → Bytes → Bytes
  -- HKDF with this salt, of this key, for this purpose, in so many bytes.
  hkdf : Bytes → Bytes → Bytes → ℕ → Bytes

def version : ℤ := 2

def saltBytes : ℕ := 32

def boundKeyDomain : Bytes :=
  utf8 "github.com/schollz/pake/v3/identity-bound-session-key/v1".toList

def identityDomain : Bytes := utf8 "croc/spake2/participant/v2".toList

def transcriptDomain : Bytes := utf8 "croc/spake2/channel/v2".toList

def versionField : Bytes := toLeBytes 2

/-- A field as its length, eight bytes little-endian, then itself. -/
def field (v : Bytes) : Bytes := toLeBytes (min v.length (2 ^ 64 - 1)) ++ v

def frame (fields : List Bytes) : Bytes := fields.flatMap field

inductive Purpose
  | transfer
  deriving DecidableEq, Repr

def Purpose.name : Purpose → Bytes
  | transfer => utf8 "peer-transfer".toList

inductive Side
  | receiver
  | sender
  deriving DecidableEq, Repr

/-- The receiver's and the sender's identities for an exchange in a room. -/
def identities (purpose : Purpose) (room : Str) : Bytes × Bytes :=
  let id (side : Str) := frame [identityDomain, versionField, purpose.name, utf8 room, utf8 side]
  (id "receiver".toList, id "sender".toList)

namespace Pake

variable (H : Hashes)

/-- `X`, `Y` and `Z`, once both sides have spoken. -/
def points (p : Pake) : Option (List (Bytes × Bytes)) := do
  return [← p.x, ← p.y, ← p.z]

def key (p : Pake) : Option Bytes := do
  let points ← p.points
  return H.sha256 (p.pw ++ points.flatMap fun xy => shortest xy.1 ++ shortest xy.2)

/-- The key of croc 11, bound to the two identities. -/
def boundKey (p : Pake) (ids : Bytes × Bytes) : Option Bytes := do
  let points ← p.points
  return H.sha256 (frame [boundKeyDomain, p.pw, ids.1, ids.2, utf8 p.curve.name] ++
    points.flatMap fun xy => frame [shortest xy.1, shortest xy.2])

end Pake

structure Context where
  purpose : Purpose
  room : Str
  curve : Str
  initiator : Bytes
  responder : Bytes
  salt : Bytes

/-- The traffic key and what proves each side has it. -/
structure Keys where
  encryption : Bytes
  confirmReceiver : Bytes
  confirmSender : Bytes
  transcript : Bytes
  deriving DecidableEq

section Derive

variable (H : Hashes)

/-- The keys from the session key `shared`. -/
def derive (shared : Bytes) (c : Context) : Keys :=
  let ids := identities c.purpose c.room
  let transcript := frame [transcriptDomain, versionField, c.purpose.name, utf8 c.room,
    utf8 c.curve, ids.1, ids.2, c.initiator, c.responder, c.salt]
  let okm := H.hkdf c.salt shared transcript 96
  let part (start : ℕ) : Bytes :=
    let s := (okm.drop start).take 32
    if s.length = 32 then s else List.replicate 32 0
  { encryption := part 0, confirmReceiver := part 32, confirmSender := part 64, transcript }

/-- The keys of a transfer's exchange, once `pake` has both messages. -/
def forTransfer (pake : Pake) (room : Str) (initiator responder salt : Bytes) : Option Keys := do
  let shared ← pake.boundKey H (identities .transfer room)
  return derive H shared
    { purpose := .transfer, room, curve := pake.curve.name, initiator, responder, salt }

namespace Keys

def tag (k : Keys) : Side → Bytes
  | .receiver => H.hmac k.confirmReceiver k.transcript
  | .sender => H.hmac k.confirmSender k.transcript

/-- Whether `tag` is that side's proof. -/
def verify (k : Keys) (side : Side) (tag : Bytes) : Bool := k.tag H side = tag

end Keys

end Derive

section Agreement

variable {A : Arithmetic} {parse : Bytes → Option Wire} {c : Curve} {pw ra rb : Bytes}
  {p q p' : Pake} {e : PakeError}

/-- The points that the two sides make, and the one that they share. -/
def Arithmetic.pointX (A : Arithmetic) (c : Curve) (pw ra : Bytes) : Option (A.Point c) :=
  (A.fixed c 0).map fun u => c.scalar pw • u + c.scalar ra • A.generator c

def Arithmetic.pointY (A : Arithmetic) (c : Curve) (pw rb : Bytes) : Option (A.Point c) :=
  (A.fixed c 1).map fun v => c.scalar pw • v + c.scalar rb • A.generator c

def Arithmetic.pointZ (A : Arithmetic) (c : Curve) (ra rb : Bytes) : A.Point c :=
  c.scalar ra • c.scalar rb • A.generator c

open Pake

theorem start_eq_some (hA : A.Lawful) (hstart : start A c pw ra = some p) :
    ∃ u x, A.fixed c 0 = some u ∧
      A.coordinates (c.scalar pw • u + c.scalar ra • A.generator c) = some x ∧
      p = first c pw ra x := by
  obtain ⟨u, hu⟩ := hA.exists_fixed c 0
  rw [start_eq hu, Option.map_eq_some_iff] at hstart
  obtain ⟨x, hx, rfl⟩ := hstart
  exact ⟨u, x, hu, hx, rfl⟩

/-- An honest start is answered, and the answer taken, with the same points on both sides. -/
theorem answer_and_finish (hA : A.Lawful) (hparse : Reads parse)
    (hstart : start A c pw ra = some p) (hy : A.pointY c pw rb ≠ some 0)
    (hz : A.pointZ c ra rb ≠ 0) :
    ∃ x y z, p = first c pw ra x ∧ answer A parse c pw rb p.message = .ok (second c pw rb x y z) ∧
      p.finish A parse (second c pw rb x y z).message =
        .ok { first c pw ra x with y := some y, z := some z } := by
  obtain ⟨u, x, hu, hx, rfl⟩ := start_eq_some hA hstart
  obtain ⟨v, hv⟩ := hA.exists_fixed c 1
  rw [Arithmetic.pointY, hv, Option.map_some] at hy
  rw [Arithmetic.pointZ, nsmul_left_comm] at hz
  obtain ⟨zx, zy, hz⟩ := hA.exists_coordinates hz
  obtain ⟨yx, yy, hy⟩ := hA.exists_coordinates fun h => hy (congrArg some h)
  refine ⟨x, (yx, yy), (zx, zy), rfl, ?_, finish_second hA hparse hv hx hy hz⟩
  rw [answer_first hA hparse hu hv hx, hz, hy]
  rfl

theorem points_of_answer (hA : A.Lawful) (hparse : Reads parse)
    (hstart : start A c pw ra = some p) (hanswer : answer A parse c pw rb p.message = .ok q) :
    A.pointY c pw rb ≠ some 0 ∧ A.pointZ c ra rb ≠ 0 := by
  obtain ⟨u, x, hu, hx, rfl⟩ := start_eq_some hA hstart
  obtain ⟨v, hv⟩ := hA.exists_fixed c 1
  rw [answer_first hA hparse hu hv hx] at hanswer
  rw [Arithmetic.pointY, hv, Option.map_some, Arithmetic.pointZ, nsmul_left_comm]
  constructor
  · intro h
    rw [(hA.coordinates_eq_none _).mpr (Option.some.inj h)] at hanswer
    cases hz : A.coordinates (c.scalar rb • c.scalar ra • A.generator c) <;>
      simp [hz, okOr] at hanswer
  · intro h
    rw [(hA.coordinates_eq_none _).mpr h] at hanswer
    simp [okOr] at hanswer

/-- Two sides that took each other's messages have one key of each kind, and each takes the
other's proof. -/
theorem keys_agree (H : Hashes) (hA : A.Lawful) (hparse : Reads parse)
    (hstart : start A c pw ra = some p) (hanswer : answer A parse c pw rb p.message = .ok q)
    (hfinish : p.finish A parse q.message = .ok p') :
    (∃ k, p'.key H = some k ∧ q.key H = some k) ∧
    (∀ ids, p'.boundKey H ids = q.boundKey H ids) ∧
    ∀ room salt, ∃ kp kq, forTransfer H p' room p.message q.message salt = some kp ∧
      forTransfer H q room p.message q.message salt = some kq ∧ kp = kq := by
  obtain ⟨hy, hz⟩ := points_of_answer hA hparse hstart hanswer
  obtain ⟨x, y, z, rfl, hanswer', hfinish'⟩ := answer_and_finish hA hparse hstart hy hz
  obtain rfl := Except.ok.inj (hanswer.symm.trans hanswer')
  obtain rfl := Except.ok.inj (hfinish.symm.trans hfinish')
  exact ⟨⟨_, rfl, rfl⟩, fun ids => rfl, fun room salt => ⟨_, _, rfl, rfl, rfl⟩⟩

theorem Keys.verify_tag (H : Hashes) (k : Keys) (side : Side) : k.verify H side (k.tag H side) :=
  decide_eq_true rfl

/-- Two sides that took each other's messages have the same keys, and each takes the other's
proof; and they take them unless a point is the identity. -/
theorem exchange_agrees (H : Hashes) (hA : A.Lawful) (hparse : Reads parse) (c : Curve)
    (pw ra rb : Bytes) :
    (∀ p q p', start A c pw ra = some p → answer A parse c pw rb p.message = .ok q →
      p.finish A parse q.message = .ok p' →
      (∃ k, p'.key H = some k ∧ q.key H = some k) ∧
      (∀ ids, p'.boundKey H ids = q.boundKey H ids) ∧
      ∀ room salt, ∃ kp kq, forTransfer H p' room p.message q.message salt = some kp ∧
        forTransfer H q room p.message q.message salt = some kq ∧
        kp.encryption = kq.encryption ∧ (∀ side, kp.tag H side = kq.tag H side) ∧
        kp.verify H .sender (kq.tag H .sender) ∧ kq.verify H .receiver (kp.tag H .receiver)) ∧
    (∀ p e, start A c pw ra = some p → answer A parse c pw rb p.message = .error e →
      A.pointX c pw ra = some 0 ∨ A.pointY c pw rb = some 0 ∨ A.pointZ c ra rb = 0) ∧
    (∀ p q e, start A c pw ra = some p → answer A parse c pw rb p.message = .ok q →
      p.finish A parse q.message = .error e →
      A.pointX c pw ra = some 0 ∨ A.pointY c pw rb = some 0 ∨ A.pointZ c ra rb = 0) := by
  refine ⟨?_, ?_, ?_⟩
  · intro p q p' hstart hanswer hfinish
    obtain ⟨hkey, hbound, htransfer⟩ := keys_agree H hA hparse hstart hanswer hfinish
    refine ⟨hkey, hbound, fun room salt => ?_⟩
    obtain ⟨k, _, hp, hq, rfl⟩ := htransfer room salt
    exact ⟨k, k, hp, hq, rfl, fun _ => rfl, k.verify_tag H .sender, k.verify_tag H .receiver⟩
  · intro p e hstart hanswer
    by_contra h
    simp only [not_or] at h
    obtain ⟨x, y, z, -, hanswer', -⟩ := answer_and_finish hA hparse hstart h.2.1 h.2.2
    rw [hanswer'] at hanswer
    cases hanswer
  · intro p q e hstart hanswer hfinish
    obtain ⟨hy, hz⟩ := points_of_answer hA hparse hstart hanswer
    obtain ⟨x, y, z, -, hanswer', hfinish'⟩ := answer_and_finish hA hparse hstart hy hz
    obtain rfl := Except.ok.inj (hanswer.symm.trans hanswer')
    rw [hfinish'] at hfinish
    cases hfinish

/-- A reader of objects whose members have no delimiters in them. -/
def readMember (s : Str) : Option (Str × Str) :=
  match s.splitOn ':' with
  | [k, v] => some (k.tail.dropLast, v)
  | _ => none

def readObject (s : Str) : Option (List (Str × Str)) :=
  (s.tail.dropLast.splitOn ',').mapM readMember

def flatReader (json : Bytes) : Option Wire := do
  let text ← json.toByteArray.utf8Decode?
  let fields ← readObject text.toList
  let role ← fields.lookup "Role".toList
  return ⟨Nat.ofDigitChars 10 role 0, raw fields "Xᵤ".toList, raw fields "Xᵥ".toList,
    raw fields "Yᵤ".toList, raw fields "Yᵥ".toList⟩

theorem Value.not_mem {s : Str} (h : Value s) : ',' ∉ s ∧ ':' ∉ s := by
  rcases h with rfl | ⟨n, rfl⟩
  · decide
  · constructor <;> intro hm <;>
      exact absurd (Nat.isDigit_of_mem_toDigits (by decide) (by decide) hm) (by decide)

theorem readMember_member {f : Str × Str} (hk : Plain f.1) (hv : Value f.2) :
    readMember (member f) = some f := by
  have hcolon : (member f).splitOn ':' = ['"' :: f.1 ++ ['"'], f.2] := by
    apply List.splitOn_intercalate
    · have : ':' ∉ f.1 := fun hm => (hk _ hm).2 (by simp)
      simp [this, hv.not_mem.2]
    · simp
  rw [readMember, hcolon]
  simp

theorem readObject_object {fields : List (Str × Str)} (hne : fields ≠ [])
    (h : ∀ f ∈ fields, Plain f.1 ∧ Value f.2) : readObject (object fields) = some fields := by
  have hcomma : ∀ m ∈ fields.map member, ',' ∉ m := by
    simp only [List.mem_map, forall_exists_index, and_imp]
    rintro m f hf rfl
    obtain ⟨hk, hv⟩ := h f hf
    have : ',' ∉ f.1 := fun hm => (hk _ hm).2 (by simp)
    simp [member, List.intercalate, this, hv.not_mem.1]
  rw [readObject, object, List.cons_append, List.tail_cons, List.dropLast_concat,
    List.splitOn_intercalate _ hcomma (by simpa using hne)]
  clear hne hcomma
  induction fields with
  | nil => rfl
  | cons f fields ih =>
    obtain ⟨hk, hv⟩ := h f (by simp)
    simp [readMember_member hk hv, ih fun g hg => h g (by simp [hg])]

theorem reads_flatReader : Reads flatReader := by
  intro fields _ hplain role _ hrole
  have hne : fields ≠ [] := by
    rintro rfl
    cases hrole
  have hdecode : (utf8 (object fields)).toByteArray.utf8Decode? = some (object fields).toArray :=
    List.utf8Decode?_utf8Encode
  simp only [flatReader, hdecode, readObject_object hne hplain, hrole, Option.bind_eq_bind,
    Option.bind_some, Nat.ofDigitChars_toDigits (b := 10) (by decide) (by decide)]
  rfl

/-- The coordinates of an element of a group of seven. -/
def coordinates7 (p : Fin 7) : Option (Bytes × Bytes) :=
  if p = 0 then none else some (List.replicate 31 0 ++ [UInt8.ofNat p.val], List.replicate 32 0)

theorem coordinates7_eq_some {p : Fin 7} {x y : Bytes} (h : coordinates7 p = some (x, y)) :
    x = List.replicate 31 0 ++ [UInt8.ofNat p.val] ∧ y = List.replicate 32 0 := by
  by_cases hp : p = 0
  · simp [coordinates7, hp] at h
  · simp only [coordinates7, hp, if_false, Option.some.injEq, Prod.mk.injEq] at h
    exact ⟨h.1.symm, h.2.symm⟩

def seven : Arithmetic where
  Point _ := Fin 7
  group _ := inferInstanceAs (AddCommGroup (ZMod 7))
  generator _ := (1 : Fin 7)
  fromAffine _ x _ := some (Fin.ofNat 7 (BigEndian.value x))
  coordinates := coordinates7

theorem lawful_seven : seven.Lawful where
  coordinates_eq_none {c} := by
    have h : ∀ p : Fin 7, coordinates7 p = none ↔ p = 0 := by decide
    exact h
  length_coordinates {c p x y} h := by
    obtain ⟨rfl, rfl⟩ := coordinates7_eq_some h
    exact ⟨rfl, rfl⟩
  fromAffine_coordinates {c p x y} h := by
    obtain ⟨rfl, rfl⟩ := coordinates7_eq_some h
    have hback : ∀ t : Fin 7, Fin.ofNat 7
        (BigEndian.value (List.replicate 31 0 ++ [UInt8.ofNat t.val])) = t := by decide
    exact congrArg some (hback p)
  fixed_ne_none c which := by
    obtain ⟨x, hx, -⟩ := decimalToBytes_toDigits (c.uv_lt which).1
    obtain ⟨y, hy, -⟩ := decimalToBytes_toDigits (c.uv_lt which).2
    simp [Arithmetic.fixed, Arithmetic.point, hx, hy, seven]

def randomBytes (b : UInt8) : Bytes := List.replicate 31 0 ++ [b]

instance (c : Curve) : DecidableEq (seven.Point c) := inferInstanceAs (DecidableEq (Fin 7))

theorem points_seven : seven.pointX .p256 [1] (randomBytes 1) ≠ some 0 ∧
    seven.pointY .p256 [1] (randomBytes 3) ≠ some 0 ∧
    seven.pointZ .p256 (randomBytes 1) (randomBytes 3) ≠ 0 := by
  decide +kernel

theorem exists_start_seven : ∃ p, start seven .p256 [1] (randomBytes 1) = some p := by
  obtain ⟨u, hu⟩ := lawful_seven.exists_fixed .p256 0
  have hx := points_seven.1
  rw [Arithmetic.pointX, hu, Option.map_some] at hx
  obtain ⟨x, y, hxy⟩ := lawful_seven.exists_coordinates fun h => hx (congrArg some h)
  exact ⟨_, by rw [start_eq hu, hxy, Option.map_some]⟩

theorem exchange_agrees_seven : ∃ p q p', start seven .p256 [1] (randomBytes 1) = some p ∧
    answer seven flatReader .p256 [1] (randomBytes 3) p.message = .ok q ∧
    p.finish seven flatReader q.message = .ok p' ∧
    ∀ H : Hashes, ∃ k, p'.key H = some k ∧ q.key H = some k := by
  have h H :=
    exchange_agrees H lawful_seven reads_flatReader .p256 [1] (randomBytes 1) (randomBytes 3)
  have hpoints := points_seven
  obtain ⟨p, hp⟩ := exists_start_seven
  have hp' := (h ⟨id, fun k _ => k, fun _ k _ _ => k⟩).2
  cases hq : answer seven flatReader .p256 [1] (randomBytes 3) p.message with
  | error e =>
    rcases hp'.1 p e hp hq with hx | hy | hz
    · exact absurd hx hpoints.1
    · exact absurd hy hpoints.2.1
    · exact absurd hz hpoints.2.2
  | ok q =>
    cases hf : p.finish seven flatReader q.message with
    | error e =>
      rcases hp'.2 p q e hp hq hf with hx | hy | hz
      · exact absurd hx hpoints.1
      · exact absurd hy hpoints.2.1
      · exact absurd hz hpoints.2.2
    | ok p' => exact ⟨p, q, p', hp, hq, hf, fun H => ((h H).1 p q p' hp hq hf).1⟩

end Agreement

end Sukkula.Croc
