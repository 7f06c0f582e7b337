import Sukkula.Croc.Message
import Sukkula.Croc.Pake
import Sukkula.Library.Json
import Sukkula.Library.Stored
import Sukkula.LocalSend.Session

/-! # Control messages on the wire

A control message is JSON, in stored blocks of DEFLATE, sealed once the peers have
their key. JSON, base64, the inflater and the cipher are parameters. What is
encoded decodes to the same message if it is short enough to be read at all.
-/

namespace Sukkula.Croc

open Json
open LocalSend (ErrorInfo)

section Deflate

def storedBlock : ℕ := 65535

/-- The pieces of `data`, each of `n` bytes but the last. -/
def chunks (n : ℕ) (data : Bytes) : List Bytes := go data.length data
where
  go : ℕ → Bytes → List Bytes
    | fuel + 1, b :: data => (b :: data).take n :: go fuel ((b :: data).drop n)
    | _, _ => []

def toLeBytes16 (v : UInt16) : Bytes := [v.toUInt8, (v >>> 8).toUInt8]

def block (last : Bool) (chunk : Bytes) : Bytes :=
  let len : UInt16 := if chunk.length < 2 ^ 16 then .ofNat chunk.length else .ofNat (2 ^ 16 - 1)
  last.toUInt8 :: (toLeBytes16 len ++ toLeBytes16 (~~~len) ++ chunk)

def blocks : List Bytes → Bytes
  | [] => []
  | chunk :: rest => block rest.isEmpty chunk ++ blocks rest

/-- `data` as raw DEFLATE in stored blocks. -/
def deflate (data : Bytes) : Bytes :=
  match chunks storedBlock data with
  -- one final, empty block
  | [] => [1, 0, 0, 0xff, 0xff]
  | pieces => blocks pieces

theorem toNat_toLeBytes16 (v : UInt16) :
    v.toUInt8.toNat + 256 * (v >>> 8).toUInt8.toNat = v.toNat := by
  have := v.toNat_lt
  simp only [UInt16.toNat_toUInt8, UInt16.toNat_shiftRight, UInt16.reduceToNat, Nat.reduceMod,
    Nat.shiftRight_eq_div_pow]
  omega

theorem toUInt8_not (v : UInt16) : (~~~v).toUInt8 = ~~~v.toUInt8 := by
  apply UInt8.toBitVec_inj.mp
  simp

theorem toUInt8_shiftRight_not (v : UInt16) : ((~~~v) >>> 8).toUInt8 = ~~~(v >>> 8).toUInt8 := by
  apply UInt8.toBitVec_inj.mp
  apply BitVec.eq_of_getElem_eq
  intro i hi
  simp only [UInt16.toBitVec_toUInt8, UInt16.toBitVec_shiftRight, UInt16.toBitVec_not,
    UInt8.toBitVec_not]
  simp
  omega

theorem stored_block (last : Bool) {chunk : Bytes} (h : chunk.length ≤ storedBlock) :
    Stored.Block last chunk (block last chunk) := by
  have hlt : chunk.length < 2 ^ 16 := Nat.lt_of_le_of_lt h (by decide)
  have hlen : (UInt16.ofNat chunk.length).toNat = chunk.length := UInt16.toNat_ofNat_of_lt hlt
  simp only [block, if_pos hlt, toLeBytes16, List.cons_append, List.nil_append]
  refine .mk _ _ _ _ _ (by cases last <;> rfl) (by cases last <;> rfl) ?_ ⟨?_, ?_⟩
  · rw [toNat_toLeBytes16, hlen]
  · exact toUInt8_not _
  · exact toUInt8_shiftRight_not _

theorem go_ne_nil {fuel : ℕ} {data : Bytes} (h : data ≠ []) (hf : data.length ≤ fuel) :
    chunks.go storedBlock fuel data ≠ [] := by
  cases data with
  | nil => exact absurd rfl h
  | cons b data =>
    cases fuel with
    | zero => simp at hf
    | succ fuel => simp [chunks.go]

/-- The blocks of what is not empty, by induction over the pieces. -/
theorem stream_blocks (fuel : ℕ) (data : Bytes) (h : data ≠ []) (hf : data.length ≤ fuel) :
    Stored.Stream (blocks (chunks.go storedBlock fuel data)) data := by
  induction fuel generalizing data with
  | zero => exact absurd (List.eq_nil_of_length_eq_zero (Nat.le_zero.mp hf)) h
  | succ fuel ih =>
    cases data with
    | nil => exact absurd rfl h
    | cons b data =>
      have hfits : ((b :: data).take storedBlock).length ≤ storedBlock := List.length_take_le _ _
      have hshorter : ((b :: data).drop storedBlock).length ≤ fuel := by
        rw [List.length_drop, List.length_cons]
        rw [List.length_cons] at hf
        unfold storedBlock
        omega
      rw [chunks.go, blocks]
      by_cases hrest : (b :: data).drop storedBlock = []
      · -- nothing follows: this block is the last
        have hall : (b :: data).take storedBlock = b :: data :=
          List.take_of_length_le (List.drop_eq_nil_iff.mp hrest)
        have hnil : chunks.go storedBlock fuel [] = [] := by cases fuel <;> rfl
        rw [hrest, hall, hnil, blocks, List.append_nil]
        rw [hall] at hfits
        exact .last (stored_block true hfits)
      · have hmore := go_ne_nil hrest hshorter
        have hlast : (chunks.go storedBlock fuel ((b :: data).drop storedBlock)).isEmpty =
            false := by
          simpa using hmore
        have hstream := Stored.Stream.more (stored_block false hfits) (ih _ hrest hshorter)
        rwa [List.take_append_drop, ← hlast] at hstream

/-- What is deflated is a stream of stored blocks with this content. -/
theorem stream_deflate (data : Bytes) : Stored.Stream (deflate data) data := by
  unfold deflate
  split
  · rename_i hnil
    by_cases h : data = []
    · subst h
      exact .last (.mk 1 0 0 0xff 0xff rfl rfl rfl ⟨rfl, rfl⟩)
    · exact absurd hnil (go_ne_nil h (Nat.le_refl _))
  · rename_i hne
    by_cases h : data = []
    · subst h
      exact absurd rfl hne
    · exact stream_blocks _ _ h (Nat.le_refl _)

end Deflate

section Cipher

def nonceBytes : ℕ := 12

def tagBytes : ℕ := 16

abbrev Nonce := { nonce : Bytes // nonce.length = nonceBytes }

/-- A connection's cipher: AES-256-GCM under its key. -/
structure Cipher where
  encrypt : Nonce → Bytes → Option Bytes
  decrypt : Nonce → Bytes → Option Bytes

namespace Cipher

variable (c : Cipher)

/-- Seals `plaintext` under a nonce. -/
def «seal» (plaintext : Bytes) (random : Nonce) : Option Bytes := do
  let sealed ← c.encrypt random plaintext
  guard (nonceBytes + sealed.length < 2 ^ 64)
  return random.1 ++ sealed

/-- Opens a sealed message, if it authenticates. -/
def «open» (sealed : Bytes) : Option Bytes :=
  if h : nonceBytes + tagBytes ≤ sealed.length then
    c.decrypt ⟨sealed.take nonceBytes,
      List.length_take_of_le (Nat.le_trans (Nat.le_add_right _ _) h)⟩
      (sealed.drop nonceBytes)
  else none

/-- What AES-GCM does: the tag comes after as many bytes as there are to seal, up to the bound of
the mode, and what was sealed opens. -/
structure Lawful : Prop where
  opens : ∀ {nonce plaintext sealed}, c.encrypt nonce plaintext = some sealed →
    c.decrypt nonce sealed = some plaintext
  length : ∀ {nonce plaintext sealed}, c.encrypt nonce plaintext = some sealed →
    sealed.length = plaintext.length + tagBytes
  seals : ∀ nonce plaintext, plaintext.length ≤ 2 ^ 36 →
    ∃ sealed, c.encrypt nonce plaintext = some sealed

variable {c} {plaintext sealed : Bytes} {nonce : Nonce}

theorem length_seal (hc : c.Lawful) (h : c.seal plaintext nonce = some sealed) :
    sealed.length = plaintext.length + (nonceBytes + tagBytes) := by
  obtain ⟨body, hbody, h⟩ := Option.bind_eq_some_iff.mp h
  obtain ⟨-, -, h⟩ := Option.bind_eq_some_iff.mp h
  obtain rfl := Option.some.inj h
  rw [List.length_append, nonce.2, hc.length hbody]
  omega

theorem open_seal (hc : c.Lawful) (h : c.seal plaintext nonce = some sealed) :
    c.open sealed = some plaintext := by
  have hlen := length_seal hc h
  obtain ⟨body, hbody, h⟩ := Option.bind_eq_some_iff.mp h
  obtain ⟨-, -, h⟩ := Option.bind_eq_some_iff.mp h
  obtain rfl := Option.some.inj h
  rw [«open», dif_pos (by omega)]
  simp only [List.take_left' nonce.2, List.drop_left' nonce.2]
  exact hc.opens hbody

theorem exists_seal (hc : c.Lawful) (h : plaintext.length ≤ 2 ^ 36) (nonce : Nonce) :
    ∃ sealed, c.seal plaintext nonce = some sealed := by
  obtain ⟨body, hbody⟩ := hc.seals nonce plaintext h
  have hfits : nonceBytes + body.length < 2 ^ 64 := by
    rw [hc.length hbody]
    unfold nonceBytes tagBytes
    omega
  refine ⟨nonce.1 ++ body, ?_⟩
  simp only [«seal», hbody, Option.bind_eq_bind, Option.bind_some, guard, if_pos hfits]
  rfl

end Cipher

end Cipher

section Messages

def maxControlBytes : ℕ := 1024 * 1024

namespace Kind

def wire : Kind → Str
  | pake => "pake".toList
  | pakeConfirm => "pake-confirm".toList
  | externalIp => "externalip".toList
  | fileInfo => "fileinfo".toList
  | recipientReady => "recipientready".toList
  | closeSender => "close-sender".toList
  | closeRecipient => "close-recipient".toList
  | finished => "finished".toList
  | error => "error".toList
  | other => []

def fromWire (t : Str) : Kind :=
  ([pake, pakeConfirm, externalIp, fileInfo, recipientReady, closeSender, closeRecipient, finished,
    error].find? fun k => k.wire = t).getD other

theorem fromWire_wire {k : Kind} (h : k ≠ other) : fromWire k.wire = k := by
  cases k <;> first | exact absurd rfl h | decide

end Kind

structure Message where
  kind : Kind
  -- croc 11's version of the exchange; 0, and left out, elsewhere.
  v : Int64 := 0
  m : Str := []
  b : Bytes := []
  b2 : Bytes := []
  deriving DecidableEq

structure MessageWire where
  t : Str
  v : Int64
  m : Str
  b : Option Str
  b2 : Option Str
  deriving DecidableEq

namespace MessageWire

def entries (w : MessageWire) : List (Str × Option Json) :=
  [("t".toList, some (.string w.t)),
    ("v".toList, if w.v = 0 then none else some (.integer w.v.toInt)),
    ("m".toList, if w.m = [] then none else some (.string w.m)),
    ("b".toList, w.b.map .string),
    ("b2".toList, w.b2.map .string)]

def toJson (w : MessageWire) : Json := .object (given w.entries)

def read (v : Json) : Option MessageWire :=
  (openFields ["t".toList, "v".toList, "m".toList, "b".toList, "b2".toList] v).bind fun get => do
    let t ← (get "t".toList).bind readString
    let v ← Json.field get "v".toList readI64 0
    let m ← Json.field get "m".toList readString []
    let b ← Json.field get "b".toList (readOption readString) none
    let b2 ← Json.field get "b2".toList (readOption readString) none
    return ⟨t, .ofInt v, m, b, b2⟩

theorem readI64_toInt (v : Int64) : readI64 (.integer v.toInt) = some v.toInt :=
  if_pos ⟨v.le_toInt, v.toInt_lt⟩

theorem read_toJson (w : MessageWire) : read w.toJson = some w := by
  have hkeys : (w.entries.map Prod.fst).Nodup := by
    have : (["t".toList, "v".toList, "m".toList, "b".toList, "b2".toList] : List Str).Nodup := by
      decide
    exact this
  have hfields := openFields_given hkeys
  obtain ⟨t, v, m, b, b2⟩ := w
  rw [read, toJson]
  rw [show (["t".toList, "v".toList, "m".toList, "b".toList, "b2".toList] : List Str) =
    (entries ⟨t, v, m, b, b2⟩).map Prod.fst from rfl, hfields, Option.bind_some]
  generalize hget : (fun n => ((entries ⟨t, v, m, b, b2⟩).lookup n).join) = get
  have hv : Json.field get "v".toList readI64 0 = some v.toInt := by
    have hvalue : get "v".toList = if v = 0 then none else some (.integer v.toInt) := by
      rw [← hget]; rfl
    split_ifs at hvalue with h
    · rw [Json.field_of_none hvalue, h]
      rfl
    · rw [Json.field_of_some hvalue, readI64_toInt]
  have hm : Json.field get "m".toList readString [] = some m := by
    have hvalue : get "m".toList = if m = [] then none else some (.string m) := by rw [← hget]; rfl
    split_ifs at hvalue with h
    · rw [Json.field_of_none hvalue, h]
    · rw [Json.field_of_some hvalue]
      rfl
  have hopt : ∀ (name : Str) (o : Option Str), get name = o.map .string →
      Json.field get name (readOption readString) none = some o := by
    intro name o ho
    cases o with
    | none => rw [Json.field_of_none ho]
    | some s =>
      rw [Json.field_of_some ho]
      rfl
  have hb : Json.field get "b".toList (readOption readString) none = some b :=
    hopt _ b (by rw [← hget]; rfl)
  have hb2 : Json.field get "b2".toList (readOption readString) none = some b2 :=
    hopt _ b2 (by rw [← hget]; rfl)
  have ht : (get "t".toList).bind readString = some t := by
    rw [← hget]
    rfl
  rw [ht, hv, hm, hb, hb2]
  have hint : Int64.ofInt v.toInt = v := Int64.ofInt_toInt v
  simp only [Option.bind_eq_bind, Option.bind_some, hint]
  rfl

end MessageWire

/-- The texts of JSON and base64, and the inflater with its limit. -/
structure Codec where
  print : Json → Option Bytes
  parse : Bytes → Option Json
  base64 : Bytes → Str
  unbase64 : Str → Option Bytes
  inflate : Bytes → ℕ → Option Bytes

namespace Message

variable (k : Codec)

def b64 (v : Bytes) : Option Str := if v = [] then none else some (k.base64 v)

def unb64 : Option Str → Option Bytes
  | none => some []
  | some s => k.unbase64 s

def wire (m : Message) : MessageWire := ⟨m.kind.wire, m.v, m.m, b64 k m.b, b64 k m.b2⟩

/-- As it goes on the wire: JSON, deflated, sealed if there is a key. -/
def encode (m : Message) (cipher : Option Cipher) (random : Except ErrorInfo Nonce) :
    Except ErrorInfo Bytes := do
  let json ← (k.print (m.wire k).toJson).elim (.error ⟨.internal, "a croc message"⟩) .ok
  let packed := deflate json
  match cipher with
  | none => return packed
  | some c => (c.seal packed (← random)).elim (.error ⟨.internal, "sealing failed"⟩) .ok

/-- A message off the wire, if it opens, inflates within the bound and parses. -/
def decode (frame : Bytes) (cipher : Option Cipher) : Option Message :=
  if maxControlBytes < frame.length then none
  else do
    let packed ← match cipher with
      | some c => c.open frame
      | none => some frame
    let json ← k.inflate packed maxControlBytes
    let wire ← (k.parse json).bind MessageWire.read
    return ⟨.fromWire wire.t, wire.v, wire.m, ← unb64 k wire.b, ← unb64 k wire.b2⟩

end Message

namespace Codec

variable (k : Codec)

/-- The inflater reads stored blocks, up to its limit. -/
def Inflates : Prop := ∀ s content limit, Stored.Stream s content → content.length ≤ limit →
  k.inflate s limit = some content

/-- What the texts of this message stand for is read back. -/
structure RoundTrips (m : Message) : Prop where
  json : ∃ text, k.print (m.wire k).toJson = some text ∧ k.parse text = some (m.wire k).toJson
  b : k.unbase64 (k.base64 m.b) = some m.b
  b2 : k.unbase64 (k.base64 m.b2) = some m.b2

end Codec

variable {k : Codec} {m : Message} {cipher : Option Cipher} {random : Except ErrorInfo Nonce}
  {frame json : Bytes}

theorem unb64_b64 {v : Bytes} (h : k.unbase64 (k.base64 v) = some v) :
    Message.unb64 k (Message.b64 k v) = some v := by
  unfold Message.b64
  split_ifs with hv
  · rw [hv]
    rfl
  · exact h

def overhead : Option Cipher → ℕ
  | none => 0
  | some _ => nonceBytes + tagBytes

/-- What is encoded opens to the deflated text, and is longer by what sealing adds. -/
theorem encode_spec (hc : ∀ c ∈ cipher, c.Lawful) (hjson : k.print (m.wire k).toJson = some json)
    (h : m.encode k cipher random = .ok frame) :
    frame.length = (deflate json).length + overhead cipher ∧
      (match cipher with | some c => c.open frame | none => some frame) = some (deflate json) := by
  simp only [Message.encode, hjson] at h
  cases cipher with
  | none =>
    obtain rfl : deflate json = frame := Except.ok.inj h
    exact ⟨rfl, rfl⟩
  | some c =>
    cases random with
    | error e => cases h
    | ok nonce =>
      have hseal : c.seal (deflate json) nonce = some frame := by
        change (c.seal (deflate json) nonce).elim _ Except.ok = _ at h
        cases hs : c.seal (deflate json) nonce with
        | none => rw [hs] at h; cases h
        | some s => rw [hs] at h; rw [Except.ok.inj h]
      exact ⟨Cipher.length_seal (hc c rfl) hseal, Cipher.open_seal (hc c rfl) hseal⟩

theorem exists_encode (hc : ∀ c ∈ cipher, c.Lawful) (hjson : k.print (m.wire k).toJson = some json)
    (hlen : (deflate json).length ≤ 2 ^ 36) (nonce : Nonce) :
    ∃ frame, m.encode k cipher (.ok nonce) = .ok frame := by
  simp only [Message.encode, hjson]
  cases cipher with
  | none => exact ⟨deflate json, rfl⟩
  | some c =>
    obtain ⟨sealed, hs⟩ := Cipher.exists_seal (hc c rfl) hlen nonce
    refine ⟨sealed, ?_⟩
    change (c.seal (deflate json) nonce).elim _ Except.ok = _
    rw [hs]
    rfl

theorem decode_encode (hk : k.Inflates) (hm : m.kind ≠ .other) (hr : k.RoundTrips m)
    (hc : ∀ c ∈ cipher, c.Lawful) (h : m.encode k cipher random = .ok frame)
    (hlen : frame.length ≤ maxControlBytes) : Message.decode k frame cipher = some m := by
  obtain ⟨json, hprint, hparse⟩ := hr.json
  obtain ⟨hframe, hopen⟩ := encode_spec hc hprint h
  have hstream := stream_deflate json
  -- a stream is longer than its content, so the bound on the frame is one on the text
  have hshort : json.length ≤ maxControlBytes := by
    have := hstream.length_lt
    omega
  have hinflate := hk _ _ maxControlBytes hstream hshort
  rw [Message.decode, if_neg (by omega)]
  cases cipher <;>
  · dsimp only at hopen ⊢
    simp only [hopen, hinflate, hparse, Option.bind_eq_bind, Option.bind_some,
      MessageWire.read_toJson, Message.wire, unb64_b64 hr.b, unb64_b64 hr.b2, Kind.fromWire_wire hm,
      Option.pure_def]

/-- What is deflated is a stream of stored blocks with the content that was given, and a message
that is encoded in at most `maxControlBytes` decodes to itself. -/
theorem deflate_decode (k : Codec) (hk : k.Inflates) :
    (∀ data, Stored.Stream (deflate data) data) ∧
    ∀ (m : Message) (cipher : Option Cipher), m.kind ≠ .other → k.RoundTrips m →
      (∀ c ∈ cipher, c.Lawful) →
      (∀ random frame, m.encode k cipher random = .ok frame → frame.length ≤ maxControlBytes →
        Message.decode k frame cipher = some m) ∧
      ∀ nonce json, k.print (m.wire k).toJson = some json →
        (deflate json).length + overhead cipher ≤ maxControlBytes →
        ∃ frame, m.encode k cipher (.ok nonce) = .ok frame ∧ frame.length ≤ maxControlBytes := by
  refine ⟨stream_deflate, fun m cipher hm hr hc => ⟨fun random frame h hlen => ?_, ?_⟩⟩
  · exact decode_encode hk hm hr hc h hlen
  · intro nonce json hprint hlen
    have hbound : (deflate json).length ≤ 2 ^ 36 := by
      unfold maxControlBytes at hlen
      omega
    obtain ⟨frame, hframe⟩ := exists_encode hc hprint hbound nonce
    refine ⟨frame, hframe, ?_⟩
    rw [(encode_spec hc hprint hframe).1]
    exact hlen

def inflateStored (s : Bytes) (limit : ℕ) : Option Bytes :=
  (Stored.decode s.length s).filter fun content => content.length ≤ limit

theorem inflateStored_eq {s content : Bytes} {limit : ℕ} (h : Stored.Stream s content)
    (hlen : content.length ≤ limit) : inflateStored s limit = some content := by
  rw [inflateStored, Stored.decode_of_stream h _ (Nat.le_refl _), Option.filter_some,
    if_pos (decide_eq_true hlen)]

/-- The first message of croc 11, with three bytes for a point. -/
def greeting : Message := { kind := .pake, v := 2, b := [1, 2, 3] }

def greetingWire : MessageWire := ⟨"pake".toList, 2, [], some "AQID".toList, none⟩

def greetingText : Bytes := utf8 "\x7b\"t\":\"pake\",\"v\":2,\"b\":\"AQID\"\x7d".toList

/-- JSON and base64 as far as this message needs them. -/
def greetingCodec : Codec where
  print v := if MessageWire.read v = some greetingWire then some greetingText else none
  parse text := if text = greetingText then some greetingWire.toJson else none
  base64 v := if v = [1, 2, 3] then "AQID".toList else []
  unbase64 s := if s = "AQID".toList then some [1, 2, 3] else if s = [] then some [] else none
  inflate := inflateStored

theorem wire_greeting : greeting.wire greetingCodec = greetingWire := by decide

theorem print_greeting : greetingCodec.print greetingWire.toJson = some greetingText := by
  simp only [greetingCodec, MessageWire.read_toJson, if_true]

theorem roundTrips_greeting : greetingCodec.RoundTrips greeting := by
  refine ⟨⟨greetingText, ?_, ?_⟩, by decide, by decide⟩
  · rw [wire_greeting, print_greeting]
  · rw [wire_greeting]
    simp only [greetingCodec, if_true]

theorem deflate_decode_greeting :
    greeting.encode greetingCodec none (.error ⟨.internal, ""⟩) = .ok (deflate greetingText) ∧
    Message.decode greetingCodec (deflate greetingText) none = some greeting := by
  have hencode : greeting.encode greetingCodec none (.error ⟨.internal, ""⟩) =
      .ok (deflate greetingText) := by
    rw [Message.encode, wire_greeting, print_greeting]
    rfl
  refine ⟨hencode, ?_⟩
  exact ((deflate_decode greetingCodec fun s content limit h hlen => inflateStored_eq h hlen).2
    greeting none
    (by decide) roundTrips_greeting (by simp)).1 _ _ hencode (by decide)

end Messages

end Sukkula.Croc
