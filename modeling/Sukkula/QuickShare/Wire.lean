import Sukkula.Library.Protobuf
import Sukkula.QuickShare.Outbound

/-! # The bytes of a frame

What `send_encrypted_frame` and `encrypt_and_send` put on the wire: a sharing
frame in two chunks of a payload, each chunk in an offline frame, and each offline
frame numbered, encrypted and signed. The ciphers are parameters; only the lengths
of what they give are known.
-/

namespace Sukkula.QuickShare

open Protobuf
open Croc (utf8)

def MetaType.number : MetaType → ℤ
  | .unknown => 0
  | .image => 1
  | .video => 2
  | .app => 3
  | .audio => 4

def MetaType.ofNumber (n : ℤ) : MetaType :=
  if n = 1 then .image
  else if n = 2 then .video
  else if n = 3 then .app
  else if n = 4 then .audio
  else .unknown

def TextType.number : TextType → ℤ
  | .unknown => 0
  | .text => 1
  | .url => 2
  | .address => 3
  | .phoneNumber => 4

def TextType.ofNumber (n : ℤ) : TextType :=
  if n = 1 then .text
  else if n = 2 then .url
  else if n = 3 then .address
  else if n = 4 then .phoneNumber
  else .unknown

def str (s : Str) : Value := .bytes (utf8 s)

def readStr (v : Value) : Option Str :=
  v.blob.bind fun b => b.toByteArray.utf8Decode?.map Array.toList

def submessage (fs : List (ℕ × Value)) : Value := .bytes (encodeFields fs)

def readMessage {α : Type} (read : List (ℕ × Value) → Option α) (v : Value) : Option α :=
  v.blob.bind fun b => (decodeFields b).bind read

def FileMetadata.fields (m : FileMetadata) : List (ℕ × Value) :=
  [(1, str m.name), (2, int m.type.number), (3, int m.payloadId), (4, int m.size),
    (5, str m.mimeType), (6, int m.id)]

def FileMetadata.read (fs : List (ℕ × Value)) : Option FileMetadata := do
  let name ← single 1 readStr fs
  let type ← single 2 Value.int fs
  let payloadId ← single 3 Value.int fs
  let size ← single 4 Value.int fs
  let mimeType ← single 5 readStr fs
  let id ← single 6 Value.int fs
  return {
    payloadId := payloadId.getD 0
    name := name.getD []
    size := size.getD 0
    mimeType := mimeType.getD "application/octet-stream".toList
    type := .ofNumber (type.getD 0)
    id := id.getD 0 }

def TextMetadata.fields (m : TextMetadata) : List (ℕ × Value) :=
  [(2, str m.textTitle), (3, int m.type.number), (4, int m.payloadId), (5, int m.size),
    (6, int m.id)]

def TextMetadata.read (fs : List (ℕ × Value)) : Option TextMetadata := do
  let textTitle ← single 2 readStr fs
  let type ← single 3 Value.int fs
  let payloadId ← single 4 Value.int fs
  let size ← single 5 Value.int fs
  let id ← single 6 Value.int fs
  return {
    textTitle := textTitle.getD []
    type := .ofNumber (type.getD 0)
    payloadId := payloadId.getD 0
    size := size.getD 0
    id := id.getD 0 }

/-- `IntroductionFrame`; of the Wi-Fi credentials, how many there are. -/
structure IntroductionFrame where
  fileMetadata : List FileMetadata := []
  textMetadata : List TextMetadata := []
  wifiCredentials : ℕ := 0
  deriving DecidableEq

def IntroductionFrame.fields (f : IntroductionFrame) : List (ℕ × Value) :=
  (f.fileMetadata.map fun m => (1, submessage m.fields)) ++
    f.textMetadata.map fun m => (2, submessage m.fields)

def IntroductionFrame.read (fs : List (ℕ × Value)) : Option IntroductionFrame := do
  let fileMetadata ← repeated 1 (readMessage FileMetadata.read) fs
  let textMetadata ← repeated 2 (readMessage TextMetadata.read) fs
  let wifi ← repeated 4 Value.blob fs
  return { fileMetadata, textMetadata, wifiCredentials := wifi.length }

/-- A frame of the sharing layer with a part of its own. -/
def sharingFrame (type : ℤ) (tag : ℕ) (part : Value) : Bytes :=
  encodeFields [(1, int 1), (2, submessage [(1, int type), (tag, part)])]

def introductionFrame (f : IntroductionFrame) : Bytes := sharingFrame 1 2 (submessage f.fields)

/-- `Response(ACCEPT)`, which follows the introduction. -/
def acceptFrame : Bytes := sharingFrame 2 3 (submessage [(1, int 1)])

/-- What a receiver looks for in a sharing frame. -/
structure SharingIn where
  type : ℤ
  introduction : Option IntroductionFrame
  deriving DecidableEq

/-- `sharing_nearby::Frame::decode`, and then its first version, if it is there. -/
def decodeSharing (b : Bytes) : Option (Option SharingIn) := do
  let v1 ← (decodeFields b).bind (embedded 2)
  match v1 with
  | none => return none
  | some v1 =>
    let fs ← decodeFields v1
    let type ← single 1 Value.int fs
    let introduction ← embedded 2 fs
    match introduction with
    | none => return some ⟨type.getD 0, none⟩
    | some introduction =>
      let f ← (decodeFields introduction).bind IntroductionFrame.read
      return some ⟨type.getD 0, some f⟩

section RoundTrip

variable {m : FileMetadata} {t : TextMetadata} {f : IntroductionFrame}

@[simp] theorem readStr_str (s : Str) : readStr (str s) = some s := by
  have h : (utf8 s).toByteArray.utf8Decode? = some s.toArray := List.utf8Decode?_utf8Encode
  simp [readStr, str, Value.blob, h]

@[simp] theorem readMessage_submessage {α : Type} (read : List (ℕ × Value) → Option α)
    (fs : List (ℕ × Value)) : readMessage read (submessage fs) = read fs := by
  simp [readMessage, submessage, Value.blob]

theorem MetaType.ofNumber_number (t : MetaType) : ofNumber t.number = t := by
  cases t <;> rfl

theorem TextType.ofNumber_number (t : TextType) : ofNumber t.number = t := by
  cases t <;> rfl

/-- The numbers of a file are such as `i64` has, and none of them is negative. -/
def FileMetadata.InRange (m : FileMetadata) : Prop :=
  (0 ≤ m.payloadId ∧ m.payloadId < 2 ^ 63) ∧ (0 ≤ m.size ∧ m.size < 2 ^ 63) ∧
    0 ≤ m.id ∧ m.id < 2 ^ 63

def TextMetadata.InRange (m : TextMetadata) : Prop :=
  (0 ≤ m.payloadId ∧ m.payloadId < 2 ^ 63) ∧ (0 ≤ m.size ∧ m.size < 2 ^ 63) ∧
    0 ≤ m.id ∧ m.id < 2 ^ 63

theorem FileMetadata.read_fields (h : m.InRange) : read m.fields = some m := by
  obtain ⟨hp, hs, hi⟩ := h
  have ht : 0 ≤ m.type.number ∧ m.type.number < 2 ^ 63 := by cases m.type <;> decide
  simp [read, fields, single, repeated, int_int hp, int_int hs, int_int hi, int_int ht,
    MetaType.ofNumber_number]

theorem TextMetadata.read_fields (h : t.InRange) : read t.fields = some t := by
  obtain ⟨hp, hs, hi⟩ := h
  have ht : 0 ≤ t.type.number ∧ t.type.number < 2 ^ 63 := by cases t.type <;> decide
  simp [read, fields, single, repeated, int_int hp, int_int hs, int_int hi, int_int ht,
    TextType.ofNumber_number]

theorem IntroductionFrame.read_fields (hfiles : ∀ m ∈ f.fileMetadata, m.InRange)
    (htexts : ∀ m ∈ f.textMetadata, m.InRange) (hwifi : f.wifiCredentials = 0) :
    read f.fields = some f := by
  have h₁ : repeated 1 (readMessage FileMetadata.read) f.fields = some f.fileMetadata := by
    rw [fields, repeated_append, repeated_map fun m hm => ?_, repeated_map_ne (by decide)]
    · simp
    · rw [readMessage_submessage, FileMetadata.read_fields (hfiles m hm)]
  have h₂ : repeated 2 (readMessage TextMetadata.read) f.fields = some f.textMetadata := by
    rw [fields, repeated_append, repeated_map_ne (by decide), repeated_map fun m hm => ?_]
    · simp
    · rw [readMessage_submessage, TextMetadata.read_fields (htexts m hm)]
  have h₄ : repeated 4 Value.blob f.fields = some [] := by
    rw [fields, repeated_append, repeated_map_ne (by decide), repeated_map_ne (by decide)]
    rfl
  obtain ⟨files, texts, wifi⟩ := f
  obtain rfl : wifi = 0 := hwifi
  simp [read, h₁, h₂, h₄]

theorem decodeSharing_introduction (hfiles : ∀ m ∈ f.fileMetadata, m.InRange)
    (htexts : ∀ m ∈ f.textMetadata, m.InRange) (hwifi : f.wifiCredentials = 0) :
    decodeSharing (introductionFrame f) = some (some ⟨1, some f⟩) := by
  have hone : (int 1).int = some 1 := int_int (by decide)
  simp [decodeSharing, introductionFrame, sharingFrame, submessage, embedded, single, repeated,
    Value.blob, hone, IntroductionFrame.read_fields hfiles htexts hwifi]

theorem decodeSharing_accept : decodeSharing acceptFrame = some (some ⟨2, none⟩) := by
  have htwo : (int 2).int = some 2 := int_int (by decide)
  simp [decodeSharing, acceptFrame, sharingFrame, submessage, embedded, single, repeated,
    Value.blob, htwo]

end RoundTrip

section Length

variable {m : FileMetadata} {x : TextMetadata} {f : IntroductionFrame}

theorem length_str {t k : ℕ} {s : Str} (ht : t < 15) (h : s.len < 128 ^ (k + 1)) :
    (encodeField (t, str s)).length ≤ s.len + k + 2 := by
  simpa [str] using length_bytes (b := utf8 s) ht (by simpa using h)

theorem length_submessage {t k n : ℕ} {fs : List (ℕ × Value)} (ht : t < 15)
    (h : (encodeFields fs).length ≤ n) (hn : n < 128 ^ (k + 1)) :
    (encodeField (t, submessage fs)).length ≤ n + k + 2 := by
  have hlen := length_bytes (b := encodeFields fs) ht (h.trans_lt hn)
  unfold submessage
  omega

/-- A file with a short name takes less than half a kilobyte of the introduction. -/
theorem FileMetadata.length_fields (hname : m.name.len ≤ 200) (hmime : m.mimeType.len ≤ 127) :
    (encodeFields m.fields).length ≤ 380 := by
  have h₁ := length_str (t := 1) (k := 1) (s := m.name) (by decide) (by omega)
  have h₅ := length_str (t := 5) (k := 0) (s := m.mimeType) (by decide) (by omega)
  have h₂ := length_int (t := 2) (by decide) m.type.number
  have h₃ := length_int (t := 3) (by decide) m.payloadId
  have h₄ := length_int (t := 4) (by decide) m.size
  have h₆ := length_int (t := 6) (by decide) m.id
  simp only [fields, length_encodeFields_cons, encodeFields_nil, List.length_nil]
  omega

theorem TextMetadata.length_fields (htitle : x.textTitle.len ≤ 256) :
    (encodeFields x.fields).length ≤ 380 := by
  have h₂ := length_str (t := 2) (k := 1) (s := x.textTitle) (by decide) (by omega)
  have h₃ := length_int (t := 3) (by decide) x.type.number
  have h₄ := length_int (t := 4) (by decide) x.payloadId
  have h₅ := length_int (t := 5) (by decide) x.size
  have h₆ := length_int (t := 6) (by decide) x.id
  simp only [fields, length_encodeFields_cons, encodeFields_nil, List.length_nil]
  omega

theorem length_introductionFrame (hmany : f.fileMetadata.length + f.textMetadata.length ≤ 500)
    (hfiles : ∀ m ∈ f.fileMetadata, m.name.len ≤ 200 ∧ m.mimeType.len ≤ 127)
    (htexts : ∀ m ∈ f.textMetadata, m.textTitle.len ≤ 256) :
    (introductionFrame f).length ≤ 200000 := by
  have h₁ := length_repeated (t := 1) (n := 383) (v := fun m => encodeFields m.fields)
    (l := f.fileMetadata) fun m hm => length_submessage (k := 1) (by decide)
      (m.length_fields (hfiles m hm).1 (hfiles m hm).2) (by decide)
  have h₂ := length_repeated (t := 2) (n := 383) (v := fun m => encodeFields m.fields)
    (l := f.textMetadata) fun m hm => length_submessage (k := 1) (by decide)
      (m.length_fields (htexts m hm)) (by decide)
  have hfields : (encodeFields f.fields).length ≤ 192000 := by
    rw [IntroductionFrame.fields, encodeFields, List.flatMap_append, List.length_append]
    refine (Nat.add_le_add h₁ h₂).trans ?_
    rw [← Nat.mul_add]
    exact (Nat.mul_le_mul_left 383 hmany).trans (by decide)
  have hpart := length_submessage (t := 2) (k := 2) (by decide) hfields (by decide)
  have htype := length_int (t := 1) (by decide) 1
  have hv1 : (encodeFields [(1, int 1), (2, submessage f.fields)]).length ≤ 193000 := by
    simp only [length_encodeFields_cons, encodeFields_nil, List.length_nil]
    omega
  have hframe := length_submessage (t := 2) (k := 2) (by decide) hv1 (by decide)
  simp only [introductionFrame, sharingFrame, length_encodeFields_cons, encodeFields_nil,
    List.length_nil]
  omega

end Length

section Sealed

def payloadHeader (type id total : ℤ) : List (ℕ × Value) :=
  [(1, int id), (2, int type), (3, int total), (4, int 0)]

def payloadChunk (offset flags index : ℤ) (body : Bytes) : List (ℕ × Value) :=
  [(1, int flags), (2, int offset), (3, .bytes body), (4, int index)]

/-- An `OfflineFrame` with a payload transfer. -/
def offlineFrame (header chunk : List (ℕ × Value)) : Bytes :=
  encodeFields [(1, int 1), (2, submessage [(1, int 3),
    (4, submessage [(1, int 1), (2, submessage header), (3, submessage chunk)])])]

/-- The offline frame of a piece. The chunks of a sharing frame look like those of a text. -/
def Frame.offline : Frame → Option Bytes
  | .file id name total offset flags index body =>
    some (offlineFrame
      (payloadHeader 2 id total ++ (name.toList.map fun n => (5, str n)) ++ [(6, str [])])
      (payloadChunk offset flags index body))
  | .text id total offset flags index body =>
    some (offlineFrame (payloadHeader 1 id total) (payloadChunk offset flags index body))
  | _ => none

/-- What is known of AES-256-CBC with its padding, and of HMAC-SHA256. -/
structure Sealing where
  encrypt : (iv message : Bytes) → Bytes
  sign : Bytes → Bytes
  length_encrypt : ∀ iv b, (encrypt iv b).length = 16 * (b.length / 16 + 1)
  length_sign : ∀ b, (sign b).length = 32

structure Passage where
  iv : Bytes
  seq : ℤ
  length_iv : iv.length = 16

/-- `encrypt_and_send` -/
def Sealing.secureMessage (c : Sealing) (p : Passage) (offline : Bytes) : Bytes :=
  let body := c.encrypt p.iv (encodeFields [(1, .bytes offline), (2, int p.seq)])
  let header :=
    [(1, int 1), (2, int 2), (5, .bytes p.iv), (6, submessage [(1, int 13), (2, int 1)])]
  let hb := encodeFields [(1, submessage header), (2, .bytes body)]
  encodeFields [(1, .bytes hb), (2, .bytes (c.sign hb))]

variable {c : Sealing} {p : Passage}

theorem length_offlineFrame {header chunk : List (ℕ × Value)} {n : ℕ}
    (hheader : (encodeFields header).length ≤ 400) (hchunk : (encodeFields chunk).length ≤ n)
    (hn : n ≤ 2 ^ 20) : (offlineFrame header chunk).length ≤ n + 500 := by
  have h₁ := length_int (t := 1) (by decide) 1
  have h₃ := length_int (t := 1) (by decide) 3
  have ha := length_submessage (t := 2) (k := 1) (by decide) hheader (by decide)
  have hb := length_submessage (t := 3) (k := 2) (by decide) hchunk (by omega)
  have htransfer :
      (encodeFields [(1, int 1), (2, submessage header), (3, submessage chunk)]).length ≤
        n + 420 := by
    simp only [length_encodeFields_cons, encodeFields_nil, List.length_nil]
    omega
  have hc := length_submessage (t := 4) (k := 2) (by decide) htransfer (by omega)
  have hv1 : (encodeFields [(1, int 3),
      (4, submessage [(1, int 1), (2, submessage header), (3, submessage chunk)])]).length ≤
      n + 440 := by
    simp only [length_encodeFields_cons, encodeFields_nil, List.length_nil]
    omega
  have hd := length_submessage (t := 2) (k := 2) (by decide) hv1 (by omega)
  simp only [offlineFrame, length_encodeFields_cons, encodeFields_nil, List.length_nil]
  omega

theorem length_payloadChunk (offset flags index : ℤ) {body : Bytes} (h : body.length ≤ 2 ^ 19) :
    (encodeFields (payloadChunk offset flags index body)).length ≤ body.length + 40 := by
  have h₁ := length_int (t := 1) (by decide) flags
  have h₂ := length_int (t := 2) (by decide) offset
  have h₃ := length_bytes (t := 3) (k := 2) (b := body) (by decide) (by omega)
  have h₄ := length_int (t := 4) (by decide) index
  simp only [payloadChunk, length_encodeFields_cons, encodeFields_nil, List.length_nil]
  omega

theorem Sealing.length_secureMessage {offline : Bytes} {n : ℕ} (h : offline.length ≤ n)
    (hn : n ≤ 2 ^ 20 + 500) : (c.secureMessage p offline).length ≤ n + 200 := by
  have hoff := length_bytes (t := 1) (k := 2) (b := offline) (by decide) (by omega)
  have hseq := length_int (t := 2) (by decide) p.seq
  have hd2d : (encodeFields [(1, .bytes offline), (2, int p.seq)]).length ≤ n + 20 := by
    simp only [length_encodeFields_cons, encodeFields_nil, List.length_nil]
    omega
  have hbody := c.length_encrypt p.iv (encodeFields [(1, .bytes offline), (2, int p.seq)])
  have hb := length_bytes (t := 2) (k := 2)
    (b := c.encrypt p.iv (encodeFields [(1, .bytes offline), (2, int p.seq)])) (by decide)
    (by omega)
  have h₁ := length_int (t := 1) (by decide) 1
  have h₂ := length_int (t := 2) (by decide) 2
  have hiv := length_bytes (t := 5) (k := 0) (b := p.iv) (by decide) (by simp [p.length_iv])
  have hgcm : (encodeFields [(1, int 13), (2, int 1)]).length ≤ 22 := by
    have h₁ := length_int (t := 1) (by decide) 13
    have h₂ := length_int (t := 2) (by decide) 1
    simp only [length_encodeFields_cons, encodeFields_nil, List.length_nil]
    omega
  have hmeta := length_submessage (t := 6) (k := 0) (by decide) hgcm (by decide)
  have hiv' := p.length_iv
  have hheader : (encodeFields [(1, int 1), (2, int 2), (5, .bytes p.iv),
      (6, submessage [(1, int 13), (2, int 1)])]).length ≤ 70 := by
    simp only [length_encodeFields_cons, encodeFields_nil, List.length_nil]
    omega
  have hh := length_submessage (t := 1) (k := 0) (by decide) hheader (by decide)
  have hhb : (encodeFields [(1, submessage [(1, int 1), (2, int 2), (5, .bytes p.iv),
      (6, submessage [(1, int 13), (2, int 1)])]), (2, .bytes (c.encrypt p.iv
        (encodeFields [(1, .bytes offline), (2, int p.seq)])))]).length ≤ n + 150 := by
    simp only [length_encodeFields_cons, encodeFields_nil, List.length_nil]
    omega
  have hsign :=
    c.length_sign (encodeFields [(1, submessage [(1, int 1), (2, int 2), (5, .bytes p.iv),
      (6, submessage [(1, int 13), (2, int 1)])]), (2, .bytes (c.encrypt p.iv
        (encodeFields [(1, .bytes offline), (2, int p.seq)])))])
  have hs := length_bytes (t := 1) (k := 2) (by decide) (hhb.trans_lt (by omega))
  have hg := length_bytes (t := 2) (k := 0) (b := c.sign _) (by decide) (hsign.trans_lt (by decide))
  simp only [Sealing.secureMessage, length_encodeFields_cons, encodeFields_nil, List.length_nil]
    at hs hg hsign ⊢
  omega

end Sealed

end Sukkula.QuickShare
