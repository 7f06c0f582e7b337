import Sukkula.Hub.Prepare
import Sukkula.QuickShare.Announced
import Sukkula.QuickShare.Wire
import Sukkula.Text.Lines

/-! # What the receiving side takes

The receiving side of the same library reads frames up to a length that depends on
how far it is, puts the introduction together and checks it before it asks, and
checks each piece of a file or a text before it hands it on: the payload must be
one that was introduced, the piece must start where the last one ended, and the
end must be where it was announced. A send that ended well passes all of it.
-/

namespace Sukkula.QuickShare

open Assoc Transition Outbound
open Croc (utf8)
open Text (display)
open Config (maxAliasChars)
open LocalSend (ioChunkBytes)

inductive InboundState
  | receivedPairedKeyResult
  | waitingForUserConsent
  | rejected
  | cancelled
  | receivingFiles
  | finished
  deriving DecidableEq, Repr

structure IncomingFile where
  payloadId : ℤ
  name : Str
  size : ℤ
  mimeType : Str
  deriving DecidableEq, Repr

structure IncomingText where
  payloadId : ℤ
  kind : TextPayloadType
  title : Str
  size : ℤ
  deriving DecidableEq, Repr

def FileMetadata.incoming (m : FileMetadata) : IncomingFile :=
  ⟨m.payloadId, m.name, m.size, m.mimeType⟩

inductive InboundEvent
  | introduction (files : List IncomingFile) (text : Option IncomingText)
  | fileChunk (chunk : FileChunk)
  | text (payloadId : ℤ) (text : Str)
  | cancelled
  deriving DecidableEq

structure Inbound where
  state : InboundState := .receivedPairedKeyResult
  transferredFiles : Table ℤ InternalFileInfo := .empty
  textPayload : Option ℤ := none
  payloadBuffers : Table ℤ BytePayload := .empty

def maxIntroductionFiles : ℕ := 1000

def maxTextPayloadLength : ℤ := 64 * 1024

def maxSetupFrameLength : ℕ := 260 * 1024

namespace Inbound

variable (i : Inbound)

def textKind : TextType → Option TextPayloadType
  | .url => some .url
  | .phoneNumber | .address | .text => some .text
  | .unknown => none

/-- An introduction of files with sizes and with ids of their own, or of one text that is not too
long, and of no Wi-Fi credentials. -/
def processIntroduction (f : IntroductionFrame) : Except Inbound (Inbound × InboundEvent) :=
  let rejected : Inbound := { i with state := .rejected }
  let i := { i with state := .waitingForUserConsent }
  let files := f.fileMetadata
  if f.wifiCredentials ≠ 0 then .error rejected
  else if files ≠ [] ∧ f.textMetadata = [] then
    if files.length ≤ maxIntroductionFiles ∧ (∀ m ∈ files, 0 ≤ m.size) ∧
        (files.map (·.payloadId)).Nodup then
      .ok ({ i with transferredFiles :=
          files.foldl (fun t m => t.set m.payloadId ⟨0, m.size, 0⟩) i.transferredFiles },
        .introduction (files.map FileMetadata.incoming) none)
    else .error rejected
  else match files, f.textMetadata with
    | [], [t] =>
      if ¬ (0 ≤ t.size ∧ t.size ≤ maxTextPayloadLength) then .error rejected
      else match textKind t.type with
        | none => .error rejected
        | some kind =>
          .ok ({ i with textPayload := some t.payloadId },
            .introduction [] (some ⟨t.payloadId, kind, t.textTitle, t.size⟩))
    | _, _ => .error rejected

/-- `process_transfer_setup`, once the paired keys are exchanged. Six is the type of a cancel. -/
def processTransferSetup : Option SharingIn → Option (Inbound × Option InboundEvent)
  | none => none
  | some frame =>
    if frame.type = 6 then some ({ i with state := .cancelled }, some .cancelled)
    else match i.state, frame.introduction with
      | .receivedPairedKeyResult, some f =>
        match i.processIntroduction f with
        | .ok (i, e) => some (i, some e)
        | .error _ => none
      | _, _ => some (i, none)

def acceptTransfer : Option Inbound :=
  if i.state = .waitingForUserConsent then some { i with state := .receivingFiles } else none

def takeFile (payloadId offset flags : ℤ) (body : Bytes) : Option (Inbound × InboundEvent) :=
  if i.state ≠ .receivingFiles then none
  else match i.transferredFiles.lookup payloadId with
    | none => none
    | some info =>
      let after := info.bytesTransferred + body.length
      let last : Bool := flags % 2 = 1
      if offset ≠ info.bytesTransferred then none
      else if 2 ^ 63 ≤ after then none
      else if info.totalSize < after then none
      else if last ∧ after ≠ info.totalSize then none
      else
        let files := i.transferredFiles.set payloadId { info with bytesTransferred := after }
        let event := InboundEvent.fileChunk ⟨payloadId, body, last⟩
        if last then
          let files := files.remove payloadId
          let state := if files.size = 0 then .finished else i.state
          some ({ i with transferredFiles := files, state }, event)
        else some ({ i with transferredFiles := files }, event)

/-- A piece of the text, or of a sharing frame. -/
def takeBytes (payloadId total : ℤ) (chunk : PayloadChunk) :
    Option (Inbound × Option InboundEvent) :=
  let isText : Bool := i.textPayload = some payloadId
  if isText ∧ i.state ≠ .receivingFiles then none
  else
    let max := if isText then maxTextPayloadLength else maxControlPayloadLength
    match assemble i.payloadBuffers payloadId total max chunk with
    | (.error _, _) => none
    | (.ok none, payloadBuffers) => some ({ i with payloadBuffers }, none)
    | (.ok (some buffer), payloadBuffers) =>
      if isText then
        match buffer.toByteArray.utf8Decode? with
        | none => none
        | some text =>
          some ({ i with payloadBuffers, state := .finished }, some (.text payloadId text.toList))
      else
        match decodeSharing buffer with
        | none => none
        | some frame => { i with payloadBuffers }.processTransferSetup frame

def take : Frame → Option (Inbound × Option InboundEvent)
  | .file id _ _ offset flags _ body =>
    (i.takeFile id offset flags body).map fun r => (r.1, some r.2)
  | .text id total offset flags _ body => i.takeBytes id total ⟨offset, flags, body⟩
  | _ => none

/-- How long the next frame may be; the handshake is over. -/
def maxFrameLength : ℕ :=
  if i.state = .receivingFiles then saneFrameLength else maxSetupFrameLength

/-- `read_frame` and `process_frame`, for a frame of so many bytes. -/
def receive (len : ℕ) (f : Frame) : Option (Inbound × Option InboundEvent) :=
  if i.maxFrameLength < len then none else i.take f

/-- Frames one after the other, if each of them is taken, and the events that come of them. -/
def receiveAll : Inbound → List (ℕ × Frame) → Option (Inbound × List InboundEvent)
  | i, [] => some (i, [])
  | i, (len, f) :: fs => do
    let (i, e) ← i.receive len f
    let (i, es) ← i.receiveAll fs
    return (i, e.toList ++ es)

def takeAll : Inbound → List Frame → Option (Inbound × List InboundEvent)
  | i, [] => some (i, [])
  | i, f :: fs => do
    let (i, e) ← i.take f
    let (i, es) ← i.takeAll fs
    return (i, e.toList ++ es)

/-- The frames as they come over the wire, with their lengths there. -/
def Crosses (c : Sealing) (frames : List Frame) (arrived : List (ℕ × Frame)) : Prop :=
  arrived.map Prod.snd = frames ∧ ∀ a ∈ arrived, ∃ passage offline,
    a.2.offline = some offline ∧ a.1 = (c.secureMessage passage offline).length

def bytesFrames (id : ℤ) (b : Bytes) : List Frame :=
  [.text id b.length 0 0 0 b, .text id b.length b.length 1 1 []]

open Protobuf Send

variable {i j k : Inbound} {fs gs : List Frame} {es es' : List InboundEvent}
  {ms : List FileMetadata} {id : ℤ}

theorem takeAll_append (h : i.takeAll fs = some (j, es)) (h' : j.takeAll gs = some (k, es')) :
    i.takeAll (fs ++ gs) = some (k, es ++ es') := by
  induction fs generalizing i es with
  | nil =>
    obtain ⟨rfl, rfl⟩ := Prod.mk.inj (Option.some.inj h)
    exact h'
  | cons f fs ih =>
    obtain ⟨⟨i₁, e⟩, htake, h⟩ := Option.bind_eq_some_iff.mp h
    obtain ⟨⟨j₁, es₁⟩, hrest, h⟩ := Option.bind_eq_some_iff.mp h
    obtain ⟨rfl, rfl⟩ := Prod.mk.inj (Option.some.inj h)
    refine Option.bind_eq_some_iff.mpr ⟨(i₁, e), htake, ?_⟩
    refine Option.bind_eq_some_iff.mpr ⟨(k, es₁ ++ es'), ih hrest, ?_⟩
    simp

theorem takeAll_single {f : Frame} {e : Option InboundEvent} (h : i.take f = some (j, e)) :
    i.takeAll [f] = some (j, e.toList) := by
  simp [takeAll, h]

theorem takeFile_more {info : InternalFileInfo} (body : Bytes) (hstate : i.state = .receivingFiles)
    (hinfo : i.transferredFiles.lookup id = some info)
    (hle : info.bytesTransferred + body.length ≤ info.totalSize) (hmax : info.totalSize < 2 ^ 63) :
    ∃ j, i.takeFile id info.bytesTransferred 0 body = some (j, .fileChunk ⟨id, body, false⟩) ∧
      j.state = .receivingFiles ∧ ∀ k, j.transferredFiles.lookup k =
        if k = id then some { info with bytesTransferred := info.bytesTransferred + body.length }
        else i.transferredFiles.lookup k := by
  have hfits : info.bytesTransferred + body.length < 9223372036854775808 := by omega
  have hpast : ¬ info.totalSize < info.bytesTransferred + body.length := by omega
  refine ⟨{ i with
    transferredFiles :=
      i.transferredFiles.set id { info with
        bytesTransferred := info.bytesTransferred + body.length } }, ?_, hstate, ?_⟩
  · simp [takeFile, hstate, hinfo, hfits, hpast]
  · exact fun k => Table.lookup_set

theorem size_eq_zero {t : Table ℤ InternalFileInfo} : t.size = 0 ↔ ∀ k, t.lookup k = none := by
  constructor
  · intro h k
    rw [Table.size, List.length_eq_zero_iff] at h
    rw [Table.lookup, h]
    rfl
  · intro h
    by_contra hne
    obtain ⟨⟨k, v⟩, hmem⟩ := List.exists_mem_of_length_pos (Nat.pos_of_ne_zero hne)
    have hsome := Table.lookup_eq_some_iff.mpr hmem
    rw [h k] at hsome
    cases hsome

/-- The end of a file: with the last one the transfer is finished. -/
theorem takeFile_last {info : InternalFileInfo} (hstate : i.state = .receivingFiles)
    (hinfo : i.transferredFiles.lookup id = some info)
    (hend : info.bytesTransferred = info.totalSize) (hmax : info.totalSize < 2 ^ 63) :
    ∃ j, i.takeFile id info.totalSize 1 [] = some (j, .fileChunk ⟨id, [], true⟩) ∧
      (∀ k, j.transferredFiles.lookup k = if k = id then none else i.transferredFiles.lookup k) ∧
      ((∀ k, j.transferredFiles.lookup k = none) → j.state = .finished) ∧
      (∀ k info, j.transferredFiles.lookup k = some info → j.state = .receivingFiles) := by
  obtain ⟨files, hfiles⟩ : ∃ files, (i.transferredFiles.set id { info with
      bytesTransferred := info.bytesTransferred + ([] : Bytes).length }).remove id = files :=
        ⟨_, rfl⟩
  have hlook (k : ℤ) : files.lookup k = if k = id then none else i.transferredFiles.lookup k := by
    rw [← hfiles, Table.lookup_remove, Table.lookup_set]
    split_ifs <;> rfl
  refine ⟨{ i with
    transferredFiles := files, state := if files.size = 0 then .finished else i.state }, ?_,
    hlook, ?_, ?_⟩
  · have hfits : info.totalSize < 9223372036854775808 := by omega
    simp [takeFile, hstate, hinfo, hend, hfits, ← hfiles]
  · intro hnone
    exact if_pos (size_eq_zero.mpr hnone)
  · intro k info' hk
    have hne : files.size ≠ 0 := fun h0 => by simp [size_eq_zero.mp h0 k] at hk
    exact (if_neg hne).trans hstate

theorem takeAll_chunks (ms : List FileMetadata) {bs : List Bytes}
    {info : InternalFileInfo} (index : ℤ) (hstate : i.state = .receivingFiles)
    (hinfo : i.transferredFiles.lookup id = some info)
    (hle : info.bytesTransferred + bs.flatten.length ≤ info.totalSize)
    (hmax : info.totalSize < 2 ^ 63) :
    ∃ j, i.takeAll (chunkFrames ms id info.bytesTransferred index bs) =
        some (j, bs.map fun b => .fileChunk ⟨id, b, false⟩) ∧
      j.state = .receivingFiles ∧ ∀ k, j.transferredFiles.lookup k =
        if k = id then some { info with
          bytesTransferred := info.bytesTransferred + bs.flatten.length }
        else i.transferredFiles.lookup k := by
  induction bs generalizing i info index with
  | nil =>
    refine ⟨i, rfl, hstate, fun k => ?_⟩
    split_ifs with hk
    · rw [hk, hinfo]
      simp
    · rfl
  | cons b bs ih =>
    have hlen : (b :: bs).flatten.length = b.length + bs.flatten.length := by simp
    rw [hlen, Nat.cast_add] at hle
    obtain ⟨i₁, htake, hstate₁, hlook₁⟩ := takeFile_more b hstate hinfo (by omega) hmax
    obtain ⟨j, hall, hj, hlook⟩ := ih (i := i₁) (index + 1) hstate₁ ((hlook₁ id).trans (if_pos rfl))
      (by simpa [add_assoc] using hle) hmax
    refine ⟨j, ?_, hj, fun k => ?_⟩
    · have hone : i.take (.file id (nameOf ms id) (totalOf ms id) info.bytesTransferred 0 index b) =
          some (i₁, some (.fileChunk ⟨id, b, false⟩)) := by
        simp [take, htake]
      have hboth := takeAll_append (takeAll_single hone) hall
      exact hboth
    · rw [hlook, hlook₁]
      split_ifs
      · simp [add_assoc]
      · rfl

theorem takeAll_file {bs : List Bytes} (hstate : i.state = .receivingFiles)
    (hinfo : i.transferredFiles.lookup id = some ⟨0, totalOf ms id, 0⟩)
    (hlen : (bs.flatten.length : ℤ) = totalOf ms id) (hmax : totalOf ms id < 2 ^ 63) :
    ∃ j, i.takeAll (fileFrames ms id bs) =
    some (j, ((fileFrames ms id bs).filterMap chunkOf).map .fileChunk) ∧
      (∀ k, j.transferredFiles.lookup k = if k = id then none else i.transferredFiles.lookup k) ∧
      ((∀ k, j.transferredFiles.lookup k = none) → j.state = .finished) ∧
      (∀ k info, j.transferredFiles.lookup k = some info → j.state = .receivingFiles) := by
  obtain ⟨i₁, hall, hstate₁, hlook₁⟩ :=
    takeAll_chunks ms 0 hstate hinfo (by simpa using hlen.le) hmax
  have hinfo₁ := (hlook₁ id).trans (if_pos rfl)
  obtain ⟨j, htake, hlook, hfin, hrec⟩ := takeFile_last hstate₁ hinfo₁ (by simpa using hlen) hmax
  refine ⟨j, ?_, fun k => ?_, hfin, hrec⟩
  · have hlast : i₁.take (lastFrame ms id bs) = some (j, some (.fileChunk ⟨id, [], true⟩)) := by
      simp [take, lastFrame, htake]
    have hboth := takeAll_append hall (takeAll_single hlast)
    rw [chunkOf_fileFrames hlen, fileFrames, if_pos hlen, hboth]
    simp
  · rw [hlook, hlook₁]
    split_ifs <;> rfl

theorem takeAll_files {parts : List (FileMetadata × List Bytes)}
    (hstate : parts ≠ [] → i.state = .receivingFiles) (hnodup : (parts.map (·.1.payloadId)).Nodup)
    (hinfo : ∀ p ∈ parts, i.transferredFiles.lookup p.1.payloadId =
      some ⟨0, totalOf ms p.1.payloadId, 0⟩)
    (hnone : ∀ k, (∀ p ∈ parts, p.1.payloadId ≠ k) → i.transferredFiles.lookup k = none)
    (hlen : ∀ p ∈ parts, (p.2.flatten.length : ℤ) = totalOf ms p.1.payloadId)
    (hmax : ∀ p ∈ parts, totalOf ms p.1.payloadId < 2 ^ 63) :
    ∃ j, i.takeAll (parts.map fun p => fileFrames ms p.1.payloadId p.2).flatten =
        some (j,
          (((parts.map fun p => fileFrames ms p.1.payloadId p.2).flatten.filterMap chunkOf).map
            .fileChunk)) ∧
      (parts ≠ [] → j.state = .finished) := by
  induction parts generalizing i with
  | nil => exact ⟨i, rfl, by simp⟩
  | cons p parts ih =>
    obtain ⟨i₁, hall, hlook, hfin, hrec⟩ :=
      takeAll_file (hstate (by simp)) (hinfo p (by simp)) (hlen p (by simp))
      (hmax p (by simp))
    rw [List.map_cons, List.nodup_cons] at hnodup
    have hne : ∀ q ∈ parts, q.1.payloadId ≠ p.1.payloadId := fun q hq heq =>
      hnodup.1 (heq ▸ List.mem_map_of_mem (f := (·.1.payloadId)) hq)
    have hinfo₁ : ∀ q ∈ parts, i₁.transferredFiles.lookup q.1.payloadId =
        some ⟨0, totalOf ms q.1.payloadId, 0⟩ := by
      intro q hq
      rw [hlook, if_neg (hne q hq)]
      exact hinfo q (by simp [hq])
    have hnone₁ : ∀ k, (∀ q ∈ parts, q.1.payloadId ≠ k) → i₁.transferredFiles.lookup k = none := by
      intro k hk
      rw [hlook]
      split_ifs with heq
      · rfl
      · refine hnone k fun q hq => ?_
        rcases List.mem_cons.mp hq with rfl | hq
        · exact Ne.symm heq
        · exact hk q hq
    have hstate₁ : parts ≠ [] → i₁.state = .receivingFiles := by
      intro hparts
      obtain ⟨q, hq⟩ := List.exists_mem_of_ne_nil parts hparts
      exact hrec _ _ (hinfo₁ q hq)
    obtain ⟨j, hrest, hj⟩ := ih hstate₁ hnodup.2 hinfo₁ hnone₁ (fun q hq => hlen q (by simp [hq]))
      fun q hq => hmax q (by simp [hq])
    refine ⟨j, ?_, fun _ => ?_⟩
    · rw [List.map_cons, List.flatten_cons, takeAll_append hall hrest, List.filterMap_append,
        List.map_append]
    · by_cases hparts : parts = []
      · subst hparts
        obtain ⟨rfl, -⟩ := Prod.mk.inj (Option.some.inj hrest)
        exact hfin fun k => hnone₁ k (by simp)
      · exact hj hparts

theorem toI64_bounds (n : ℕ) : 0 ≤ toI64 n ∧ toI64 n < 2 ^ 63 := by
  unfold toI64
  split_ifs <;> omega

/-- The book-keeping of an introduction: each id with the size that was announced for it. -/
theorem lookup_of_mem {m : FileMetadata} (h : m ∈ ms) :
    ∃ m' ∈ ms,
    (ms.foldl (fun t m => t.set m.payloadId ⟨0, m.size, 0⟩)
      (.empty : Table ℤ InternalFileInfo)).lookup m.payloadId =
      some ⟨0, totalOf ms m.payloadId, 0⟩ ∧ totalOf ms m.payloadId = m'.size := by
  have hsome : (ms.reverse.find? (·.payloadId = m.payloadId)).isSome :=
    List.find?_isSome.mpr ⟨m, List.mem_reverse.mpr h, by simp⟩
  obtain ⟨m', hm'⟩ := Option.isSome_iff_exists.mp hsome
  have hmem : m' ∈ ms := List.mem_reverse.mp (List.mem_of_find?_eq_some hm')
  refine ⟨m', hmem, ?_, by simp [totalOf, hm']⟩
  rw [lookup_introduced, hm']
  simp [totalOf, hm']

theorem lookup_of_forall_ne {n : ℤ} (h : ∀ m ∈ ms, m.payloadId ≠ n) :
    (ms.foldl (fun t m => t.set m.payloadId ⟨0, m.size, 0⟩)
      (.empty : Table ℤ InternalFileInfo)).lookup n = none := by
  have hnone : ms.reverse.find? (·.payloadId = n) = none := by
    refine List.find?_eq_none.mpr fun m hm => ?_
    simpa using h m (List.mem_reverse.mp hm)
  rw [lookup_introduced, hnone]
  rfl

theorem takeAll_bytes {b : Bytes} {max : ℤ} {e : Option InboundEvent}
    (hbuffers : i.payloadBuffers = .empty)
    (hmax : max = if i.textPayload = some id then maxTextPayloadLength else maxControlPayloadLength)
    (hlen : b.length ≤ max) (hstate : i.textPayload = some id → i.state = .receivingFiles)
    (hwhole : (if i.textPayload = some id then
        match b.toByteArray.utf8Decode? with
        | none => none
        | some text => some ({ i with state := .finished }, some (.text id text.toList))
      else
        match decodeSharing b with
        | none => none
        | some frame => i.processTransferSetup frame) = some (j, e)) :
    i.takeAll (bytesFrames id b) = some (j, e.toList) := by
  obtain ⟨t, hfirst, hsecond⟩ := Payload.assemble_inTwo b id max hlen
  have hopen : ¬ (i.textPayload = some id ∧ i.state ≠ .receivingFiles) := fun h => h.2 (hstate h.1)
  have hback : { i with payloadBuffers := .empty } = i := by rw [← hbuffers]
  have htake₁ : i.take (.text id b.length 0 0 0 b) =
      some ({ i with payloadBuffers := t }, none) := by
    simp only [take, takeBytes, decide_eq_true_eq, if_neg hopen, ← hmax, hbuffers, hfirst]
  have htake₂ : { i with payloadBuffers := t }.take (.text id b.length b.length 1 1 []) =
      some (j, e) := by
    simp only [hbuffers] at hwhole
    simp only [take, takeBytes, decide_eq_true_eq, if_neg hopen, ← hmax, hsecond, hback]
    exact hwhole
  exact takeAll_append (takeAll_single htake₁) (takeAll_single htake₂)

theorem takeAll_sharing {b : Bytes} {frame : Option SharingIn} {e : Option InboundEvent}
    (hbuffers : i.payloadBuffers = .empty) (hid : i.textPayload ≠ some id)
    (hlen : b.length ≤ maxControlPayloadLength) (hdecode : decodeSharing b = some frame)
    (hsetup : i.processTransferSetup frame = some (j, e)) :
    i.takeAll (bytesFrames id b) = some (j, e.toList) := by
  refine takeAll_bytes hbuffers (if_neg hid).symm hlen (fun h => absurd h hid) ?_
  rw [if_neg hid, hdecode]
  exact hsetup

theorem takeAll_text {t : Str} (hstate : i.state = .receivingFiles) (hid : i.textPayload = some id)
    (hbuffers : i.payloadBuffers = .empty) (hlen : (utf8 t).length ≤ 64 * 1024) :
    ∃ k, i.takeAll (textFrames id t) = some (k, [.text id t]) ∧ k.state = .finished := by
  have hmax : ((utf8 t).length : ℤ) ≤ maxTextPayloadLength := by
    unfold maxTextPayloadLength
    omega
  have hdecode : (utf8 t).toByteArray.utf8Decode? = some t.toArray := List.utf8Decode?_utf8Encode
  refine ⟨{ i with state := .finished }, ?_, rfl⟩
  refine takeAll_bytes (e := some (.text id t)) hbuffers (if_pos hid).symm hmax (fun _ => hstate) ?_
  rw [if_pos hid, hdecode]

def Short : Frame → Prop
  | .file _ name _ _ _ _ body => (∀ n ∈ name, n.len ≤ 200) ∧ body.length ≤ 200000
  | .text _ _ _ _ _ body => body.length ≤ 200000
  | _ => True

theorem length_offline {f : Frame} {b : Bytes} (hf : Short f) (hb : f.offline = some b) :
    b.length ≤ 200600 := by
  have hheader (type id total : ℤ) : (encodeFields (payloadHeader type id total)).length ≤ 44 := by
    have h₁ := length_int (t := 1) (by decide) id
    have h₂ := length_int (t := 2) (by decide) type
    have h₃ := length_int (t := 3) (by decide) total
    have h₄ := length_int (t := 4) (by decide) 0
    simp only [payloadHeader, length_encodeFields_cons, encodeFields_nil, List.length_nil]
    omega
  cases f with
  | file id name total offset flags index body =>
    obtain ⟨hname, hbody⟩ := hf
    obtain rfl := Option.some.inj hb
    have hchunk := length_payloadChunk offset flags index (hbody.trans (by decide))
    refine (length_offlineFrame ?_ (hchunk.trans (Nat.add_le_add_right hbody 40))
      (by decide)).trans (by decide)
    have h₆ := length_str (t := 6) (k := 0) (s := []) (by decide) (by decide)
    have h₄ := hheader 2 id total
    cases name with
    | none =>
      simp only [Option.toList_none, List.map_nil, List.append_nil, encodeFields,
        List.flatMap_append, List.length_append, List.flatMap_cons, List.flatMap_nil] at h₄ ⊢
      simp only [Str.len_nil] at h₆
      omega
    | some n =>
      have hn := hname n rfl
      have h₅ := length_str (t := 5) (k := 1) (s := n) (by decide) (by omega)
      simp only [Option.toList_some, List.map_cons, List.map_nil, encodeFields,
        List.flatMap_append, List.length_append, List.flatMap_cons, List.flatMap_nil,
        List.length_nil] at h₄ ⊢
      simp only [Str.len_nil] at h₆
      omega
  | text id total offset flags index body =>
    have hbody : body.length ≤ 200000 := hf
    obtain rfl := Option.some.inj hb
    have hchunk := length_payloadChunk offset flags index (hbody.trans (by decide))
    have h₄ := hheader 1 id total
    exact (length_offlineFrame (h₄.trans (by decide))
      (hchunk.trans (Nat.add_le_add_right hbody 40)) (by decide)).trans (by decide)
  | connectionRequest | ukey2ClientInit | ukey2ClientFinish | ukey2Alert | connectionResponse
  | keepAlive | disconnection | sharing => cases hb

theorem receiveAll_of_takeAll {l : List (ℕ × Frame)} (hlen : ∀ a ∈ l, a.1 ≤ maxSetupFrameLength)
    (h : i.takeAll (l.map Prod.snd) = some (j, es)) : i.receiveAll l = some (j, es) := by
  induction l generalizing i es with
  | nil => exact h
  | cons a l ih =>
    obtain ⟨n, f⟩ := a
    obtain ⟨⟨i₁, e⟩, htake, h⟩ := Option.bind_eq_some_iff.mp h
    obtain ⟨⟨j₁, es₁⟩, hrest, h⟩ := Option.bind_eq_some_iff.mp h
    obtain ⟨rfl, rfl⟩ := Prod.mk.inj (Option.some.inj h)
    have hn : n ≤ maxSetupFrameLength := hlen (n, f) (by simp)
    have hcap : ¬ i.maxFrameLength < n := by
      unfold maxFrameLength
      split_ifs
      · exact not_lt.mpr (hn.trans (by decide))
      · exact not_lt.mpr hn
    refine Option.bind_eq_some_iff.mpr ⟨(i₁, e), (if_neg hcap).trans htake, ?_⟩
    refine Option.bind_eq_some_iff.mpr ⟨(j₁, es₁), ih (fun a ha => hlen a (by simp [ha])) hrest,
      rfl⟩

theorem Crosses.receiveAll {c : Sealing} {l : List (ℕ × Frame)} (h : Crosses c fs l)
    (hshort : ∀ f ∈ fs, Short f) (htake : i.takeAll fs = some (j, es)) :
    i.receiveAll l = some (j, es) := by
  obtain ⟨rfl, hlen⟩ := h
  refine receiveAll_of_takeAll (fun a ha => ?_) htake
  obtain ⟨passage, offline, hoffline, heq⟩ := hlen a ha
  have hle := length_offline (hshort a.2 (List.mem_map_of_mem ha)) hoffline
  rw [heq]
  exact (c.length_secureMessage hle (by decide)).trans (by decide)

theorem files_ne_nil {items : List Outgoing} {files : List OutgoingFile}
    (h : sendPayload items = .ok (.files files)) : files ≠ [] := by
  unfold sendPayload at h
  split at h
  · rw [← SendPayload.files.inj (Except.ok.inj h)]
    simp
  · cases Except.ok.inj h
  · cases h

theorem takeAll_setup {f : IntroductionFrame} {e : InboundEvent} (id id' : ℤ)
    (hlen : (introductionFrame f).length ≤ 200000)
    (hdecode : decodeSharing (introductionFrame f) = some (some ⟨1, some f⟩))
    (hintro : ({} : Inbound).processIntroduction f = .ok (i, e))
    (hstate : i.state = .waitingForUserConsent) (hbuffers : i.payloadBuffers = .empty)
    (hid : i.textPayload ≠ some id') :
    ({} : Inbound).takeAll (bytesFrames id (introductionFrame f) ++ bytesFrames id' acceptFrame) =
      some (i, [e]) := by
  have hfits : ((introductionFrame f).length : ℤ) ≤ maxControlPayloadLength := by
    unfold maxControlPayloadLength
    omega
  have hfirst : ({} : Inbound).processTransferSetup (some ⟨1, some f⟩) = some (i, some e) := by
    simp [processTransferSetup, hintro]
  have hsecond : i.processTransferSetup (some ⟨2, none⟩) = some (i, none) := by
    simp [processTransferSetup, hstate]
  exact takeAll_append (takeAll_sharing rfl (by simp) hfits hdecode hfirst)
    (takeAll_sharing hbuffers hid (by decide) decodeSharing_accept hsecond)

theorem short_bytesFrames {b : Bytes} (h : b.length ≤ 200000) :
    ∀ f ∈ bytesFrames id b, Short f := by
  simp only [bytesFrames, List.forall_mem_cons, List.not_mem_nil, false_implies, implies_true,
    and_true]
  exact ⟨h, Nat.zero_le _⟩

theorem short_chunkFrames {bs : List Bytes} (hname : ∀ n ∈ nameOf ms id, n.len ≤ 200)
    (hbs : ∀ b ∈ bs, b.length ≤ ioChunkBytes) (offset index : ℤ) :
    ∀ f ∈ chunkFrames ms id offset index bs, Short f := by
  induction bs generalizing offset index with
  | nil => simp [chunkFrames]
  | cons b bs ih =>
    refine List.forall_mem_cons.mpr ⟨⟨hname, (hbs b (by simp)).trans (by decide)⟩, ?_⟩
    exact ih (fun b hb => hbs b (by simp [hb])) _ _

theorem short_fileFrames {bs : List Bytes} (hname : ∀ n ∈ nameOf ms id, n.len ≤ 200)
    (hbs : ∀ b ∈ bs, b.length ≤ ioChunkBytes) : ∀ f ∈ fileFrames ms id bs, Short f := by
  intro f hf
  rcases List.mem_append.mp hf with hf | hf
  · exact short_chunkFrames hname hbs 0 0 f hf
  · split_ifs at hf
    · obtain rfl := List.mem_singleton.mp hf
      exact ⟨hname, Nat.zero_le _⟩
    · cases hf

theorem plan_eq_flatten (ms : List FileMetadata) (pieces : List (List Bytes)) :
    plan ms pieces =
      ((ms.zip pieces).map fun p => fileFrames ms p.1.payloadId p.2).flatten := by
  rw [plan, List.map_zip_eq_zipWith]
  rfl

theorem len_nameOf (h : ∀ m ∈ ms, m.name.len ≤ 200) : ∀ n ∈ nameOf ms id, n.len ≤ 200 := by
  intro n hn
  obtain ⟨m, hm, rfl⟩ := Option.map_eq_some_iff.mp hn
  exact h m (List.mem_of_find?_eq_some hm)

theorem short_plan {pieces : List (List Bytes)} (hname : ∀ m ∈ ms, m.name.len ≤ 200)
    (hpieces : ∀ bs ∈ pieces, ∀ b ∈ bs, b.length ≤ ioChunkBytes) :
    ∀ f ∈ plan ms pieces, Short f := by
  rw [plan_eq_flatten]
  intro f hf
  obtain ⟨fs, hfs, hf⟩ := List.mem_flatten.mp hf
  obtain ⟨p, hp, rfl⟩ := List.mem_map.mp hfs
  exact short_fileFrames (len_nameOf hname) (hpieces p.2 (List.of_mem_zip hp).2) f hf

theorem short_setup {b : Bytes} (id id' : ℤ) (h : b.length ≤ 200000) :
    ∀ f ∈ bytesFrames id b ++ bytesFrames id' acceptFrame, Short f := by
  intro f hf
  rcases List.mem_append.mp hf with hf | hf
  · exact short_bytesFrames h f hf
  · exact short_bytesFrames (by decide) f hf

theorem mem_of_files {items : List Outgoing} {files : List OutgoingFile}
    (h : sendPayload items = .ok (.files files)) :
    files.length ≤ items.length ∧ ∀ f ∈ files, Outgoing.file f ∈ items := by
  have hfiles : files = filesOf items := by
    unfold sendPayload at h
    split at h
    · rename_i hf _
      rw [← SendPayload.files.inj (Except.ok.inj h), hf]
    · cases Except.ok.inj h
    · cases h
  subst hfiles
  refine ⟨List.length_filterMap_le _ _, fun f hf => ?_⟩
  obtain ⟨o, ho, heq⟩ := List.mem_filterMap.mp hf
  cases o with
  | text t => cases heq
  | file g =>
    obtain rfl := Option.some.inj heq
    exact ho

theorem mem_of_text {items : List Outgoing} {t : Str}
    (h : sendPayload items = .ok (.text t)) : Outgoing.text t ∈ items := by
  have ht : t ∈ textsOf items := by
    unfold sendPayload at h
    split at h
    · cases Except.ok.inj h
    · rename_i ht
      rw [← SendPayload.text.inj (Except.ok.inj h), ht]
      simp
    · cases h
  obtain ⟨o, ho, heq⟩ := List.mem_filterMap.mp ht
  cases o with
  | file f => cases heq
  | text u =>
    obtain rfl := Option.some.inj heq
    exact ho

theorem metadata_bounds {files : List OutgoingFile} {draws : ℕ → NewId × NewId} {m : FileMetadata}
    (hfiles : ∀ f ∈ files, Hub.Checked (.file f)) (h : m ∈ metadata files draws) :
    m.InRange ∧ m.name.len ≤ 200 ∧ m.mimeType.len ≤ 127 := by
  obtain ⟨n, hn⟩ := List.mem_iff_getElem?.mp h
  rw [getElem?_metadata] at hn
  obtain ⟨f, hf, rfl⟩ := Option.map_eq_some_iff.mp hn
  obtain ⟨hsafe, -, hmime⟩ := hfiles f (List.mem_of_getElem? hf)
  refine ⟨⟨(draws n).1.2, toI64_bounds f.size, (draws n).2.2⟩, hsafe.short, ?_⟩
  change (f.mime.getD "application/octet-stream".toList).len ≤ 127
  cases hm : f.mime with
  | none => decide
  | some mime => exact (hmime mime hm).trans (by decide)

theorem accept_files (hne : ms ≠ []) (hmany : ms.length ≤ maxIntroductionFiles)
    (hsize : ∀ m ∈ ms, 0 ≤ m.size) (hnodup : (ms.map (·.payloadId)).Nodup) :
    ({} : Inbound).processIntroduction ⟨ms, [], 0⟩ =
      .ok (⟨.waitingForUserConsent,
        ms.foldl (fun t m => t.set m.payloadId ⟨0, m.size, 0⟩) .empty, none, .empty⟩,
        .introduction (ms.map FileMetadata.incoming) none) := by
  unfold processIntroduction
  dsimp only
  rw [if_neg (by simp), if_pos ⟨hne, rfl⟩, if_pos ⟨hmany, hsize, hnodup⟩]

theorem accept_text {m : TextMetadata} (hsize : 0 ≤ m.size ∧ m.size ≤ maxTextPayloadLength)
    (htype : m.type = .text) :
    ({} : Inbound).processIntroduction ⟨[], [m], 0⟩ =
      .ok (⟨.waitingForUserConsent, .empty, some m.payloadId, .empty⟩,
        .introduction [] (some ⟨m.payloadId, .text, m.textTitle, m.size⟩)) := by
  rw [processIntroduction]
  dsimp only
  rw [if_neg (by simp), if_neg (by simp), if_neg (not_not_intro hsize), htype]
  rfl

theorem takeAll_plan {pieces : List (List Bytes)} (hne : ms ≠ [])
    (hnodup : (ms.map (·.payloadId)).Nodup) (hlen : pieces.length = ms.length)
    (hstate : i.state = .receivingFiles)
    (htable : i.transferredFiles = ms.foldl (fun t m => t.set m.payloadId ⟨0, m.size, 0⟩) .empty)
    (hmax : ∀ m ∈ ms, m.size < 2 ^ 63)
    (hsizes : ∀ p ∈ ms.zip pieces, (p.2.flatten.length : ℤ) = totalOf ms p.1.payloadId) :
    ∃ k, i.takeAll (plan ms pieces) =
        some (k, ((plan ms pieces).filterMap chunkOf).map .fileChunk) ∧ k.state = .finished := by
  have hms : (ms.zip pieces).map Prod.fst = ms := List.map_fst_zip hlen.ge
  have hmem : ∀ p ∈ ms.zip pieces, p.1 ∈ ms := fun p hp => (List.of_mem_zip hp).1
  have hids : (ms.zip pieces).map (·.1.payloadId) = ms.map (·.payloadId) := by
    conv_rhs => rw [← hms, List.map_map]
    rfl
  have hinfo : ∀ p ∈ ms.zip pieces, i.transferredFiles.lookup p.1.payloadId =
      some ⟨0, totalOf ms p.1.payloadId, 0⟩ := by
    intro p hp
    obtain ⟨m, -, hlook, -⟩ := lookup_of_mem (hmem p hp)
    rw [htable, hlook]
  have hmax' : ∀ p ∈ ms.zip pieces, totalOf ms p.1.payloadId < 2 ^ 63 := by
    intro p hp
    obtain ⟨m, hm, -, htotal⟩ := lookup_of_mem (hmem p hp)
    rw [htotal]
    exact hmax m hm
  have hnone : ∀ n, (∀ p ∈ ms.zip pieces, p.1.payloadId ≠ n) →
      i.transferredFiles.lookup n = none := by
    intro n hn
    rw [htable]
    refine lookup_of_forall_ne fun m hm => ?_
    rw [← hms] at hm
    obtain ⟨p, hp, rfl⟩ := List.mem_map.mp hm
    exact hn p hp
  obtain ⟨k, htake, hk⟩ :=
    takeAll_files (fun _ => hstate) (hids ▸ hnodup) hinfo hnone hsizes hmax'
  rw [← plan_eq_flatten] at htake
  refine ⟨k, htake, hk ?_⟩
  intro hnil
  rw [hnil] at hms
  exact hne hms.symm

/-- Files with short names, from their introduction to the end of the last one. -/
theorem receive_files {c : Sealing} {pieces : List (List Bytes)} {setup data : List (ℕ × Frame)}
    (id id' : ℤ) (hne : ms ≠ []) (hmany : ms.length ≤ 500)
    (hbounds : ∀ m ∈ ms, m.InRange ∧ m.name.len ≤ 200 ∧ m.mimeType.len ≤ 127)
    (hnodup : (ms.map (·.payloadId)).Nodup) (hlen : pieces.length = ms.length)
    (hsizes : ∀ p ∈ ms.zip pieces, (p.2.flatten.length : ℤ) = totalOf ms p.1.payloadId)
    (hpieces : ∀ bs ∈ pieces, ∀ b ∈ bs, b.length ≤ ioChunkBytes)
    (hsetup : Crosses c (bytesFrames id (introductionFrame ⟨ms, [], 0⟩) ++
      bytesFrames id' acceptFrame) setup)
    (hdata : Crosses c (plan ms pieces) data) :
    ∃ i j k, ({} : Inbound).receiveAll setup =
        some (i, [.introduction (ms.map FileMetadata.incoming) none]) ∧
      i.acceptTransfer = some j ∧
      j.receiveAll data = some (k, ((plan ms pieces).filterMap chunkOf).map .fileChunk) ∧
      k.state = .finished := by
  have hintro := accept_files hne (hmany.trans (by decide)) (fun m hm => (hbounds m hm).1.2.1.1)
    hnodup
  have hbrief : (introductionFrame ⟨ms, [], 0⟩).length ≤ 200000 :=
    length_introductionFrame (by simpa using hmany) (fun m hm => (hbounds m hm).2) (by simp)
  have hread := decodeSharing_introduction (f := ⟨ms, [], 0⟩) (fun m hm => (hbounds m hm).1)
    (by simp) rfl
  have hasked := takeAll_setup id id' hbrief hread hintro rfl rfl (by simp)
  obtain ⟨k, htake, hk⟩ := takeAll_plan (i := ⟨.receivingFiles, _, none, .empty⟩) hne hnodup hlen
    rfl rfl (fun m hm => (hbounds m hm).1.2.1.2) hsizes
  have hshort := short_plan (fun m hm => (hbounds m hm).2.1) hpieces
  exact ⟨_, _, k, hsetup.receiveAll (short_setup id id' hbrief) hasked, rfl,
    hdata.receiveAll hshort htake, hk⟩

theorem receive_text {c : Sealing} {m : TextMetadata} {t : Str} {setup data : List (ℕ × Frame)}
    {id' : ℤ} (id : ℤ) (hrange : m.InRange) (htitle : m.textTitle.len ≤ 256)
    (htype : m.type = .text) (hsize : m.size = (utf8 t).length)
    (hlen : (utf8 t).length ≤ 64 * 1024) (hid : id' ≠ m.payloadId)
    (hsetup : Crosses c (bytesFrames id (introductionFrame ⟨[], [m], 0⟩) ++
      bytesFrames id' acceptFrame) setup)
    (hdata : Crosses c (textFrames m.payloadId t) data) :
    ∃ i j k, ({} : Inbound).receiveAll setup =
        some (i, [.introduction [] (some ⟨m.payloadId, .text, m.textTitle, m.size⟩)]) ∧
      i.acceptTransfer = some j ∧ j.receiveAll data = some (k, [.text m.payloadId t]) ∧
      k.state = .finished := by
  have hmax : m.size ≤ maxTextPayloadLength := by
    unfold maxTextPayloadLength
    omega
  have hintro := accept_text ⟨hrange.2.1.1, hmax⟩ htype
  have hbrief := length_introductionFrame (f := ⟨[], [m], 0⟩) (by simp) (by simp)
    (by simpa using htitle)
  have hread := decodeSharing_introduction (f := ⟨[], [m], 0⟩) (by simp) (by simpa using hrange) rfl
  have hasked := takeAll_setup id id' hbrief hread hintro rfl rfl (by simpa using hid.symm)
  obtain ⟨k, htake, hk⟩ := takeAll_text
    (i := ⟨.receivingFiles, .empty, some m.payloadId, .empty⟩) rfl rfl rfl hlen
  have hshort : ∀ f ∈ textFrames m.payloadId t, Short f :=
    short_bytesFrames (b := utf8 t) (hlen.trans (by decide))
  exact ⟨_, _, k, hsetup.receiveAll (short_setup id id' hbrief) hasked, rfl,
    hdata.receiveAll hshort htake, hk⟩

/-- A send of what the hub has checked that ended well, and the receiving side of the library: every
frame is short enough for it when it comes, it is told what was announced, takes every piece where
it belongs and ends where it was announced. What the pieces of each file make up is what was read
of it, and the text is what was sent. -/
theorem taken_whole (decode : Bytes → Option (Option Sharing)) (c : Sealing)
    (disk : Str → Option Metadata) (named : List Hub.SendItem) (items : List Outgoing)
    (payload : SendPayload) (acts : List Act) (s : Send)
    (hnamed : Hub.prepare disk named = .ok items) (hitems : sendPayload items = .ok payload)
    (hrun : exec (step decode) (start payload) acts = some s) (hend : s.phase = .ended (.ok ())) :
    (∀ files, payload = .files files → ∃ draws, Agreed s.outbound draws ∧
      (s.outbound.introduce draws).2 = .introduction (metadata files draws) [] ∧
      (∀ id id' setup data,
        Crosses c (bytesFrames id (introductionFrame ⟨metadata files draws, [], 0⟩) ++
          bytesFrames id' acceptFrame) setup → Crosses c (dataOf s.outbound.log) data →
        ∃ i j k, ({} : Inbound).receiveAll setup =
            some (i, [.introduction ((metadata files draws).map FileMetadata.incoming) none]) ∧
          i.acceptTransfer = some j ∧
          j.receiveAll data =
            some (k, ((dataOf s.outbound.log).filterMap chunkOf).map .fileChunk) ∧
          k.state = .finished) ∧
      ∀ (n : ℕ) (m : FileMetadata) (file : OutgoingFile) (bs : List Bytes),
        (metadata files draws)[n]? = some m → files[n]? = some file → s.pieces[n]? = some bs →
        bs.flatten.length = file.size ∧
        Chunks.content m.payloadId ((dataOf s.outbound.log).filterMap chunkOf) = bs.flatten) ∧
    (∀ t, payload = .text t → ∃ draws m, Agreed s.outbound draws ∧
      (s.outbound.introduce draws).2 = .introduction [] [m] ∧
      ∀ id id' setup data, id' ≠ m.payloadId →
        Crosses c (bytesFrames id (introductionFrame ⟨[], [m], 0⟩) ++
          bytesFrames id' acceptFrame) setup → Crosses c (dataOf s.outbound.log) data →
        ∃ i j k, ({} : Inbound).receiveAll setup =
            some (i, [.introduction [] (some ⟨m.payloadId, .text, m.textTitle, m.size⟩)]) ∧
          i.acceptTransfer = some j ∧ j.receiveAll data = some (k, [.text m.payloadId t]) ∧
          k.state = .finished) := by
  have hinv := inv_run hrun
  have hpayload := payload_run hrun
  have hkept := hinv.kept
  have hwire := hkept.payload
  rw [hpayload] at hwire
  rw [Send.Inv, hend] at hinv
  have hdelivered := delivered_of hinv (by rw [hpayload]; exact hitems)
  obtain ⟨hmany, hchecked⟩ := Hub.checked_prepare hnamed
  constructor
  · rintro files rfl
    obtain ⟨draws, hagreed, hnodup, hdata, hlen, hcontent⟩ := hdelivered.files files hpayload
    obtain ⟨hcount, hmem⟩ := mem_of_files hitems
    refine ⟨draws, hagreed, (introduce_files hwire draws).1, ?_, ?_⟩
    · intro id id' setup data hsetup hpieces
      have hne : metadata files draws ≠ [] := by
        rw [← List.length_pos_iff, length_metadata, List.length_pos_iff]
        exact files_ne_nil hitems
      have hfew : (metadata files draws).length ≤ 500 := by
        rw [length_metadata]
        exact hcount.trans hmany
      have hsizes : ∀ p ∈ (metadata files draws).zip s.pieces,
          (p.2.flatten.length : ℤ) = totalOf (metadata files draws) p.1.payloadId := by
        intro p hp
        obtain ⟨n, hn⟩ := List.mem_iff_getElem?.mp hp
        obtain ⟨hm, hbs⟩ := List.getElem?_zip_eq_some.mp hn
        have hfile := hm
        rw [getElem?_metadata] at hfile
        obtain ⟨file, hfile, -⟩ := Option.map_eq_some_iff.mp hfile
        obtain ⟨hsize, htotal, -⟩ := hcontent n p.1 file p.2 hm hfile hbs
        rw [hsize, htotal]
      rw [hdata] at hpieces ⊢
      exact receive_files id id' hne hfew
        (fun m hm => metadata_bounds (fun f hf => hchecked _ (hmem f hf)) hm) hnodup
        (by rw [hlen, length_metadata]) hsizes (fun bs hbs b hb => (hkept.pieces bs hbs b hb).2)
        hsetup hpieces
    · intro n m file bs hm hfile hbs
      obtain ⟨hsize, -, hc⟩ := hcontent n m file bs hm hfile hbs
      exact ⟨hsize, hc⟩
  · rintro t rfl
    obtain ⟨draws, hagreed, hdata⟩ := hdelivered.text t hpayload
    obtain ⟨-, hshort⟩ := hchecked _ (mem_of_text hitems)
    have hlen : (utf8 t).length ≤ 64 * 1024 := by
      rw [Croc.length_utf8]
      exact hshort
    have htitle : (display t maxAliasChars).len ≤ 256 :=
      Str.len_le_of_length (n := 64) (Text.display_lines t (n := 64) (by decide)).2.2.2
    refine ⟨draws, ⟨display t maxAliasChars, .text, (draws 0).1, (utf8 t).length, (draws 0).2⟩,
      hagreed, ?_, ?_⟩
    · rw [introduce, hwire]
      rfl
    · intro id id' setup data hid hsetup hpieces
      rw [hdata] at hpieces
      exact receive_text id ⟨(draws 0).1.2, ⟨by simp, by simp only; omega⟩,
        (draws 0).2.2⟩ htitle rfl
        rfl hlen hid hsetup hpieces

/-- Blocks padded as the cipher pads them, and signatures of its length. -/
def sealingYes : Sealing where
  encrypt _ b := b ++ List.replicate (16 - b.length % 16) (UInt8.ofNat (16 - b.length % 16))
  sign _ := List.replicate 32 0
  length_encrypt _ b := by
    simp only [List.length_append, List.length_replicate]
    omega
  length_sign _ := List.length_replicate

def passageYes : Passage := ⟨List.replicate 16 7, 5, List.length_replicate⟩

theorem exists_crosses {l : List Frame} (h : ∀ f ∈ l, f.isData) :
    ∃ arrived, Crosses sealingYes l arrived := by
  refine ⟨l.map fun f =>
    ((sealingYes.secureMessage passageYes (f.offline.getD [])).length, f), ?_, ?_⟩
  · rw [List.map_map]
    exact List.map_id l
  · intro a ha
    obtain ⟨f, hf, rfl⟩ := List.mem_map.mp ha
    have hdata := h f hf
    cases f with
    | file | text => exact ⟨passageYes, _, rfl, rfl⟩
    | connectionRequest | ukey2ClientInit | ukey2ClientFinish | ukey2Alert | connectionResponse
    | keepAlive | disconnection | sharing => cases hdata

def diskYes (path : Str) : Option Metadata := if path = "/a".toList then some ⟨true, 2⟩ else none

theorem taken_whole_yes : ∃ s, exec (step decodeYes) (start (.files [fileYes])) actsYes = some s ∧
    ∃ draws setup data i j k,
      Crosses sealingYes (bytesFrames 3 (introductionFrame ⟨metadata [fileYes] draws, [], 0⟩) ++
        bytesFrames 4 acceptFrame) setup ∧ Crosses sealingYes (dataOf s.outbound.log) data ∧
      ({} : Inbound).receiveAll setup =
        some (i, [.introduction ((metadata [fileYes] draws).map FileMetadata.incoming) none]) ∧
      i.acceptTransfer = some j ∧ j.receiveAll data =
        some (k, ((dataOf s.outbound.log).filterMap chunkOf).map .fileChunk) ∧
      k.state = .finished := by
  have hany : ((exec (step decodeYes) (start (.files [fileYes])) actsYes).any fun s =>
      s.phase = .ended (.ok ())) = true := by decide +kernel
  obtain ⟨s, hs, hphase⟩ := (Option.any_eq_true ..).mp hany
  have hname : Name.sanitize "a".toList = "a".toList := by decide +kernel
  have hlast : Hub.fileName "/a".toList = some "a".toList := by decide
  have hnamed : Hub.prepare diskYes [.file "/a".toList] = .ok [.file fileYes] := by
    have hcheck : Hub.checkFile diskYes "/a".toList = .ok fileYes := by
      simp only [Hub.checkFile, hlast, Option.getD_some, hname]
      rfl
    simp only [Hub.prepare, Hub.prepareFrom, hcheck]
    rfl
  obtain ⟨hfiles, -⟩ := taken_whole decodeYes sealingYes diskYes _ _ _ actsYes s hnamed rfl hs
    (of_decide_eq_true hphase)
  obtain ⟨draws, -, -, hreceive, -⟩ := hfiles [fileYes] rfl
  obtain ⟨setup, hsetup⟩ := exists_crosses
    (l := bytesFrames 3 (introductionFrame ⟨metadata [fileYes] draws, [], 0⟩) ++
      bytesFrames 4 acceptFrame) (by simp [bytesFrames, Frame.isData])
  obtain ⟨data, hdata⟩ := exists_crosses (l := dataOf s.outbound.log) fun f hf => by
    obtain ⟨e, -, he⟩ := List.mem_filterMap.mp hf
    cases e with
    | heard => cases he
    | sent g seq w =>
      simp only [Option.ite_none_right_eq_some, Option.some.injEq] at he
      exact he.2 ▸ he.1
  obtain ⟨i, j, k, hasked, haccept, htake, hk⟩ := hreceive 3 4 setup data hsetup hdata
  exact ⟨s, hs, draws, setup, data, i, j, k, hsetup, hdata, hasked, haccept, htake, hk⟩

end Inbound

end Sukkula.QuickShare
