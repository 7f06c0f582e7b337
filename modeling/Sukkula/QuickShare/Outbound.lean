import Sukkula.Croc.Pake
import Sukkula.QuickShare.Payload

/-! # The sending side of a Quick Share connection

`OutboundRequest` answers the frames of the receiver: the key exchange, the
paired keys, the introduction and the answer to it. Then the application hands
over the bytes. Everything after the key exchange is encrypted and numbered, in
both directions. A write may fail, and the caller may run out of patience while
it waits for one. What is written and what is reported to the application is
written down in order, for the statements.
-/

namespace Sukkula.QuickShare

open Assoc
open Croc (utf8)

/-- How far the connection is; the states only a receiver has are left out. -/
inductive TransferState
  | initial
  | sentUkeyClientInit
  | sentUkeyClientFinish
  | sentPairedKeyEncryption
  | sentPairedKeyResult
  | sentIntroduction
  | sendingFiles
  | disconnected
  | rejected
  | cancelled
  | finished
  deriving DecidableEq, Repr

def TransferState.late : TransferState → Bool
  | .sentIntroduction | .sendingFiles | .disconnected | .rejected | .cancelled | .finished => true
  | _ => false

inductive Status
  | unknown
  | accept
  | reject
  | notEnoughSpace
  | unsupportedAttachmentType
  | timedOut
  deriving DecidableEq, Repr

inductive OutboundEvent
  | introductionSent
  | accepted
  | rejected (status : Status)
  | cancelled
  | disconnected
  deriving DecidableEq, Repr

inductive AlertType
  | badMessageType
  | badVersion
  | badRandom
  | badHandshakeCipher
  deriving DecidableEq, Repr

inductive MetaType
  | unknown
  | image
  | video
  | app
  | audio
  deriving DecidableEq, Repr

/-- A file to send: what the receiver is told about it. -/
structure QsFile where
  name : Str
  size : ℤ
  mimeType : Str
  deriving DecidableEq, Repr

inductive TextPayloadType
  | url
  | text
  deriving DecidableEq, Repr

structure OutgoingText where
  kind : TextPayloadType
  title : Str
  text : Str
  deriving DecidableEq, Repr

inductive OutboundPayload
  | files (files : List QsFile)
  | text (text : OutgoingText)
  deriving DecidableEq, Repr

/-- What `new_id` gives: a number that was drawn, without its sign. -/
abbrev NewId : Type := { n : ℤ // 0 ≤ n ∧ n < 2 ^ 63 }

structure FileMetadata where
  payloadId : ℤ
  name : Str
  size : ℤ
  mimeType : Str
  type : MetaType
  id : ℤ
  deriving DecidableEq, Repr

/-- `text_metadata::Type`. -/
inductive TextType
  | unknown
  | text
  | url
  | address
  | phoneNumber
  deriving DecidableEq, Repr

def TextPayloadType.wire : TextPayloadType → TextType
  | .url => .url
  | .text => .text

structure TextMetadata where
  textTitle : Str
  type : TextType
  payloadId : ℤ
  size : ℤ
  id : ℤ
  deriving DecidableEq, Repr

inductive SharingFrame
  | pairedKeyEncryption
  | pairedKeyResult
  | introduction (files : List FileMetadata) (texts : List TextMetadata)
  | response (status : Status)
  | cancel
  deriving DecidableEq, Repr

/-- The frames of a sender. A sharing frame goes in a chunk of its own and an empty last one. -/
inductive Frame
  | connectionRequest
  | ukey2ClientInit
  | ukey2ClientFinish
  | ukey2Alert (type : AlertType)
  | connectionResponse
  | keepAlive (ack : Bool)
  | disconnection
  | sharing (frame : SharingFrame) (last : Bool)
  | file (id : ℤ) (name : Option Str) (total : ℤ) (offset flags index : ℤ) (body : Bytes)
  | text (id total : ℤ) (offset flags index : ℤ) (body : Bytes)
  deriving DecidableEq, Repr

def Frame.isData : Frame → Bool
  | .file .. | .text .. => true
  | _ => false

/-- A frame that answers the receiver: it carries nothing, and does not take the offer back. -/
def Frame.answers : Frame → Bool
  | .file .. | .text .. | .sharing .cancel _ => false
  | _ => true

inductive Wrote
  | whole
  | failed
  | stalled
  deriving DecidableEq, Repr

inductive Broke
  | failed
  | stalled
  deriving DecidableEq, Repr

def Wrote.result : Wrote → Except Broke Unit
  | .whole => .ok ()
  | .failed => .error .failed
  | .stalled => .error .stalled

/-- What happened: a frame went out, with its number if it is encrypted, or an event came of one. -/
inductive Entry
  | sent (frame : Frame) (seq : Option ℤ) (whole : Bool)
  | heard (event : OutboundEvent)
  deriving DecidableEq, Repr

structure InternalFileInfo where
  bytesTransferred : ℤ
  totalSize : ℤ
  chunks : ℤ
  deriving DecidableEq, Repr

/-- What matters of the type of a sharing frame. -/
inductive SharingType
  | cancel
  | response
  | other
  deriving DecidableEq, Repr

/-- A sharing frame of the receiver, with the parts that are looked for. -/
structure Sharing where
  type : SharingType
  pairedKeyEncryption : Bool
  pairedKeyResult : Bool
  connectionResponse : Option Status
  deriving DecidableEq, Repr

structure PayloadTransfer where
  bytes : Bool
  id : ℤ
  totalSize : ℤ
  chunk : PayloadChunk
  deriving DecidableEq, Repr

inductive Offline
  | payloadTransfer (transfer : Option PayloadTransfer)
  | keepAlive
  | disconnection
  | other
  deriving DecidableEq, Repr

/-- What a secure message is found to be: its signature, its schemes, and what is in it. -/
structure Secure where
  authentic : Bool
  schemes : Bool
  -- The number and the frame, if it can be decrypted; the frame may not decode, or be empty.
  message : Option (ℤ × Option (Option Offline))
  deriving DecidableEq, Repr

structure Ukey2ServerInit where
  version : ℤ
  randomLen : ℕ
  p256Sha512 : Bool
  publicKey : Bool
  -- It is a point of the curve, and keys are derived with it.
  agrees : Bool
  deriving DecidableEq, Repr

structure Ukey2Message where
  isServerInit : Bool
  serverInit : Option Ukey2ServerInit
  deriving DecidableEq, Repr

/-- The receiver's connection response; `windows` is what it says of its system. -/
structure ConnectionResponse where
  windows : Bool
  accept : Bool
  deriving DecidableEq, Repr

/-- A frame as it is read: its length, and what each decoder makes of it. -/
structure Incoming where
  len : ℕ
  ukey2 : Option Ukey2Message
  -- A frame that decodes may have no connection response.
  response : Option (Option ConnectionResponse)
  secure : Option Secure
  deriving DecidableEq, Repr

structure Outbound where
  state : TransferState := .initial
  serverSeq : ℤ := 0
  clientSeq : ℤ := 0
  encryptionDone : Bool := false
  keys : Bool := false
  payload : OutboundPayload
  fileIds : List ℤ := []
  textId : Option ℤ := none
  peerWindows : Bool := false
  transferredFiles : Table ℤ InternalFileInfo := .empty
  payloadBuffers : Table ℤ BytePayload := .empty
  log : List Entry := []

def saneFrameLength : ℕ := 5 * 1024 * 1024

def maxControlPayloadLength : ℤ := 256 * 1024

namespace Outbound

variable (o : Outbound)

def new (payload : OutboundPayload) : Outbound where payload

/-- `write_frame`. -/
def write (frame : Frame) (seq : Option ℤ) (w : Wrote) : Outbound × Except Broke Unit :=
  ({ o with log := o.log ++ [.sent frame seq (w = .whole)] }, w.result)

/-- The number is counted up before the keys are looked for. -/
def encryptAndSend (frame : Frame) (w : Wrote) : Outbound × Except Broke Unit :=
  if 2 ^ 31 - 1 ≤ o.serverSeq then (o, .error .failed)
  else
    let o := { o with serverSeq := o.serverSeq + 1 }
    if o.keys then o.write frame (some o.serverSeq) w else (o, .error .failed)

/-- Frames one after the other, to the first that is not written. -/
def sendAll : Outbound → List Frame → List Wrote → Outbound × Except Broke Unit
  | o, [], _ => (o, .ok ())
  | o, f :: fs, io =>
    match o.encryptAndSend f (io.headD .whole) with
    | (o, .ok ()) => o.sendAll fs io.tail
    | (o, .error e) => (o, .error e)

/-- The two chunks of `send_encrypted_frame`. -/
def sharingFrames (frame : SharingFrame) : List Frame := [.sharing frame false, .sharing frame true]

/-- `send_keepalive` and `disconnection`: in the clear before there are keys. -/
def sendEither (frame : Frame) (w : Wrote) : Outbound × Except Broke Unit :=
  if o.encryptionDone then o.encryptAndSend frame w else o.write frame none w

def sendConnectionRequest (w : Wrote) : Outbound × Except Broke Unit :=
  o.write .connectionRequest none w

def sendUkey2ClientInit (w : Wrote) : Outbound × Except Broke Unit :=
  match o.write .ukey2ClientInit none w with
  | (o, .ok ()) => ({ o with state := .sentUkeyClientInit }, .ok ())
  | r => r

/-- An alert says why, and the exchange is over whether or not it is written. -/
def alert (type : AlertType) (w : Wrote) : Outbound × Except Broke Unit :=
  match o.write (.ukey2Alert type) none w with
  | (o, .ok ()) => (o, .error .failed)
  | r => r

def processUkey2ServerInit (msg : Ukey2Message) (io : List Wrote) : Outbound × Except Broke Unit :=
  let w := io.headD .whole
  if msg.isServerInit = false then o.alert .badMessageType w
  else match msg.serverInit with
    | none => (o, .error .failed)
    | some i =>
      if i.version ≠ 1 then o.alert .badVersion w
      else if i.randomLen ≠ 32 then o.alert .badRandom w
      else if i.p256Sha512 = false then o.alert .badHandshakeCipher w
      else if i.publicKey = false then (o, .error .failed)
      else if i.agrees = false then (o, .error .failed)
      else
        let o := { o with keys := true, encryptionDone := true }
        match o.write .ukey2ClientFinish none w with
        | (o, .ok ()) => o.write .connectionResponse none (io.tail.headD .whole)
        | r => r

def processConnectionResponse (response : Option ConnectionResponse) (io : List Wrote) :
    Outbound × Except Broke Unit :=
  match response with
  | none => (o, .error .failed)
  | some r =>
    let o := { o with peerWindows := r.windows }
    if r.accept = false then (o, .error .failed)
    else o.sendAll (sharingFrames .pairedKeyEncryption) io

/-- `decrypt_secure_message`: each message has the number after the last one's. -/
def decryptSecureMessage (m : Secure) : Outbound × Except Broke (Option Offline) :=
  if o.keys = false ∨ m.authentic = false ∨ m.schemes = false then (o, .error .failed)
  else match m.message with
    | none => (o, .error .failed)
    | some (seq, offline) =>
      if 2 ^ 31 - 1 ≤ o.clientSeq then (o, .error .failed)
      else
        let o := { o with clientSeq := o.clientSeq + 1 }
        if seq ≠ o.clientSeq then (o, .error .failed)
        else match offline with
          | none => (o, .error .failed)
          | some offline => (o, .ok offline)

def processPairedKeyEncryptionFrame (frame : Sharing) (io : List Wrote) :
    Outbound × Except Broke Unit :=
  if frame.pairedKeyEncryption = false then (o, .error .failed)
  else o.sendAll (sharingFrames .pairedKeyResult) io

def metaType (f : QsFile) : MetaType :=
  if "image/".toList.isPrefixOf f.mimeType then .image
  else if "video/".toList.isPrefixOf f.mimeType then .video
  else if "audio/".toList.isPrefixOf f.mimeType then .audio
  else if ".apk".toList.isSuffixOf f.name then .app
  else .unknown

/-- The metadata of a file: `ids` are the two numbers drawn for it. -/
def fileMetadata (f : QsFile) (ids : NewId × NewId) : FileMetadata :=
  ⟨ids.1, f.name, f.size, f.mimeType, metaType f, ids.2⟩

/-- The files as they are introduced, and the book-keeping for each. -/
def introduceFiles (metadata : List FileMetadata) : Outbound :=
  { o with
    fileIds := metadata.map FileMetadata.payloadId
    textId := none
    transferredFiles :=
      metadata.foldl (fun t m => t.set m.payloadId ⟨0, m.size, 0⟩) .empty }

/-- `draws` are the numbers that `new_id` gives, two for each file or for the text. -/
def introduce (draws : ℕ → NewId × NewId) : Outbound × SharingFrame :=
  match o.payload with
  | .files files =>
    let metadata := files.mapIdx fun i f => fileMetadata f (draws i)
    (o.introduceFiles metadata, .introduction metadata [])
  | .text t =>
    let size : ℤ := (utf8 t.text).length
    ({ o with fileIds := [], textId := some (draws 0).1, transferredFiles := .empty },
      .introduction [] [⟨t.title, t.kind.wire, (draws 0).1, size, (draws 0).2⟩])

def processPairedKeyResult (frame : Sharing) (draws : ℕ → NewId × NewId) (io : List Wrote) :
    Outbound × Except Broke Unit :=
  if frame.pairedKeyResult = false then (o, .error .failed)
  else
    let (o, introduction) := o.introduce draws
    o.sendAll (sharingFrames introduction ++ sharingFrames (.response .accept)) io

/-- The goodbye is best effort, but the caller may not wait for it. -/
def goodbyeThen {α : Type} (w : Wrote) (a : α) : Outbound × Except Broke α :=
  match o.sendEither .disconnection w with
  | (o, .error .stalled) => (o, .error .stalled)
  | (o, _) => (o, .ok a)

def processConsent (frame : Sharing) (io : List Wrote) : Outbound × Except Broke OutboundEvent :=
  match frame.type, frame.connectionResponse with
  | .response, some .accept => ({ o with state := .sendingFiles }, .ok .accepted)
  | .response, some .unknown =>
    { o with state := .disconnected }.goodbyeThen (io.headD .whole) (.rejected .unknown)
  | .response, some status =>
    { o with state := .rejected }.goodbyeThen (io.headD .whole) (.rejected status)
  | _, _ => (o, .error .failed)

def processTransferSetup (frame : Option Sharing) (draws : ℕ → NewId × NewId) (io : List Wrote) :
    Outbound × Except Broke (Option OutboundEvent) :=
  match frame with
  | none => (o, .error .failed)
  | some frame =>
    if frame.type = .cancel then
      { o with state := .cancelled }.goodbyeThen (io.headD .whole) (some .cancelled)
    else match o.state with
      | .sentPairedKeyEncryption =>
        match o.processPairedKeyEncryptionFrame frame io with
        | (o, .ok ()) => ({ o with state := .sentPairedKeyResult }, .ok none)
        | (o, .error e) => (o, .error e)
      | .sentPairedKeyResult =>
        match o.processPairedKeyResult frame draws io with
        | (o, .ok ()) => ({ o with state := .sentIntroduction }, .ok (some .introductionSent))
        | (o, .error e) => (o, .error e)
      | .sentIntroduction =>
        match o.processConsent frame io with
        | (o, .ok e) => (o, .ok (some e))
        | (o, .error e) => (o, .error e)
      | _ => (o, .ok none)

section Decode

/-! `decode` is what protobuf makes of the bytes of a sharing frame; a frame may be empty. -/

variable (decode : Bytes → Option (Option Sharing))

def decryptAndProcessSecureMessage (m : Secure) (draws : ℕ → NewId × NewId) (io : List Wrote) :
    Outbound × Except Broke (Option OutboundEvent) :=
  match o.decryptSecureMessage m with
  | (o, .error e) => (o, .error e)
  | (o, .ok none) => (o, .error .failed)
  | (o, .ok (some (.payloadTransfer none))) => (o, .error .failed)
  | (o, .ok (some (.payloadTransfer (some t)))) =>
    if t.bytes then
      match assemble o.payloadBuffers t.id t.totalSize maxControlPayloadLength t.chunk with
      | (.error _, payloadBuffers) => ({ o with payloadBuffers }, .error .failed)
      | (.ok none, payloadBuffers) => ({ o with payloadBuffers }, .ok none)
      | (.ok (some buffer), payloadBuffers) =>
        match decode buffer with
        | none => ({ o with payloadBuffers }, .error .failed)
        | some frame => { o with payloadBuffers }.processTransferSetup frame draws io
    else (o, .ok none)
  | (o, .ok (some .keepAlive)) =>
    match o.sendEither (.keepAlive true) (io.headD .whole) with
    | (o, .ok ()) => (o, .ok none)
    | (o, .error e) => (o, .error e)
  | (o, .ok (some .disconnection)) => ({ o with state := .disconnected }, .ok (some .disconnected))
  | (o, .ok (some .other)) => (o, .ok none)

def dispatch (f : Incoming) (draws : ℕ → NewId × NewId) (io : List Wrote) :
    Outbound × Except Broke (Option OutboundEvent) :=
  if saneFrameLength < f.len then (o, .error .failed)
  else match o.state with
    | .sentUkeyClientInit =>
      match f.ukey2 with
      | none => (o, .error .failed)
      | some msg =>
        match o.processUkey2ServerInit msg io with
        | (o, .ok ()) =>
          ({ o with state := .sentUkeyClientFinish, encryptionDone := true }, .ok none)
        | (o, .error e) => (o, .error e)
    | .sentUkeyClientFinish =>
      match f.response with
      | none => (o, .error .failed)
      | some response =>
        match o.processConnectionResponse response io with
        | (o, .ok ()) =>
          ({ o with state := .sentPairedKeyEncryption, encryptionDone := true }, .ok none)
        | (o, .error e) => (o, .error e)
    | _ =>
      match f.secure with
      | none => (o, .error .failed)
      | some m => o.decryptAndProcessSecureMessage decode m draws io

/-- `process_frame`, with the event written down. -/
def processFrame (f : Incoming) (draws : ℕ → NewId × NewId) (io : List Wrote) :
    Outbound × Except Broke (Option OutboundEvent) :=
  match o.dispatch decode f draws io with
  | (o, .ok (some e)) => ({ o with log := o.log ++ [.heard e] }, .ok (some e))
  | r => r

end Decode

def fileName (payloadId : ℤ) : Option Str :=
  match o.payload with
  | .text _ => none
  | .files files =>
    if payloadId ∈ o.fileIds then files[o.fileIds.idxOf payloadId]?.map QsFile.name else none

/-- A chunk never goes past the announced size, and the counts are kept in 64 and 32 bits. -/
def sendFileChunk (payloadId : ℤ) (body : Bytes) (w : Wrote) : Outbound × Except Broke Unit :=
  match o.transferredFiles.lookup payloadId with
  | none => (o, .error .failed)
  | some info =>
    let after := info.bytesTransferred + body.length
    if 2 ^ 63 ≤ after then (o, .error .failed)
    else if info.totalSize < after then (o, .error .failed)
    else if 2 ^ 31 - 1 ≤ info.chunks then (o, .error .failed)
    else
      let frame :=
        Frame.file payloadId (o.fileName payloadId) info.totalSize info.bytesTransferred 0
          info.chunks body
      match o.encryptAndSend frame w with
      | (o, .ok ()) =>
        let info := { info with bytesTransferred := after, chunks := info.chunks + 1 }
        ({ o with transferredFiles := o.transferredFiles.set payloadId info }, .ok ())
      | r => r

def finishFile (payloadId : ℤ) (w : Wrote) : Outbound × Except Broke Unit :=
  match o.transferredFiles.lookup payloadId with
  | none => (o, .error .failed)
  | some info =>
    if info.bytesTransferred ≠ info.totalSize then (o, .error .failed)
    else
      let frame :=
        Frame.file payloadId (o.fileName payloadId) info.totalSize info.totalSize 1 info.chunks []
      match o.encryptAndSend frame w with
      | (o, .ok ()) => ({ o with transferredFiles := o.transferredFiles.remove payloadId }, .ok ())
      | r => r

def textFrames (id : ℤ) (text : Str) : List Frame :=
  let body := utf8 text
  [.text id body.length 0 0 0 body, .text id body.length body.length 1 1 []]

def sendText (io : List Wrote) : Outbound × Except Broke Unit :=
  match o.payload, o.textId with
  | .text t, some id => o.sendAll (textFrames id t.text) io
  | _, _ => (o, .error .failed)

/-- `wait_for_peer_close`: the frames that come before the grace is over or the peer is gone, and
which of the two it is; nothing if the caller's time runs out first. -/
def waitForPeerClose : Outbound → List (Option Secure × Wrote) → Option Bool →
    Outbound × Except Broke Bool
  | o, [], none => (o, .error .stalled)
  | o, [], some closed => (o, .ok closed)
  | o, (none, _) :: _, _ => (o, .ok true)
  | o, (some m, w) :: rest, closed =>
    match o.decryptSecureMessage m with
    | (o, .error _) => (o, .ok true)
    | (o, .ok (some .disconnection)) => (o, .ok true)
    | (o, .ok (some .keepAlive)) =>
      match o.sendEither (.keepAlive true) w with
      | (o, .error .stalled) => (o, .error .stalled)
      | (o, _) => o.waitForPeerClose rest closed
    | (o, .ok _) => o.waitForPeerClose rest closed

/-- How the end of a transfer goes: the two waits for the peer, and our own goodbye between them. -/
structure Linger where
  first : List (Option Secure × Wrote)
  firstClosed : Option Bool
  goodbye : Wrote
  second : List (Option Secure × Wrote)
  secondClosed : Option Bool
  deriving DecidableEq, Repr

/-- The receiver hangs up first; one that does not is told goodbye, unless it runs Windows. -/
def finish (l : Linger) : Outbound × Except Broke Unit :=
  match o.waitForPeerClose l.first l.firstClosed with
  | (o, .error e) => (o, .error e)
  | (o, .ok true) => ({ o with state := .finished }, .ok ())
  | (o, .ok false) =>
    if o.peerWindows then ({ o with state := .finished }, .ok ())
    else match o.sendEither .disconnection l.goodbye with
      | (o, .error e) => (o, .error e)
      | (o, .ok ()) =>
        match o.waitForPeerClose l.second l.secondClosed with
        | (o, .error e) => (o, .error e)
        | (o, .ok _) => ({ o with state := .finished }, .ok ())

def cancelTransfer (io : List Wrote) : Outbound × Except Broke Unit :=
  match o.sendAll (sharingFrames .cancel) io with
  | (o, .ok ()) => { o with state := .cancelled }.sendEither .disconnection (io.getD 2 .whole)
  | r => r

end Outbound

end Sukkula.QuickShare
