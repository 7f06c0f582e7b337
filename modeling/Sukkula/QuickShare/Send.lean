import Sukkula.Config.Settings
import Sukkula.LocalSend.Deliver
import Sukkula.QuickShare.Chunks
import Sukkula.QuickShare.Writes

/-! # A Quick Share send

`run` and `session`: the connection, the handshake up to the introduction, the
wait for the receiver's user, then the files or the text, and the end. A step is
what happens between two waits; the network, the file system, the clock and the
user decide how each of them ends. What is read from each file is written down,
for the statements.
-/

namespace Sukkula.QuickShare

open Str Transition Assoc
open Croc (utf8)
open Text (display)
open Config (maxAliasChars)
open LocalSend (ErrorInfo cancelled ioChunkBytes)

/-- A file of the send, with the size that was checked. -/
structure OutgoingFile where
  name : Str
  size : ℕ
  mime : Option Str
  deriving DecidableEq, Repr

inductive Outgoing
  | file (f : OutgoingFile)
  | text (t : Str)
  deriving DecidableEq, Repr

inductive SendPayload
  | files (files : List OutgoingFile)
  | text (t : Str)
  deriving DecidableEq, Repr

def filesOf (items : List Outgoing) : List OutgoingFile := items.filterMap fun
  | .file f => some f
  | .text _ => none

def textsOf (items : List Outgoing) : List Str := items.filterMap fun
  | .file _ => none
  | .text t => some t

def sendPayload (items : List Outgoing) : Except ErrorInfo SendPayload :=
  match filesOf items, textsOf items with
  | f :: fs, [] => .ok (.files (f :: fs))
  | [], [t] => .ok (.text t)
  | _, _ => .error ⟨.unavailable, "Quick Share sends files, or one text, at a time"⟩

def totalSize (items : List Outgoing) : ℕ :=
  (items.map fun
    | .file f => f.size
    | .text t => (utf8 t).length).sum

/-- `i64::try_from`, with the greatest number for what does not fit. -/
def toI64 (n : ℕ) : ℤ := if n < 2 ^ 63 then n else 2 ^ 63 - 1

def OutgoingFile.wire (f : OutgoingFile) : QsFile :=
  ⟨f.name, toI64 f.size, f.mime.getD "application/octet-stream".toList⟩

def SendPayload.wire : SendPayload → OutboundPayload
  | .files fs => .files (fs.map OutgoingFile.wire)
  | .text t => .text ⟨.text, display t maxAliasChars, t⟩

/-- Most frames from the receiver handled between two chunks. -/
def maxFramesPerPoll : ℕ := 16

inductive Stop
  | cancelledThere
  | failed (error : ErrorInfo)
  deriving DecidableEq, Repr

/-- What `within` makes of an operation that did not get to its end. -/
def Broke.error : Broke → ErrorInfo
  | .failed => ⟨.network, "the connection failed"⟩
  | .stalled => ⟨.network, "the peer stopped responding"⟩

def hungUp : ErrorInfo := ⟨.network, "the device hung up"⟩

def unreadable : ErrorInfo := ⟨.badFile, "a file could not be read"⟩

/-- How a transfer the receiver ended ends here. -/
def ended : OutboundEvent → Stop
  | .rejected _ => .failed ⟨.refused, "the device declined"⟩
  | .cancelled => .cancelledThere
  | .disconnected | .accepted | .introductionSent => .failed hungUp

/-- The locals of `send_file`, and the files after it. -/
structure Cursor where
  id : ℤ
  file : OutgoingFile
  rest : List (ℤ × OutgoingFile)
  remaining : ℕ
  deriving DecidableEq, Repr

namespace Send

inductive Phase
  | connecting
  -- In `send_connection_request`.
  | requesting
  -- In `send_ukey2_client_init`.
  | starting
  | handshake
  -- In the loop until the receiver's user decides.
  | consent
  -- In `open_checked`.
  | opening (id : ℤ) (file : OutgoingFile) (rest : List (ℤ × OutgoingFile))
  | sending (c : Cursor)
  -- In `poll_incoming`, before a chunk is read; so many more frames may be handled.
  | polling (c : Cursor) (left : ℕ)
  | reading (c : Cursor)
  | writing (c : Cursor) (body : Bytes)
  -- A write failed; its reason may still be waiting in the socket.
  | looking (error : ErrorInfo) (left : ℕ)
  -- In `finish_file`.
  | closing (c : Cursor)
  -- In `send_text`.
  | texting (t : Str)
  -- In `finish`.
  | finishing
  -- In `cancel_transfer`.
  | goodbye (error : ErrorInfo)
  | ended (result : Except Stop Unit)
  deriving DecidableEq, Repr

structure Metadata where
  isFile : Bool
  len : ℕ
  deriving DecidableEq, Repr

inductive Act
  | cancel
  -- The token's branch of a `select!` is taken.
  | giveWay
  | connected (ok : Bool)
  | requested (w : Wrote)
  | started (w : Wrote)
  | frame (f : Incoming) (draws : ℕ → NewId × NewId) (io : List Wrote)
  -- `read_frame` fails.
  | closed
  -- The deadline of `next_event` is over.
  | deadline
  | quiet
  -- The file is opened, and its handle looked at.
  | opened (metadata : Option Metadata)
  | check
  | read (bytes : Option Bytes)
  | wrote (w : Wrote)
  | finished (w : Wrote)
  | texted (io : List Wrote)
  | lingered (l : Outbound.Linger)
  | saidGoodbye (io : List Wrote)

end Send

structure Send where
  payload : SendPayload
  outbound : Outbound
  phase : Send.Phase := .connecting
  tokenCancelled : Bool := false
  -- The amounts of all the calls of `add_progress`.
  progress : List ℕ := []
  -- The pieces read of each file that was opened.
  pieces : List (List Bytes) := []

namespace Send

variable (s : Send)

def start (payload : SendPayload) : Send where
  payload
  outbound := .new payload.wire

def fail (e : ErrorInfo) : Send := { s with phase := .goodbye e }

def stop : Stop → Send
  | .cancelledThere => { s with phase := .ended (.error .cancelledThere) }
  | .failed e => s.fail e

def nextFile : List (ℤ × OutgoingFile) → Phase
  | [] => .finishing
  | (id, file) :: rest => .opening id file rest

def begin : Send :=
  match s.payload with
  | .files files =>
    if s.outbound.fileIds.length ≠ files.length then s.fail ⟨.internal, "file ids out of step"⟩
    else { s with phase := nextFile (s.outbound.fileIds.zip files) }
  | .text t => { s with phase := .texting t }

/-- What `session` and `poll_incoming` do with an event: the loops go on as `next` says. -/
def onEvent (next : Option OutboundEvent → Option Send) : Except Broke (Option OutboundEvent) → Send
  | .error b => s.fail b.error
  | .ok none => (next none).getD s
  | .ok (some e) => (next (some e)).getD (s.stop (QuickShare.ended e))

def polled (c : Cursor) : ℕ → Send
  | 0 => { s with phase := .reading c }
  | left + 1 => { s with phase := .polling c (left + 1) }

def looked (e : ErrorInfo) : ℕ → Send
  | 0 => s.fail e
  | left + 1 => { s with phase := .looking e (left + 1) }

def duringHandshake : Option OutboundEvent → Option Send
  | none => some s
  | some .introductionSent => some { s with phase := .consent }
  | some _ => none

/-- The loop until the receiver's user decides. -/
def duringConsent : Option OutboundEvent → Option Send
  | none | some .introductionSent => some s
  | some .accepted => some s.begin
  | some _ => none

/-- `poll_incoming` goes on, as `next` says. -/
def duringPoll (next : Send) : Option OutboundEvent → Option Send
  | none | some .accepted | some .introductionSent => some next
  | some _ => none

/-- A frame of the receiver is read and processed. -/
def onFrame (decode : Bytes → Option (Option Sharing)) (f : Incoming) (draws : ℕ → NewId × NewId)
    (io : List Wrote) : Option Send :=
  let (outbound, r) := s.outbound.processFrame decode f draws io
  let t := { s with outbound }
  match s.phase with
  | .handshake => some (t.onEvent t.duringHandshake r)
  | .consent => some (t.onEvent t.duringConsent r)
  | .polling c (left + 1) => some (t.onEvent (duringPoll (t.polled c left)) r)
  | .looking e (left + 1) => some (t.onEvent (duringPoll (t.looked e left)) r)
  | _ => none

/-- The handle is that of the file that was checked, or the file is refused. -/
def opened (id : ℤ) (file : OutgoingFile) (rest : List (ℤ × OutgoingFile))
    (metadata : Option Metadata) : Send :=
  match metadata with
  | none => s.fail unreadable
  | some found =>
    if found.isFile = false ∨ found.len ≠ file.size then
      s.fail ⟨.badFile, "a file changed after it was chosen"⟩
    else { s with phase := .sending ⟨id, file, rest, file.size⟩, pieces := s.pieces ++ [[]] }

/-- The last file that was opened has one more piece. -/
def addPiece (body : Bytes) : List (List Bytes) :=
  s.pieces.dropLast ++ [s.pieces.getLastD [] ++ [body]]

/-- At most what is left of the file is read, and at most a chunk. -/
def onRead (c : Cursor) : Option Bytes → Option Send
  | none => some (s.fail unreadable)
  | some [] => some (s.fail ⟨.badFile, "a file got shorter while it was sent"⟩)
  | some body =>
    if body.length ≤ min c.remaining ioChunkBytes then
      some { s with phase := .writing c body, pieces := s.addPiece body }
    else none

def wroteChunk (c : Cursor) (body : Bytes) (w : Wrote) : Send :=
  match s.outbound.sendFileChunk c.id body w with
  | (outbound, .ok ()) =>
    { s with
      outbound
      phase := .sending { c with remaining := c.remaining - body.length }
      progress := s.progress ++ [body.length] }
  | (outbound, .error b) => { s with outbound, phase := .looking b.error maxFramesPerPoll }

/-- Whether an operation of the connection got to its end: on with `next`, or not. -/
def settle (next : Send → Send) : Outbound × Except Broke Unit → Send
  | (outbound, .ok ()) => next { s with outbound }
  | (outbound, .error b) => { s with outbound }.fail b.error

def step (decode : Bytes → Option (Option Sharing)) (s : Send) (a : Act) : Option Send :=
  match s.phase, a with
  | _, .cancel => some { s with tokenCancelled := true }
  | .connecting, .giveWay =>
    if s.tokenCancelled then some { s with phase := .ended (.error (.failed cancelled)) } else none
  | .connecting, .connected true => some { s with phase := .requesting }
  | .connecting, .connected false =>
    some { s with phase := .ended (.error (.failed ⟨.network, "could not reach the device"⟩)) }
  | .requesting, .requested w =>
    some (s.settle (fun s => { s with phase := .starting }) (s.outbound.sendConnectionRequest w))
  | .starting, .started w =>
    some (s.settle (fun s => { s with phase := .handshake }) (s.outbound.sendUkey2ClientInit w))
  | .handshake, .giveWay | .consent, .giveWay =>
    if s.tokenCancelled then some (s.fail cancelled) else none
  | .handshake, .closed | .consent, .closed => some (s.fail hungUp)
  | .handshake, .deadline | .consent, .deadline =>
    some (s.fail ⟨.network, "the device stopped responding"⟩)
  | _, .frame f draws io => s.onFrame decode f draws io
  | .opening id file rest, .opened metadata => some (s.opened id file rest metadata)
  | .sending c, .check =>
    if c.remaining = 0 then some { s with phase := .closing c }
    else if s.tokenCancelled then some (s.fail cancelled)
    else some { s with phase := .polling c maxFramesPerPoll }
  | .polling c _, .quiet => some { s with phase := .reading c }
  | .polling _ _, .closed | .looking _ _, .closed => some (s.fail hungUp)
  | .reading c, .read bytes => s.onRead c bytes
  | .writing c body, .wrote w => some (s.wroteChunk c body w)
  | .looking e _, .quiet => some (s.fail e)
  | .closing c, .finished w =>
    some (s.settle (fun s => { s with phase := nextFile c.rest }) (s.outbound.finishFile c.id w))
  | .texting t, .texted io =>
    some (s.settle (fun s => { s with
      phase := .finishing, progress := s.progress ++ [(utf8 t).length] }) (s.outbound.sendText io))
  | .finishing, .lingered l =>
    some (s.settle (fun s => { s with phase := .ended (.ok ()) }) (s.outbound.finish l))
  | .goodbye e, .saidGoodbye io =>
    some { s with
      outbound := (s.outbound.cancelTransfer io).1, phase := .ended (.error (.failed e)) }
  | _, _ => none

end Send

end Sukkula.QuickShare
