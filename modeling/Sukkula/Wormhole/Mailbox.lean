import Sukkula.Config.Unique
import Sukkula.LocalSend.Session
import Sukkula.Library.Checks
import Sukkula.Library.Transition

/-! # The mailbox guard

The wormhole library panics on messages that it does not expect. The guard stands
between it and the server: it passes on what the library can take where it will
read it, and closes the connection on the first message that it cannot.
-/

namespace Sukkula.Wormhole

open LocalSend (ErrorInfo)
open Transition

def maxServerMessages : ℕ := 128

def maxServerBytes : ℕ := 4 * 1024 * 1024

def maxHashcashBits : ℕ := 20

def maxHashcashResourceBytes : ℕ := 256

def maxSideBytes : ℕ := 64

def maxPhaseDigits : ℕ := 20

def minSealedBodyHex : ℕ := 2 * (24 + 16)

def maxPakeBodyHex : ℕ := 1024

def badServer (message : String) : ErrorInfo := ⟨.network, message⟩

section Values

/-- The value of a key; of none but an object. -/
def get (key : Str) : Json → Option Json
  | .object entries => entries.lookup key
  | _ => none

/-- Where a key may be given twice, the last value is kept. -/
def getLast (key : Str) : Json → Option Json
  | .object entries => entries.reverse.lookup key
  | _ => none

def asStr : Json → Option Str
  | .string s => some s
  | _ => none

def asU64 : Json → Option ℕ
  | .number (.integer i) => if 0 ≤ i ∧ i < 2 ^ 64 then some i.toNat else none
  | _ => none

/-- `str::parse::<u64>` -/
def parseU64 (s : Str) : Option ℕ :=
  let digits := if s.head? = some '+' then s.tail else s
  let n := Nat.ofDigitChars 10 digits 0
  if digits ≠ [] ∧ digits.all Char.isDigit ∧ n < 2 ^ 64 then some n else none

def isHexDigit (c : Char) : Bool :=
  c.isDigit || ('a' ≤ c && c ≤ 'f') || ('A' ≤ c && c ≤ 'F')

end Values

structure Conversation where
  messages : ℕ := 0
  bytes : ℕ := 0
  -- The library's side, from its `bind`.
  ours : Option Str := none
  -- The phases of the new peer messages let through, in order.
  taken : List Str := []
  deriving DecidableEq

section Guard

variable (parse : Str → Option Json)

/-- Notes a message the library sends: its `bind` says which side is ours. -/
def noteLibraryMessage (seen : Conversation) (text : Str) : Conversation :=
  if seen.ours.isSome then seen
  else
    match parse text with
    | none => seen
    | some v =>
      if (getLast "type".toList v).bind asStr ≠ some "bind".toList then seen
      else
        match (getLast "side".toList v).bind asStr with
        | some side =>
          if side ≠ [] ∧ side.len ≤ maxSideBytes then { seen with ours := some side } else seen
        | none => seen

/-- A server message, unless some object in it names a key twice. -/
def strictJson (text : Str) : Option Json := (parse text).bind Config.unique

def checkWelcome (v : Json) : Except ErrorInfo Unit :=
  match ((get "welcome".toList v).bind (get "permission-required".toList)).bind
      (get "hashcash".toList) with
  | none => .ok ()
  | some .null => .ok ()
  | some hashcash =>
    let bitsOk := ((get "bits".toList hashcash).bind asU64).any (· ≤ maxHashcashBits)
    let resourceOk :=
      ((get "resource".toList hashcash).bind asStr).any (·.len ≤ maxHashcashResourceBytes)
    if bitsOk ∧ resourceOk then .ok ()
    else .error (badServer "the mailbox server demands too much work")

/-- A phase and a body that are right by themselves. -/
def shapely (phase body : Str) : Bool :=
  if phase = "pake".toList then body.len ≤ maxPakeBodyHex
  else if phase = "version".toList then minSealedBodyHex ≤ body.len
  else phase.len ≤ maxPhaseDigits && phase.all Char.isDigit && (parseU64 phase).isSome &&
    minSealedBodyHex ≤ body.len

/-- The phase is the one that the library will take after so many. -/
def inPlace (taken : ℕ) (phase : Str) : Bool :=
  match taken with
  | 0 => phase = "pake".toList
  | 1 => phase = "version".toList
  | _ => phase ≠ "pake".toList ∧ phase ≠ "version".toList

def checkPeerMessage (v : Json) (seen : Conversation) : Except ErrorInfo Conversation := do
  let bad := badServer "the mailbox server relayed a malformed message"
  let side ← okOr bad ((get "side".toList v).bind asStr)
  ensure (¬ (side = [] ∨ maxSideBytes < side.len)) bad
  let phase ← okOr bad ((get "phase".toList v).bind asStr)
  let body ← okOr bad ((get "body".toList v).bind asStr)
  ensure (body.len % 2 = 0 ∧ body.all isHexDigit) bad
  ensure (shapely phase body) bad
  let ours ← okOr (badServer "the mailbox server relayed a message before the mailbox was open")
    seen.ours
  -- Skipped unread by the library: an echo, or a phase it has already taken.
  if side = ours ∨ phase ∈ seen.taken then return seen
  ensure (inPlace seen.taken.length phase)
    (badServer "the mailbox server relayed a message out of order")
  return { seen with taken := seen.taken ++ [phase] }

/-- Checks one message from the server before the library sees it. The counters move whether or
not it passes. -/
def checkServerMessage (text : Str) (seen : Conversation) :
    Except ErrorInfo Unit × Conversation :=
  let seen := { seen with messages := seen.messages + 1, bytes := seen.bytes + text.len }
  if maxServerMessages < seen.messages ∨ maxServerBytes < seen.bytes then
    (.error (badServer "the mailbox server sent too much"), seen)
  else
    match strictJson parse text with
    | none => (.error (badServer "the mailbox server sent malformed JSON"), seen)
    | some v =>
      match (get "type".toList v).bind asStr with
      | none => (.error (badServer "the mailbox server sent a message without a type"), seen)
      | some type =>
        if type = "welcome".toList then (checkWelcome v, seen)
        else if type = "message".toList then
          match checkPeerMessage v seen with
          | .ok seen => (.ok (), seen)
          | .error e => (.error e, seen)
        else (.ok (), seen)

end Guard

section Library

structure Library where
  -- The side of its `bind`.
  side : Option Str := none
  processed : List Str := []
  panicked : Bool := false
  deriving DecidableEq

/-- A field of one of its messages: text, given once. -/
def once (key : Str) : Json → Option Str
  | .object entries =>
    match entries.filter fun e => e.1 = key with
    | [(_, v)] => asStr v
    | _ => none
  | _ => none

/-- Whether it panics on the message that it takes after so many: nothing of the first is
looked at, the second is opened, and of all others the phase is read as a number first. -/
def panics (taken : ℕ) (phase body : Str) : Bool :=
  match taken with
  | 0 => false
  | 1 => body.len / 2 < 24
  | _ => (parseU64 phase).isNone || body.len / 2 < 24

/-- It skips its own messages and phases that it has taken, and uses any other message by its
place. -/
def Library.take (l : Library) : Option Str → Option Str → Option Str → Option Str → Library
  | some type, some side, some phase, some body =>
    if type ≠ "message".toList ∨ l.side = some side ∨ phase ∈ l.processed then l
    else
      { l with
        processed := l.processed ++ [phase]
        panicked := l.panicked || panics l.processed.length phase body }
  | _, _, _, _ => l

def Library.read (l : Library) (v : Json) : Library :=
  l.take (once "type".toList v) (once "side".toList v) (once "phase".toList v)
    (once "body".toList v)

/-- It sends one `bind`, with a side that is not empty, and else whatever it likes. -/
def Library.send (l : Library) (message : Option Json) : Option Library :=
  match message with
  | none => some l
  | some v =>
    if (getLast "type".toList v).bind asStr ≠ some "bind".toList then some l
    else
      match l.side, (getLast "side".toList v).bind asStr with
      | none, some side => if side = [] then none else some { l with side := some side }
      | _, _ => none

end Library

/-- A connection: the guard, the library behind it, and what was passed on. -/
structure Mailbox where
  guard : Conversation := {}
  library : Library := {}
  passed : List Str := []
  closed : Bool := false

inductive Act
  | library (text : Str)
  | server (text : Str)

namespace Mailbox

variable (parse : Str → Option Json)

def step (s : Mailbox) : Act → Option Mailbox
  | .library text =>
    if s.closed then none
    else
      (s.library.send (parse text)).map fun library =>
        { s with library, guard := noteLibraryMessage parse s.guard text }
  | .server text =>
    if s.closed then none
    else
      match checkServerMessage parse text s.guard with
      | (.ok (), guard) =>
        some { s with
          guard
          library := (parse text).elim s.library s.library.read
          passed := s.passed ++ [text] }
      | (.error _, guard) => some { s with guard, closed := true }

end Mailbox

end Sukkula.Wormhole
