import Sukkula.Croc.Code
import Sukkula.Wormhole.Code

/-! # Codes, scanned or typed

The Magic Wormhole or croc code that a text holds. A QR code holds a URI of Magic
Wormhole, croc's link, or croc's words. A typed code may be any of these, and is
told by its shape otherwise. The readers are tried in turn, and the first that
takes the text for its own decides.
-/

namespace Sukkula.Scan

open Str LocalSend
open Croc (Hashes)

inductive Scanned
  | wormhole (code : Str) (mailboxUrl : Option Str)
  | croc (code : Str)
  | other
  deriving DecidableEq, Repr

/-- What the library reads in a `wormhole-transfer:` URI. -/
structure TransferUri where
  code : Str
  rendezvousServer : Option Config.Url
  isLeader : Bool
  deriving DecidableEq, Repr

structure Readers where
  -- `Url::parse`
  url : Str → Option Config.Url
  -- `Url::as_str`
  urlText : Config.Url → Str
  -- `Url::query_pairs`
  queryPairs : Config.Url → List (Str × Str)
  -- A `wormhole-transfer:` URI.
  transferUri : Str → Option TransferUri
  wormholeCode : Str → Option Str
  hashes : Hashes

def maxTextBytes : ℕ := 1024

def uriScheme : Str := "wormhole-transfer:".toList

def webHost : Str := "getcroc.com".toList

def hostStr (url : Config.Url) : Option Str :=
  url.host.map fun
    | .domain d => d
    | .ipv4 a => a
    | .ipv6 a => ['['] ++ a ++ [']']

/-- Shaped as croc makes codes: three words or more, or croc 10's four digits and then as many. -/
def crocWords (text : Str) : Bool :=
  let parts := text.splitOn '-'
  match parts with
  | pin :: words =>
    if len pin = 4 ∧ pin.all Char.isDigit then 3 ≤ words.length && words.all Croc.isWord
    else 3 ≤ parts.length && parts.all Croc.isWord
  | [] => 3 ≤ parts.length && parts.all Croc.isWord

section Readers

variable (R : Readers)

/-- The code and mailbox of a `wormhole-transfer:` URI to receive with. -/
def receivable (text : Str) : Option Scanned := do
  let uri ← R.transferUri text
  if uri.isLeader then none
  else
    let code ← (Wormhole.parse R.wormholeCode uri.code).toOption
    match uri.rendezvousServer with
    | none => return .wormhole code none
    | some url =>
      let theirs ← (Config.checkMailboxUrl R.url (R.urlText url)).toOption
      let default ← (Config.checkMailboxUrl R.url Config.defaultRendezvousServer).toOption
      let mailboxUrl := if R.urlText theirs ≠ R.urlText default then some (R.urlText theirs)
        else none
      return .wormhole code mailboxUrl

/-- The wormhole code in a QR code's text, or none if the text is no such URI. -/
def wormholeFromQr (text : Str) : Option Scanned := do
  let head ← text.getTo (len uriScheme)
  if head.toAsciiLowercase = uriScheme.toAsciiLowercase then some ((receivable R text).getD .other)
  else none

/-- The code in croc's web link, if the link is exactly one. -/
def webCode (url : Config.Url) : Option Str :=
  let plain := url.scheme = "https".toList ∧ url.port = none ∧ url.username = [] ∧
    url.password = none ∧ url.path = ['/'] ∧ url.fragment = none
  if plain then
    match R.queryPairs url with
    | [(key, code)] => if key = "code".toList then some code else none
    | _ => none
  else none

/-- What croc's code in a text is, if it can be received with. -/
def crocScanned (code : Option Str) : Scanned :=
  match code.bind fun c => (Croc.parse R.hashes c).toOption with
  | some c => .croc c.typed
  | none => .other

/-- The croc code in a QR code's text, or none if the text is not croc's. -/
def crocFromQr (text : Str) : Option Scanned :=
  match R.url text with
  | some url => if hostStr url = some webHost then some (crocScanned R (webCode R url)) else none
  | none => if crocWords text then some (crocScanned R (some text)) else none

def read (text : Str) : Scanned :=
  let text := text.trim
  if maxTextBytes < len text then .other
  else ((wormholeFromQr R text).or (crocFromQr R text)).getD .other

def numbered (joined : Str) : Bool :=
  match splitOnce '-' joined with
  | some (nameplate, words) => nameplate ≠ [] && nameplate.all Char.isDigit && words ≠ []
  | none => false

def isPlain (c : Char) : Bool := c.isLower || c.isDigit || c = '-'

/-- What a typed code is by its shape, once its spaces are hyphens. -/
def byShape (joined : Str) : Option Scanned :=
  let lower := joined.toAsciiLowercase
  let crocLength := 6 ≤ len joined ∧ len joined ≤ 128
  if crocLength ∧ crocWords lower then some (.croc lower)
  else if numbered joined then
    -- What is left of the grammar, and the library's check, is the adapter's.
    if lower.all isPlain then some (.wormhole lower none) else none
  else if crocLength ∧ joined.all Config.isAsciiGraphic then some (.croc joined)
  else none

/-- Which protocol a typed code is for, and the code as its receive takes it. -/
def typed (text : Str) : Option Scanned :=
  let text := text.trim
  if text = [] ∨ maxTextBytes < len text then none
  else
    let found := read R text
    if found ≠ .other then some found
    else
      let lowerText := text.toAsciiLowercase
      if "://".toList <:+: lowerText ∨ uriScheme <+: lowerText then
        none else byShape text.hyphenated

end Readers

end Sukkula.Scan
