import Sukkula.Library.Files
import Sukkula.Name.SafeName

/-! # The files of an offer

What a peer says of a file and of an offer, what a checked file is, and the
checks of its single fields.
-/

namespace Sukkula

inductive Protocol | localSend | quickShare | wormhole | bluetooth | croc
  deriving DecidableEq, Repr

end Sukkula

namespace Sukkula.Offer

open Str Name

structure RawFile where
  name : Str
  size : ℤ
  mime : Option Str
  sha256 : Option Str
  deriving DecidableEq, Repr

structure RawOffer where
  protocol : Protocol
  sender : Str
  model : Option Str := none
  files : List RawFile := []
  text : Option Str := none
  pin : Option Str := none
  deriving DecidableEq, Repr

structure OfferFile where
  name : SafeName
  size : ℕ
  mime : Option Str
  sha256 : Option Bytes
  deriving DecidableEq

inductive OfferError
  | empty
  | tooManyFiles (n : ℕ)
  | negativeSize (i : ℕ)
  | fileTooLarge (i : ℕ)
  | offerTooLarge
  | textTooLarge
  | badDigest (i : ℕ)
  | badPin
  deriving DecidableEq, Repr

def maxFileBytes : ℕ := 8 * 1024 * 1024 * 1024

def maxOfferBytes : ℕ := 16 * 1024 * 1024 * 1024

def maxFilesPerOffer : ℕ := 500

def maxMessageBytes : ℕ := 64 * 1024

def maxMimeBytes : ℕ := 127

def nibble (c : Char) : Option UInt8 :=
  if '0' ≤ c ∧ c ≤ '9' then some (.ofNat (c.toNat - '0'.toNat))
  else if 'a' ≤ c ∧ c ≤ 'f' then some (.ofNat (c.toNat - 'a'.toNat + 10))
  else if 'A' ≤ c ∧ c ≤ 'F' then some (.ofNat (c.toNat - 'A'.toNat + 10))
  else none

def decodePairs : Str → Option Bytes
  | [] => some []
  | hi :: lo :: s => do
    let hi ← nibble hi
    let lo ← nibble lo
    let rest ← decodePairs s
    pure ((hi * 16 + lo) :: rest)
  | [_] => none

def decode32 (s : Str) : Option Bytes := if len s = 64 then decodePairs s else none

/-- A character of an RFC 6838 restricted name. -/
def mimeChar (c : Char) : Bool := c.isAlphanum || "!#$&-^_.+".toList.contains c

def mimeToken (s : Str) : Bool := s ≠ [] && s.all mimeChar

def cleanMime (m : Str) : Option Str :=
  let m := trim (m.takeWhile (· ≠ ';'))
  if m = [] ∨ maxMimeBytes < len m then none
  else
    match m.span (· ≠ '/') with
    | (_, []) => none
    | (ty, _ :: sub) =>
      if mimeToken ty && mimeToken sub then
        some (ty.map Char.toLower ++ '/' :: sub.map Char.toLower)
      else none

/-- The digest of file `i`, if it has one. -/
def checkDigest (i : ℕ) (sha256 : Option Str) : Except OfferError (Option Bytes) :=
  match sha256.map trim with
  | none | some [] => .ok none
  | some h =>
    match decode32 h with
    | some d => .ok (some d)
    | none => .error (.badDigest i)

end Sukkula.Offer
