import Sukkula.Library.Str
import Sukkula.Text.Classify

/-! # Sanitising a file name

`sanitize` as the code computes it: the last path segment, a scan with a
pending space and a count of marks that stops early on a huge name, the
extension taken from the raw tail then, trimming, and shortening that keeps an
extension.
-/

namespace Sukkula.Name

open Str Text

def maxNameBytes : ℕ := 200

def maxExtensionBytes : ℕ := 16

def scanBytes : ℕ := maxNameBytes * 4

/-- What a name with nothing usable in it becomes. -/
def fallbackName : Str := "received-file".toList

/-- The part before the extension, and the extension without its dot. -/
def splitExtension (name : Str) : Str × Option Str :=
  match rfind '.' name with
  | none | some 0 => (name, none)
  | some i =>
    let stem := name.take i
    let ext := name.drop (i + 1)
    if ext = [] ∨ maxExtensionBytes < len ext ∨ ' ' ∈ ext then (name, none) else (stem, some ext)

/-- The last `scan` of `sanitize_extension`: the characters before the byte cap is passed. -/
def capExtension : ℕ → Str → Str
  | _, [] => []
  | used, c :: s =>
    if used + c.utf8Size ≤ maxExtensionBytes then c :: capExtension (used + c.utf8Size) s else []

def sanitizeExtension (ext : Str) : Str :=
  capExtension 0 ((ext.filter fun c => classify c = .keep).take maxExtensionBytes)

def dotOrSpace (c : Char) : Bool := c = '.' || c = ' '

def shorten (name : Str) : Str :=
  if len name ≤ maxNameBytes then name
  else
    match splitExtension name with
    | (stem, some ext) =>
      let room := maxNameBytes - (len ext + 1)
      let stem := (truncateBytes stem room).rdropWhile dotOrSpace
      if stem = [] then truncateBytes name maxNameBytes else stem ++ '.' :: ext
    | (_, none) => truncateBytes name maxNameBytes

/-- The variables of the loop in `sanitize`. -/
structure Scan where
  cleaned : Str
  pendingSpace : Bool
  combining : ℕ
  deriving DecidableEq, Repr

def Scan.push (st : Scan) (c : Char) : Scan :=
  match classify c with
  | .drop => st
  | .space | .newline => { st with pendingSpace := true }
  | .combining =>
    if st.cleaned ≠ [] ∧ st.cleaned.getLast? ≠ some '.' ∧ st.combining < maxCombiningRun then
      { st with combining := st.combining + 1, cleaned := st.cleaned ++ [c] }
    else st
  | .keep =>
    if c = '.' ∧ st.cleaned = [] then st
    else
      { cleaned :=
          (if st.pendingSpace ∧ st.cleaned ≠ [] then st.cleaned ++ [' '] else st.cleaned) ++ [c]
        pendingSpace := false
        combining := 0 }

def Scan.run : Scan → Str → Scan × Bool
  | st, [] => (st, false)
  | st, c :: s => if scanBytes < len st.cleaned then (st, true) else Scan.run (st.push c) s

/-- The segment after the final `/` or `\`. -/
def lastSegment (raw : Str) : Str :=
  raw.rtakeWhile fun c => !(c = '/' || c = '\\')

/-- The name as it stands after the scan, with the extension of a name that was cut. -/
def scanned (last : Str) : Str :=
  match Scan.run ⟨[], false, 0⟩ last with
  | (st, false) => st.cleaned
  | (st, true) =>
    match splitExtension last with
    | (_, some ext) =>
      if sanitizeExtension ext = [] then st.cleaned
      else st.cleaned ++ '.' :: sanitizeExtension ext
    | (_, none) => st.cleaned

/-- Steps 3 to 6: the ends, the length, and the fallback. -/
def finish (cleaned : Str) : Str :=
  let trimmed := (cleaned.dropWhile dotOrSpace).rdropWhile dotOrSpace
  let shortened := (shorten trimmed).rdropWhile dotOrSpace
  if shortened = [] then fallbackName else shortened

def sanitize (raw : Str) : Str := finish (scanned (lastSegment raw))

/-- Whether `s` already satisfies the rules. -/
def isSafe (s : Str) : Bool := sanitize s = s

end Sukkula.Name
