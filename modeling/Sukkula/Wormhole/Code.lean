import Sukkula.Library.Words
import Sukkula.LocalSend.Session

/-! # Wormhole codes

The code the user types, checked before anything touches the network: a number
with no leading zero, a hyphen, and words of letters and digits. The library then
applies a check of its own.
-/

namespace Sukkula.Wormhole

open Str LocalSend

/-- `MAX_CODE_BYTES`, after trimming. -/
def maxCodeBytes : ℕ := 128

def maxNameplateDigits : ℕ := 9

/-- `MAX_WORDS`, after the nameplate. -/
def maxWords : ℕ := 8

def maxWordBytes : ℕ := 32

def minPasswordBytes : ℕ := 4

def bad (message : String) : ErrorInfo := ⟨.badCode, message⟩

def nameplateOk (nameplate : Str) : Bool :=
  nameplate ≠ [] && len nameplate ≤ maxNameplateDigits && nameplate.all Char.isDigit &&
    nameplate.head? ≠ some '0'

def wordOk (w : Str) : Bool :=
  w ≠ [] && len w ≤ maxWordBytes && w.all fun c => c.isLower || c.isDigit

def wordsOk (password : Str) : Bool :=
  minPasswordBytes ≤ len password && (password.splitOn '-').length ≤ maxWords &&
    (password.splitOn '-').all wordOk

/-- What a typed code must be, and the code it is then. -/
def grammar (raw : Str) : Except ErrorInfo Str :=
  let trimmed := raw.trim
  if trimmed = [] then .error (bad "the code is empty")
  else if maxCodeBytes < len trimmed then .error (bad "the code is too long")
  else
    let code := trimmed.toAsciiLowercase
    match splitOnce '-' code with
    | none => .error (bad "the code needs a number, a hyphen and words")
    | some (nameplate, password) =>
      if ¬ nameplateOk nameplate then .error (bad "the code must start with a number")
      else if ¬ wordsOk password then .error (bad "the code's words are not usable")
      else .ok code

def parse (library : Str → Option Str) (raw : Str) : Except ErrorInfo Str := do
  let code ← grammar raw
  match library code with
  | some code => .ok code
  | none => .error (bad "the code is too easy to guess")

structure Numbered (code nameplate password : Str) : Prop where
  eq : code = nameplate ++ '-' :: password
  nameplate : nameplateOk nameplate
  words : wordsOk password
  len : len code ≤ maxCodeBytes

theorem grammar_eq_ok {raw code : Str} (h : grammar raw = .ok code) :
    code = raw.trim.toAsciiLowercase ∧ ∃ nameplate password, Numbered code nameplate password := by
  rw [grammar] at h
  split_ifs at h with hnil hlong
  dsimp only at h
  split at h
  · cases h
  · next nameplate password hsplit =>
    split_ifs at h with hplate hwords
    cases h
    exact ⟨rfl, nameplate, password, (eq_of_splitOnce hsplit).1, hplate, hwords,
      by rw [len_toAsciiLowercase]; omega⟩

end Sukkula.Wormhole
