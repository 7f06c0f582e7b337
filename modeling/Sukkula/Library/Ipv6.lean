import Sukkula.Library.Str

/-! # IPv6 addresses as text

The textual form of an IPv6 address: eight groups of up to four hexadecimal
digits, with at most one `::` for a run of zero groups, and the last two
groups possibly an IPv4 address. Each reader takes what it can from the front
of the text and gives the rest back; the whole text must be taken.
-/

namespace Sukkula.Str

/-- The value of a digit in `radix`, up to 16. -/
def toDigit (radix : ℕ) (c : Char) : Option ℕ :=
  let value :=
    if '0' ≤ c ∧ c ≤ '9' then some (c.toNat - '0'.toNat)
    else if 'a' ≤ c ∧ c ≤ 'f' then some (c.toNat - 'a'.toNat + 10)
    else if 'A' ≤ c ∧ c ≤ 'F' then some (c.toNat - 'A'.toNat + 10)
    else none
  value.filter (· < radix)

/-- The number that the digits at the front make. -/
def readNumber (radix maxDigits limit : ℕ) (allowZeroPrefix : Bool) (s : Str) : Option (ℕ × Str) :=
  let digits := s.takeWhile fun c => (toDigit radix c).isSome
  let value := digits.foldl (fun n c => n * radix + (toDigit radix c).getD 0) 0
  if digits = [] ∨ maxDigits < digits.length then none
  else if !allowZeroPrefix ∧ s.head? = some '0' ∧ 1 < digits.length then none
  else if value < limit then some (value, s.drop digits.length)
  else none

/-- What `read` finds, after a separator unless it is the first. -/
def readSeparator {α : Type} (sep : Char) (first : Bool) (read : Str → Option (α × Str)) (s : Str) :
    Option (α × Str) :=
  if first then read s
  else
    match s with
    | [] => none
    | c :: s => if c = sep then read s else none

def readOctets : ℕ → Bool → Str → Option (ℕ × Str)
  | 0, _, s => some (0, s)
  | left + 1, first, s => do
    let (octet, s) ← readSeparator '.' first (readNumber 10 3 256 false) s
    let (rest, s) ← readOctets left false s
    return (octet * 256 ^ left + rest, s)

def readIpv4Addr (s : Str) : Option (ℕ × Str) := readOctets 4 true s

/-- At most so many groups, and whether an IPv4 address ended them. -/
def readGroups : ℕ → Bool → Str → List ℕ × Bool × Str
  | 0, _, s => ([], false, s)
  | left + 1, first, s =>
    match if 1 ≤ left then readSeparator ':' first readIpv4Addr s else none with
    | some (v4, s) => ([v4 / 65536, v4 % 65536], true, s)
    | none =>
      match readSeparator ':' first (readNumber 16 4 65536 true) s with
      | some (group, s) =>
        let (groups, v4, s) := readGroups left false s
        (group :: groups, v4, s)
      | none => ([], false, s)

def readIpv6Addr (s : Str) : Option (List ℕ × Str) :=
  let (head, v4, s) := readGroups 8 true s
  if head.length = 8 then some (head, s)
  -- An IPv4 part is not allowed before `::`.
  else if v4 then none
  else
    match s with
    | ':' :: ':' :: s =>
      let (tail, _, s) := readGroups (8 - (head.length + 1)) true s
      some (head ++ List.replicate (8 - head.length - tail.length) 0 ++ tail, s)
    | _ => none

def parseIpv6 (s : Str) : Option (List ℕ) :=
  match readIpv6Addr s with
  | some (groups, []) => some groups
  | _ => none

example : parseIpv6 "2001:db8::1".toList = some [0x2001, 0xdb8, 0, 0, 0, 0, 0, 1] := by
  decide +kernel

example : parseIpv6 "::ffff:192.0.2.1".toList = some [0, 0, 0, 0, 0, 0xffff, 0xc000, 0x201] := by
  decide +kernel

example : parseIpv6 "1::2::3".toList = none := by decide +kernel

end Sukkula.Str
