import Sukkula.Text.Marks

/-! # The character policy

`classify` sorts every character into those shown, those that become a space,
line breaks, combining marks, and those removed.
-/

namespace Sukkula.Text

def maxCombiningRun : ℕ := 3

/-- What happens to one character on its way to the screen. -/
inductive Class | keep | space | newline | combining | drop
  deriving DecidableEq, Repr

/-- Whether `u` is a nonspacing or enclosing mark. The binary search of the sorted table
finds a range exactly when one holds `u`. -/
def isMark (u : ℕ) : Bool :=
  MARKS.any fun r => r.1 ≤ u && u ≤ r.2

def classify (c : Char) : Class :=
  let u := c.toNat
  if u = 0x0A ∨ u = 0x0D ∨ u = 0x2028 ∨ u = 0x2029 ∨ u = 0x85 then .newline
  else if u = 0x09 then .space
  -- C0 controls, DEL and C1 controls.
  else if u ≤ 0x1F ∨ (0x7F ≤ u ∧ u ≤ 0x9F) then .drop
  -- Space separators, and BRAILLE PATTERN BLANK.
  else if u = 0x20 ∨ u = 0xA0 ∨ u = 0x1680 ∨ (0x2000 ≤ u ∧ u ≤ 0x200A) ∨ u = 0x202F ∨ u = 0x205F ∨
      u = 0x3000 ∨ u = 0x2800 then .space
  -- Bidirectional controls.
  else if u = 0x061C ∨ u = 0x200E ∨ u = 0x200F ∨ (0x202A ≤ u ∧ u ≤ 0x202E) ∨
      (0x2066 ≤ u ∧ u ≤ 0x2069) then .drop
  -- Format characters and default ignorables.
  else if u = 0xAD ∨ u = 0x034F ∨ (0x0600 ≤ u ∧ u ≤ 0x0605) ∨ u = 0x06DD ∨ u = 0x070F ∨
      (0x0890 ≤ u ∧ u ≤ 0x0891) ∨ u = 0x08E2 ∨ u = 0x115F ∨ u = 0x1160 ∨ u = 0x17B4 ∨ u = 0x17B5 ∨
      (0x180B ≤ u ∧ u ≤ 0x180F) ∨ (0x200B ≤ u ∧ u ≤ 0x200D) ∨ (0x2060 ≤ u ∧ u ≤ 0x2065) ∨
      (0x206A ≤ u ∧ u ≤ 0x206F) ∨ u = 0x3164 ∨ (0xFE00 ≤ u ∧ u ≤ 0xFE0F) ∨ u = 0xFEFF ∨
      u = 0xFFA0 ∨ (0xFFF0 ≤ u ∧ u ≤ 0xFFFB) ∨ u = 0x110BD ∨ u = 0x110CD ∨
      (0x13430 ≤ u ∧ u ≤ 0x1343F) ∨ (0x1BCA0 ≤ u ∧ u ≤ 0x1BCA3) ∨ (0x1D173 ≤ u ∧ u ≤ 0x1D17A) ∨
      (0xE0000 ≤ u ∧ u ≤ 0xE0FFF) then .drop
  -- Private use.
  else if (0xE000 ≤ u ∧ u ≤ 0xF8FF) ∨ (0xF0000 ≤ u ∧ u ≤ 0x10FFFF) then .drop
  -- Noncharacters.
  else if 0xFDD0 ≤ u ∧ u ≤ 0xFDEF then .drop
  else if u &&& 0xFFFE = 0xFFFE then .drop
  else if isMark u then .combining
  else .keep

@[simp] theorem classify_space : classify ' ' = .space := by decide

@[simp] theorem classify_newline : classify '\n' = .newline := by decide

@[simp] theorem classify_dot : classify '.' = .keep := by decide +kernel

end Sukkula.Text
