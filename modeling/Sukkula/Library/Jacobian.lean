import Mathlib.Algebra.Field.Basic
import Mathlib.Tactic.LinearCombination
import Mathlib.Tactic.Ring

/-! # Points of `y² = x³ + b`

The chord and the tangent of the affine group law, and the same points as triples
`(X, Y, Z)` that stand for `(X / Z², Y / Z³)`. The tangent of a triple is that of
dbl-2009-l, the chord that of madd-2007-bl, where the other point is affine.
-/

namespace Sukkula.Weierstrass

variable {F : Type*} [Field F]

/-- The point in which a line of slope `l` through `(x₁, y₁)` and a point at `x₂` meets the curve
again, reflected. -/
def thirdX (l x₁ x₂ : F) : F := l ^ 2 - x₁ - x₂

def thirdY (l x₁ y₁ x₃ : F) : F := l * (x₁ - x₃) - y₁

variable {b l x y x₁ y₁ x₂ y₂ X Y Z : F}

theorem tangent_onCurve (h : y ^ 2 = x ^ 3 + b) (hl : l * (2 * y) = 3 * x ^ 2) :
    thirdY l x y (thirdX l x x) ^ 2 = thirdX l x x ^ 3 + b := by
  simp only [thirdY, thirdX]
  linear_combination (l ^ 2 - x - x - x) * hl + h

theorem chord_onCurve (h₁ : y₁ ^ 2 = x₁ ^ 3 + b) (h₂ : y₂ ^ 2 = x₂ ^ 3 + b) (hx : x₂ - x₁ ≠ 0)
    (hl : l * (x₂ - x₁) = y₂ - y₁) :
    thirdY l x₁ y₁ (thirdX l x₁ x₂) ^ 2 = thirdX l x₁ x₂ ^ 3 + b := by
  -- the line and the curve agree at `x₁` and at `x₂`, so their difference is a multiple of both
  have hk : x₂ ^ 2 + x₁ * x₂ + x₁ ^ 2 - 2 * y₁ * l - l ^ 2 * (x₂ - x₁) = 0 := by
    apply mul_left_cancel₀ hx
    linear_combination h₁ - h₂ - (2 * y₁ + l * (x₂ - x₁) + (y₂ - y₁)) * hl
  simp only [thirdY, thirdX]
  linear_combination h₁ - (l ^ 2 - x₁ - x₂ - x₁) * hk

structure Stands (X Y Z x y : F) : Prop where
  z_ne_zero : Z ≠ 0
  x_eq : X = x * Z ^ 2
  y_eq : Y = y * Z ^ 3

def tangentX (X Y : F) : F := (3 * X ^ 2) ^ 2 - 8 * X * Y ^ 2

def tangentY (X Y : F) : F := 3 * X ^ 2 * (4 * X * Y ^ 2 - tangentX X Y) - 8 * Y ^ 4

def tangentZ (Y Z : F) : F := 2 * Y * Z

theorem Stands.tangent (h : Stands X Y Z x y) (hy : 2 * y ≠ 0) (hl : l * (2 * y) = 3 * x ^ 2) :
    Stands (tangentX X Y) (tangentY X Y) (tangentZ Y Z) (thirdX l x x)
      (thirdY l x y (thirdX l x x)) := by
  obtain ⟨hz, rfl, rfl⟩ := h
  have hx : tangentX (x * Z ^ 2) (y * Z ^ 3) = thirdX l x x * tangentZ (y * Z ^ 3) Z ^ 2 := by
    simp only [tangentX, thirdX, tangentZ]
    linear_combination -(2 * l * y + 3 * x ^ 2) * Z ^ 8 * hl
  refine ⟨?_, hx, ?_⟩
  · have hne := mul_ne_zero hy (pow_ne_zero 4 hz)
    have hfour : tangentZ (y * Z ^ 3) Z = 2 * y * Z ^ 4 := by
      rw [tangentZ]
      ring
    rwa [hfour]
  · rw [tangentY, hx]
    simp only [thirdY, tangentZ]
    linear_combination -4 * y ^ 2 * Z ^ 12 * (x - thirdX l x x) * hl

def chordX (X Y Z x₂ y₂ : F) : F :=
  let H := x₂ * Z ^ 2 - X
  (2 * (y₂ * Z ^ 3 - Y)) ^ 2 - 4 * H ^ 3 - 8 * X * H ^ 2

def chordY (X Y Z x₂ y₂ : F) : F :=
  let H := x₂ * Z ^ 2 - X
  2 * (y₂ * Z ^ 3 - Y) * (4 * X * H ^ 2 - chordX X Y Z x₂ y₂) - 8 * Y * H ^ 3

def chordZ (X Z x₂ : F) : F := 2 * Z * (x₂ * Z ^ 2 - X)

theorem Stands.chord (h : Stands X Y Z x₁ y₁) (h2 : (2 : F) ≠ 0) (hx : x₂ - x₁ ≠ 0)
    (hl : l * (x₂ - x₁) = y₂ - y₁) :
    Stands (chordX X Y Z x₂ y₂) (chordY X Y Z x₂ y₂) (chordZ X Z x₂) (thirdX l x₁ x₂)
      (thirdY l x₁ y₁ (thirdX l x₁ x₂)) := by
  obtain ⟨hz, rfl, rfl⟩ := h
  have heq : chordX (x₁ * Z ^ 2) (y₁ * Z ^ 3) Z x₂ y₂ =
      thirdX l x₁ x₂ * chordZ (x₁ * Z ^ 2) Z x₂ ^ 2 := by
    simp only [chordX, thirdX, chordZ]
    linear_combination -4 * Z ^ 6 * ((y₂ - y₁) + l * (x₂ - x₁)) * hl
  refine ⟨?_, heq, ?_⟩
  · have hne := mul_ne_zero (mul_ne_zero h2 (pow_ne_zero 3 hz)) hx
    have hthree : chordZ (x₁ * Z ^ 2) Z x₂ = 2 * Z ^ 3 * (x₂ - x₁) := by
      rw [chordZ]
      ring
    rwa [hthree]
  · rw [chordY, heq]
    simp only [thirdY, chordZ]
    linear_combination -8 * Z ^ 9 * (x₂ - x₁) ^ 2 * (x₁ - thirdX l x₁ x₂) * hl

theorem eq_or_add_eq_zero (h₁ : y₁ ^ 2 = x ^ 3 + b) (h₂ : y₂ ^ 2 = x ^ 3 + b) :
    y₁ = y₂ ∨ y₁ + y₂ = 0 := by
  rcases sq_eq_sq_iff_eq_or_eq_neg.mp (h₁.trans h₂.symm) with h | h
  · exact Or.inl h
  · exact Or.inr (by rw [h, neg_add_cancel])

end Sukkula.Weierstrass
