import Mathlib.Data.ZMod.Basic
import Sukkula.Croc.Pake
import Sukkula.Library.Jacobian
import Sukkula.Library.Pratt

/-! # The curve of the relays

SIEC255 is `y² = x³ + 19` over a prime field. Points are affine, and a multiple is
worked out in Jacobian coordinates, with one inversion at the end. It is the
multiple that doubling and adding in affine coordinates gives.
-/

namespace Sukkula.Croc.Siec

open Weierstrass

/-- `P` -/
def fieldP : ℕ := 0x4000000000000000000000000200104080000000000000000004004103082041

/-- `N` -/
def orderN : ℕ := 0x4000000000000000000000000200103f800000000000000000040040ff07ffc1

/-- `B` -/
def curveB : ℕ := 19

abbrev Fe := ZMod fieldP

def fe (v : ℕ) : Fe := v

inductive Point
  | infinity
  -- `(x, y)`, both reduced modulo `P`.
  | affine (x y : ℕ)
  deriving DecidableEq, Repr

namespace Point

def generator : Point := .affine 5 12

def isOnCurve : Point → Bool
  | infinity => false
  | affine x y => fe y ^ 2 = fe x ^ 2 * fe x + fe curveB

/-- The point `(x, y)`, if both are below `P` and it is on the curve. -/
def fromAffine (x y : ℕ) : Option Point :=
  if x < fieldP ∧ y < fieldP ∧ (affine x y).isOnCurve then some (affine x y) else none

/-- `2·self` -/
def double : Point → Point
  | infinity => infinity
  | affine x y =>
    let (fx, fy) := (fe x, fe y)
    if fy = 0 then infinity
    else
      let lambda := fe 3 * fx ^ 2 * (fy + fy)⁻¹
      let x₃ := lambda ^ 2 - fx - fx
      let y₃ := lambda * (fx - x₃) - fy
      affine x₃.val y₃.val

/-- `self + other` -/
def add : Point → Point → Point
  | affine x₁ y₁, affine x₂ y₂ =>
    let (fx₁, fy₁, fx₂, fy₂) := (fe x₁, fe y₁, fe x₂, fe y₂)
    if fx₁ = fx₂ then
      if fy₁ + fy₂ = 0 then infinity else (affine x₁ y₁).double
    else
      let lambda := (fy₂ - fy₁) * (fx₂ - fx₁)⁻¹
      let x₃ := lambda ^ 2 - fx₁ - fx₂
      let y₃ := lambda * (fx₁ - x₃) - fy₁
      affine x₃.val y₃.val
  | self, other => if self = infinity then other else self

end Point

/-- `(X, Y, Z)`, for `(X/Z², Y/Z³)`; `Z = 0` is the identity. -/
structure Jacobian where
  x : Fe
  y : Fe
  z : Fe

namespace Jacobian

def infinity : Jacobian := ⟨0, 0, 0⟩

def isInfinity (j : Jacobian) : Bool := j.z.val = 0

/-- `2·self` (dbl-2009-l, for a = 0). -/
def double (j : Jacobian) : Jacobian :=
  if j.isInfinity || j.y.val = 0 then infinity
  else
    let a := j.x ^ 2
    let b := j.y ^ 2
    let c := b ^ 2
    let t := (j.x + b) ^ 2 - a - c
    let d := t + t
    let e := a + a + a
    let f := e ^ 2
    let x₃ := f - d - d
    let c₈ := fe 8 * c
    let y₃ := e * (d - x₃) - c₈
    let yz := j.y * j.z
    ⟨x₃, y₃, yz + yz⟩

/-- `self + (x₂, y₂)`, an affine point (madd-2007-bl). -/
def addAffine (j : Jacobian) (x₂ y₂ : Fe) : Jacobian :=
  if j.isInfinity then ⟨x₂, y₂, fe 1⟩
  else
    let z₁z₁ := j.z ^ 2
    let u₂ := x₂ * z₁z₁
    let s₂ := y₂ * j.z * z₁z₁
    let h := u₂ - j.x
    let rHalf := s₂ - j.y
    if h.val = 0 then
      if rHalf.val = 0 then j.double else infinity
    else
      let hh := h ^ 2
      let i := hh + hh + hh + hh
      let j' := h * i
      let r := rHalf + rHalf
      let v := j.x * i
      let x₃ := r ^ 2 - j' - v - v
      let yj := j.y * j'
      let y₃ := r * (v - x₃) - yj - yj
      let z₃ := (j.z + h) ^ 2 - z₁z₁ - hh
      ⟨x₃, y₃, z₃⟩

def toAffine (j : Jacobian) : Point :=
  if j.isInfinity then .infinity
  else
    let zi := j.z⁻¹
    let zi₂ := zi ^ 2
    let x := j.x * zi₂
    let y := j.y * zi₂ * zi
    .affine x.val y.val

end Jacobian

/-- The places of the bits of `k`, the highest first. -/
def places (k : ℕ) : List ℕ := (List.range k.size).reverse

/-- `k·self`: double and add, in Jacobian coordinates. -/
def Point.mul : Point → ℕ → Point
  | .infinity, _ => .infinity
  | .affine x y, k =>
    let acc := (places k).foldl (fun acc i =>
      let acc := acc.double
      if k.testBit i then acc.addAffine (fe x) (fe y) else acc) Jacobian.infinity
    acc.toAffine

def Point.affineMul (p : Point) (k : ℕ) : Point :=
  (places k).foldl (fun acc i =>
    let acc := acc.double
    if k.testBit i then acc.add p else acc) .infinity

/-- The bytes, big-endian and of any length, modulo `N`. -/
def scalar (bytes : Bytes) : ℕ :=
  let base : ZMod orderN := (256 : ℕ)
  (bytes.foldl (fun acc b => acc * base + (b.toNat : ZMod orderN)) 0).val

section Prime

/-- A certificate that `P` is prime. -/
def certificate : List Pratt.Claim :=
  [⟨2, 1, []⟩, ⟨3, 2, [2]⟩, ⟨5, 2, [2, 2]⟩, ⟨7, 3, [2, 3]⟩, ⟨13, 2, [2, 2, 3]⟩, ⟨11, 2, [2, 5]⟩,
    ⟨23, 5, [2, 11]⟩, ⟨193, 5, [2, 2, 2, 2, 2, 2, 3]⟩, ⟨31, 3, [2, 3, 5]⟩, ⟨311, 17, [2, 5, 31]⟩,
    ⟨641, 3, [2, 2, 2, 2, 2, 2, 2, 5]⟩, ⟨19, 2, [2, 3, 3]⟩, ⟨113, 3, [2, 2, 2, 2, 7]⟩,
    ⟨227, 2, [2, 113]⟩, ⟨112139, 2, [2, 13, 19, 227]⟩, ⟨29, 2, [2, 2, 7]⟩, ⟨59, 2, [2, 29]⟩,
    ⟨827, 2, [2, 7, 59]⟩, ⟨7459, 2, [2, 3, 11, 113]⟩, ⟨925288951, 11, [2, 3, 5, 5, 827, 7459]⟩,
    ⟨17, 3, [2, 2, 2, 2]⟩, ⟨181, 2, [2, 2, 3, 3, 5]⟩, ⟨251, 6, [2, 5, 5, 5]⟩,
    ⟨351401, 3, [2, 2, 2, 5, 5, 7, 251]⟩, ⟨702803, 2, [2, 351401]⟩,
    ⟨12975148987, 3, [2, 3, 17, 181, 702803]⟩, ⟨127, 3, [2, 3, 3, 7]⟩, ⟨509, 2, [2, 2, 127]⟩,
    ⟨1019, 2, [2, 509]⟩, ⟨73, 5, [2, 2, 2, 3, 3]⟩, ⟨439, 15, [2, 3, 73]⟩, ⟨4391, 14, [2, 5, 439]⟩,
    ⟨430319, 7, [2, 7, 7, 4391]⟩, ⟨4384950611, 2, [2, 5, 1019, 430319]⟩,
    ⟨52619407333, 2, [2, 2, 3, 4384950611]⟩, ⟨5783, 7, [2, 7, 7, 59]⟩, ⟨1597, 11, [2, 2, 3, 7, 19]⟩,
    ⟨4013, 2, [2, 2, 17, 59]⟩, ⟨628058579, 2, [2, 7, 7, 1597, 4013]⟩,
    ⟨65377129722427, 2, [2, 3, 3, 5783, 628058579]⟩, ⟨61, 2, [2, 2, 3, 5]⟩, ⟨43, 3, [2, 3, 7]⟩,
    ⟨431, 7, [2, 5, 43]⟩, ⟨52583, 5, [2, 61, 431]⟩, ⟨47, 5, [2, 23]⟩, ⟨6581, 14, [2, 2, 5, 7, 47]⟩,
    ⟨8542139, 2, [2, 11, 59, 6581]⟩, ⟨80850833106661, 6, [2, 2, 3, 3, 5, 52583, 8542139]⟩,
    ⟨fieldP, 19, [2, 2, 2, 2, 2, 2, 3, 5, 7, 13, 23, 193, 311, 641, 112139, 925288951, 12975148987,
      52619407333, 80850833106661, 65377129722427]⟩]

theorem prime_fieldP : fieldP.Prime := by
  have hmem : fieldP ∈ Pratt.certified [] certificate := by decide +kernel
  exact Pratt.prime_of_certified certificate (by simp) hmem

instance fact_prime_fieldP : Fact fieldP.Prime := ⟨prime_fieldP⟩

instance neZero_fieldP : NeZero fieldP := ⟨prime_fieldP.ne_zero⟩

theorem two_ne_zero : (2 : Fe) ≠ 0 := by
  intro h
  have hdvd : fieldP ∣ 2 := (ZMod.natCast_eq_zero_iff 2 fieldP).mp (by simpa using h)
  exact absurd (Nat.le_of_dvd (by decide) hdvd) (by decide)

end Prime

section Multiples

variable {j : Jacobian} {a : Point} {x y : ℕ}

@[simp] theorem fe_val (v : Fe) : fe v.val = v := ZMod.natCast_zmod_val v

theorem val_fe (h : x < fieldP) : (fe x).val = x := ZMod.val_cast_of_lt h

theorem fe_three : fe 3 = 3 := by simp [fe]

/-- A point of the curve with its coordinates reduced. -/
structure OnCurve (x y : ℕ) : Prop where
  x_lt : x < fieldP
  y_lt : y < fieldP
  equation : fe y ^ 2 = fe x ^ 3 + fe curveB

theorem isOnCurve_iff : (Point.affine x y).isOnCurve ↔ fe y ^ 2 = fe x ^ 3 + fe curveB := by
  rw [Point.isOnCurve, decide_eq_true_iff, ← pow_succ]

theorem onCurve_val {u v : Fe} (h : v ^ 2 = u ^ 3 + fe curveB) : OnCurve u.val v.val :=
  ⟨ZMod.val_lt u, ZMod.val_lt v, by simpa using h⟩

/-- The triple stands for the point, which is at infinity or on the curve. -/
inductive Represents (j : Jacobian) : Point → Prop
  | infinity (h : j.z = 0) : Represents j .infinity
  | affine {x y : ℕ} (h : Stands j.x j.y j.z (fe x) (fe y)) (hcurve : OnCurve x y) :
      Represents j (.affine x y)

theorem isInfinity_iff : j.isInfinity ↔ j.z = 0 := by
  rw [Jacobian.isInfinity, decide_eq_true_iff, ZMod.val_eq_zero]

theorem tangent_slope {u v : Fe} (hv : v ≠ 0) :
    fe 3 * u ^ 2 * (v + v)⁻¹ * (2 * v) = 3 * u ^ 2 := by
  have h2v : 2 * v ≠ 0 := mul_ne_zero two_ne_zero hv
  rw [← two_mul, fe_three, inv_mul_cancel_right₀ h2v]

theorem Represents.double (h : Represents j a) : Represents j.double a.double := by
  cases h with
  | infinity hz =>
    have : j.double = .infinity := by rw [Jacobian.double, isInfinity_iff.mpr hz]; rfl
    rw [this]
    exact .infinity rfl
  | @affine x y h hcurve =>
    have hy : j.y = 0 ↔ fe y = 0 := by
      rw [h.y_eq, mul_eq_zero, or_iff_left (pow_ne_zero 3 h.z_ne_zero)]
    have hinf : j.isInfinity = false := by
      rw [← Bool.not_eq_true, isInfinity_iff]
      exact h.z_ne_zero
    by_cases hzero : fe y = 0
    · have hj : j.double = .infinity := by
        rw [Jacobian.double, hinf, decide_eq_true ((ZMod.val_eq_zero _).mpr (hy.mpr hzero))]
        rfl
      have ha : (Point.affine x y).double = .infinity := by
        simp only [Point.double, hzero, if_true]
      rw [hj, ha]
      exact .infinity rfl
    · have hne : j.y.val ≠ 0 := fun hv => hzero (hy.mp ((ZMod.val_eq_zero _).mp hv))
      have hstands := h.tangent (mul_ne_zero two_ne_zero hzero) (tangent_slope (u := fe x) hzero)
      have hj : j.double = ⟨tangentX j.x j.y, tangentY j.x j.y, tangentZ j.y j.z⟩ := by
        have h8 : fe 8 = 8 := by simp [fe]
        simp only [Jacobian.double, hinf, decide_eq_false hne, Bool.or_self,
          Bool.false_eq_true, if_false, tangentX, tangentY, tangentZ, h8, Jacobian.mk.injEq]
        refine ⟨?_, ?_, ?_⟩ <;> ring
      have ha : (Point.affine x y).double = _ := if_neg hzero
      rw [hj, ha]
      refine .affine ?_ (onCurve_val ?_)
      · rw [fe_val, fe_val]
        exact hstands
      · exact tangent_onCurve hcurve.equation (tangent_slope hzero)

theorem chord_slope {u₁ u₂ : Fe} (v₁ v₂ : Fe) (hu : u₂ - u₁ ≠ 0) :
    (v₂ - v₁) * (u₂ - u₁)⁻¹ * (u₂ - u₁) = v₂ - v₁ := inv_mul_cancel_right₀ hu _

theorem Represents.addAffine (h : Represents j a) (hbase : OnCurve x y) :
    Represents (j.addAffine (fe x) (fe y)) (a.add (.affine x y)) := by
  cases h with
  | infinity hz =>
    have hj : j.addAffine (fe x) (fe y) = ⟨fe x, fe y, fe 1⟩ := by
      rw [Jacobian.addAffine, isInfinity_iff.mpr hz]
      rfl
    have h1 : fe 1 = 1 := by simp [fe]
    have ha : Point.infinity.add (.affine x y) = .affine x y := rfl
    rw [hj, ha, h1]
    exact .affine ⟨one_ne_zero, by simp, by simp⟩ hbase
  | @affine x₁ y₁ h hcurve =>
    have hinf : j.isInfinity = false := by
      rw [← Bool.not_eq_true, isInfinity_iff]
      exact h.z_ne_zero
    have hh : fe x * j.z ^ 2 - j.x = (fe x - fe x₁) * j.z ^ 2 := by
      rw [h.x_eq]
      ring
    have hr : fe y * j.z * j.z ^ 2 - j.y = (fe y - fe y₁) * j.z ^ 3 := by
      rw [h.y_eq]
      ring
    have hzero : (fe x * j.z ^ 2 - j.x).val = 0 ↔ fe x₁ = fe x := by
      rw [ZMod.val_eq_zero, hh, mul_eq_zero, or_iff_left (pow_ne_zero 2 h.z_ne_zero),
        sub_eq_zero, eq_comm]
    have hzero' : (fe y * j.z * j.z ^ 2 - j.y).val = 0 ↔ fe y₁ = fe y := by
      rw [ZMod.val_eq_zero, hr, mul_eq_zero, or_iff_left (pow_ne_zero 3 h.z_ne_zero),
        sub_eq_zero, eq_comm]
    by_cases hx : fe x₁ = fe x
    · have hj : j.addAffine (fe x) (fe y) = if fe y₁ = fe y then j.double else .infinity := by
        simp only [Jacobian.addAffine, hinf, Bool.false_eq_true, if_false, hzero, hzero', if_pos hx]
      have ha : (Point.affine x₁ y₁).add (.affine x y) =
          if fe y₁ + fe y = 0 then .infinity else (Point.affine x₁ y₁).double := by
        simp only [Point.add, if_pos hx]
      have hsame : fe y₁ = fe y ∨ fe y₁ + fe y = 0 :=
        eq_or_add_eq_zero hcurve.equation (hx ▸ hbase.equation)
      rw [hj, ha]
      by_cases hy : fe y₁ = fe y
      · have hdouble := (Represents.affine h hcurve).double
        rw [if_pos hy]
        by_cases hneg : fe y₁ + fe y = 0
        · -- a point of order two
          have hy₁ : fe y₁ = 0 := by
            rw [← hy, ← two_mul] at hneg
            exact (mul_eq_zero.mp hneg).resolve_left two_ne_zero
          have hinf : (Point.affine x₁ y₁).double = .infinity := if_pos hy₁
          rw [if_pos hneg, ← hinf]
          exact hdouble
        · rw [if_neg hneg]
          exact hdouble
      · rw [if_neg hy, if_pos (hsame.resolve_left hy)]
        exact .infinity rfl
    · have hne : fe x - fe x₁ ≠ 0 := sub_ne_zero.mpr (Ne.symm hx)
      have hstands := h.chord two_ne_zero hne (chord_slope (fe y₁) (fe y) hne)
      have hj : j.addAffine (fe x) (fe y) =
          ⟨chordX j.x j.y j.z (fe x) (fe y), chordY j.x j.y j.z (fe x) (fe y),
            chordZ j.x j.z (fe x)⟩ := by
        simp only [Jacobian.addAffine, hinf, Bool.false_eq_true, if_false, hzero, if_neg hx, chordX,
          chordY, chordZ, Jacobian.mk.injEq]
        refine ⟨?_, ?_, ?_⟩ <;> ring
      have ha : (Point.affine x₁ y₁).add (.affine x y) = _ := if_neg hx
      rw [hj, ha]
      refine .affine ?_ (onCurve_val ?_)
      · rw [fe_val, fe_val]
        exact hstands
      · exact chord_onCurve hcurve.equation hbase.equation hne (chord_slope _ _ hne)

theorem Represents.toAffine_eq (h : Represents j a) : j.toAffine = a := by
  cases h with
  | infinity hz => rw [Jacobian.toAffine, isInfinity_iff.mpr hz]; rfl
  | @affine x y h hcurve =>
    have hinf : ¬ j.isInfinity := by
      rw [isInfinity_iff]
      exact h.z_ne_zero
    have hx : j.x * j.z⁻¹ ^ 2 = fe x := by
      rw [h.x_eq, inv_pow, mul_inv_cancel_right₀ (pow_ne_zero 2 h.z_ne_zero)]
    have hy : j.y * j.z⁻¹ ^ 2 * j.z⁻¹ = fe y := by
      rw [h.y_eq, mul_assoc, ← pow_succ, inv_pow, mul_inv_cancel_right₀ (pow_ne_zero 3 h.z_ne_zero)]
    simp only [Jacobian.toAffine, if_neg hinf, hx, hy, val_fe hcurve.x_lt, val_fe hcurve.y_lt]

theorem Represents.onCurve (h : Represents j a) :
    a = .infinity ∨ ∃ x y, a = .affine x y ∧ OnCurve x y := by
  cases h with
  | infinity _ => exact Or.inl rfl
  | affine _ hcurve => exact Or.inr ⟨_, _, rfl, hcurve⟩

theorem represents_foldl (hbase : OnCurve x y) (k : ℕ) (l : List ℕ) (h : Represents j a) :
    Represents
      (l.foldl (fun acc i =>
        let acc := acc.double
        if k.testBit i then acc.addAffine (fe x) (fe y) else acc) j)
      (l.foldl (fun acc i =>
        let acc := acc.double
        if k.testBit i then acc.add (.affine x y) else acc) a) := by
  induction l generalizing j a with
  | nil => exact h
  | cons i l ih =>
    rw [List.foldl_cons, List.foldl_cons]
    apply ih
    dsimp only
    split_ifs
    · exact h.double.addAffine hbase
    · exact h.double

theorem affineMul_infinity (k : ℕ) : Point.infinity.affineMul k = .infinity := by
  unfold Point.affineMul
  generalize places k = l
  induction l with
  | nil => rfl
  | cons i l ih =>
    rw [List.foldl_cons]
    have hstep : (if k.testBit i then Point.infinity.double.add .infinity
        else Point.infinity.double) = .infinity := by
      split_ifs <;> rfl
    dsimp only
    rw [hstep]
    exact ih

theorem onCurve_of_fromAffine {p : Point} (h : Point.fromAffine x y = some p) :
    p = .affine x y ∧ OnCurve x y := by
  unfold Point.fromAffine at h
  split_ifs at h with hp
  exact ⟨(Option.some.inj h).symm, hp.1, hp.2.1, isOnCurve_iff.mp hp.2.2⟩

/-- A multiple is that of the affine law, and is at infinity or on the curve again. -/
theorem mul_spec (hbase : OnCurve x y) (k : ℕ) :
    (Point.affine x y).mul k = (Point.affine x y).affineMul k ∧
      ((Point.affine x y).mul k = .infinity ∨
        ∃ x' y', (Point.affine x y).mul k = .affine x' y' ∧ OnCurve x' y') := by
  have hrep := represents_foldl hbase k (places k) (j := .infinity) (.infinity rfl)
  have heq : (Point.affine x y).mul k = (Point.affine x y).affineMul k := hrep.toAffine_eq
  refine ⟨heq, ?_⟩
  rw [heq]
  exact hrep.onCurve

end Multiples

section Scalar

theorem foldl_scalar (bytes : Bytes) (n : ℕ) :
    bytes.foldl (fun acc b => acc * ((256 : ℕ) : ZMod orderN) + (b.toNat : ZMod orderN))
    (n : ZMod orderN) =
      ((n * 256 ^ bytes.length + BigEndian.value bytes : ℕ) : ZMod orderN) := by
  induction bytes generalizing n with
  | nil => simp
  | cons b bytes ih =>
    have hstep : (n : ZMod orderN) * ((256 : ℕ) : ZMod orderN) + (b.toNat : ZMod orderN) =
        ((n * 256 + b.toNat : ℕ) : ZMod orderN) := by push_cast; rfl
    rw [List.foldl_cons, hstep, ih, BigEndian.value_cons, List.length_cons]
    congr 1
    ring

theorem scalar_eq (bytes : Bytes) : scalar bytes = BigEndian.value bytes % orderN := by
  have h := foldl_scalar bytes 0
  rw [Nat.cast_zero, zero_mul, zero_add] at h
  rw [scalar, h, ZMod.val_natCast]

theorem scalar_eq_curve (bytes : Bytes) : Curve.siec.scalar bytes = scalar bytes := by
  have h := BigEndian.foldl_mod orderN 0 bytes
  rw [zero_mul, zero_add] at h
  rw [scalar_eq, ← h]
  rfl

end Scalar

/-- A multiple is the one that doubling and adding in affine coordinates gives, and is the identity
or on the curve; and the scalar of a byte string is its value modulo the order. -/
theorem mul_eq_affineMul :
    (∀ p : Point, p = .infinity ∨ (∃ x y, Point.fromAffine x y = some p) → ∀ k : ℕ,
      p.mul k = p.affineMul k ∧
        (p.mul k = .infinity ∨ ∃ x y, p.mul k = .affine x y ∧ Point.fromAffine x y =
          some (p.mul k))) ∧
    ∀ bytes, scalar bytes = BigEndian.value bytes % orderN := by
  refine ⟨fun p hp k => ?_, scalar_eq⟩
  rcases hp with rfl | ⟨x, y, hp⟩
  · exact ⟨(affineMul_infinity k).symm, Or.inl rfl⟩
  · obtain ⟨rfl, hcurve⟩ := onCurve_of_fromAffine hp
    obtain ⟨heq, hmul⟩ := mul_spec hcurve k
    refine ⟨heq, ?_⟩
    rcases hmul with h | ⟨x', y', h, hc⟩
    · exact Or.inl h
    · refine Or.inr ⟨x', y', h, ?_⟩
      rw [h]
      exact if_pos ⟨hc.x_lt, hc.y_lt, isOnCurve_iff.mpr hc.equation⟩

/-- Six times the base point. -/
theorem mul_eq_affineMul_generator : Point.fromAffine 5 12 = some .generator ∧
    Point.generator.mul 6 = Point.generator.affineMul 6 ∧ scalar [1, 0] = 256 := by
  have hon : Point.fromAffine 5 12 = some .generator := by decide
  have hscalar := mul_eq_affineMul.2 [1, 0]
  exact ⟨hon, (mul_eq_affineMul.1 .generator (Or.inr ⟨5, 12, hon⟩) 6).1, hscalar⟩

end Sukkula.Croc.Siec
