import Mathlib.Data.List.Prime
import Mathlib.NumberTheory.LucasPrimality

/-! # Certificates of primality

A number is prime if some base is of order one less modulo it. A certificate gives
the base and the prime factors of that order, with a certificate of each of them
before it; the powers are evaluated by squaring.
-/

namespace Sukkula.Pratt

/-- `acc * a ^ n % m`, the lowest bit of `n` first. -/
def powMod (m : ℕ) : ℕ → ℕ → ℕ → ℕ → ℕ
  | 0, _, _, acc => acc % m
  | bits + 1, a, n, acc =>
  powMod m bits (a * a % m) (n / 2) (if n % 2 = 1 then acc * a % m else acc)

theorem powMod_eq (m bits a n acc : ℕ) (h : n < 2 ^ bits) :
    powMod m bits a n acc = acc * a ^ n % m := by
  induction bits generalizing a n acc with
  | zero =>
    obtain rfl : n = 0 := by simpa using h
    simp [powMod]
  | succ bits ih =>
    have hn : n / 2 < 2 ^ bits := by
      rw [pow_succ] at h
      omega
    have hsquare : (a * a % m) ^ (n / 2) ≡ a ^ (2 * (n / 2)) [MOD m] := by
      rw [pow_mul, sq]
      exact (Nat.mod_modEq _ m).pow _
    rw [powMod, ih _ _ _ hn]
    change _ ≡ _ [MOD m]
    split_ifs with hodd
    · have hexp : acc * a ^ n = acc * a * a ^ (2 * (n / 2)) := by
        conv_lhs => rw [← Nat.div_add_mod n 2, hodd, pow_succ]
        ring
      rw [hexp]
      exact (Nat.mod_modEq _ m).mul hsquare
    · have hexp : 2 * (n / 2) = n := by omega
      rw [hexp] at hsquare
      exact hsquare.mul_left acc

/-- A number, the base, and the prime factors of the number less one. -/
structure Claim where
  p : ℕ
  base : ℕ
  factors : List ℕ

def Claim.pow (c : Claim) (n : ℕ) : ℕ := powMod c.p (c.p.log2 + 1) c.base n 1

/-- The base is of that order, and the factors are among those known. -/
def Claim.holds (c : Claim) (known : List ℕ) : Bool :=
  1 < c.p && c.factors.prod + 1 = c.p && c.pow (c.p - 1) = 1 &&
    c.factors.all fun q => q ∈ known && c.pow ((c.p - 1) / q) ≠ 1

/-- The numbers that are certified, the last of them first. -/
def certified (known : List ℕ) : List Claim → List ℕ
  | [] => known
  | c :: cs => if c.holds known then certified (c.p :: known) cs else known

theorem Claim.pow_eq_one_iff {c : Claim} (hp : 1 < c.p) {n : ℕ} (hn : n ≤ c.p) :
    c.pow n = 1 ↔ (c.base : ZMod c.p) ^ n = 1 := by
  have hlt : n < 2 ^ (c.p.log2 + 1) := hn.trans_lt Nat.lt_log2_self
  have hcast : (c.base : ZMod c.p) ^ n = 1 ↔ ((c.base ^ n : ℕ) : ZMod c.p) = (1 : ℕ) := by
    rw [Nat.cast_pow, Nat.cast_one]
  rw [pow, powMod_eq _ _ _ _ _ hlt, one_mul, hcast, ZMod.natCast_eq_natCast_iff',
    Nat.mod_eq_of_lt hp]

theorem Claim.prime {c : Claim} {known : List ℕ} (hknown : ∀ q ∈ known, q.Prime)
    (h : c.holds known) : c.p.Prime := by
  simp only [holds, Bool.and_eq_true, decide_eq_true_eq, List.all_eq_true] at h
  obtain ⟨⟨⟨hp, hprod⟩, hone⟩, hfactors⟩ := h
  apply lucas_primality c.p (c.base : ZMod c.p)
  · exact (pow_eq_one_iff hp (Nat.sub_le _ _)).mp hone
  · intro q hq hdvd
    have hmem : q ∈ c.factors := by
      rw [← hprod, Nat.add_sub_cancel] at hdvd
      obtain ⟨q', hq', hdvd⟩ := (Prime.dvd_prod_iff hq.prime).mp hdvd
      rwa [(Nat.prime_dvd_prime_iff_eq hq (hknown q' (hfactors q' hq').1)).mp hdvd]
    exact mt (pow_eq_one_iff hp ((Nat.div_le_self _ _).trans (Nat.sub_le _ _))).mpr
      (hfactors q hmem).2

theorem prime_of_certified (cs : List Claim) {known : List ℕ}
    (hknown : ∀ q ∈ known, q.Prime) {p : ℕ} (hp : p ∈ certified known cs) : p.Prime := by
  induction cs generalizing known with
  | nil => exact hknown p hp
  | cons c cs ih =>
    rw [certified] at hp
    split_ifs at hp with hc
    · refine ih ?_ hp
      rw [List.forall_mem_cons]
      exact ⟨Claim.prime hknown hc, hknown⟩
    · exact hknown p hp

end Sukkula.Pratt
