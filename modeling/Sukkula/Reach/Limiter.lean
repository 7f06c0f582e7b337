import Sukkula.Library.Assoc
import Sukkula.Library.Iter

/-! # The rate limiter

A bucket of tokens for each address, in a table of bounded size. A full table
first forgets the buckets whose window is over, and if that makes no room, the
one with the most tokens left.
-/

namespace Sukkula.Reach

open Assoc Iter

def rateLimitEntries : ℕ := 256

structure Bucket where
  tokens : ℕ
  refilled : ℕ
  deriving DecidableEq, Repr

structure RateLimiter (Ip : Type*) where
  burst : ℕ
  window : ℕ
  buckets : Table Ip Bucket

/-- By the tokens left, the stalest last among equals. -/
def byTokens {Ip : Type*} (a b : Ip × Bucket) : Ordering :=
  (compare a.2.tokens b.2.tokens).then (compare b.2.refilled a.2.refilled)

/-- The bucket is refilled if its window is over, and one token is taken. -/
def Bucket.take (burst window : ℕ) (b : Bucket) (now : ℕ) : Bucket × Bool :=
  let b := if window ≤ now - b.refilled then ⟨burst, now⟩ else b
  if b.tokens = 0 then (b, false) else ({ b with tokens := b.tokens - 1 }, true)

namespace RateLimiter

variable {Ip : Type*} [DecidableEq Ip]

/-- Allows `burst` events per `window` per address. -/
def new (burst window : ℕ) : RateLimiter Ip := ⟨max burst 1, window, .empty⟩

def fresh (l : RateLimiter Ip) (now : ℕ) : Table Ip Bucket :=
  l.buckets.retain fun b => now - b.refilled < l.window

def evict (it : Iteration Ip Bucket) (l : RateLimiter Ip) (now : ℕ) : RateLimiter Ip :=
  if rateLimitEntries ≤ (l.fresh now).size then
    -- Everyone is fresh.
    match maxBy byTokens (it.order (l.fresh now).entries) with
    | some victim => { l with buckets := (l.fresh now).remove victim.1 }
    | none => { l with buckets := l.fresh now }
  else { l with buckets := l.fresh now }

/-- An address that is not remembered needs a place in the table. -/
def makeRoom (it : Iteration Ip Bucket) (l : RateLimiter Ip) (ip : Ip) (now : ℕ) : RateLimiter Ip :=
  if l.buckets.lookup ip = none ∧ rateLimitEntries ≤ l.buckets.size then l.evict it now else l

/-- Takes one token for `ip`; false means that the request is dropped. -/
def allow (it : Iteration Ip Bucket) (l : RateLimiter Ip) (ip : Ip) (now : ℕ) :
    RateLimiter Ip × Bool :=
  let l := l.makeRoom it ip now
  let bucket := (l.buckets.lookup ip).getD ⟨l.burst, now⟩
  let (bucket, granted) := bucket.take l.burst l.window now
  ({ l with buckets := l.buckets.set ip bucket }, granted)

end RateLimiter

section Runs

variable {Ip : Type*} [DecidableEq Ip]

/-- A call of `allow`. -/
structure Call (Ip : Type*) where
  ip : Ip
  now : ℕ
  iteration : Iteration Ip Bucket

structure Answer (Ip : Type*) where
  ip : Ip
  now : ℕ
  granted : Bool
  deriving DecidableEq, Repr

/-- The limiter, with the answers it gave, newest first. -/
structure Run (Ip : Type*) where
  limiter : RateLimiter Ip
  history : List (Answer Ip)

def Run.step (r : Run Ip) (c : Call Ip) : Run Ip :=
  let (l, granted) := r.limiter.allow c.iteration c.ip c.now
  ⟨l, ⟨c.ip, c.now, granted⟩ :: r.history⟩

def run (burst window : ℕ) (calls : List (Call Ip)) : Run Ip :=
  calls.foldl Run.step ⟨.new burst window, []⟩

end Runs

def grants {Ip : Type*} [DecidableEq Ip] (ip : Ip) (h : List (Answer Ip)) : ℕ :=
  h.countP fun x => x.ip = ip ∧ x.granted

theorem byTokens_spec {Ip : Type*} {l : List (Ip × Bucket)} {m : Ip × Bucket}
    (h : maxBy byTokens l = some m) : m ∈ l ∧ ∀ a ∈ l, a.2.tokens ≤ m.2.tokens := by
  refine maxBy_spec (r := fun a b => a.2.tokens ≤ b.2.tokens) (fun _ _ _ => Nat.le_trans)
    (fun _ => Nat.le_refl _) (fun a b hc => ?_) (fun a b hc => ?_) h
  · unfold byTokens at hc
    rcases Nat.lt_trichotomy a.2.tokens b.2.tokens with h | h | h
    · simp [Nat.compare_eq_lt.mpr h] at hc
    · exact h.ge
    · exact h.le
  · unfold byTokens at hc
    rcases Nat.lt_trichotomy a.2.tokens b.2.tokens with h | h | h
    · exact h.le
    · exact h.le
    · simp [Nat.compare_eq_gt.mpr h] at hc

theorem stalest_of_maxBy {Ip : Type*} {l : List (Ip × Bucket)} {m : Ip × Bucket}
    (h : maxBy byTokens l = some m) :
    ∀ a ∈ l, a.2.tokens = m.2.tokens → m.2.refilled ≤ a.2.refilled := by
  have hspec := maxBy_spec (r := fun a b : Ip × Bucket => a.2.tokens ≤ b.2.tokens ∧
    (a.2.tokens = b.2.tokens → b.2.refilled ≤ a.2.refilled)) ?_ ?_ ?_ ?_ h
  · exact fun a ha => (hspec.2 a ha).2
  · rintro a b c ⟨hab, hab'⟩ ⟨hbc, hbc'⟩
    refine ⟨hab.trans hbc, fun he => ?_⟩
    exact (hbc' (by omega)).trans (hab' (by omega))
  · exact fun a => ⟨le_rfl, fun _ => le_rfl⟩
  all_goals
    intro a b hc
    unfold byTokens at hc
    rcases Nat.lt_trichotomy a.2.tokens b.2.tokens with ht | ht | ht
    · simp [Nat.compare_eq_lt.mpr ht] at hc <;> exact ⟨ht.le, fun he => absurd he ht.ne⟩
    · rcases Nat.lt_trichotomy b.2.refilled a.2.refilled with hr | hr | hr <;>
        simp [ht, Nat.compare_eq_gt, hr] at hc ⊢ <;> omega
    · simp [Nat.compare_eq_gt.mpr ht] at hc <;> exact ⟨ht.le, fun he => absurd he ht.ne⟩

end Sukkula.Reach
