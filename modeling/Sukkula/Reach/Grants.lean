import Sukkula.Library.Window
import Sukkula.Reach.Limiter

/-! # What the rate limiter grants

Every bucket goes back to a grant at which its window began, and the tokens it
lacks were granted since. Buckets are forgotten when their window is over, or
when the table is full of fresh ones; where neither is needed, the addresses do
not share anything.
-/

namespace Sukkula.Reach

open Assoc Iter

variable {Ip : Type*} [DecidableEq Ip] {l l' : RateLimiter Ip} {it : Iteration Ip Bucket}
  {ip ip' : Ip} {b b' : Bucket} {now burst window : ℕ} {h : List (Answer Ip)}
  {x : Answer Ip} {g : Bool}

def Bucket.Fresh (b : Bucket) (window now : ℕ) : Prop := now - b.refilled < window

instance (b : Bucket) (window now : ℕ) : Decidable (b.Fresh window now) :=
  inferInstanceAs (Decidable (_ < _))

namespace RateLimiter

theorem evict_same : (l.evict it now).burst = l.burst ∧ (l.evict it now).window = l.window := by
  unfold evict
  split
  · split <;> exact ⟨rfl, rfl⟩
  · exact ⟨rfl, rfl⟩

theorem makeRoom_same (it : Iteration Ip Bucket) (l : RateLimiter Ip) (ip : Ip) (now : ℕ) :
    (l.makeRoom it ip now).burst = l.burst ∧ (l.makeRoom it ip now).window = l.window := by
  unfold makeRoom
  split
  · exact evict_same
  · exact ⟨rfl, rfl⟩

theorem lookup_evict (hb : (l.evict it now).buckets.lookup ip = some b) :
    l.buckets.lookup ip = some b := by
  have hfresh : ∀ b, (l.fresh now).lookup ip = some b → l.buckets.lookup ip = some b :=
    fun b h => (Table.lookup_retain.mp h).1
  unfold evict at hb
  split at hb
  · split at hb
    · rw [Table.lookup_remove] at hb
      split at hb
      · cases hb
      · exact hfresh b hb
    · exact hfresh b hb
  · exact hfresh b hb

theorem lookup_makeRoom (hb : (l.makeRoom it ip now).buckets.lookup ip' = some b) :
    l.buckets.lookup ip' = some b := by
  unfold makeRoom at hb
  split at hb
  · exact lookup_evict hb
  · exact hb

/-- A bucket that is forgotten in its window had as many tokens left as any, and all were fresh. -/
theorem evict_forgets (hfew : l.buckets.size ≤ rateLimitEntries) (hb : l.buckets.lookup ip = some b)
    (hfresh : b.Fresh l.window now) (hnone : (l.evict it now).buckets.lookup ip = none) :
    l.buckets.size = rateLimitEntries ∧
      ∀ ip' b', l.buckets.lookup ip' = some b' → b'.Fresh l.window now ∧ b'.tokens ≤ b.tokens := by
  have hkept : (l.fresh now).lookup ip = some b :=
    Table.lookup_retain.mpr ⟨hb, decide_eq_true hfresh⟩
  unfold evict at hnone
  split at hnone
  · rename_i hfull
    split at hnone
    · rename_i victim hvictim
      obtain ⟨hmem, hmost⟩ := byTokens_spec hvictim
      rw [Table.lookup_remove] at hnone
      split at hnone
      · rename_i hip
        subst hip
        have hv : (l.fresh now).lookup victim.1 = some victim.2 :=
          Table.lookup_eq_some_iff.mpr ((it.perm _).mem_iff.mp hmem)
        obtain rfl := Option.some.inj (hkept.symm.trans hv)
        have hsize := Table.size_retain_le (t := l.buckets)
          (p := fun b => now - b.refilled < l.window)
        have hall := hfew.trans hfull
        refine ⟨Nat.le_antisymm hfew (hfull.trans hsize), fun ip' b' hb' => ?_⟩
        have hf := Table.retain_eq_self hall hb'
        refine ⟨of_decide_eq_true hf, hmost (ip', b') ((it.perm _).mem_iff.mpr ?_)⟩
        exact Table.lookup_eq_some_iff.mp (Table.lookup_retain.mpr ⟨hb', hf⟩)
      · rw [hkept] at hnone
        cases hnone
    · rw [hkept] at hnone
      cases hnone
  · rw [hkept] at hnone
    cases hnone

theorem size_evict_lt (hfew : l.buckets.size ≤ rateLimitEntries) :
    (l.evict it now).buckets.size < rateLimitEntries := by
  have hle : (l.fresh now).size ≤ rateLimitEntries := Table.size_retain_le.trans hfew
  unfold evict
  split
  · rename_i hfull
    split
    · rename_i victim hvictim
      have hmem := (it.perm _).mem_iff.mp (byTokens_spec hvictim).1
      refine (Table.size_remove_lt ?_).trans_le hle
      rw [Table.lookup_eq_some_iff.mpr hmem]
      nofun
    · rename_i hnone
      -- A table with so many buckets has a maximum.
      have hlen := (it.perm (l.fresh now).entries).length_eq
      rw [maxBy_eq_none hnone] at hlen
      exact absurd (hfull.trans_eq hlen.symm) (Nat.not_le.mpr (by decide : 0 < rateLimitEntries))
  · rename_i hfull
    exact Nat.not_le.mp hfull

/-- Room is made for an address that is not remembered, in a full table only. -/
theorem makeRoom_forgets (hfew : l.buckets.size ≤ rateLimitEntries)
    (hb : l.buckets.lookup ip' = some b) (hfresh : b.Fresh l.window now)
    (hnone : (l.makeRoom it ip now).buckets.lookup ip' = none) :
    l.buckets.lookup ip = none ∧ l.buckets.size = rateLimitEntries ∧
      ∀ ip' b', l.buckets.lookup ip' = some b' → b'.Fresh l.window now ∧ b'.tokens ≤ b.tokens := by
  unfold makeRoom at hnone
  split at hnone
  · rename_i hroom
    exact ⟨hroom.1, evict_forgets hfew hb hfresh hnone⟩
  · rw [hb] at hnone
    cases hnone

theorem makeRoom_eq_self (hroom : l.buckets.lookup ip ≠ none ∨ l.buckets.size < rateLimitEntries) :
    l.makeRoom it ip now = l := by
  refine if_neg ?_
  rintro ⟨hnone, hfull⟩
  rcases hroom with h | h
  · exact h hnone
  · exact Nat.not_le.mpr h hfull

theorem size_makeRoom (hfew : l.buckets.size ≤ rateLimitEntries) (b : Bucket) :
    ((l.makeRoom it ip now).buckets.set ip b).size ≤ rateLimitEntries := by
  unfold makeRoom
  split
  · exact Table.size_set_le.trans (size_evict_lt hfew)
  · rename_i hroom
    rcases not_and_or.mp hroom with hroom | hroom
    · exact (Table.size_set_of_lookup hroom).trans hfew
    · exact Table.size_set_le.trans (Nat.not_le.mp hroom)

end RateLimiter

/-- What a call does to the bucket of its address, and whether it is granted. -/
inductive Takes (burst window now : ℕ) : Option Bucket → Bucket → Bool → Prop
  | begins {o : Option Bucket} (hover : ∀ b ∈ o, ¬ b.Fresh window now) :
      Takes burst window now o ⟨burst - 1, now⟩ true
  | refused {b : Bucket} (hfresh : b.Fresh window now) (hzero : b.tokens = 0) :
      Takes burst window now (some b) b false
  | granted {b : Bucket} (hfresh : b.Fresh window now) (hpos : 0 < b.tokens) :
      Takes burst window now (some b) { b with tokens := b.tokens - 1 } true

theorem takes_take (hburst : 1 ≤ burst) (o : Option Bucket) :
    Takes burst window now o ((o.getD ⟨burst, now⟩).take burst window now).1
      ((o.getD ⟨burst, now⟩).take burst window now).2 := by
  have hnew : (if (⟨burst, now⟩ : Bucket).tokens = 0 then ((⟨burst, now⟩ : Bucket), false)
      else (⟨burst - 1, now⟩, true)) = (⟨burst - 1, now⟩, true) := if_neg (Nat.ne_of_gt hburst)
  cases o with
  | none =>
    have htake : (⟨burst, now⟩ : Bucket).take burst window now = (⟨burst - 1, now⟩, true) := by
      unfold Bucket.take
      rw [ite_self]
      exact hnew
    simp only [Option.getD_none, htake]
    exact .begins nofun
  | some b =>
    simp only [Option.getD_some]
    by_cases hfresh : b.Fresh window now
    · have htake : b.take burst window now =
          if b.tokens = 0 then (b, false) else ({ b with tokens := b.tokens - 1 }, true) := by
        unfold Bucket.take
        rw [if_neg (Nat.not_le.mpr hfresh)]
      rw [htake]
      split_ifs with hzero
      · exact .refused hfresh hzero
      · exact .granted hfresh (Nat.pos_of_ne_zero hzero)
    · have htake : b.take burst window now = (⟨burst - 1, now⟩, true) := by
        unfold Bucket.take
        rw [if_pos (Nat.not_lt.mp hfresh)]
        exact hnew
      rw [htake]
      exact .begins (by simpa using hfresh)

/-- A call makes room, and then touches the bucket of its address only. -/
theorem RateLimiter.allow_spec (it : Iteration Ip Bucket) (ip : Ip) (now : ℕ)
    (hburst : 1 ≤ l.burst) : ∃ b g, l.allow it ip now =
        ({ l.makeRoom it ip now with buckets := (l.makeRoom it ip now).buckets.set ip b }, g) ∧
      Takes l.burst l.window now ((l.makeRoom it ip now).buckets.lookup ip) b g := by
  obtain ⟨h₁, h₂⟩ := makeRoom_same it l ip now
  refine ⟨_, _, ?_, takes_take hburst _⟩
  simp only [allow, h₁, h₂]

/-- In its window, an address without tokens is refused, and its bucket stays as it is. -/
theorem RateLimiter.allow_empty (hburst : 1 ≤ l.burst) (hb : l.buckets.lookup ip = some b)
    (hzero : b.tokens = 0) (hfresh : b.Fresh l.window now) :
    l.allow it ip now = ({ l with buckets := l.buckets.set ip b }, false) := by
  obtain ⟨b', g, hallow, htakes⟩ := allow_spec it ip now hburst
  rw [makeRoom_eq_self (Or.inl (by simp [hb]))] at hallow htakes
  rw [hb] at htakes
  cases htakes with
  | begins hover => exact absurd hfresh (hover b rfl)
  | refused => exact hallow
  | granted _ hpos => exact absurd hzero (Nat.ne_of_gt hpos)

theorem grants_cons (ip : Ip) (x : Answer Ip) (h : List (Answer Ip)) :
    grants ip (x :: h) = grants ip h + if x.ip = ip ∧ x.granted then 1 else 0 := by
  simp [grants, List.countP_cons]

/-- The window of the bucket began with a grant, and the tokens it lacks were granted since. -/
def Bucket.Backed (burst : ℕ) (h : List (Answer Ip)) (ip : Ip) (b : Bucket) : Prop :=
  ∃ q g p, h = q ++ g :: p ∧ g.ip = ip ∧ g.granted = true ∧ g.now = b.refilled ∧
    grants ip (q ++ [g]) + b.tokens = burst

namespace Bucket.Backed

/-- What is granted to others, and what is refused, does not count. -/
theorem cons (hb : b.Backed burst h ip) (hx : ¬ (x.ip = ip ∧ x.granted)) :
    b.Backed burst (x :: h) ip := by
  obtain ⟨q, g, p, rfl, hip, hg, hnow, hsum⟩ := hb
  refine ⟨x :: q, g, p, rfl, hip, hg, hnow, ?_⟩
  rw [List.cons_append, grants_cons, if_neg hx, Nat.add_zero]
  exact hsum

theorem take (hb : b.Backed burst h ip) (hpos : 0 < b.tokens) :
    ({ b with tokens := b.tokens - 1 } : Bucket).Backed burst (⟨ip, now, true⟩ :: h) ip := by
  obtain ⟨q, g, p, rfl, hip, hg, hnow, hsum⟩ := hb
  refine ⟨⟨ip, now, true⟩ :: q, g, p, rfl, hip, hg, hnow, ?_⟩
  rw [List.cons_append, grants_cons, if_pos ⟨rfl, rfl⟩]
  simp only
  omega

theorem begins (hburst : 1 ≤ burst) (h : List (Answer Ip)) (ip : Ip) (now : ℕ) :
    (⟨burst - 1, now⟩ : Bucket).Backed burst (⟨ip, now, true⟩ :: h) ip := by
  refine ⟨[], ⟨ip, now, true⟩, h, rfl, rfl, rfl, rfl, ?_⟩
  rw [List.nil_append, grants_cons, if_pos ⟨rfl, rfl⟩]
  simp only [grants, List.countP_nil]
  omega

end Bucket.Backed

structure Run.Inv (r : Run Ip) : Prop where
  burst : 1 ≤ r.limiter.burst
  few : r.limiter.buckets.size ≤ rateLimitEntries
  backed : ∀ ip b, r.limiter.buckets.lookup ip = some b → b.Backed r.limiter.burst r.history ip

variable {r : Run Ip} {c : Call Ip} {calls : List (Call Ip)}

theorem Run.step_spec (hburst : 1 ≤ r.limiter.burst) :
    ∃ b g, r.step c = ⟨{ r.limiter.makeRoom c.iteration c.ip c.now with
        buckets := (r.limiter.makeRoom c.iteration c.ip c.now).buckets.set c.ip b },
        ⟨c.ip, c.now, g⟩ :: r.history⟩ ∧
      Takes r.limiter.burst r.limiter.window c.now
        ((r.limiter.makeRoom c.iteration c.ip c.now).buckets.lookup c.ip) b g := by
  obtain ⟨b, g, hallow, htakes⟩ := RateLimiter.allow_spec c.iteration c.ip c.now hburst
  exact ⟨b, g, by rw [Run.step, hallow], htakes⟩

theorem Run.step_same (hburst : 1 ≤ r.limiter.burst) :
    (r.step c).limiter.burst = r.limiter.burst ∧ (r.step c).limiter.window = r.limiter.window := by
  obtain ⟨b, g, hstep, -⟩ := Run.step_spec (c := c) hburst
  rw [hstep]
  exact RateLimiter.makeRoom_same c.iteration r.limiter c.ip c.now

theorem Run.Inv.step (hr : r.Inv) (c : Call Ip) : (r.step c).Inv := by
  obtain ⟨hb, -⟩ := Run.step_same (c := c) hr.burst
  obtain ⟨b, g, hstep, htakes⟩ := Run.step_spec (c := c) hr.burst
  rw [hstep] at hb ⊢
  constructor
  · rw [hb]
    exact hr.burst
  · exact RateLimiter.size_makeRoom hr.few b
  · intro ip b' hlookup
    rw [Table.lookup_set] at hlookup
    rw [hb]
    split_ifs at hlookup with hip
    · subst hip
      obtain rfl := Option.some.inj hlookup
      generalize hroom : (r.limiter.makeRoom c.iteration c.ip c.now).buckets.lookup c.ip =
        o at htakes
      cases htakes with
      | begins => exact .begins hr.burst _ _ _
      | refused => exact (hr.backed _ _ (RateLimiter.lookup_makeRoom hroom)).cons (by simp)
      | granted hfresh hpos => exact (hr.backed _ _ (RateLimiter.lookup_makeRoom hroom)).take hpos
    · have := hr.backed ip b' (RateLimiter.lookup_makeRoom hlookup)
      exact this.cons fun hx => hip hx.1.symm

theorem Run.Inv.run (burst window : ℕ) (calls : List (Call Ip)) : (run burst window calls).Inv := by
  unfold Reach.run
  induction calls using List.reverseRecOn with
  | nil => exact ⟨le_max_right _ _, Nat.zero_le _, nofun⟩
  | append_singleton calls c ih =>
    rw [List.foldl_append]
    exact ih.step c

end Sukkula.Reach
