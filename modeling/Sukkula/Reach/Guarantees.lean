import Mathlib.Data.Finset.Card
import Sukkula.Library.Transition
import Sukkula.Reach.Grants

/-! # The guarantees of the rate limiter

While the addresses fit into the table, each is answered as if it were alone,
and no interval as long as the window has as many as twice the burst. Whatever
the addresses, one that was refused has to wait for the end of its window,
unless so many others have used up their bursts that the table has nobody else
left to forget.
-/

namespace Sukkula.Reach

open Assoc Iter Window

variable {Ip : Type*} [DecidableEq Ip] {r r₁ : Run Ip} {c : Call Ip} {ip : Ip} {ips : Finset Ip}
  {burst window now : ℕ} {x : Answer Ip} {h : List (Answer Ip)} {calls : List (Call Ip)}

/-- A refusal comes in a window that began with a grant, all of whose tokens are gone. -/
def Refused (burst window : ℕ) (x : Answer Ip) (past : List (Answer Ip)) : Prop :=
  x.granted = false → ∃ q g p, past = q ++ g :: p ∧ g.ip = x.ip ∧ g.granted = true ∧
    x.now < g.now + window ∧ grants x.ip (q ++ [g]) = burst

theorem run_concat (burst window : ℕ) (calls : List (Call Ip)) (c : Call Ip) :
    run burst window (calls ++ [c]) = (run burst window calls).step c := by
  rw [run, List.foldl_append]
  rfl

theorem run_same (burst window : ℕ) (calls : List (Call Ip)) :
    (run burst window calls).limiter.burst = max burst 1 ∧
      (run burst window calls).limiter.window = window := by
  induction calls using List.reverseRecOn with
  | nil => exact ⟨rfl, rfl⟩
  | append_singleton calls c ih =>
    obtain ⟨h₁, h₂⟩ := Run.step_same (c := c) (Run.Inv.run burst window calls).burst
    rw [run_concat, h₁, h₂]
    exact ih

theorem refused_run (burst window : ℕ) (calls : List (Call Ip)) :
    ∀ x past, x :: past <:+ (run burst window calls).history →
    Refused (max burst 1) window x past := by
  induction calls using List.reverseRecOn with
  | nil =>
    intro x past hs
    simp [run] at hs
  | append_singleton calls c ih =>
    have hinv := Run.Inv.run burst window calls
    obtain ⟨hburst, hwindow⟩ := run_same burst window calls
    obtain ⟨b, g, hstep, htakes⟩ := Run.step_spec (c := c) hinv.burst
    rw [run_concat, hstep]
    refine Transition.suffix_cons_forall ?_ ih
    rintro rfl
    generalize hroom :
      ((run burst window calls).limiter.makeRoom c.iteration c.ip c.now).buckets.lookup
      c.ip = o at htakes
    cases htakes with
    | refused hfresh hzero =>
      obtain ⟨q, g, p, hh, hip, hg, hnow, hsum⟩ :=
        hinv.backed _ _ (RateLimiter.lookup_makeRoom hroom)
      refine ⟨q, g, p, hh, hip, hg, ?_, ?_⟩
      · unfold Bucket.Fresh at hfresh
        simp only
        omega
      · rw [← hburst, ← hsum, hzero, Nat.add_zero]

theorem history_now (burst window : ℕ) (calls : List (Call Ip)) :
    (run burst window calls).history.map Answer.now = (calls.map Call.now).reverse := by
  induction calls using List.reverseRecOn with
  | nil => rfl
  | append_singleton calls c ih =>
    rw [run_concat, List.map_append, List.reverse_append, ← ih]
    rfl

/-- The calls came in the order of their times. -/
def Sorted (calls : List (Call Ip)) : Prop := (calls.map Call.now).Pairwise (· ≤ ·)

theorem Sorted.history_le (h : Sorted (calls ++ [c])) (burst window : ℕ) :
    ∀ x ∈ (run burst window calls).history, x.now ≤ c.now := by
  intro x hx
  have hmem := List.mem_map_of_mem (f := Answer.now) hx
  rw [history_now, List.mem_reverse] at hmem
  rw [Sorted, List.map_append, List.pairwise_append] at h
  exact h.2.2 _ hmem _ (by simp)

theorem Sorted.history (h : Sorted calls) (burst window : ℕ) :
    (run burst window calls).history.Pairwise fun x y => y.now ≤ x.now := by
  rw [← List.pairwise_map (f := Answer.now) (R := fun a b => b ≤ a), history_now,
    List.pairwise_reverse]
  exact h

omit [DecidableEq Ip] in
theorem Sorted.left {d : List (Call Ip)} (h : Sorted (calls ++ d)) : Sorted calls := by
  rw [Sorted, List.map_append] at h
  exact (List.pairwise_append.mp h).1

section Few

def Run.Known (ips : Finset Ip) (r : Run Ip) : Prop :=
  ∀ ip, r.limiter.buckets.lookup ip ≠ none → ip ∈ ips

theorem Run.Known.room (hr : r.Known ips) (hips : ips.card ≤ rateLimitEntries) (hip : ip ∈ ips) :
    r.limiter.buckets.lookup ip ≠ none ∨ r.limiter.buckets.size < rateLimitEntries := by
  by_cases hnone : r.limiter.buckets.lookup ip = none
  · refine Or.inr (lt_of_lt_of_le ?_ hips)
    have hkeys : (r.limiter.buckets.entries.map Prod.fst).toFinset ⊂ ips := by
      rw [Finset.ssubset_iff_of_subset]
      · refine ⟨ip, hip, fun h => ?_⟩
        exact Table.mem_keys_iff.mp (List.mem_toFinset.mp h) hnone
      · intro ip' h
        exact hr ip' (Table.mem_keys_iff.mp (List.mem_toFinset.mp h))
    have hcard := Finset.card_lt_card hkeys
    rwa [List.toFinset_card_of_nodup r.limiter.buckets.nodup, List.length_map] at hcard
  · exact Or.inl hnone

/-- The answer to a call that needs no room, and the bucket that it leaves. -/
def Run.taken (r : Run Ip) (c : Call Ip) : Bucket × Bool :=
  ((r.limiter.buckets.lookup c.ip).getD ⟨r.limiter.burst, c.now⟩).take r.limiter.burst
    r.limiter.window c.now

theorem Run.step_eq (hroom : r.limiter.buckets.lookup c.ip ≠ none ∨
    r.limiter.buckets.size < rateLimitEntries) :
    r.step c = ⟨{ r.limiter with buckets := r.limiter.buckets.set c.ip (r.taken c).1 },
      ⟨c.ip, c.now, (r.taken c).2⟩ :: r.history⟩ := by
  simp only [Run.step, RateLimiter.allow, RateLimiter.makeRoom_eq_self hroom, Run.taken]

theorem Run.Known.step (hr : r.Known ips) (hips : ips.card ≤ rateLimitEntries) (hip : c.ip ∈ ips) :
    (r.step c).Known ips := by
  intro ip hlookup
  rw [Run.step_eq (hr.room hips hip), Table.lookup_set] at hlookup
  split_ifs at hlookup with h
  · exact h ▸ hip
  · exact hr ip hlookup

theorem known_run (burst window : ℕ) (hips : ips.card ≤ rateLimitEntries)
    (hcalls : ∀ c ∈ calls, c.ip ∈ ips) : (run burst window calls).Known ips := by
  induction calls using List.reverseRecOn with
  | nil => exact fun ip h => absurd rfl h
  | append_singleton calls c ih =>
    rw [run_concat]
    exact (ih fun d hd => hcalls d (by simp [hd])).step hips (hcalls c (by simp))

/-- A run, and one that sees only the calls of one address. -/
structure Run.Alone (ip : Ip) (r r₁ : Run Ip) : Prop where
  same : r₁.limiter.burst = r.limiter.burst ∧ r₁.limiter.window = r.limiter.window
  bucket : r₁.limiter.buckets.lookup ip = r.limiter.buckets.lookup ip
  answers : r.history.filter (·.ip = ip) = r₁.history

theorem alone_run (hips : ips.card ≤ rateLimitEntries)
    (hcalls : ∀ c ∈ calls, c.ip ∈ ips) (ip : Ip) :
    Run.Alone ip (run burst window calls) (run burst window (calls.filter (·.ip = ip))) := by
  induction calls using List.reverseRecOn with
  | nil => exact ⟨⟨rfl, rfl⟩, rfl, rfl⟩
  | append_singleton calls c ih =>
    have hall := fun d (hd : d ∈ calls) => hcalls d (List.mem_append_left [c] hd)
    have hroom := (known_run burst window hips hall).room hips
      (hcalls c (by simp))
    obtain ⟨⟨hburst, hwindow⟩, hbucket, hanswers⟩ := ih hall
    rw [run_concat, Run.step_eq hroom]
    by_cases hc : c.ip = ip
    · -- The other run remembers this address alone.
      have hone : (run burst window (calls.filter (·.ip = ip))).Known {ip} :=
        known_run burst window (by simp [rateLimitEntries]) (by simp)
      have hroom₁ := hone.room (by simp [rateLimitEntries]) (Finset.mem_singleton.mpr hc)
      have htaken : (run burst window (calls.filter (·.ip = ip))).taken c =
          (run burst window calls).taken c := by
        simp only [Run.taken, hc, hbucket, hburst, hwindow]
      rw [List.filter_append, List.filter_cons_of_pos (by simpa using hc),
        List.filter_nil, run_concat, Run.step_eq hroom₁, htaken]
      constructor
      · exact ⟨hburst, hwindow⟩
      · simp only [Table.lookup_set, hc, if_true]
      · simp only [List.filter_cons, hc, decide_true, if_true, hanswers]
    · rw [List.filter_append, List.filter_cons_of_neg (by simpa using hc), List.filter_nil,
        List.append_nil]
      constructor
      · exact ⟨hburst, hwindow⟩
      · rw [Table.lookup_set, if_neg (Ne.symm hc), hbucket]
      · simp only [List.filter_cons, hc, decide_false, hanswers]
        rfl

/-- The times of the grants to an address, newest first. -/
def times (ip : Ip) (h : List (Answer Ip)) : List ℕ :=
  (h.filter fun x => x.ip = ip ∧ x.granted).map Answer.now

theorem times_cons (ip : Ip) (x : Answer Ip) (h : List (Answer Ip)) :
    times ip (x :: h) = if x.ip = ip ∧ x.granted then x.now :: times ip h else times ip h := by
  simp only [times, List.filter_cons]
  split_ifs <;> simp_all

/-- The grants to an address come in windows, the last of which is that of its bucket. -/
def Run.Paced (ip : Ip) (r : Run Ip) : Prop :=
  match r.limiter.buckets.lookup ip with
  | none => times ip r.history = []
  | some b => Windowed r.limiter.window r.limiter.burst (times ip r.history)
      (r.limiter.burst - b.tokens) b.refilled

theorem Run.Paced.step (hr : r.Paced ip) (hinv : r.Inv) (hwindow : 0 < r.limiter.window)
    (hroom : r.limiter.buckets.lookup c.ip ≠ none ∨ r.limiter.buckets.size < rateLimitEntries)
    (hnow : ∀ x ∈ r.history, x.now ≤ c.now) : (r.step c).Paced ip := by
  have htimes : ∀ t ∈ times ip r.history, t ≤ c.now := by
    intro t ht
    obtain ⟨x, hx, rfl⟩ := List.mem_map.mp ht
    exact hnow x (List.mem_filter.mp hx).1
  have htakes : Takes r.limiter.burst r.limiter.window c.now (r.limiter.buckets.lookup c.ip)
      (r.taken c).1 (r.taken c).2 := takes_take hinv.burst _
  rw [Run.step_eq hroom]
  generalize r.taken c = p at htakes ⊢
  obtain ⟨b', g⟩ := p
  unfold Run.Paced at hr ⊢
  simp only [Table.lookup_set, times_cons]
  by_cases hip : ip = c.ip
  · subst hip
    rw [if_pos rfl]
    generalize ho : r.limiter.buckets.lookup c.ip = o at htakes hr
    have hstarted : ∀ b, o = some b → b.refilled ≤ c.now := by
      rintro b rfl
      obtain ⟨q, g, p, hh, -, -, hg, -⟩ := hinv.backed _ _ ho
      exact hg ▸ hnow g (by rw [hh]; simp)
    cases htakes with
    | begins hover =>
      have hone : r.limiter.burst - (r.limiter.burst - 1) = 1 := by
        have := hinv.burst
        omega
      simp only [true_and, if_true, hone]
      cases o with
      | none =>
        simp only at hr
        rw [hr]
        exact .first hwindow hinv.burst c.now
      | some b =>
        refine hr.start_new hwindow ?_ htimes
        have hover := hover b rfl
        unfold Bucket.Fresh at hover
        omega
    | refused => simpa using hr
    | @granted b hfresh hpos =>
      simp only [true_and, if_true]
      have hlt : r.limiter.burst - b.tokens < r.limiter.burst := by
        have := hinv.burst
        omega
      have hnext : r.limiter.burst - (b.tokens - 1) = r.limiter.burst - b.tokens + 1 := by
        have := hr.pos
        omega
      rw [hnext]
      exact hr.join hwindow hlt (hstarted b rfl) htimes
  · rw [if_neg hip, if_neg fun h => hip h.1.symm]
    exact hr

theorem paced_run (burst : ℕ) (hwindow : 0 < window) (hips : ips.card ≤ rateLimitEntries)
    (hcalls : ∀ c ∈ calls, c.ip ∈ ips) (hsorted : Sorted calls) (ip : Ip) :
    (run burst window calls).Paced ip := by
  induction calls using List.reverseRecOn with
  | nil => rfl
  | append_singleton calls c ih =>
    have hall := fun d (hd : d ∈ calls) => hcalls d (List.mem_append_left [c] hd)
    rw [run_concat]
    refine (ih hall hsorted.left).step (Run.Inv.run burst window calls) ?_ ?_
      (hsorted.history_le burst window)
    · rw [(run_same burst window calls).2]
      exact hwindow
    · exact (known_run burst window hips hall).room hips (hcalls c (by simp))

theorem within_times (ip : Ip) (h : List (Answer Ip)) (a b : ℕ) :
    within a b (times ip h) = h.countP fun x => x.ip = ip ∧ x.granted ∧ a ≤ x.now ∧ x.now < b := by
  rw [within, times, List.countP_map, List.countP_filter]
  exact List.countP_congr fun x _ => by simp [and_assoc, and_comm]

/-- Every address of few is answered as if it were alone, an interval as long as the window has
fewer grants than two bursts, and a refusal comes in a window that is used up. -/
theorem few_addresses (burst window : ℕ) (calls : List (Call Ip)) (hburst : 1 ≤ burst)
    (hwindow : 0 < window) (hsorted : (calls.map Call.now).Pairwise (· ≤ ·))
    (hfew : (calls.map Call.ip).toFinset.card ≤ 256) :
    (∀ ip, (run burst window calls).history.filter (·.ip = ip) =
      (run burst window (calls.filter (·.ip = ip))).history) ∧
    (∀ ip a, ((run burst window calls).history.countP fun x =>
      x.ip = ip ∧ x.granted ∧ a ≤ x.now ∧ x.now < a + window) ≤ 2 * burst - 1) ∧
    ∀ x past, x :: past <:+ (run burst window calls).history → x.granted = false →
      ∃ q g p, past = q ++ g :: p ∧ g.ip = x.ip ∧ g.granted = true ∧ x.now < g.now + window ∧
        grants x.ip (q ++ [g]) = burst := by
  have hmax : max burst 1 = burst := max_eq_left hburst
  have hcalls : ∀ c ∈ calls, c.ip ∈ (calls.map Call.ip).toFinset :=
    fun c hc => List.mem_toFinset.mpr (List.mem_map_of_mem hc)
  refine ⟨fun ip => (alone_run hfew hcalls ip).answers, fun ip a => ?_, fun x past hs => ?_⟩
  · rw [← within_times]
    have hpaced := paced_run burst hwindow hfew hcalls hsorted ip
    obtain ⟨hb, hw⟩ := run_same burst window calls
    unfold Run.Paced at hpaced
    rw [hb, hw, hmax] at hpaced
    split at hpaced
    · rw [hpaced]
      exact Nat.zero_le _
    · have hlt := hpaced.within a (a + window)
      have hceil : (a + window - a) ⌈/⌉ window = 1 := by
        rw [Nat.add_sub_cancel_left, Nat.ceilDiv_eq_add_pred_div]
        exact Nat.div_eq_of_lt_le (by omega) (by omega)
      rw [hceil] at hlt
      omega
  · have := refused_run burst window calls x past hs
    rw [hmax] at this
    exact this

def twice : List (Call ℕ) := [⟨7, 0, ⟨id, fun _ => .refl _⟩⟩, ⟨7, 3, ⟨id, fun _ => .refl _⟩⟩]

theorem few_addresses_twice :
    (run 1 10 twice).history = [⟨7, 3, false⟩, ⟨7, 0, true⟩] ∧
    ((run 1 10 twice).history.countP fun x => x.ip = 7 ∧ x.granted ∧ 0 ≤ x.now ∧ x.now < 0 + 10) ≤
      2 * 1 - 1 := by
  constructor
  · decide
  · exact (few_addresses 1 10 twice (by decide) (by decide) (by decide) (by decide)).2.1 7 0

end Few

section Flood

variable {b : Bucket}

/-- The bucket of an address that was refused stays as it is in its window, but where it is
forgotten. -/
theorem Run.Inv.step_empty (hr : r.Inv) (hb : r.limiter.buckets.lookup ip = some b)
    (hzero : b.tokens = 0) (hfresh : b.Fresh r.limiter.window c.now) :
    (r.step c).limiter.buckets.lookup ip = some b ∨
      ((r.step c).limiter.buckets.lookup ip = none ∧ c.ip ≠ ip) := by
  by_cases hip : ip = c.ip
  · subst hip
    rw [Run.step, RateLimiter.allow_empty hr.burst hb hzero hfresh]
    exact Or.inl (Table.lookup_set.trans (if_pos rfl))
  · obtain ⟨b', g, hstep, -⟩ := Run.step_spec (c := c) hr.burst
    rw [hstep, Table.lookup_set, if_neg hip]
    cases hl : (r.limiter.makeRoom c.iteration c.ip c.now).buckets.lookup ip with
    | none => exact Or.inr ⟨rfl, Ne.symm hip⟩
    | some b' =>
      have := RateLimiter.lookup_makeRoom hl
      rw [hb] at this
      exact Or.inl this.symm

/-- A bucket is forgotten in its window only where all of a full table are fresh, none is the
caller's, and none has more tokens left. -/
def Forced (l : RateLimiter Ip) (c : Call Ip) (b : Bucket) : Prop :=
  l.buckets.size = 256 ∧ l.buckets.lookup c.ip = none ∧
    ∀ ip' b', l.buckets.lookup ip' = some b' → c.now - b'.refilled < l.window ∧ b'.tokens ≤ b.tokens

theorem Run.Inv.forced (hr : r.Inv) (hb : r.limiter.buckets.lookup ip = some b)
    (hfresh : b.Fresh r.limiter.window c.now)
    (hnone : (r.step c).limiter.buckets.lookup ip = none) : Forced r.limiter c b := by
  obtain ⟨b', g, hstep, -⟩ := Run.step_spec (c := c) hr.burst
  rw [hstep, Table.lookup_set] at hnone
  split_ifs at hnone
  obtain ⟨hcaller, hsize, hall⟩ := RateLimiter.makeRoom_forgets hr.few hb hfresh hnone
  exact ⟨hsize, hcaller, hall⟩

/-- The grants that a used up bucket goes back to are all in the last window. -/
theorem Bucket.Backed.grants_le (hb : b.Backed burst h ip) (hzero : b.tokens = 0)
    (hfresh : b.Fresh window now) (hsorted : h.Pairwise fun x y => y.now ≤ x.now) :
    burst ≤ h.countP fun x => x.ip = ip ∧ x.granted ∧ now < x.now + window := by
  obtain ⟨q, g, p, rfl, -, -, hg, hsum⟩ := hb
  have hlate : ∀ x ∈ q ++ [g], now < x.now + window := by
    intro x hx
    have hle : g.now ≤ x.now := by
      rcases List.mem_append.mp hx with hx | hx
      · exact (List.pairwise_append.mp hsorted).2.2 x hx g List.mem_cons_self
      · rw [List.mem_singleton.mp hx]
    unfold Bucket.Fresh at hfresh
    omega
  have hcount : grants ip (q ++ [g]) =
      (q ++ [g]).countP fun x => x.ip = ip ∧ x.granted ∧ now < x.now + window :=
    List.countP_congr fun x hx => by simp [hlate x hx]
  rw [hzero, Nat.add_zero, hcount] at hsum
  rw [← hsum, List.append_cons q g p]
  exact (List.sublist_append_left _ _).countP_le

/-- So many others have used up their bursts in the last window. -/
def Flooded (burst window : ℕ) (ip : Ip) (c : Call Ip) (h : List (Answer Ip)) : Prop :=
  ∃ others : Finset Ip, others.card = 255 ∧ ip ∉ others ∧ ∀ ip' ∈ others,
    burst ≤ h.countP fun x => x.ip = ip' ∧ x.granted ∧ c.now < x.now + window

theorem Forced.flooded (hf : Forced r.limiter c b) (hr : r.Inv)
    (hb : r.limiter.buckets.lookup ip = some b) (hzero : b.tokens = 0)
    (hsorted : r.history.Pairwise fun x y => y.now ≤ x.now) :
    Flooded r.limiter.burst r.limiter.window ip c r.history := by
  obtain ⟨hsize, -, hall⟩ := hf
  have hmem : ∀ ip', ip' ∈ (r.limiter.buckets.entries.map Prod.fst).toFinset ↔
      r.limiter.buckets.lookup ip' ≠ none := fun ip' => by
      rw [List.mem_toFinset, Table.mem_keys_iff]
  refine ⟨(r.limiter.buckets.entries.map Prod.fst).toFinset.erase ip, ?_,
    Finset.notMem_erase _ _, ?_⟩
  · rw [Finset.card_erase_of_mem ((hmem ip).mpr (by simp [hb])),
      List.toFinset_card_of_nodup r.limiter.buckets.nodup, List.length_map]
    exact congrArg (· - 1) hsize
  · intro ip' hip'
    obtain ⟨b', hb'⟩ := Option.ne_none_iff_exists'.mp ((hmem ip').mp (Finset.mem_of_mem_erase hip'))
    obtain ⟨hfresh, hle⟩ := hall ip' b' hb'
    exact (hr.backed ip' b' hb').grants_le (by omega) hfresh hsorted

/-- A call that is refused meets a bucket of its own with no tokens, in its window, and leaves it
so. -/
theorem Run.Inv.refused (hr : r.Inv) (hc : (r.limiter.allow c.iteration c.ip c.now).2 = false) :
    ∃ b, r.limiter.buckets.lookup c.ip = some b ∧ b.tokens = 0 ∧ b.Fresh r.limiter.window c.now ∧
      (r.step c).limiter.buckets.lookup c.ip = some b := by
  obtain ⟨b', g, hallow, htakes⟩ := RateLimiter.allow_spec c.iteration c.ip c.now hr.burst
  obtain rfl : g = false := by rw [← hc, hallow]
  generalize hroom : (r.limiter.makeRoom c.iteration c.ip c.now).buckets.lookup c.ip = o at htakes
  cases htakes with
  | refused hfresh hzero =>
    have hb := RateLimiter.lookup_makeRoom hroom
    refine ⟨b', hb, hzero, hfresh, ?_⟩
    rcases hr.step_empty hb hzero hfresh with h | ⟨-, hne⟩
    · exact h
    · exact absurd rfl hne

/-- While its window lasts, the empty bucket is there, or a flood has made the table forget it. -/
theorem kept_or_flooded {past mid : List (Call Ip)} (hsorted : Sorted (past ++ mid))
    (hb : (run burst window past).limiter.buckets.lookup ip = some b) (hzero : b.tokens = 0)
    (hfresh : ∀ e ∈ mid, b.Fresh window e.now) :
    (run burst window (past ++ mid)).limiter.buckets.lookup ip = some b ∨
      ∃ mid₁ e mid₂, mid = mid₁ ++ e :: mid₂ ∧
        Flooded (max burst 1) window ip e (run burst window (past ++ mid₁)).history := by
  induction mid using List.reverseRecOn with
  | nil => exact Or.inl (by simpa using hb)
  | append_singleton mid e ih =>
    rw [← List.append_assoc] at hsorted ⊢
    have hinv := Run.Inv.run burst window (past ++ mid)
    obtain ⟨hburst, hwindow⟩ := run_same burst window (past ++ mid)
    rcases ih hsorted.left fun d hd => hfresh d (by simp [hd]) with hkept
      | ⟨mid₁, d, mid₂, rfl, hflood⟩
    · have hf : b.Fresh (run burst window (past ++ mid)).limiter.window e.now := by
        rw [hwindow]
        exact hfresh e (by simp)
      rw [run_concat]
      rcases hinv.step_empty hkept hzero hf with h | ⟨hnone, -⟩
      · exact Or.inl h
      · refine Or.inr ⟨mid, e, [], rfl, ?_⟩
        have hflood := (hinv.forced hkept hf hnone).flooded hinv hkept hzero
          (hsorted.left.history burst window)
        rwa [hburst, hwindow] at hflood
    · exact Or.inr ⟨mid₁, d, mid₂ ++ [e], by simp, hflood⟩

/-- The table stays small, a bucket is forgotten in its window only where it is forced, and an
address that was refused is granted again in its window only after a flood. -/
theorem never_laundered (burst window : ℕ) (calls : List (Call Ip))
    (hsorted : (calls.map Call.now).Pairwise (· ≤ ·)) :
    (run burst window calls).limiter.buckets.size ≤ 256 ∧
    (∀ past c rest, calls = past ++ c :: rest → ∀ ip b,
      (run burst window past).limiter.buckets.lookup ip = some b → c.now - b.refilled < window →
      (run burst window (past ++ [c])).limiter.buckets.lookup ip = none →
      Forced (run burst window past).limiter c b) ∧
    ∀ past c rest, calls = past ++ c :: rest →
      ((run burst window past).limiter.allow c.iteration c.ip c.now).2 = false →
      ∃ b, (run burst window past).limiter.buckets.lookup c.ip = some b ∧
        ∀ mid d rest', rest = mid ++ d :: rest' → d.ip = c.ip → d.now < b.refilled + window →
          ((run burst window (past ++ c :: mid)).limiter.allow d.iteration d.ip d.now).2 = true →
          ∃ mid₁ e mid₂, mid = mid₁ ++ e :: mid₂ ∧ Flooded (max burst 1) window c.ip e
            (run burst window (past ++ c :: mid₁)).history := by
  refine ⟨(Run.Inv.run burst window calls).few, ?_, ?_⟩
  · rintro past c rest - ip b hb hfresh hnone
    have hinv := Run.Inv.run burst window past
    have hw := (run_same burst window past).2
    rw [run_concat] at hnone
    refine hinv.forced hb ?_ hnone
    rw [hw]
    exact hfresh
  · rintro past c rest rfl hc
    have hinv := Run.Inv.run burst window past
    have hw := (run_same burst window past).2
    obtain ⟨b, hb, hzero, hfresh, hafter⟩ := hinv.refused hc
    rw [hw] at hfresh
    refine ⟨b, hb, ?_⟩
    rintro mid d rest' rfl hip hnow hgranted
    have hcalls : past ++ c :: (mid ++ d :: rest') = (past ++ [c]) ++ mid ++ (d :: rest') := by simp
    rw [← Sorted, hcalls] at hsorted
    have hlast : ∀ e ∈ mid ++ [d], b.Fresh window e.now := by
      intro e he
      have hle : e.now ≤ d.now := by
        rcases List.mem_append.mp he with he | he
        · rw [Sorted, List.map_append, List.pairwise_append] at hsorted
          exact hsorted.2.2 e.now (List.mem_map_of_mem (by simp [he])) d.now (by simp)
        · rw [List.mem_singleton.mp he]
      unfold Bucket.Fresh at hfresh ⊢
      omega
    rw [← run_concat] at hafter
    have hkept := kept_or_flooded hsorted.left hafter hzero
      fun e he => hlast e (List.mem_append_left _ he)
    rw [List.append_assoc, List.singleton_append] at hkept
    rcases hkept with hkept | ⟨mid₁, e, mid₂, hmid, hflood⟩
    · -- The bucket is still there, so the call is refused.
      exfalso
      have hinv := Run.Inv.run burst window (past ++ c :: mid)
      have hlate : b.Fresh (run burst window (past ++ c :: mid)).limiter.window d.now := by
        rw [(run_same burst window (past ++ c :: mid)).2]
        exact hlast d (by simp)
      rw [hip, RateLimiter.allow_empty hinv.burst hkept hzero hlate] at hgranted
      cases hgranted
    · exact ⟨mid₁, e, mid₂, hmid, by simpa using hflood⟩

/-- A call, with the buckets in the order of the table. -/
def callOf (ip now : ℕ) : Call ℕ := ⟨ip, now, ⟨id, fun _ => .refl _⟩⟩

/-- An address is refused, and then so many others call. -/
def flooded (n : ℕ) : List (Call ℕ) :=
  [callOf 7 0, callOf 7 2] ++ (List.range n).map fun i => callOf (8 + i) 3

theorem flooded_succ (n : ℕ) : flooded (n + 1) = flooded n ++ [callOf (8 + n) 3] := by
  simp [flooded, List.range_succ]

theorem entries_flooded {n : ℕ} (hn : n ≤ 255) : (run 1 10 (flooded n)).limiter.buckets.entries =
    (List.range n).reverse.map (fun i => (8 + i, ⟨0, 3⟩)) ++ [(7, ⟨0, 0⟩)] := by
  induction n with
  | zero => decide
  | succ n ih =>
    have hentries := ih (Nat.le_of_succ_le hn)
    have hsize : (run 1 10 (flooded n)).limiter.buckets.size < rateLimitEntries := by
      simp only [Table.size, hentries, rateLimitEntries]
      simp
      omega
    have hnone : (run 1 10 (flooded n)).limiter.buckets.lookup (8 + n) = none := by
      refine lookup_eq_none.mpr fun b hb => ?_
      rw [hentries] at hb
      simp at hb
      omega
    obtain ⟨hburst, hwindow⟩ := run_same 1 10 (flooded n)
    have htaken : (run 1 10 (flooded n)).taken (callOf (8 + n) 3) = (⟨0, 3⟩, true) := by
      simp only [Run.taken, callOf, hnone, hburst, hwindow]
      decide
    rw [flooded_succ, run_concat, Run.step_eq (Or.inr hsize), htaken]
    change (_, _) :: (Table.remove _ _).entries = _
    rw [show (callOf (8 + n) 3).ip = 8 + n from rfl, Table.remove_of_lookup_none hnone, hentries,
      List.range_succ, List.reverse_append]
    rfl

/-- The table is full of used up buckets, of which the refused one is the stalest. -/
theorem mem_entries_flooded {n : ℕ} (hn : n ≤ 255) :
    ∀ x ∈ (run 1 10 (flooded n)).limiter.buckets.entries,
      x.2.tokens = 0 ∧ (x = (7, ⟨0, 0⟩) ∨ x.2.refilled = 3 ∧ x.1 < 8 + n) := by
  rw [entries_flooded hn]
  intro x hx
  rcases List.mem_append.mp hx with hx | hx
  · obtain ⟨i, hi, rfl⟩ := List.mem_map.mp hx
    have hi : i < n := by simpa using hi
    exact ⟨rfl, Or.inr ⟨rfl, Nat.add_lt_add_left hi 8⟩⟩
  · rw [List.mem_singleton.mp hx]
    exact ⟨rfl, Or.inl rfl⟩

theorem forgotten_flooded {n : ℕ} (hn : n = 255) :
    (run 1 10 (flooded (n + 1))).limiter.buckets.lookup 7 = none := by
  have hentries := entries_flooded hn.le
  have hbucket := mem_entries_flooded hn.le
  have hsize : (run 1 10 (flooded n)).limiter.buckets.size = rateLimitEntries := by
    rw [Table.size, hentries]
    simp [rateLimitEntries, hn]
  obtain ⟨hburst, hwindow⟩ := run_same 1 10 (flooded n)
  obtain ⟨b', g, hstep, -⟩ :=
    Run.step_spec (c := callOf (8 + n) 3) (Run.Inv.run 1 10 (flooded n)).burst
  have hne : 7 ≠ (callOf (8 + n) 3).ip := by
    change 7 ≠ 8 + n
    omega
  rw [flooded_succ, run_concat, hstep, Table.lookup_set, if_neg hne]
  generalize run 1 10 (flooded n) = r at *
  have hseven : (7, ⟨0, 0⟩) ∈ r.limiter.buckets.entries := by
    rw [hentries]
    exact List.mem_append_right _ List.mem_cons_self
  have hnone : r.limiter.buckets.lookup (8 + n) = none := by
    refine lookup_eq_none.mpr fun b hb => ?_
    rcases (hbucket _ hb).2 with he | ⟨-, hlt⟩
    · have := (Prod.mk.inj he).1
      omega
    · exact absurd hlt (lt_irrefl _)
  have hfresh : (r.limiter.fresh 3).entries = r.limiter.buckets.entries := by
    refine List.filter_eq_self.mpr fun x hx => ?_
    rw [hwindow]
    simp
    omega
  have hroom : r.limiter.makeRoom (callOf (8 + n) 3).iteration (8 + n) 3 =
      r.limiter.evict (callOf (8 + n) 3).iteration 3 := if_pos ⟨hnone, hsize.ge⟩
  change (r.limiter.makeRoom (callOf (8 + n) 3).iteration (8 + n) 3).buckets.lookup 7 = none
  rw [hroom, RateLimiter.evict, if_pos (by rw [Table.size, hfresh]; exact hsize.ge)]
  cases hmax : maxBy byTokens ((callOf (8 + n) 3).iteration.order (r.limiter.fresh 3).entries) with
  | none =>
    have hnil := maxBy_eq_none hmax
    change (r.limiter.fresh 3).entries = [] at hnil
    rw [← hfresh, hnil] at hseven
    cases hseven
  | some m =>
    have hstale := stalest_of_maxBy hmax
    have hmem := (byTokens_spec hmax).1
    change m ∈ (r.limiter.fresh 3).entries at hmem
    change ∀ a ∈ (r.limiter.fresh 3).entries, _ at hstale
    rw [hfresh] at hmem hstale
    obtain ⟨hzero, hm⟩ := hbucket m hmem
    have hle : m.2.refilled ≤ 0 := hstale _ hseven hzero.symm
    obtain rfl : m = (7, ⟨0, 0⟩) := hm.resolve_right fun h => by omega
    exact Table.lookup_remove.trans (if_pos rfl)

theorem granted_flooded {n : ℕ} (hn : n = 255) :
    ((run 1 10 (flooded (n + 1))).limiter.allow (callOf 7 4).iteration 7 4).2 = true := by
  have hinv := Run.Inv.run 1 10 (flooded (n + 1))
  obtain ⟨b, g, hallow, htakes⟩ := RateLimiter.allow_spec (callOf 7 4).iteration 7 4 hinv.burst
  have hnone :
      ((run 1 10 (flooded (n + 1))).limiter.makeRoom (callOf 7 4).iteration 7 4).buckets.lookup 7 =
        none := by
    refine Option.eq_none_iff_forall_ne_some.mpr fun b hb => ?_
    cases (RateLimiter.lookup_makeRoom hb).symm.trans (forgotten_flooded hn)
  rw [hnone] at htakes
  rw [hallow]
  cases htakes
  rfl

theorem sorted_flooded (n : ℕ) : ((flooded n ++ [callOf 7 4]).map Call.now).Pairwise (· ≤ ·) := by
  have hnow : ((List.range n).map fun i => callOf (8 + i) 3).map Call.now = List.replicate n 3 := by
    simp [callOf, Function.comp_def]
  have htwo : ∀ a, ¬ n = 0 ∧ a = 3 ∨ a = 4 → 2 ≤ a := by
    rintro a (⟨-, rfl⟩ | rfl) <;> decide
  rw [List.map_append, flooded, List.map_append, hnow]
  simpa [callOf, List.pairwise_append] using htwo

/-- An address is refused, forgotten in a flood that fills the table, and let pass in its window. -/
theorem never_laundered_flood : ∃ n, n = 255 ∧
    Forced (run 1 10 (flooded n)).limiter (callOf (8 + n) 3) ⟨0, 0⟩ ∧
    ((run 1 10 (flooded (n + 1))).limiter.allow (callOf 7 4).iteration 7 4).2 = true ∧
    ∃ mid₁ e mid₂, (List.range (n + 1)).map (fun i => callOf (8 + i) 3) = mid₁ ++ e :: mid₂ ∧
      Flooded 1 10 7 e (run 1 10 ([callOf 7 0] ++ callOf 7 2 :: mid₁)).history := by
  obtain ⟨n, hn⟩ : ∃ n, n = 255 := ⟨255, rfl⟩
  obtain ⟨-, hforced, hrefused⟩ := never_laundered 1 10 _ (sorted_flooded (n + 1))
  have hbucket : (run 1 10 (flooded n)).limiter.buckets.lookup 7 = some ⟨0, 0⟩ := by
    rw [Table.lookup_eq_some_iff, entries_flooded hn.le]
    exact List.mem_append_right _ List.mem_cons_self
  obtain ⟨b, hb, hflood⟩ := hrefused [callOf 7 0] (callOf 7 2)
    ((List.range (n + 1)).map (fun i => callOf (8 + i) 3) ++ [callOf 7 4])
      (by simp [flooded]) (by decide)
  refine ⟨n, hn, ?_, granted_flooded hn, ?_⟩
  · exact hforced (flooded n) (callOf (8 + n) 3) [callOf 7 4] (by simp [flooded_succ]) 7
      ⟨0, 0⟩ hbucket
      (show 3 - 0 < 10 by decide) (by rw [← flooded_succ]; exact forgotten_flooded hn)
  · have hb : some ⟨0, 0⟩ = some b := hb
    obtain rfl := Option.some.inj hb
    exact hflood _ (callOf 7 4) [] rfl rfl (by decide) (granted_flooded hn)

end Flood

end Sukkula.Reach
