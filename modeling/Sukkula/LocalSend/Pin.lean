import Mathlib.Algebra.Order.BigOperators.Group.List
import Mathlib.Data.List.MinMax
import Mathlib.Data.List.Perm.Subperm
import Sukkula.Library.Assoc
import Sukkula.Library.Window
import Sukkula.LocalSend.Session

/-! # Wrong PINs

The failures of each address and of all together, each counted in a window that
starts with the first of them. An address with three is locked out, and after
ten everybody is, even with the right PIN.
-/

namespace Sukkula.LocalSend

open Str Window

def pinFailuresPerIp : ℕ := 3

def pinFailuresGlobal : ℕ := 10

/-- `PIN_WINDOW`, in nanoseconds. -/
def pinWindow : ℕ := 300 * 10 ^ 9

def rateLimitEntries : ℕ := 256

inductive PinCheck | ok | missing | wrong | locked
  deriving DecidableEq, Repr

/-- A count and the time of the first that was counted, for each address and in all. -/
structure PinFailures where
  perIp : List (IpAddr × ℕ × ℕ)
  global : Option (ℕ × ℕ)
  deriving DecidableEq

/-- The arguments of `PinFailures::check`. -/
structure PinTry where
  ip : IpAddr
  given : Option Str
  pin : Str
  now : ℕ
  deriving DecidableEq

def fresh (now since : ℕ) : Bool := decide (now - since < pinWindow)

/-- `u32::saturating_add` of one -/
def saturatingSucc (n : ℕ) : ℕ := min (n + 1) (2 ^ 32 - 1)

namespace PinFailures

def new : PinFailures := ⟨[], none⟩

/-- What is left of the counts at the time of a check. -/
def prune (s : PinFailures) (now : ℕ) : PinFailures :=
  ⟨s.perIp.filter fun e => fresh now e.2.2, s.global.filter fun g => fresh now g.2⟩

def isLocked (s : PinFailures) (ip : IpAddr) : Bool :=
  (s.perIp.lookup ip).any (pinFailuresPerIp ≤ ·.1) || s.global.any (pinFailuresGlobal ≤ ·.1)

/-- A table full of fresh entries forgets the oldest. -/
def makeRoom (l : List (IpAddr × ℕ × ℕ)) (ip : IpAddr) : List (IpAddr × ℕ × ℕ) :=
  if l.lookup ip = none ∧ rateLimitEntries ≤ l.length then
    match l.argmin (·.2.2) with
    | some oldest => l.filter (·.1 ≠ oldest.1)
    | none => l
  else l

/-- One more for an address that may have no entry yet. -/
def bump (l : List (IpAddr × ℕ × ℕ)) (ip : IpAddr) (now : ℕ) : List (IpAddr × ℕ × ℕ) :=
  match l.lookup ip with
  | some _ => l.map fun e => if e.1 = ip then (e.1, saturatingSucc e.2.1, e.2.2) else e
  | none => (ip, saturatingSucc 0, now) :: l

def bumpGlobal (g : Option (ℕ × ℕ)) (now : ℕ) : ℕ × ℕ :=
  match g with
  | some (n, since) => (saturatingSucc n, since)
  | none => (saturatingSucc 0, now)

def check (s : PinFailures) (t : PinTry) : PinFailures × PinCheck :=
  let s := s.prune t.now
  if s.isLocked t.ip then (s, .locked)
  else
    match t.given with
    | none => (s, .missing)
    | some given =>
      if given = t.pin then ({ s with perIp := s.perIp.filter (·.1 ≠ t.ip) }, .ok)
      else (⟨bump (makeRoom s.perIp t.ip) t.ip t.now, some (bumpGlobal s.global t.now)⟩, .wrong)

def after (s : PinFailures) : List PinTry → PinFailures
  | [] => s
  | t :: ts => (s.check t).1.after ts

def trace (s : PinFailures) : List PinTry → List (PinTry × PinCheck)
  | [] => []
  | t :: ts => (t, (s.check t).2) :: (s.check t).1.trace ts

variable {s : PinFailures} {t : PinTry} {ws : List ℕ} {now : ℕ}

theorem check_cases (s : PinFailures) (t : PinTry) :
    ((s.prune t.now).isLocked t.ip = true ∧ s.check t = (s.prune t.now, .locked)) ∨
    ((s.prune t.now).isLocked t.ip = false ∧
      (s.check t = (s.prune t.now, .missing) ∨
        s.check t = ({ s.prune t.now with perIp := (s.prune t.now).perIp.filter (·.1 ≠ t.ip) },
          .ok) ∨
        s.check t = (⟨bump (makeRoom (s.prune t.now).perIp t.ip) t.ip t.now,
          some (bumpGlobal (s.prune t.now).global t.now)⟩, .wrong))) := by
  unfold check
  dsimp only
  cases (s.prune t.now).isLocked t.ip with
  | true => exact Or.inl ⟨rfl, rfl⟩
  | false =>
    refine Or.inr ⟨rfl, ?_⟩
    cases t.given with
    | none => exact Or.inl rfl
    | some given =>
      by_cases hg : given = t.pin
      · exact Or.inr (Or.inl (if_pos hg))
      · exact Or.inr (Or.inr (if_neg hg))

/-- The books against the times of the wrong PINs so far, newest first. -/
structure Tracked (s : PinFailures) (ws : List ℕ) (now : ℕ) : Prop where
  le : ∀ w ∈ ws, w ≤ now
  window : ∀ c start, s.global = some (c, start) →
    Windowed pinWindow pinFailuresGlobal ws c start ∧ start ≤ now
  past : s.global = none → ws = [] ∨ ∃ c start,
    Windowed pinWindow pinFailuresGlobal ws c start ∧ start + pinWindow ≤ now
  keys : (s.perIp.map Prod.fst).Nodup
  count : ∀ e ∈ s.perIp, e.2.1 ≤ pinFailuresPerIp
  entries : (s.perIp.map (·.2.2)).Subperm ws

theorem pinWindow_pos : 0 < pinWindow := by decide

namespace Tracked

theorem new : Tracked .new [] now := by
  constructor <;> simp [PinFailures.new]

theorem within_lt (h : Tracked s ws now) (a b : ℕ) :
    within a b ws < pinFailuresGlobal + pinFailuresGlobal * ((b - a) ⌈/⌉ pinWindow) := by
  cases hg : s.global with
  | some g => exact (h.window g.1 g.2 hg).1.within a b
  | none =>
    rcases h.past hg with rfl | ⟨c, start, hw, -⟩
    · exact Nat.add_pos_left (by decide) _
    · exact hw.within a b

theorem prune (h : Tracked s ws now) {now' : ℕ} (hle : now ≤ now') :
    Tracked (s.prune now') ws now' where
  le w hw := (h.le w hw).trans hle
  window c start hg := by
    obtain ⟨hg, -⟩ := Option.filter_eq_some_iff.mp hg
    exact (h.window c start hg).imp_right fun hs => hs.trans hle
  past hg := by
    cases hs : s.global with
    | none =>
      refine (h.past hs).imp_right ?_
      rintro ⟨c, start, hw, hov⟩
      exact ⟨c, start, hw, hov.trans hle⟩
    | some g =>
      -- The window was there and is not fresh any more.
      have hstale : ¬ now' - g.2 < pinWindow := by
        simpa [PinFailures.prune, hs, Option.filter, fresh] using hg
      have := pinWindow_pos
      exact Or.inr ⟨g.1, g.2, (h.window g.1 g.2 hs).1, by omega⟩
  keys := Assoc.nodup_keys_filter h.keys _
  count e he := h.count e (List.mem_of_mem_filter he)
  entries := (List.filter_sublist.map _).subperm.trans h.entries

/-- The entries of a pruned table were all made in one window's time. -/
theorem length_lt (h : Tracked s ws now) (hf : ∀ e ∈ s.perIp, fresh now e.2.2 = true) :
    s.perIp.length < 20 := by
  have hcount : s.perIp.length ≤ ws.countP (fun w => fresh now w) := by
    calc s.perIp.length = (s.perIp.map (·.2.2)).countP (fun w => fresh now w) := by
          rw [List.countP_map]
          exact (List.countP_eq_length.mpr hf).symm
      _ ≤ ws.countP (fun w => fresh now w) := h.entries.countP_le _
  have hwithin : ws.countP (fun w => fresh now w) = within (now + 1 - pinWindow) (now + 1) ws := by
    refine List.countP_congr fun w hw => ?_
    have := h.le w hw
    have := pinWindow_pos
    simp only [fresh, decide_eq_true_eq]
    omega
  have hceil : (now + 1 - (now + 1 - pinWindow)) ⌈/⌉ pinWindow ≤ 1 := by
    rw [ceilDiv_le_iff_le_mul pinWindow_pos]
    omega
  have hb := h.within_lt (now + 1 - pinWindow) (now + 1)
  have hmul := Nat.mul_le_mul_left pinFailuresGlobal hceil
  have hten : pinFailuresGlobal = 10 := rfl
  omega

theorem makeRoom_eq (h : Tracked s ws now) (hf : ∀ e ∈ s.perIp, fresh now e.2.2 = true)
    (ip : IpAddr) : makeRoom s.perIp ip = s.perIp := by
  have := h.length_lt hf
  have hmax : rateLimitEntries = 256 := rfl
  exact if_neg fun hc => by omega

theorem saturatingSucc_eq {n : ℕ} (h : n ≤ pinFailuresGlobal) : saturatingSucc n = n + 1 := by
  have hten : pinFailuresGlobal = 10 := rfl
  unfold saturatingSucc
  omega

theorem bump_map_fst {l : List (IpAddr × ℕ × ℕ)} {ip : IpAddr} (hl : l.lookup ip ≠ none) :
    (bump l ip now).map Prod.fst = l.map Prod.fst ∧
      (bump l ip now).map (·.2.2) = l.map (·.2.2) := by
  unfold bump
  split
  · simp only [List.map_map]
    constructor <;> refine List.map_congr_left fun e _ => ?_ <;> simp only [Function.comp] <;>
      split_ifs <;> rfl
  · exact absurd ‹_› hl

theorem wrong (h : Tracked s ws now) {ip : IpAddr} (hl : s.isLocked ip = false) :
    Tracked ⟨bump s.perIp ip now, some (bumpGlobal s.global now)⟩ (now :: ws) now := by
  simp only [isLocked, Bool.or_eq_false_iff] at hl
  obtain ⟨hhere, hall⟩ := hl
  have hW := pinWindow_pos
  have hwindow : Windowed pinWindow pinFailuresGlobal (now :: ws)
      (bumpGlobal s.global now).1 (bumpGlobal s.global now).2 ∧
      (bumpGlobal s.global now).2 ≤ now := by
    cases hg : s.global with
    | some g =>
      obtain ⟨hw, hstart⟩ := h.window g.1 g.2 hg
      have hlt : g.1 < pinFailuresGlobal := by simpa [hg] using hall
      simp only [bumpGlobal, saturatingSucc_eq hlt.le]
      exact ⟨hw.join hW hlt hstart h.le, hstart⟩
    | none =>
      simp only [bumpGlobal]
      refine ⟨?_, le_rfl⟩
      rcases h.past hg with rfl | ⟨c, start, hw, hov⟩
      · exact .first hW (by decide) now
      · exact hw.start_new hW hov h.le
  constructor
  · exact List.forall_mem_cons.mpr ⟨le_rfl, h.le⟩
  · rintro c start hg
    obtain ⟨rfl, rfl⟩ := Prod.mk.inj (Option.some.inj hg)
    exact hwindow
  · simp
  · cases hip : s.perIp.lookup ip with
    | some e =>
      rw [(bump_map_fst (by simp [hip])).1]
      exact h.keys
    | none =>
      have hnew : ip ∉ s.perIp.map Prod.fst := by
        simpa using fun a b => Assoc.lookup_eq_none.mp hip (a, b)
      simpa [bump, hip] using ⟨by simpa using hnew, h.keys⟩
  · intro e he
    cases hip : s.perIp.lookup ip with
    | some v =>
      simp only [bump, hip, List.mem_map] at he
      obtain ⟨e', he', rfl⟩ := he
      split_ifs with heq
      · subst heq
        have hv := (Assoc.lookup_eq_some h.keys).mpr he'
        have hlt : e'.2.1 < pinFailuresPerIp := by simpa [hv] using hhere
        have hthree : pinFailuresPerIp = 3 := rfl
        have hten : pinFailuresGlobal = 10 := rfl
        simp only [saturatingSucc_eq (show e'.2.1 ≤ pinFailuresGlobal by omega)]
        omega
      · exact h.count e' he'
    | none =>
      simp only [bump, hip, List.mem_cons] at he
      rcases he with rfl | he
      · exact (by decide : saturatingSucc 0 ≤ pinFailuresPerIp)
      · exact h.count e he
  · cases hip : s.perIp.lookup ip with
    | some e =>
      rw [(bump_map_fst (by simp [hip])).2]
      exact h.entries.trans (List.sublist_cons_self _ _).subperm
    | none =>
      simp only [bump, hip, List.map_cons]
      exact (List.subperm_cons now).mpr h.entries

def addWrong (r : PinCheck) (now : ℕ) (ws : List ℕ) : List ℕ := if r = .wrong then now :: ws else ws

theorem check (h : Tracked s ws now) (hle : now ≤ t.now) :
    Tracked (s.check t).1 (addWrong (s.check t).2 t.now ws) t.now := by
  have hp := h.prune hle
  have hfresh : ∀ e ∈ (s.prune t.now).perIp, fresh t.now e.2.2 = true :=
    fun e he => (List.mem_filter.mp he).2
  rcases check_cases s t with ⟨-, he⟩ | ⟨hl, he | he | he⟩ <;> rw [he]
  · exact hp
  · exact hp
  · exact { hp with
      keys := Assoc.nodup_keys_filter hp.keys _
      count := fun e he => hp.count e (List.mem_of_mem_filter he)
      entries := (List.filter_sublist.map _).subperm.trans hp.entries }
  · rw [hp.makeRoom_eq hfresh]
    exact hp.wrong hl

theorem mono (h : Tracked s ws now) {now' : ℕ} (hle : now ≤ now') : Tracked s ws now' where
  le w hw := (h.le w hw).trans hle
  window c start hg := (h.window c start hg).imp_right fun hs => hs.trans hle
  past hg := (h.past hg).imp_right fun ⟨c, start, hw, hov⟩ => ⟨c, start, hw, hov.trans hle⟩
  keys := h.keys
  count := h.count
  entries := h.entries

/-- The times of the wrong PINs after a trace. -/
def addTrace (ws : List ℕ) (tr : List (PinTry × PinCheck)) : List ℕ :=
  tr.foldl (fun ws e => addWrong e.2 e.1.now ws) ws

theorem after (h : Tracked s ws now) {ts : List PinTry} (hsort : ts.Pairwise (·.now ≤ ·.now))
    (hle : ∀ t ∈ ts, now ≤ t.now) {now' : ℕ} (hnow : now ≤ now') (hts : ∀ t ∈ ts, t.now ≤ now') :
    Tracked (s.after ts) (addTrace ws (s.trace ts)) now' := by
  induction ts generalizing s ws now with
  | nil => exact h.mono hnow
  | cons t ts ih =>
    obtain ⟨hfirst, hrest⟩ := List.pairwise_cons.mp hsort
    exact ih (h.check (hle t (by simp))) hrest hfirst (hts t (by simp))
      fun t' ht' => hts t' (by simp [ht'])

theorem within_addTrace (a b : ℕ) (tr : List (PinTry × PinCheck)) :
    within a b (addTrace ws tr) = within a b ws +
      (tr.filter fun e => e.2 = .wrong ∧ a ≤ e.1.now ∧ e.1.now < b).length := by
  induction tr generalizing ws with
  | nil => rfl
  | cons e tr ih =>
    change within a b (addTrace (addWrong e.2 e.1.now ws) tr) = _
    rw [ih]
    by_cases hw : e.2 = .wrong
    · by_cases hin : a ≤ e.1.now ∧ e.1.now < b
      · simp [addWrong, hw, hin, within]
        omega
      · simp [addWrong, hw, hin, within]
    · simp [addWrong, hw]

/-- An entry that is fresh stays, with one more for each wrong PIN, unless the right one comes. -/
theorem mem_check (h : Tracked s ws now) {ip : IpAddr} {k start : ℕ} (hle : now ≤ t.now)
    (hm : (ip, k, start) ∈ s.perIp) (hfr : t.now < start + pinWindow) :
    (t.ip = ip ∧ (s.check t).2 = .ok) ∨
      (ip, k + (if t.ip = ip ∧ (s.check t).2 = .wrong then 1 else 0), start) ∈
        (s.check t).1.perIp := by
  have hp := h.prune hle
  have hW := pinWindow_pos
  have hmem : (ip, k, start) ∈ (s.prune t.now).perIp := by
    refine List.mem_filter.mpr ⟨hm, ?_⟩
    simp only [fresh, decide_eq_true_eq]
    omega
  rcases check_cases s t with ⟨-, he⟩ | ⟨hl, he | he | he⟩ <;> rw [he]
  · exact Or.inr (by simpa using hmem)
  · exact Or.inr (by simpa using hmem)
  · by_cases hip : t.ip = ip
    · exact Or.inl ⟨hip, rfl⟩
    · exact Or.inr (by simpa [hip, Ne.symm hip] using hmem)
  · right
    rw [hp.makeRoom_eq fun e he => (List.mem_filter.mp he).2]
    simp only [and_true, bump]
    split
    · refine List.mem_map.mpr ⟨_, hmem, ?_⟩
      by_cases hip : t.ip = ip
      · have hk := h.count _ hm
        have : k ≤ pinFailuresGlobal := hk.trans (by decide)
        simp [hip, saturatingSucc_eq this]
      · simp [hip, Ne.symm hip]
    · rename_i hnone
      have hip : t.ip ≠ ip := by
        rintro rfl
        exact Assoc.lookup_eq_none.mp hnone _ hmem
      simpa [hip] using Or.inr hmem

/-- The wrong PINs from an address in a trace. -/
def wrongFrom (ip : IpAddr) (tr : List (PinTry × PinCheck)) : ℕ :=
  (tr.filter fun e => e.1.ip = ip ∧ e.2 = .wrong).length

theorem mem_after (h : Tracked s ws now) {ip : IpAddr} {k start : ℕ} {ts : List PinTry}
    (hsort : ts.Pairwise (·.now ≤ ·.now)) (hle : ∀ t ∈ ts, now ≤ t.now)
    (hm : (ip, k, start) ∈ s.perIp) (hfr : ∀ t ∈ ts, t.now < start + pinWindow)
    (hok : ∀ e ∈ s.trace ts, e.1.ip = ip → e.2 ≠ .ok) :
    (ip, k + wrongFrom ip (s.trace ts), start) ∈ (s.after ts).perIp := by
  induction ts generalizing s ws now k with
  | nil => exact hm
  | cons t ts ih =>
    obtain ⟨hfirst, hrest⟩ := List.pairwise_cons.mp hsort
    have hnow := hle t (by simp)
    have hnext := (h.mem_check hnow hm (hfr t (by simp))).resolve_left
      fun hc => hok _ (List.mem_cons_self) hc.1 hc.2
    have hrec := ih (h.check hnow) hrest hfirst hnext (fun t' ht' => hfr t' (by simp [ht']))
      fun e he => hok e (List.mem_cons_of_mem _ he)
    have hsum : k + wrongFrom ip (s.trace (t :: ts)) =
        k + (if t.ip = ip ∧ (s.check t).2 = .wrong then 1 else 0) +
          wrongFrom ip ((s.check t).1.trace ts) := by
      by_cases hc : t.ip = ip ∧ (s.check t).2 = .wrong
      · simp [wrongFrom, trace, hc]
        omega
      · simp [wrongFrom, trace, hc]
    rw [hsum]
    exact hrec

/-- The books of a new table after some checks, at the time of the next. -/
theorem of_pairwise {pre post : List PinTry} (hsort : (pre ++ t :: post).Pairwise (·.now ≤ ·.now)) :
    Tracked (PinFailures.new.after pre) (addTrace [] (PinFailures.new.trace pre)) t.now := by
  obtain ⟨hpre, -, hcross⟩ := List.pairwise_append.mp hsort
  exact (Tracked.new : Tracked PinFailures.new [] 0).after hpre (fun _ _ => Nat.zero_le _)
    (Nat.zero_le _)
    fun t' ht' => hcross t' ht' t (by simp)

theorem locked_of_mem (h : Tracked s ws now) {k start : ℕ} (hle : now ≤ t.now)
    (hm : (t.ip, k, start) ∈ s.perIp) (hk : 3 ≤ k) (hfr : t.now < start + pinWindow) :
    (s.check t).2 = .locked := by
  have hW := pinWindow_pos
  have hmem : (t.ip, k, start) ∈ (s.prune t.now).perIp := by
    refine List.mem_filter.mpr ⟨hm, ?_⟩
    simp only [fresh, decide_eq_true_eq]
    omega
  have hlocked : (s.prune t.now).isLocked t.ip = true := by
    have hlook := (Assoc.lookup_eq_some (h.prune hle).keys).mpr hmem
    simp [isLocked, hlook, pinFailuresPerIp, hk]
  rcases check_cases s t with ⟨-, he⟩ | ⟨hl, -⟩
  · rw [he]
  · exact absurd (hlocked.symm.trans hl) (by simp)

theorem mem_of_first (h : Tracked s ws now) (hle : now ≤ t.now)
    (hnone : (s.prune t.now).perIp.lookup t.ip = none) (hw : (s.check t).2 = .wrong) :
    (t.ip, 1, t.now) ∈ (s.check t).1.perIp := by
  rcases check_cases s t with ⟨-, he⟩ | ⟨-, he | he | he⟩ <;> rw [he] at hw ⊢
  · cases hw
  · cases hw
  · cases hw
  · rw [(h.prune hle).makeRoom_eq fun e he => (List.mem_filter.mp he).2]
    simp [bump, hnone, saturatingSucc]

end Tracked

theorem after_append (s : PinFailures) (l l' : List PinTry) :
    s.after (l ++ l') = (s.after l).after l' := by
  induction l generalizing s with
  | nil => rfl
  | cons t l ih => exact ih _

theorem locked_out {ts pre mid post : List PinTry} {first : PinTry}
    (hsort : ts.Pairwise (·.now ≤ ·.now)) (hts : ts = pre ++ first :: mid ++ t :: post)
    (hnone : ((new.after pre).prune first.now).perIp.lookup first.ip = none)
    (hw : ((new.after pre).check first).2 = .wrong)
    (hok : ∀ e ∈ ((new.after pre).check first).1.trace mid, e.1.ip = first.ip → e.2 ≠ .ok)
    (hthree : 3 ≤ (((new.after pre).trace (first :: mid)).filter
      fun e => e.1.ip = first.ip ∧ e.2 = .wrong).length)
    (hip : t.ip = first.ip) (hnow : t.now < first.now + pinWindow) :
    ((new.after (pre ++ first :: mid)).check t).2 = .locked := by
  subst hts
  have hall := Tracked.of_pairwise hsort
  have hpre : (pre ++ first :: (mid ++ t :: post)).Pairwise (·.now ≤ ·.now) := by
    simpa using hsort
  have hfirst := Tracked.of_pairwise hpre
  obtain ⟨-, hrest, -⟩ := List.pairwise_append.mp hpre
  obtain ⟨hafter, hrest⟩ := List.pairwise_cons.mp hrest
  obtain ⟨hmid, -, hcross⟩ := List.pairwise_append.mp hrest
  have hmem := (hfirst.check le_rfl).mem_after hmid (fun t' ht' => hafter t' (by simp [ht']))
    (hfirst.mem_of_first le_rfl hnone hw)
    (fun t' ht' => (hcross t' ht' t (by simp)).trans_lt hnow) hok
  have hk : 3 ≤ 1 + Tracked.wrongFrom first.ip (((new.after pre).check first).1.trace mid) := by
    have hsum := hthree
    simp only [trace, List.filter_cons, hw, decide_true, and_self, if_true,
      List.length_cons] at hsum
    unfold Tracked.wrongFrom
    omega
  rw [after_append] at hall ⊢
  exact hall.locked_of_mem le_rfl (hip ▸ hmem) hk hnow

/-- For every sequence of checks at times that do not go back: the wrong PINs in an interval are
bounded, whatever the addresses; an address with three since its entry was made is locked out until
the entry's time is over; and the table never gets near its limit. -/
theorem guesses_bounded {ts : List PinTry} (hsort : ts.Pairwise (·.now ≤ ·.now)) :
    (∀ a T, ((new.trace ts).filter fun e => e.2 = .wrong ∧ a ≤ e.1.now ∧ e.1.now < a + T).length ≤
      9 + 10 * (T ⌈/⌉ pinWindow)) ∧
    (∀ pre first mid t post, ts = pre ++ first :: mid ++ t :: post →
      ((new.after pre).prune first.now).perIp.lookup first.ip = none →
      ((new.after pre).check first).2 = .wrong →
      (∀ e ∈ ((new.after pre).check first).1.trace mid, e.1.ip = first.ip → e.2 ≠ .ok) →
      3 ≤ (((new.after pre).trace (first :: mid)).filter
        fun e => e.1.ip = first.ip ∧ e.2 = .wrong).length →
      t.ip = first.ip → t.now < first.now + pinWindow →
      ((new.after (pre ++ first :: mid)).check t).2 = .locked) ∧
    ∀ pre t post, ts = pre ++ t :: post →
      ((new.after pre).prune t.now).perIp.length < rateLimitEntries := by
  refine ⟨fun a T => ?_, fun pre first mid t post => locked_out hsort, ?_⟩
  · obtain ⟨bound, hbound⟩ : ∃ b, ∀ t ∈ ts, t.now ≤ b :=
      ⟨(ts.map PinTry.now).sum, fun t ht => List.le_sum_of_mem (List.mem_map_of_mem ht)⟩
    have htrack := (Tracked.new : Tracked new [] 0).after hsort (fun _ _ => Nat.zero_le _)
      (Nat.zero_le bound) hbound
    have hlt := htrack.within_lt a (a + T)
    rw [Tracked.within_addTrace, Nat.add_sub_cancel_left] at hlt
    have hten : pinFailuresGlobal = 10 := rfl
    rw [hten] at hlt
    omega
  · rintro pre t post rfl
    have hlt := ((Tracked.of_pairwise hsort).prune le_rfl).length_lt
      fun e he => (List.mem_filter.mp he).2
    exact hlt.trans (by decide)

def fourTries (ip : IpAddr) : List PinTry :=
  [⟨ip, some ['0'], ['7'], 1⟩, ⟨ip, some ['1'], ['7'], 2⟩, ⟨ip, some ['2'], ['7'], 3⟩,
    ⟨ip, some ['7'], ['7'], 4⟩]

theorem guesses_bounded_four : ((new.trace (fourTries (.v4 1))).filter
      fun e => e.2 = .wrong ∧ 0 ≤ e.1.now ∧ e.1.now < 0 + 5).length ≤ 9 + 10 * (5 ⌈/⌉ pinWindow) ∧
    ((new.after ((fourTries (.v4 1)).take 3)).check ⟨.v4 1, some ['7'], ['7'], 4⟩).2 = .locked := by
  have h := guesses_bounded (show (fourTries (.v4 1)).Pairwise (·.now ≤ ·.now) by decide)
  refine ⟨h.1 0 5, ?_⟩
  exact h.2.1 [] ⟨.v4 1, some ['0'], ['7'], 1⟩
    [⟨.v4 1, some ['1'], ['7'], 2⟩, ⟨.v4 1, some ['2'], ['7'], 3⟩] ⟨.v4 1, some ['7'], ['7'], 4⟩ []
    rfl (by decide) (by decide) (by decide) (by decide) rfl (by decide)

end PinFailures

end Sukkula.LocalSend
