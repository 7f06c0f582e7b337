import Sukkula.Library.Loop
import Sukkula.Library.Str
import Sukkula.Text.Classify

/-! # One line of display text

`display` cleans text that somebody else chose and cuts it to a number of
characters. What it gives is already clean: displaying it again changes
nothing.
-/

namespace Sukkula.Text

structure Shown where
  out : Str
  chars : ℕ
  pendingSpace : Bool
  combining : ℕ
  deriving DecidableEq, Repr

namespace Shown

def new : Shown := ⟨[], 0, false, 0⟩

/-- Whether the pending space goes before the next character. -/
def spaced (s : Shown) : Bool := s.pendingSpace && s.out ≠ []

def needed (s : Shown) : ℕ := if s.spaced then 2 else 1

/-- Room for the ellipsis: characters go until fewer than `maxChars` are left, and then the
spaces at the end. -/
def ellipsis (s : Shown) (maxChars : ℕ) : Str :=
  (s.out.rdrop (s.chars + 1 - maxChars)).rdropWhile (· = ' ') ++ ['…']

def push (s : Shown) (c : Char) (combining : ℕ) : Shown where
  out := s.out ++ (if s.spaced then [' '] else []) ++ [c]
  chars := s.chars + s.needed
  pendingSpace := false
  combining := combining

/-- A character that is kept, or the cut text if there is more to show than fits. -/
def keep (maxChars : ℕ) (s : Shown) (c : Char) (combining : ℕ) : Except Str Shown :=
  if maxChars < s.chars + s.needed then .error (s.ellipsis maxChars) else .ok (s.push c combining)

def step (maxChars : ℕ) (s : Shown) (c : Char) : Except Str Shown :=
  match classify c with
  | .drop => .ok s
  | .space | .newline => .ok { s with pendingSpace := true }
  | .combining =>
    -- A mark with nothing to sit on, or one too many.
    if s.out = [] ∨ maxCombiningRun ≤ s.combining then .ok s
    else s.keep maxChars c (s.combining + 1)
  | .keep => s.keep maxChars c 0

def run (maxChars : ℕ) (s : Shown) (raw : Str) : Except Str Shown :=
  raw.foldlM (step maxChars) s

end Shown

/-- One line of text, at most `maxChars` characters long. -/
def display (raw : Str) (maxChars : ℕ) : Str :=
  if maxChars = 0 then []
  else
    match Shown.new.run maxChars raw with
    | .ok s => s.out
    | .error cut => cut

namespace Shown

variable {maxChars : ℕ} {s s' : Shown} {c : Char} {raw w : Str}

/-- The output, were a kept character to come next. -/
def text (s : Shown) : Str := s.out ++ if s.pendingSpace then [' '] else []

@[simp] theorem run_nil : s.run maxChars [] = .ok s := rfl

theorem run_concat_eq_ok :
    s.run maxChars (raw ++ [c]) = .ok s' ↔ ∃ t, s.run maxChars raw = .ok t ∧
    t.step maxChars c = .ok s' :=
  Loop.foldlM_concat_eq_ok

theorem keep_eq_ok {k : ℕ} :
    s.keep maxChars c k = .ok s' ↔ s.chars + s.needed ≤ maxChars ∧ s' = s.push c k := by
  unfold keep
  split_ifs with h
  · simp [Nat.not_le.mpr h]
  · simp [Nat.not_lt.mp h, eq_comm]

/-- The characters that are put out, with the run of marks then. -/
inductive Keeps (s : Shown) (c : Char) : ℕ → Prop
  | base (h : classify c = .keep) : Keeps s c 0
  | mark (h : classify c = .combining) (hout : s.out ≠ []) (hrun : s.combining < maxCombiningRun) :
      Keeps s c (s.combining + 1)

theorem Keeps.step {k : ℕ} (h : s.Keeps c k) : s.step maxChars c = s.keep maxChars c k := by
  cases h with
  | base h => simp [Shown.step, h]
  | mark h hout hrun => simp [Shown.step, h, hout, Nat.not_le.mpr hrun]

theorem step_cases (h : s.step maxChars c = .ok s') :
    s' = s ∨ s' = { s with pendingSpace := true } ∨
      ∃ k, s.Keeps c k ∧ s.chars + s.needed ≤ maxChars ∧ s' = s.push c k := by
  unfold step at h
  split at h
  · exact Or.inl (Except.ok.inj h).symm
  · exact Or.inr (Or.inl (Except.ok.inj h).symm)
  · exact Or.inr (Or.inl (Except.ok.inj h).symm)
  · rename_i hc
    split_ifs at h with hrun
    · exact Or.inl (Except.ok.inj h).symm
    · rw [not_or, Nat.not_le] at hrun
      exact Or.inr (Or.inr ⟨_, .mark hc hrun.1 hrun.2, keep_eq_ok.mp h⟩)
  · rename_i hc
    exact Or.inr (Or.inr ⟨0, .base hc, keep_eq_ok.mp h⟩)

theorem step_eq_error {cut : Str} (h : s.step maxChars c = .error cut) :
    cut = s.ellipsis maxChars := by
  unfold step at h
  split at h <;> try cases h
  · split_ifs at h
    unfold keep at h
    split_ifs at h
    exact (Except.error.inj h).symm
  · unfold keep at h
    split_ifs at h
    exact (Except.error.inj h).symm

/-- What holds of the output at every character: it fits, and running over it again gives it. -/
structure Clean (maxChars : ℕ) (s : Shown) : Prop where
  chars : s.chars = s.out.length
  fits : s.chars ≤ maxChars
  bare : s.out = [] → s.combining = 0
  again : new.run maxChars s.out = .ok { s with pendingSpace := false }

namespace Clean

theorem new : Clean maxChars Shown.new := ⟨rfl, Nat.zero_le _, fun _ => rfl, rfl⟩

theorem push (h : Clean maxChars s) {k : ℕ} (hk : s.Keeps c k)
    (hfits : s.chars + s.needed ≤ maxChars) : Clean maxChars (s.push c k) := by
  constructor
  · unfold Shown.push needed
    split_ifs <;> simp [h.chars]
  · exact hfits
  · simp [Shown.push]
  · simp only [Shown.push]
    cases hsp : s.spaced with
    | true =>
      have hs : s.pendingSpace = true ∧ s.out ≠ [] := by simpa [spaced] using hsp
      have hkeep : ({ s with pendingSpace := true } : Shown).Keeps c k := by
        cases hk with
        | base hc => exact .base hc
        | mark hc hout hrun => exact .mark hc hout hrun
      rw [run_concat_eq_ok]
      refine ⟨{ s with pendingSpace := true }, ?_, ?_⟩
      · rw [if_pos rfl, run_concat_eq_ok]
        exact ⟨_, h.again, by simp [Shown.step]⟩
      · rw [hkeep.step, keep_eq_ok]
        simpa [needed, spaced, Shown.push, hs] using hfits
    | false =>
      have hkeep : ({ s with pendingSpace := false } : Shown).Keeps c k := by
        cases hk with
        | base hc => exact .base hc
        | mark hc hout hrun => exact .mark hc hout hrun
      rw [if_neg (by simp), List.append_nil, run_concat_eq_ok]
      refine ⟨_, h.again, ?_⟩
      rw [hkeep.step, keep_eq_ok]
      simp only [needed, hsp] at hfits ⊢
      simpa [Shown.push, spaced, needed] using hfits

theorem step (h : Clean maxChars s) (hs : s.step maxChars c = .ok s') : Clean maxChars s' := by
  rcases step_cases hs with rfl | rfl | ⟨k, hk, hfits, rfl⟩
  · exact h
  · exact ⟨h.chars, h.fits, h.bare, h.again⟩
  · exact h.push hk hfits

theorem run (hs : Shown.new.run maxChars raw = .ok s) : Clean maxChars s :=
  Loop.foldlM_invariant (fun _ _ _ => step) new hs

end Clean

/-- A space before anything else is dropped; else every turn puts out one character at most. -/
theorem appends_step : Loop.Appends (step maxChars) text := by
  intro s c s' h
  rcases step_cases h with rfl | rfl | ⟨k, -, -, rfl⟩
  · exact Or.inl le_rfl
  · cases hp : s.pendingSpace with
    | true => exact Or.inl (by simp [text, hp])
    | false => exact Or.inr ⟨' ', by simp [text, hp]⟩
  · unfold push text spaced
    cases hp : s.pendingSpace with
    | false => exact Or.inr ⟨c, by simp⟩
    | true =>
      by_cases hout : s.out = []
      · exact Or.inl (by simp [hout])
      · exact Or.inr ⟨c, by simp [hout]⟩

/-- A text that the loop goes through without dropping any of it. -/
def Settled (maxChars : ℕ) (w : Str) : Prop := Loop.Settled (step maxChars) text new w

theorem Clean.settled (h : Clean maxChars s) : Settled maxChars s.out :=
  ⟨_, h.again, by simp [text]⟩

theorem run_eq_error {cut : Str} (h : new.run maxChars raw = .error cut) :
    ∃ s, Clean maxChars s ∧ cut = s.ellipsis maxChars := by
  obtain ⟨t, c, ht, hc⟩ := Loop.foldlM_eq_error (fun _ _ _ => Clean.step) Clean.new h
  exact ⟨t, ht, step_eq_error hc⟩

theorem Clean.run_ellipsis (h : Clean maxChars s) (hmax : maxChars ≠ 0) :
    ∃ t, Shown.new.run maxChars (s.ellipsis maxChars) = .ok t ∧ t.out = s.ellipsis maxChars := by
  unfold ellipsis
  generalize hu : (s.out.rdrop (s.chars + 1 - maxChars)).rdropWhile (· = ' ') = u
  have hroom : u <+: s.out.rdrop (s.chars + 1 - maxChars) := hu ▸ List.rdropWhile_prefix _ _
  obtain ⟨t, hrun, ht⟩ :=
    Loop.Settled.of_isPrefix h.settled appends_step rfl (hroom.trans (List.take_prefix _ _))
  have hclean := Clean.run hrun
  have hp : t.pendingSpace = false := by
    by_contra hp
    rw [Bool.not_eq_false] at hp
    have hlast := List.rdropWhile_last_not (fun c => decide (c = ' '))
      (s.out.rdrop (s.chars + 1 - maxChars))
    rw [hu] at hlast
    have hne : u ≠ [] := by simp [← ht, text, hp]
    simpa [← ht, text, hp] using hlast hne
  have hout : t.out = u := by simpa [text, hp] using ht
  have hlen : u.length + 1 ≤ maxChars := by
    have := hroom.length_le
    rw [List.rdrop, List.length_take, ← h.chars] at this
    omega
  have hneeded : t.needed = 1 := by simp [needed, spaced, hp]
  refine ⟨t.push '…' 0, ?_, by simp [Shown.push, spaced, hp, hout]⟩
  rw [run_concat_eq_ok]
  refine ⟨t, hrun, ?_⟩
  rw [Keeps.step (.base (by decide +kernel)), keep_eq_ok, hneeded, hclean.chars, hout]
  exact ⟨hlen, rfl⟩

end Shown

theorem display_display (raw : Str) (maxChars : ℕ) :
    display (display raw maxChars) maxChars = display raw maxChars := by
  by_cases hmax : maxChars = 0
  · simp [display, hmax]
  · cases hrun : Shown.new.run maxChars raw with
    | ok s =>
      have h : display raw maxChars = s.out := by simp [display, hmax, hrun]
      rw [h, display, if_neg hmax, (Shown.Clean.run hrun).again]
    | error cut =>
      obtain ⟨s, hs, rfl⟩ := Shown.run_eq_error hrun
      have h : display raw maxChars = s.ellipsis maxChars := by simp [display, hmax, hrun]
      obtain ⟨t, ht, hout⟩ := hs.run_ellipsis hmax
      rw [h, display, if_neg hmax, ht]
      exact hout

example : display "  a\t\nb\u202Ec  ".toList 64 = "a bc".toList := by decide +kernel

example : display "abcdef".toList 4 = "abc…".toList := by decide +kernel

end Sukkula.Text
