import Sukkula.Library.Loop
import Sukkula.Library.Str
import Sukkula.Text.Classify

/-! # A text message

`message` cleans a text of several lines that somebody else wrote and cuts it to
a number of bytes. What it gives is already clean: cleaning it again changes
nothing.
-/

namespace Sukkula.Text

open Str

structure Typed where
  out : Str
  combining : ℕ
  newlines : ℕ
  pendingSpace : Bool
  prevCr : Bool
  deriving DecidableEq, Repr

namespace Typed

def new : Typed := ⟨[], 0, 0, false, false⟩

/-- Whether the pending space goes before the next character. -/
def spaced (s : Typed) : Bool := s.pendingSpace && s.out ≠ [] && s.out.getLast? ≠ some '\n'

def spacedOut (s : Typed) : Str := s.out ++ if s.spaced then [' '] else []

def push (s : Typed) (c : Char) (combining : ℕ) : Typed :=
  { s with out := s.spacedOut ++ [c], combining, newlines := 0, pendingSpace := false }

/-- A character that is kept, or what there is if it does not fit. -/
def keep (maxBytes : ℕ) (s : Typed) (c : Char) (combining : ℕ) : Except Str Typed :=
  if s.spaced ∧ maxBytes < len s.out + 1 then .error s.out
  else if maxBytes < len s.spacedOut + c.utf8Size then .error s.spacedOut
  else .ok (s.push c combining)

def pushNewline (s : Typed) : Typed :=
  { s with out := s.out ++ ['\n'], combining := 0, newlines := s.newlines + 1 }

/-- A line break, of which no more than three go together. -/
def newline (maxBytes : ℕ) (s : Typed) : Except Str Typed :=
  if s.out = [] ∨ 3 ≤ s.newlines then .ok s
  else if maxBytes < len s.out + '\n'.utf8Size then .error s.out
  else .ok s.pushNewline

/-- One character that is not the second half of a line break. -/
def read (maxBytes : ℕ) (s : Typed) (c : Char) : Except Str Typed :=
  match classify c with
  | .drop => .ok s
  | .space => .ok { s with pendingSpace := true }
  | .newline => { s with pendingSpace := false }.newline maxBytes
  | .combining =>
    if s.out = [] ∨ maxCombiningRun ≤ s.combining ∨ 0 < s.newlines then .ok s
    else s.keep maxBytes c (s.combining + 1)
  | .keep => s.keep maxBytes c 0

def step (maxBytes : ℕ) (s : Typed) (c : Char) : Except Str Typed :=
  -- "\r\n" is one break.
  if s.prevCr ∧ c = '\n' then .ok { s with prevCr := false }
  else { s with prevCr := c = '\r' }.read maxBytes c

def run (maxBytes : ℕ) (s : Typed) (raw : Str) : Except Str Typed := raw.foldlM (step maxBytes) s

end Typed

/-- A received message, at most `maxBytes` long. -/
def message (maxBytes : ℕ) (raw : Str) : Str :=
  List.rdropWhile isWhitespace <|
    match Typed.new.run maxBytes raw with
    | .ok s => s.out
    | .error cut => cut

namespace Typed

variable {maxBytes : ℕ} {s s' : Typed} {c : Char} {raw w : Str}

/-- The output, were a kept character to come next. -/
def text (s : Typed) : Str := s.out ++ if s.pendingSpace then [' '] else []

theorem run_concat_eq_ok :
    s.run maxBytes (raw ++ [c]) = .ok s' ↔ ∃ t, s.run maxBytes raw = .ok t ∧
    t.step maxBytes c = .ok s' :=
  Loop.foldlM_concat_eq_ok

/-- The characters that are put out, with the run of marks then. -/
inductive Keeps (s : Typed) (c : Char) : ℕ → Prop
  | base (h : classify c = .keep) : Keeps s c 0
  | mark (h : classify c = .combining) (hout : s.out ≠ []) (hrun : s.combining < maxCombiningRun)
      (hline : s.newlines = 0) : Keeps s c (s.combining + 1)

/-- The character and the space before it fit. -/
def Fits (maxBytes : ℕ) (s : Typed) (c : Char) : Prop := len s.spacedOut + c.utf8Size ≤ maxBytes

theorem keep_eq_ok {k : ℕ} : s.keep maxBytes c k = .ok s' ↔ Fits maxBytes s c ∧
    s' = s.push c k := by
  unfold keep Fits
  by_cases hfit : len s.spacedOut + c.utf8Size ≤ maxBytes
  · have hsp : ¬ (s.spaced ∧ maxBytes < len s.out + 1) := by
      rintro ⟨hs, hlt⟩
      simp only [spacedOut, hs, if_true, len_append, len_cons, len_nil] at hfit
      have : ' '.utf8Size = 1 := rfl
      omega
    rw [if_neg hsp, if_neg (Nat.not_lt.mpr hfit)]
    simp [hfit, eq_comm]
  · simp only [hfit, false_and, iff_false]
    split_ifs with h₁ h₂
    · nofun
    · nofun
    · exact absurd (Nat.not_lt.mp h₂) hfit

theorem keep_eq_error {k : ℕ} {cut : Str} (h : s.keep maxBytes c k = .error cut) :
    cut = s.out ∨ cut = s.out ++ [' '] := by
  unfold keep at h
  split_ifs at h
  · exact Or.inl (Except.error.inj h).symm
  · obtain rfl := Except.error.inj h
    unfold spacedOut
    split_ifs
    · exact Or.inr rfl
    · exact Or.inl (List.append_nil _)

inductive Turn (maxBytes : ℕ) (s : Typed) (c : Char) : Typed → Prop
  | skip (cr : Bool) : Turn maxBytes s c { s with prevCr := cr }
  | space (cr : Bool) : Turn maxBytes s c { s with pendingSpace := true, prevCr := cr }
  -- A break before anything else, or one too many.
  | extra (cr : Bool) : Turn maxBytes s c { s with pendingSpace := false, prevCr := cr }
  | newline (cr : Bool) (hout : s.out ≠ []) (hrun : s.newlines <
    3) (hfit : len s.out + 1 ≤ maxBytes) :
      Turn maxBytes s c { s with pendingSpace := false, prevCr := cr }.pushNewline
  | keep (cr : Bool) {k : ℕ} (hk : s.Keeps c k) (hfit : Fits maxBytes s c) :
      Turn maxBytes s c ({ s with prevCr := cr }.push c k)

theorem turn_of_step (h : s.step maxBytes c = .ok s') : Turn maxBytes s c s' := by
  unfold step at h
  split_ifs at h with hcr
  · cases h
    exact .skip false
  unfold read at h
  split at h
  · cases h
    exact .skip _
  · cases h
    exact .space _
  · unfold Typed.newline at h
    split_ifs at h with hout hfit
    · cases h
      exact .extra _
    · cases h
      obtain ⟨hout, hrun⟩ := not_or.mp hout
      exact .newline _ hout (Nat.not_le.mp hrun) (Nat.not_lt.mp hfit)
  · rename_i hc
    split_ifs at h with hout
    · cases h
      exact .skip _
    · obtain ⟨hfit, rfl⟩ := keep_eq_ok.mp h
      simp only [not_or, Nat.not_le, Nat.pos_iff_ne_zero, not_not] at hout
      exact .keep _ (.mark hc hout.1 hout.2.1 hout.2.2) hfit
  · rename_i hc
    obtain ⟨hfit, rfl⟩ := keep_eq_ok.mp h
    exact .keep _ (.base hc) hfit

theorem step_eq_error {cut : Str} (h : s.step maxBytes c = .error cut) :
    cut = s.out ∨ cut = s.out ++ [' '] := by
  unfold step at h
  split_ifs at h
  unfold read at h
  split at h <;> try cases h
  · unfold Typed.newline at h
    split_ifs at h
    exact Or.inl (Except.error.inj h).symm
  · split_ifs at h
    have hcut := keep_eq_error h
    exact hcut
  · have hcut := keep_eq_error h
    exact hcut

/-- What holds of the output at every character: it fits, and running over it again gives it. -/
structure Clean (maxBytes : ℕ) (s : Typed) : Prop where
  fits : len s.out ≤ maxBytes
  again : new.run maxBytes s.out = .ok { s with pendingSpace := false, prevCr := false }

namespace Clean

theorem new : Clean maxBytes Typed.new := ⟨Nat.zero_le _, rfl⟩

theorem pushNewline (h : Clean maxBytes s) (hout : s.out ≠ []) (hrun : s.newlines < 3)
    (hfit : len s.out + 1 ≤ maxBytes) {cr : Bool} :
    Clean maxBytes { s with pendingSpace := false, prevCr := cr }.pushNewline := by
  have hlen : len s.out + '\n'.utf8Size ≤ maxBytes := hfit
  constructor
  · simpa [Typed.pushNewline] using hlen
  · refine run_concat_eq_ok.mpr ⟨_, h.again, ?_⟩
    simp [step, read, Typed.newline, hout, Nat.not_le.mpr hrun, Nat.not_lt.mpr hlen,
      Typed.pushNewline]

theorem keeps {k : ℕ} (hk : s.Keeps c k) {p cr : Bool} :
    ({ s with pendingSpace := p, prevCr := cr } : Typed).Keeps c k := by
  cases hk with
  | base hc => exact .base hc
  | mark hc hout hrun hline => exact .mark hc hout hrun hline

end Clean

theorem Keeps.ne {k : ℕ} (h : s.Keeps c k) : c ≠ '\n' ∧ c ≠ '\r' := by
  have hc : classify c ≠ .newline := by
    cases h with
    | base hc => simp [hc]
    | mark hc => simp [hc]
  constructor
  · rintro rfl
    exact hc (by decide)
  · rintro rfl
    exact hc (by decide)

theorem Keeps.step {k : ℕ} (h : s.Keeps c k) :
    s.step maxBytes c = { s with prevCr := false }.keep maxBytes c k := by
  have hne := h.ne
  unfold Typed.step
  rw [if_neg fun hcr => hne.1 hcr.2]
  cases h with
  | base hc => simp [read, hc, hne.2]
  | mark hc hout hrun hline => simp [read, hc, hne.2, hout, Nat.not_le.mpr hrun, hline]

theorem spaced_spaced {cr : Bool} :
    ({ s with pendingSpace := s.spaced, prevCr := cr } : Typed).spaced = s.spaced := by
  unfold spaced
  cases s.pendingSpace with
  | false => rfl
  | true =>
    by_cases hout : s.out = []
    · simp [hout]
    · by_cases hlast : s.out.getLast? = some '\n' <;> simp [hout, hlast]

namespace Clean

/-- The space before a kept character comes from the space in the output. -/
theorem run_spacedOut (h : Clean maxBytes s) :
    Typed.new.run maxBytes s.spacedOut =
    .ok { s with pendingSpace := s.spaced, prevCr := false } := by
  unfold spacedOut
  cases hs : s.spaced with
  | false =>
    rw [if_neg (by simp), List.append_nil]
    exact h.again
  | true =>
    rw [if_pos rfl, run_concat_eq_ok]
    exact ⟨_, h.again, by simp [Typed.step, read]⟩

theorem push (h : Clean maxBytes s) {k : ℕ} (hk : s.Keeps c k)
    (hfit : Fits maxBytes s c) {cr : Bool} : Clean maxBytes ({ s with prevCr := cr }.push c k) := by
  constructor
  · change len (s.spacedOut ++ [c]) ≤ maxBytes
    rw [len_append, len_cons, len_nil]
    exact hfit
  · refine run_concat_eq_ok.mpr ⟨_, h.run_spacedOut, ?_⟩
    have hout : ({ s with pendingSpace := s.spaced, prevCr := false } : Typed).spacedOut =
      s.spacedOut := by
      simp [spacedOut, spaced_spaced]
    rw [(Clean.keeps hk).step, keep_eq_ok]
    constructor
    · rw [Fits, hout]
      exact hfit
    · unfold Typed.push
      rw [hout]
      rfl

end Clean

theorem Clean.step (h : Clean maxBytes s) (hs : s.step maxBytes c = .ok s') :
    Clean maxBytes s' := by
  cases turn_of_step hs with
  | skip | space | extra => exact ⟨h.fits, h.again⟩
  | newline cr hout hrun hfit => exact h.pushNewline hout hrun hfit
  | keep cr hk hfit => exact h.push hk hfit

theorem text_push {k : ℕ} {cr : Bool} :
    ({ s with prevCr := cr }.push c k).text = s.spacedOut ++ [c] :=
  List.append_nil _

/-- Spaces at the start of a line are dropped; else every turn puts out one character at most. -/
theorem appends_step : Loop.Appends (step maxBytes) text := by
  intro s c s' h
  cases turn_of_step h with
  | skip => exact Or.inl le_rfl
  | space =>
    cases hp : s.pendingSpace with
    | true => exact Or.inl (by simp [text, hp])
    | false => exact Or.inr ⟨' ', by simp [text, hp]⟩
  | extra => exact Or.inl (by simp [text])
  | newline =>
    cases hp : s.pendingSpace with
    | true => exact Or.inl (by simp [text, hp, pushNewline])
    | false => exact Or.inr ⟨'\n', by simp [text, hp, pushNewline]⟩
  | keep cr =>
    rw [text_push]
    cases hp : s.pendingSpace with
    | false => exact Or.inr ⟨c, by simp [text, spacedOut, spaced, hp]⟩
    | true =>
      cases hs : s.spaced with
      | true => exact Or.inr ⟨c, by simp [text, spacedOut, hs, hp]⟩
      | false => exact Or.inl (by simp [text, spacedOut, hs, hp])

theorem Clean.settled (h : Clean maxBytes s) :
    Loop.Settled (Typed.step maxBytes) text Typed.new s.out :=
  ⟨_, h.again, by simp [text]⟩

/-- Whatever the loop comes to, but for the spaces at its end it is the output of a state that meets
what every turn keeps. -/
theorem message_eq {I : Typed → Prop} (hstep : ∀ s c s', I s → s.step maxBytes c = .ok s' → I s')
    (hnew : I new) (raw : Str) : ∃ s, I s ∧ message maxBytes raw =
    s.out.rdropWhile isWhitespace := by
  unfold message
  cases hrun : new.run maxBytes raw with
  | ok s => exact ⟨s, Loop.foldlM_invariant hstep hnew hrun, rfl⟩
  | error cut =>
    obtain ⟨s, c, hs, hc⟩ := Loop.foldlM_eq_error hstep hnew hrun
    rcases step_eq_error hc with rfl | rfl
    · exact ⟨s, hs, rfl⟩
    · exact ⟨s, hs, List.rdropWhile_concat_pos _ _ _ (by decide)⟩

end Typed

open Typed

theorem len_message_le (maxBytes : ℕ) (raw : Str) : len (message maxBytes raw) ≤ maxBytes := by
  obtain ⟨s, hs, h⟩ := message_eq (fun _ _ _ => Clean.step) Clean.new raw
  rw [h]
  exact (len_le_of_isPrefix (List.rdropWhile_prefix ..)).trans hs.fits

theorem message_message (maxBytes : ℕ) (raw : Str) :
    message maxBytes (message maxBytes raw) = message maxBytes raw := by
  obtain ⟨s, hs, h⟩ := message_eq (fun _ _ _ => Clean.step) Clean.new raw
  rw [h]
  generalize hu : s.out.rdropWhile isWhitespace = u
  obtain ⟨t, hrun, ht⟩ := Loop.Settled.of_isPrefix hs.settled appends_step rfl
    (hu ▸ List.rdropWhile_prefix isWhitespace s.out)
  have hp : t.pendingSpace = false := by
    by_contra hp
    rw [Bool.not_eq_false] at hp
    have hne : u ≠ [] := by simp [← ht, text, hp]
    have hlast := List.rdropWhile_last_not isWhitespace s.out (hu ▸ hne)
    simp only [hu, ← ht, text, hp, if_true, List.getLast_append_singleton] at hlast
    exact hlast (by decide)
  have hout : t.out = u := by simpa [text, hp] using ht
  have hmsg : message maxBytes u = t.out.rdropWhile isWhitespace := by
    unfold message
    rw [show Typed.new.run maxBytes u = .ok t from hrun]
  rw [hmsg, hout, ← hu, List.rdropWhile_idempotent]

example : message 64 "a\r\n\n\n\n\n  b\t\n".toList = "a\n\n\nb".toList := by decide +kernel

end Sukkula.Text
