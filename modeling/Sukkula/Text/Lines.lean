import Mathlib.Data.List.Chain
import Sukkula.Library.Runs
import Sukkula.Text.Display
import Sukkula.Text.Message

/-! # What cleaned text looks like

`display` and `message` put out their text character by character. At every
point it meets the same rules about spaces, line breaks and marks, and it is the
start of what the loop would put out if there were no limit.
-/

namespace Sukkula.Text

open Str Runs

def isStacked (c : Char) : Bool := c = ' ' || classify c = .combining

def isCombining (c : Char) : Bool := classify c = .combining

def isBreak (c : Char) : Bool := c = '\n'

def Beside (a b : Char) : Prop :=
  (a = ' ' → b ≠ ' ' ∧ b ≠ '\n') ∧ (a = '\n' → b ≠ ' ' ∧ classify b ≠ .combining)

/-- The rules for clean text, but for the white space at its end. -/
structure Lines (s : Str) : Prop where
  shown : ∀ c ∈ s, c = ' ' ∨ c = '\n' ∨ classify c = .keep ∨ classify c = .combining
  first : ∀ c ∈ s.head?, classify c = .keep
  pairs : s.IsChain Beside
  breaks : AllLe isBreak isBreak 3 s
  stacked : AllLe isStacked isCombining maxCombiningRun s

variable {s t : Str} {c : Char} {k m : ℕ}

theorem Lines.nil : Lines [] := ⟨nofun, nofun, .nil, .nil, .nil⟩

theorem Lines.of_isPrefix (h : Lines s) (ht : t <+: s) : Lines t := by
  constructor
  · exact fun c hc => h.shown c (ht.subset hc)
  · intro c hc
    obtain ⟨u, rfl⟩ := ht
    exact h.first c (List.mem_head?_append_of_mem_head? hc)
  · exact h.pairs.prefix ht
  · exact h.breaks.of_isPrefix ht
  · exact h.stacked.of_isPrefix ht

theorem Lines.concat (h : Lines s)
    (hc : c = ' ' ∨ c = '\n' ∨ classify c = .keep ∨ classify c = .combining)
    (hfirst : s = [] → classify c = .keep) (hpair : ∀ a ∈ s.getLast?, Beside a c)
    (hbreaks : EndLe isBreak isBreak 3 (s ++ [c]))
    (hstacked : EndLe isStacked isCombining maxCombiningRun (s ++ [c])) : Lines (s ++ [c]) := by
  constructor
  · intro d hd
    rcases List.mem_append.mp hd with hd | hd
    · exact h.shown d hd
    · rw [List.mem_singleton.mp hd]
      exact hc
  · cases s with
    | nil => simpa using hfirst rfl
    | cons d s => exact h.first
  · exact h.pairs.append (.singleton c) (by simpa using hpair)
  · exact h.breaks.concat hbreaks
  · exact h.stacked.concat hstacked

theorem not_isStacked (h : classify c = .keep) : ¬ isStacked c := by
  have : c ≠ ' ' := by
    rintro rfl
    simp at h
  simp [isStacked, h, this]

theorem ne_of_shown (h : classify c = .keep ∨ classify c = .combining) : c ≠ ' ' ∧ c ≠ '\n' := by
  constructor
  · rintro rfl
    simp at h
  · rintro rfl
    simp at h

theorem Lines.not_pair (h : Lines s) {c d : Char} (hcd : ¬ Beside c d) (a b : Str) :
    s ≠ a ++ c :: d :: b := by
  rintro rfl
  exact hcd (List.isChain_append_cons_cons.mp h.pairs).2.1

theorem Lines.not_spaces (h : Lines s) (a b : Str) : s ≠ a ++ ' ' :: ' ' :: b :=
  h.not_pair (fun hb => (hb.1 rfl).1 rfl) a b

theorem Lines.marks_le (h : Lines s) (a r b : Str) (hs : s = a ++ r ++ b)
    (hr : ∀ c ∈ r, c = ' ' ∨ classify c = .combining) :
    r.countP (classify · = .combining) ≤ 3 :=
  h.stacked r ⟨a, b, hs.symm⟩ fun c hc => by simpa [isStacked] using hr c hc

theorem Lines.keep (h : Lines s) (hc : classify c = .keep) : Lines (s ++ [c]) := by
  obtain ⟨hsp, hnl⟩ := ne_of_shown (Or.inl hc)
  refine h.concat (Or.inr (Or.inr (Or.inl hc))) (fun _ => hc) (fun a _ => ?_)
    (.stop (by simp [isBreak, hnl])) (.stop (not_isStacked hc))
  exact ⟨fun _ => ⟨hsp, hnl⟩, fun _ => ⟨hsp, by simp [hc]⟩⟩

/-- The text put out so far, with the marks and the line breaks it ends in. -/
structure Tidy (out : Str) (combining newlines : ℕ) : Prop where
  lines : Lines out
  last : out.getLast? ≠ some ' '
  marks : EndLe isStacked isCombining combining out
  breaks : EndLe isBreak isBreak newlines out
  few : combining ≤ maxCombiningRun

/-- The space that goes before a character, if any. -/
def Gap (out gap : Str) : Prop :=
  gap = [] ∨ gap = [' '] ∧ out ≠ [] ∧ out.getLast? ≠ some '\n'

namespace Tidy

variable {out gap : Str}

theorem nil : Tidy [] 0 0 := ⟨.nil, nofun, .nil, .nil, Nat.zero_le _⟩

theorem spaced (h : Tidy out k m) (hg : Gap out gap) :
    Lines (out ++ gap) ∧ EndLe isStacked isCombining k (out ++ gap) ∧
      ((out ++ gap).getLast? = some '\n' → out.getLast? = some '\n') := by
  rcases hg with rfl | ⟨rfl, hne, hlast⟩
  · rw [List.append_nil]
    exact ⟨h.lines, h.marks, id⟩
  · refine ⟨h.lines.concat (Or.inl rfl) (fun h => absurd h hne) ?_ (.stop (by decide)) ?_, ?_, ?_⟩
    · intro a ha
      constructor
      · rintro rfl
        exact absurd ha h.last
      · rintro rfl
        exact absurd ha hlast
    · exact (h.marks.pass (by decide)).mono h.few
    · exact h.marks.pass (by decide)
    · simp

theorem base (h : Tidy out k m) (hg : Gap out gap) (hc : classify c = .keep) :
    Tidy (out ++ gap ++ [c]) 0 0 := by
  obtain ⟨hlines, -, -⟩ := h.spaced hg
  obtain ⟨hsp, hnl⟩ := ne_of_shown (Or.inl hc)
  constructor
  · exact hlines.keep hc
  · simpa using hsp
  · exact .stop (not_isStacked hc)
  · exact .stop (by simp [isBreak, hnl])
  · exact Nat.zero_le _

theorem mark (h : Tidy out k 0) (hg : Gap out gap) (hc : classify c = .combining) (hout : out ≠ [])
    (hk : k < maxCombiningRun) : Tidy (out ++ gap ++ [c]) (k + 1) 0 := by
  obtain ⟨hlines, hmarks, hlast⟩ := h.spaced hg
  obtain ⟨hsp, hnl⟩ := ne_of_shown (Or.inr hc)
  have hbreak : ¬ isBreak c := by simp [isBreak, hnl]
  constructor
  · refine hlines.concat (Or.inr (Or.inr (Or.inr hc))) (fun h => by simp_all) (fun a ha => ?_)
      (.stop hbreak) (hmarks.count.mono hk)
    refine ⟨fun _ => ⟨hsp, hnl⟩, ?_⟩
    rintro rfl
    exact absurd (hlast ha) (h.breaks.last rfl rfl)
  · simpa using hsp
  · exact hmarks.count
  · exact .stop hbreak
  · exact hk

theorem newline (h : Tidy out k m) (hout : out ≠ []) (hm : m < 3) :
    Tidy (out ++ ['\n']) 0 (m + 1) := by
  have hstacked : ¬ isStacked '\n' := by decide
  constructor
  · refine h.lines.concat (Or.inr (Or.inl rfl)) (fun h => absurd h hout) (fun a ha => ?_)
      (h.breaks.count.mono hm) (.stop hstacked)
    refine ⟨?_, fun _ => by decide⟩
    rintro rfl
    exact absurd ha h.last
  · simp
  · exact .stop hstacked
  · exact h.breaks.count
  · exact Nat.zero_le _

end Tidy

namespace Shown

variable {s s' : Shown} {raw : Str} {maxChars : ℕ}

/-- One turn of the loop, were there no limit. -/
def free (s : Shown) (c : Char) : Shown :=
  match classify c with
  | .drop => s
  | .space | .newline => { s with pendingSpace := true }
  | .combining =>
    if s.out = [] ∨ maxCombiningRun ≤ s.combining then s else s.push c (s.combining + 1)
  | .keep => s.push c 0

theorem Keeps.free {k : ℕ} (h : s.Keeps c k) : s.free c = s.push c k := by
  cases h with
  | base h => simp [Shown.free, h]
  | mark h hout hrun => simp [Shown.free, h, hout, Nat.not_le.mpr hrun]

theorem free_of_step (h : s.step maxChars c = .ok s') : s' = s.free c := by
  unfold step at h
  unfold free
  cases hc : classify c with
  | drop | space | newline =>
    simp only [hc] at h ⊢
    exact (Except.ok.inj h).symm
  | combining =>
    simp only [hc] at h ⊢
    split_ifs at h ⊢
    · exact (Except.ok.inj h).symm
    · exact (keep_eq_ok.mp h).2
  | keep =>
    simp only [hc] at h ⊢
    exact (keep_eq_ok.mp h).2

theorem step_error_cases {cut : Str} (h : s.step maxChars c = .error cut) :
    (∃ k, s.Keeps c k) ∧ maxChars < s.chars + s.needed := by
  have hkeep : ∀ k, s.keep maxChars c k = .error cut → maxChars < s.chars + s.needed := by
    intro k h
    unfold keep at h
    split_ifs at h with hlt
    exact hlt
  unfold step at h
  split at h <;> try cases h
  · rename_i hc
    split_ifs at h with hrun
    rw [not_or, Nat.not_le] at hrun
    exact ⟨⟨_, .mark hc hrun.1 hrun.2⟩, hkeep _ h⟩
  · rename_i hc
    exact ⟨⟨0, .base hc⟩, hkeep _ h⟩

theorem isPrefix_push (s : Shown) (c : Char) (k : ℕ) : s.out <+: (s.push c k).out :=
  (List.prefix_append _ _).trans (List.prefix_append _ _)

theorem isPrefix_free (s : Shown) (c : Char) : s.out <+: (s.free c).out := by
  unfold free
  split
  · exact List.prefix_rfl
  · exact List.prefix_rfl
  · exact List.prefix_rfl
  · split_ifs
    · exact List.prefix_rfl
    · exact isPrefix_push ..
  · exact isPrefix_push ..

theorem isPrefix_foldl (s : Shown) (raw : Str) : s.out <+: (raw.foldl free s).out := by
  induction raw generalizing s with
  | nil => exact List.prefix_rfl
  | cons c raw ih => exact (s.isPrefix_free c).trans (ih (s.free c))

def owed (s : Shown) : ℕ := s.chars + s.pendingSpace.toNat

theorem needed_le_owed (s : Shown) : s.chars + s.needed ≤ s.owed + 1 := by
  unfold owed needed spaced
  cases s.pendingSpace with
  | false => simp
  | true =>
    simp only [Bool.true_and, Bool.toNat_true]
    split_ifs <;> omega

theorem owed_free_le (s : Shown) (c : Char) : (s.free c).owed ≤ s.owed + 1 := by
  have hpush : ∀ k, (s.push c k).owed ≤ s.owed + 1 := fun k => s.needed_le_owed
  have hpending : ({ s with pendingSpace := true } : Shown).owed ≤ s.owed + 1 := by
    simp only [owed, Bool.toNat_true]
    omega
  unfold free
  cases classify c with
  | drop => exact Nat.le_succ _
  | space | newline => exact hpending
  | combining =>
    dsimp only
    split_ifs
    · exact Nat.le_succ _
    · exact hpush _
  | keep => exact hpush _

theorem owed_foldl_le (raw : Str) : (raw.foldl free new).owed ≤ raw.length := by
  induction raw using List.reverseRecOn with
  | nil => exact le_rfl
  | append_singleton raw c ih =>
    rw [List.foldl_append, List.length_append]
    exact (owed_free_le _ c).trans (Nat.succ_le_succ ih)

theorem run_of_length_lt (h : raw.length < maxChars) :
    new.run maxChars raw = .ok (raw.foldl free new) := by
  cases hrun : new.run maxChars raw with
  | ok s => rw [Loop.foldlM_eq_foldl (f := free) (fun _ _ _ => free_of_step) hrun]
  | error cut =>
    obtain ⟨u, c, v, t, rfl, hu, hc⟩ := Loop.exists_of_foldlM_eq_error hrun
    obtain rfl := Loop.foldlM_eq_foldl (f := free) (fun _ _ _ => free_of_step) hu
    have hlt := (step_error_cases hc).2
    have hneeded := needed_le_owed (u.foldl free new)
    have howed := owed_foldl_le u
    simp only [List.length_append, List.length_cons] at h
    omega

/-- Where the loop stops, it has put out as much as fits of what it would have put out. -/
theorem run_error_spec {cut : Str} (hrun : new.run maxChars raw = .error cut) :
    maxChars < (raw.foldl free new).out.length ∧
      cut = ((raw.foldl free new).out.take (maxChars - 1)).rdropWhile (· = ' ') ++ ['…'] := by
  obtain ⟨u, c, v, t, rfl, hu, hc⟩ := Loop.exists_of_foldlM_eq_error hrun
  have hclean := Clean.run hu
  have ht := Loop.foldlM_eq_foldl (f := free) (fun _ _ _ => free_of_step) hu
  obtain ⟨⟨k, hk⟩, hlt⟩ := step_error_cases hc
  have hpush : (t.push c k).out <+: ((u ++ c :: v).foldl free new).out := by
    rw [List.foldl_append, ← ht, List.foldl_cons, hk.free]
    exact isPrefix_foldl _ v
  have hlen : (t.push c k).out.length = t.chars + t.needed := by
    unfold push needed
    split_ifs <;> simp [hclean.chars]
  have hneeded : t.needed ≤ 2 := by
    unfold needed
    split_ifs <;> omega
  have hchars := hclean.chars
  have hfits := hclean.fits
  constructor
  · have := hpush.length_le
    omega
  · obtain ⟨r, hr⟩ := (isPrefix_push t c k).trans hpush
    have htake : t.chars - (t.chars + 1 - maxChars) = maxChars - 1 := by omega
    rw [step_eq_error hc, ellipsis, List.rdrop, ← hchars, htake, ← hr,
      List.take_append_of_le_length (by omega)]

structure Tidied (s : Shown) : Prop where
  tidy : Tidy s.out s.combining 0
  line : '\n' ∉ s.out

theorem Tidied.push (h : s.Tidied) {k : ℕ} (hk : s.Keeps c k) : (s.push c k).Tidied := by
  have hlast : s.out.getLast? ≠ some '\n' := fun hl => h.line (List.mem_of_getLast? hl)
  have hgap : Gap s.out (if s.spaced then [' '] else []) := by
    split_ifs with hs
    · exact Or.inr ⟨rfl, by simpa using (Bool.and_eq_true_iff.mp hs).2, hlast⟩
    · exact Or.inl rfl
  have hshown : classify c = .keep ∨ classify c = .combining := by
    cases hk with
    | base hc => exact Or.inl hc
    | mark hc => exact Or.inr hc
  constructor
  · cases hk with
    | base hc => exact h.tidy.base hgap hc
    | mark hc hout hrun => exact h.tidy.mark hgap hc hout hrun
  · intro hmem
    simp only [Shown.push, List.mem_append, List.mem_singleton] at hmem
    rcases hmem with (hmem | hmem) | hmem
    · exact h.line hmem
    · split_ifs at hmem
      · simp at hmem
      · simp at hmem
    · exact (ne_of_shown hshown).2 hmem.symm

theorem Tidied.run (hrun : new.run maxChars raw = .ok s) : s.Tidied := by
  refine Loop.foldlM_invariant (fun s c s' h hs => ?_) ⟨.nil, List.not_mem_nil⟩ hrun
  rcases step_cases hs with rfl | rfl | ⟨k, hk, -, rfl⟩
  · exact h
  · exact ⟨h.tidy, h.line⟩
  · exact h.push hk

end Shown

theorem display_eq {raw : Str} {n limit : ℕ} (hn : 1 ≤ n) (hlimit : raw.length < limit) :
    display raw n = if (display raw limit).length ≤ n then display raw limit
      else ((display raw limit).take (n - 1)).rdropWhile (· = ' ') ++ ['…'] := by
  have hfull : display raw limit = (raw.foldl Shown.free .new).out := by
    rw [display, if_neg (by omega), Shown.run_of_length_lt hlimit]
  rw [hfull, display, if_neg (by omega)]
  cases hrun : Shown.new.run n raw with
  | ok s =>
    have hclean := Shown.Clean.run hrun
    obtain rfl := Loop.foldlM_eq_foldl (f := Shown.free) (fun _ _ _ => Shown.free_of_step) hrun
    rw [if_pos (hclean.chars ▸ hclean.fits)]
  | error cut =>
    obtain ⟨hlt, hcut⟩ := Shown.run_error_spec hrun
    rw [if_neg (Nat.not_le.mpr hlt)]
    exact hcut

/-- What is displayed is a clean line, whether it was cut or not. -/
theorem display_lines (raw : Str) {n : ℕ} (hn : 1 ≤ n) :
    Lines (display raw n) ∧ '\n' ∉ display raw n ∧ (display raw n).getLast? ≠ some ' ' ∧
      (display raw n).length ≤ n := by
  rw [display, if_neg (by omega)]
  cases hrun : Shown.new.run n raw with
  | ok s =>
    have h := Shown.Tidied.run hrun
    have hclean := Shown.Clean.run hrun
    exact ⟨h.tidy.lines, h.line, h.tidy.last, hclean.chars ▸ hclean.fits⟩
  | error cut =>
    obtain ⟨-, hcut⟩ := Shown.run_error_spec hrun
    have h := Shown.Tidied.run (Shown.run_of_length_lt (Nat.lt_succ_self raw.length))
    generalize hp : ((raw.foldl Shown.free .new).out.take (n - 1)).rdropWhile (· = ' ') = p at hcut
    have hpre : p <+: (raw.foldl Shown.free .new).out.take (n - 1) :=
      hp ▸ List.rdropWhile_prefix _ _
    have hlen := hpre.length_le
    rw [List.length_take] at hlen
    subst hcut
    refine ⟨?_, ?_, ?_, ?_⟩
    · exact (h.tidy.lines.of_isPrefix (hpre.trans (List.take_prefix _ _))).keep (by decide +kernel)
    · intro hmem
      rcases List.mem_append.mp hmem with hmem | hmem
      · exact h.line ((hpre.trans (List.take_prefix _ _)).subset hmem)
      · simp at hmem
    · simp
    · rw [List.length_append, List.length_singleton]
      omega

/-- The text is displayed as if it were cleaned first and cut then; it is a clean line that fits,
and it is displayed again as it is. -/
theorem display_spec (raw : Str) (n limit : ℕ) (hn : 1 ≤ n) (hlimit : raw.length < limit) :
    (display raw n = if (display raw limit).length ≤ n then display raw limit
      else ((display raw limit).take (n - 1)).rdropWhile (· = ' ') ++ ['…']) ∧
    (display raw n).length ≤ n ∧
    (∀ c ∈ display raw n, classify c = .keep ∨ classify c = .combining ∨ c = ' ') ∧
    (∀ a b, display raw n ≠ a ++ ' ' :: ' ' :: b) ∧
    (display raw n).head? ≠ some ' ' ∧ (display raw n).getLast? ≠ some ' ' ∧
    (∀ c ∈ (display raw n).head?, classify c = .keep) ∧
    (∀ a r b, display raw n = a ++ r ++ b → (∀ c ∈ r, c = ' ' ∨ classify c = .combining) →
      r.countP (classify · = .combining) ≤ 3) ∧
    display (display raw n) n = display raw n := by
  obtain ⟨hlines, hline, hlast, hlen⟩ := display_lines raw hn
  refine ⟨display_eq hn hlimit, hlen, ?_, ?_, ?_, hlast, hlines.first, ?_, display_display raw n⟩
  · intro c hc
    rcases hlines.shown c hc with h | rfl | h | h
    · exact Or.inr (Or.inr h)
    · exact absurd hc hline
    · exact Or.inl h
    · exact Or.inr (Or.inl h)
  · exact hlines.not_spaces
  · intro h
    have := hlines.first ' ' h
    simp at this
  · exact hlines.marks_le

theorem display_spec_cut : display "ab cdef".toList 4 = "ab…".toList ∧
    display (display "ab cdef".toList 4) 4 = display "ab cdef".toList 4 := by
  have h := display_spec "ab cdef".toList 4 8 (by decide) (by decide)
  obtain ⟨hcut, -, -, -, -, -, -, -, hagain⟩ := h
  exact ⟨hcut.trans (by decide +kernel), hagain⟩

namespace Typed

variable {s s' : Typed} {raw : Str} {maxBytes : ℕ}

/-- One character that is not the second half of a line break, were there no limit. -/
def freeRead (s : Typed) (c : Char) : Typed :=
  match classify c with
  | .drop => s
  | .space => { s with pendingSpace := true }
  | .newline =>
    let s := { s with pendingSpace := false }
    if s.out = [] ∨ 3 ≤ s.newlines then s else s.pushNewline
  | .combining =>
    if s.out = [] ∨ maxCombiningRun ≤ s.combining ∨ 0 < s.newlines then s
    else s.push c (s.combining + 1)
  | .keep => s.push c 0

def free (s : Typed) (c : Char) : Typed :=
  if s.prevCr ∧ c = '\n' then { s with prevCr := false }
  else { s with prevCr := c = '\r' }.freeRead c

theorem isPrefix_push (s : Typed) (c : Char) (k : ℕ) : s.out <+: (s.push c k).out :=
  (List.prefix_append _ _).trans (List.prefix_append _ _)

theorem isPrefix_keep {k : ℕ} {cut : Str} (h : s.keep maxBytes c k = .error cut) :
    cut <+: (s.push c k).out := by
  unfold keep at h
  split_ifs at h
  · obtain rfl := Except.error.inj h
    exact isPrefix_push s c k
  · obtain rfl := Except.error.inj h
    exact List.prefix_append _ _

/-- Where there is no need to stop, the limit makes no difference; where there is, the turn would
have gone on from what there is. -/
theorem read_free (s : Typed) (c : Char) :
    (∀ s', s.read maxBytes c = .ok s' → s' = s.freeRead c) ∧
      ∀ cut, s.read maxBytes c = .error cut → cut <+: (s.freeRead c).out := by
  have hkeep : ∀ k, (∀ s', s.keep maxBytes c k = .ok s' → s' = s.push c k) ∧
      ∀ cut, s.keep maxBytes c k = .error cut → cut <+: (s.push c k).out :=
    fun k => ⟨fun s' h => (keep_eq_ok.mp h).2, fun cut => isPrefix_keep⟩
  unfold read freeRead
  cases classify c with
  | drop | space => exact ⟨fun s' h => (Except.ok.inj h).symm, nofun⟩
  | newline =>
    dsimp only
    unfold Typed.newline
    split_ifs with hout hfit
    · exact ⟨fun s' h => (Except.ok.inj h).symm, nofun⟩
    · refine ⟨nofun, fun cut h => ?_⟩
      obtain rfl := Except.error.inj h
      exact List.prefix_append _ _
    · exact ⟨fun s' h => (Except.ok.inj h).symm, nofun⟩
  | combining =>
    dsimp only
    split_ifs
    · exact ⟨fun s' h => (Except.ok.inj h).symm, nofun⟩
    · exact hkeep _
  | keep => exact hkeep _

theorem step_free (maxBytes : ℕ) (s : Typed) (c : Char) :
    (∀ s', s.step maxBytes c = .ok s' → s' = s.free c) ∧
      ∀ cut, s.step maxBytes c = .error cut → cut <+: (s.free c).out := by
  unfold step free
  split_ifs
  · exact ⟨fun s' h => (Except.ok.inj h).symm, nofun⟩
  · exact read_free _ c

theorem isPrefix_free (s : Typed) (c : Char) : s.out <+: (s.free c).out := by
  unfold free
  split_ifs
  · exact List.prefix_rfl
  unfold freeRead
  cases classify c with
  | drop | space => exact List.prefix_rfl
  | newline =>
    dsimp only
    split_ifs
    · exact List.prefix_rfl
    · exact List.prefix_append _ _
  | combining =>
    dsimp only
    split_ifs
    · exact List.prefix_rfl
    · exact isPrefix_push { s with prevCr := c = '\r' } c (s.combining + 1)
  | keep => exact isPrefix_push { s with prevCr := c = '\r' } c 0

theorem isPrefix_foldl (s : Typed) (raw : Str) : s.out <+: (raw.foldl free s).out := by
  induction raw generalizing s with
  | nil => exact List.prefix_rfl
  | cons c raw ih => exact (s.isPrefix_free c).trans (ih (s.free c))

theorem isPrefix_run (raw : Str) :
    (match new.run maxBytes raw with
      | .ok s => s.out
      | .error cut => cut) <+: (raw.foldl free new).out := by
  have hok := fun (s : Typed) c s' => (step_free maxBytes s c).1 s'
  cases hrun : new.run maxBytes raw with
  | ok s => rw [Loop.foldlM_eq_foldl (f := free) hok hrun]
  | error cut =>
    obtain ⟨u, c, v, t, rfl, hu, hc⟩ := Loop.exists_of_foldlM_eq_error hrun
    rw [List.foldl_append, ← Loop.foldlM_eq_foldl (f := free) hok hu]
    exact ((step_free maxBytes t c).2 cut hc).trans (isPrefix_foldl _ v)

theorem tidy_step (h : Tidy s.out s.combining s.newlines) (hs : s.step maxBytes c = .ok s') :
    Tidy s'.out s'.combining s'.newlines := by
  cases turn_of_step hs with
  | skip | space | extra => exact h
  | newline cr hout hrun => exact h.newline hout hrun
  | keep cr hk =>
    have hgap : Gap s.out (if s.spaced then [' '] else []) := by
      split_ifs with hsp
      · have hsp : (s.pendingSpace = true ∧ s.out ≠ []) ∧ s.out.getLast? ≠ some '\n' := by
          simpa [spaced] using hsp
        exact Or.inr ⟨rfl, hsp.1.2, hsp.2⟩
      · exact Or.inl rfl
    cases hk with
    | base hc => exact h.base hgap hc
    | mark hc hout hrun hline => exact (hline ▸ h).mark hgap hc hout hrun

end Typed

/-- What `message` never lets through. -/
def isForbiddenInMessage (c : Char) : Bool :=
  match classify c with
  | .drop => true
  | .newline => c ≠ '\n'
  | .space => c ≠ ' '
  | .keep | .combining => false

/-- The message as it would be without the byte cap. -/
def messageFree (raw : Str) : Str := (raw.foldl Typed.free .new).out.rdropWhile isWhitespace

theorem message_isPrefix (maxBytes : ℕ) (raw : Str) : message maxBytes raw <+: messageFree raw :=
  rdropWhile_isPrefix (Typed.isPrefix_run raw) isWhitespace

theorem message_lines (maxBytes : ℕ) (raw : Str) : Lines (message maxBytes raw) := by
  obtain ⟨s, hs, h⟩ := Typed.message_eq (I := fun s => Tidy s.out s.combining s.newlines)
    (fun _ _ _ h => Typed.tidy_step h) .nil raw
  rw [h]
  exact hs.lines.of_isPrefix (List.rdropWhile_prefix _ _)

theorem message_last {maxBytes : ℕ} {raw : Str} {c : Char} (hc : isWhitespace c) :
    (message maxBytes raw).getLast? ≠ some c := by
  obtain ⟨s, -, hs⟩ :=
    Typed.message_eq (I := fun _ => True) (fun _ _ _ _ _ => trivial) trivial raw
  rw [hs]
  intro h
  obtain ⟨r, hr⟩ := List.getLast?_eq_some_iff.mp h
  have hne : s.out.rdropWhile isWhitespace ≠ [] := by simp [hr]
  rw [List.getLast?_eq_some_getLast hne] at h
  exact List.rdropWhile_last_not isWhitespace _ hne (Option.some.inj h ▸ hc)

theorem Lines.not_breaks (h : Lines s) (a b : Str) : s ≠ a ++ "\n\n\n\n".toList ++ b := by
  rintro rfl
  have hall : "\n\n\n\n".toList.all isBreak := by decide
  exact absurd (h.breaks "\n\n\n\n".toList ⟨a, b, rfl⟩ (List.all_eq_true.mp hall)) (by decide)

/-- A message fits and is clean, it is the start of what it would be without the cap, and it is
cleaned again as it is. -/
theorem message_spec (raw : Str) :
    len (message 65536 raw) ≤ 65536 ∧
    (∀ c ∈ message 65536 raw, isForbiddenInMessage c = false) ∧
    (∀ c ∈ (message 65536 raw).head?, c ≠ ' ' ∧ c ≠ '\n' ∧ classify c ≠ .combining) ∧
    (∀ c ∈ (message 65536 raw).getLast?, c ≠ ' ' ∧ c ≠ '\n') ∧
    (∀ a b, message 65536 raw ≠ a ++ ' ' :: ' ' :: b ∧ message 65536 raw ≠ a ++ ' ' :: '\n' :: b ∧
      message 65536 raw ≠ a ++ '\n' :: ' ' :: b ∧
      message 65536 raw ≠ a ++ "\n\n\n\n".toList ++ b ∧
      ∀ c, classify c = .combining → message 65536 raw ≠ a ++ '\n' :: c :: b) ∧
    (∀ a r b, message 65536 raw = a ++ r ++ b → (∀ c ∈ r, c = ' ' ∨ classify c = .combining) →
      r.countP (classify · = .combining) ≤ 3) ∧
    message 65536 raw <+: messageFree raw ∧
    message 65536 (message 65536 raw) = message 65536 raw := by
  have h := message_lines 65536 raw
  refine ⟨len_message_le _ _, ?_, ?_, ?_, ?_, h.marks_le, message_isPrefix _ _, message_message _ _⟩
  · intro c hc
    rcases h.shown c hc with rfl | rfl | hc | hc
    · decide
    · decide
    · simp [isForbiddenInMessage, hc]
    · simp [isForbiddenInMessage, hc]
  · intro c hc
    have hkeep := h.first c hc
    obtain ⟨hsp, hnl⟩ := ne_of_shown (Or.inl hkeep)
    exact ⟨hsp, hnl, by simp [hkeep]⟩
  · intro c hc
    constructor
    · rintro rfl
      exact message_last (by decide) hc
    · rintro rfl
      exact message_last (by decide) hc
  · intro a b
    refine ⟨h.not_spaces a b, h.not_pair ?_ a b, h.not_pair ?_ a b, h.not_breaks a b, ?_⟩
    · exact fun hb => (hb.1 rfl).2 rfl
    · exact fun hb => (hb.2 rfl).1 rfl
    · exact fun c hc => h.not_pair (fun hb => (hb.2 rfl).2 hc) a b

end Sukkula.Text
