import Sukkula.Library.Transition
import Sukkula.Name.Sanitize

/-! # The grammar of safe names

The rules for a name are local: what may follow depends on the last character
and on the marks before it. An automaton reads a name with that much memory,
and its accepted names are those of the explicit rules.
-/

namespace Sukkula.Name

open Str Text Transition

@[simp] theorem classify_slash : classify '/' = .keep := by decide +kernel

@[simp] theorem classify_backslash : classify '\\' = .keep := by decide +kernel

inductive Tail | start | base | dot | space | mark (n : ℕ)
  deriving DecidableEq, Repr

def Tail.onMark : Tail → Option Tail
  | .base => some (.mark 1)
  | .mark n => if n < maxCombiningRun then some (.mark (n + 1)) else none
  | _ => none

/-- The tail after one more character, if the rules allow it. -/
def Tail.next (t : Tail) (c : Char) : Option Tail :=
  if c = '/' ∨ c = '\\' then none
  else if c = ' ' then if t = .start ∨ t = .space then none else some .space
  else if classify c = .combining then t.onMark
  else if classify c ≠ .keep then none
  else if c ≠ '.' then some .base
  else if t = .start then none
  else some .dot

inductive Tail.Next (c : Char) : Tail → Tail → Prop where
  | base {t} : classify c = .keep → c ≠ '.' → c ≠ '/' → c ≠ '\\' → Next c t .base
  | dot {t} : c = '.' → t ≠ .start → Next c t .dot
  | space {t} : c = ' ' → t ≠ .start → t ≠ .space → Next c t .space
  | first : classify c = .combining → Next c .base (.mark 1)
  | more {n} : classify c = .combining → n < maxCombiningRun → Next c (.mark n) (.mark (n + 1))

theorem Tail.next_iff {c : Char} {t t' : Tail} : t.next c = some t' ↔ Next c t t' := by
  constructor
  · intro h
    unfold Tail.next at h
    split_ifs at h with hs hc ht hm hk hd ht
    · obtain ⟨h₁, h₂⟩ := not_or.mp ht
      exact Option.some.inj h ▸ .space hc h₁ h₂
    · unfold Tail.onMark at h
      split at h
      · exact Option.some.inj h ▸ .first hm
      · split_ifs at h with hn
        exact Option.some.inj h ▸ .more hm hn
      · cases h
    · obtain ⟨h₁, h₂⟩ := not_or.mp hs
      exact Option.some.inj h ▸ .base (not_not.mp hk) hd h₁ h₂
    · exact Option.some.inj h ▸ .dot (not_not.mp hd) ht
  · intro h
    cases h with
    | base hk hd hs hb =>
      have hsp : c ≠ ' ' := by rintro rfl; simp at hk
      simp [Tail.next, hk, hd, hs, hb, hsp]
    | dot hc ht => simp [Tail.next, hc, ht]
    | space hc ht ht' => simp [Tail.next, hc, ht, ht']
    | first hm =>
      have h1 : c ≠ '/' := by rintro rfl; simp at hm
      have h2 : c ≠ '\\' := by rintro rfl; simp at hm
      have h3 : c ≠ ' ' := by rintro rfl; simp at hm
      simp [Tail.next, Tail.onMark, hm, h1, h2, h3]
    | more hm hn =>
      have h1 : c ≠ '/' := by rintro rfl; simp at hm
      have h2 : c ≠ '\\' := by rintro rfl; simp at hm
      have h3 : c ≠ ' ' := by rintro rfl; simp at hm
      simp [Tail.next, Tail.onMark, hm, h1, h2, h3, hn]

def Tail.read (t : Tail) (s : Str) : Option Tail := exec Tail.next t s

def Tail.Final : Tail → Prop
  | .base | .mark _ => True
  | _ => False

namespace Tail

variable {t u v : Tail} {s s' : Str} {c : Char}

@[simp] theorem read_nil : t.read [] = some t := rfl

theorem read_append : t.read (s ++ s') = (t.read s).bind fun u => u.read s' := exec_append

theorem read_append_iff : t.read (s ++ s') = some v ↔ ∃ u, t.read s = some u ∧
    u.read s' = some v := by
  rw [read_append, Option.bind_eq_some_iff]

theorem read_cons_iff : t.read (c :: s) = some v ↔ ∃ u, Next c t u ∧ u.read s = some v := by
  simp only [← next_iff]
  exact exec_cons_eq_some

theorem read_concat_iff : t.read (s ++ [c]) = some v ↔ ∃ u, t.read s = some u ∧ Next c u v := by
  rw [read_append_iff]
  refine exists_congr fun u => and_congr_right fun _ => ?_
  rw [read_cons_iff]
  simp

theorem read_isPrefix (h : s <+: s') (hr : t.read s' = some v) : ∃ u, t.read s = some u := by
  obtain ⟨r, rfl⟩ := h
  obtain ⟨u, hu, -⟩ := read_append_iff.mp hr
  exact ⟨u, hu⟩

theorem read_cut (hr : t.read (s ++ c :: s') = some v) :
    ∃ u u', t.read s = some u ∧ Next c u u' ∧ u'.read s' = some v := by
  obtain ⟨u, hu, h⟩ := read_append_iff.mp hr
  obtain ⟨u', hn, h'⟩ := read_cons_iff.mp h
  exact ⟨u, u', hu, hn, h'⟩

/-- The last character of a name that ends well is neither a dot nor a space. -/
theorem final_of_last (hr : t.read s = some v) (hs : s ≠ []) (hl : ∀ c, s.getLast? = some c →
    ¬ dotOrSpace c) : v.Final := by
  rw [← List.dropLast_append_getLast hs] at hr
  obtain ⟨u, -, hn⟩ := read_concat_iff.mp hr
  have hd := hl (s.getLast hs) (List.getLast?_eq_some_getLast hs)
  cases hn with
  | base | first | more => trivial
  | dot he => simp [he, dotOrSpace] at hd
  | space he => simp [he, dotOrSpace] at hd

theorem last_of_final (hr : t.read s = some v) (hv : v.Final) (hc : s.getLast? = some c) :
    ¬ dotOrSpace c := by
  obtain ⟨r, rfl⟩ := List.getLast?_eq_some_iff.mp hc
  obtain ⟨u, -, hn⟩ := read_concat_iff.mp hr
  cases hn with
  | base hk hd =>
    have hsp : c ≠ ' ' := by rintro rfl; simp at hk
    simp [dotOrSpace, hd, hsp]
  | first hm | more hm =>
    have h1 : c ≠ '.' := by rintro rfl; simp at hm
    have h2 : c ≠ ' ' := by rintro rfl; simp at hm
    simp [dotOrSpace, h1, h2]
  | dot | space => cases hv

theorem head_of_read (hr : start.read s = some v) (hc : s.head? = some c) :
    classify c = .keep ∧ c ≠ '.' := by
  cases s with
  | nil => cases hc
  | cons d s =>
    obtain rfl : d = c := by simpa using hc
    obtain ⟨u, hn, -⟩ := read_cons_iff.mp hr
    cases hn with
    | base hk hd => exact ⟨hk, hd⟩
    | dot _ ht | space _ ht => exact absurd rfl ht

theorem read_marks (hr : t.read s = some v) (hs : s ≠ [])
    (hm : ∀ c ∈ s, classify c = .combining) :
    ∃ k, v = .mark k ∧ s.length ≤ k ∧ k ≤ maxCombiningRun := by
  induction s using List.reverseRecOn generalizing v with
  | nil => exact absurd rfl hs
  | append_singleton s c ih =>
    obtain ⟨u, hu, hn⟩ := read_concat_iff.mp hr
    have hc := hm c (by simp)
    have ih' := fun hs => ih hu hs fun d hd => hm d (by simp [hd])
    cases hn with
    | base hk => simp [hk] at hc
    | dot he => simp [he] at hc
    | space he => simp [he] at hc
    | first =>
      rcases eq_or_ne s [] with rfl | hs
      · exact ⟨1, rfl, by simp, by simp [maxCombiningRun]⟩
      · obtain ⟨k, hk, -⟩ := ih' hs
        cases hk
    | @more n _ hn =>
      rcases eq_or_ne s [] with rfl | hs
      · exact ⟨n + 1, rfl, by simp, hn⟩
      · obtain ⟨k, hk, hle, -⟩ := ih' hs
        obtain rfl := Tail.mark.inj hk
        exact ⟨n + 1, rfl, by simp [hle], hn⟩

end Tail

end Sukkula.Name
