import Sukkula.Name.Grammar

/-! # Safe names

The rules a safe name meets, written out, and their equivalence with `is_safe`.
Every result of `sanitize` meets them, so sanitising twice changes nothing.
-/

namespace Sukkula.Name

open Str Text

structure Safe (s : Str) : Prop where
  nonempty : s ≠ []
  short : len s ≤ maxNameBytes
  slashless : '/' ∉ s ∧ '\\' ∉ s
  shown : ∀ c ∈ s, c = ' ' ∨ classify c = .keep ∨ classify c = .combining
  -- It neither starts with a dot, a space or a mark, nor ends with a dot or a space.
  first : ∀ c, s.head? = some c → c ≠ '.' ∧ c ≠ ' ' ∧ classify c ≠ .combining
  last : ∀ c, s.getLast? = some c → c ≠ '.' ∧ c ≠ ' '
  spaces : ∀ a b, s ≠ a ++ ' ' :: ' ' :: b
  -- A mark directly follows a kept character that is no dot, or another mark.
  based : ∀ a c d b, s = a ++ c :: d :: b → classify d = .combining →
    (classify c = .keep ∧ c ≠ '.') ∨ classify c = .combining
  runs : ∀ a r b, s = a ++ r ++ b → (∀ c ∈ r, classify c = .combining) →
    r.length ≤ maxCombiningRun

/-- The automaton accepts the string as a whole name. -/
def Accepted (s : Str) : Prop := ∃ t, Tail.start.read s = some t ∧ t.Final

/-- What a string ends in, as the tail remembers it. -/
def Tail.Ends (s : Str) : Tail → Prop
  | .start => s = []
  | .base => ∃ r c, s = r ++ [c] ∧ classify c = .keep ∧ c ≠ '.'
  | .dot => ∃ r, s = r ++ ['.']
  | .space => ∃ r, s = r ++ [' ']
  | .mark n => ∃ r m, s = r ++ m ∧ m.length = n ∧ 0 < n ∧ ∀ c ∈ m, classify c = .combining

/-- The automaton reads every prefix of a name that meets the rules. -/
theorem Safe.read_isPrefix {s : Str} (h : Safe s) (p q : Str) (hs : s = p ++ q) :
    ∃ t, Tail.start.read p = some t ∧ t.Ends p := by
  induction p using List.reverseRecOn generalizing q with
  | nil => exact ⟨.start, rfl, rfl⟩
  | append_singleton p c ih =>
    rw [List.append_assoc] at hs
    obtain ⟨t, ht, he⟩ := ih ([c] ++ q) hs
    have hmem : c ∈ s := by rw [hs]; simp
    have hread : ∀ v, Tail.Next c t v → Tail.start.read (p ++ [c]) = some v :=
      fun v hn => Tail.read_concat_iff.mpr ⟨t, ht, hn⟩
    have hstart : t = .start → c ≠ '.' ∧ c ≠ ' ' ∧ classify c ≠ .combining := by
      rintro rfl
      exact h.first c (by rw [hs, show p = [] from he]; rfl)
    rcases h.shown c hmem with rfl | hk | hm
    · have hsp : t ≠ .space := by
        rintro rfl
        obtain ⟨r, rfl⟩ := he
        exact h.spaces r q (by simpa using hs)
      exact ⟨.space, hread _ (.space rfl (fun e => (hstart e).2.1 rfl) hsp), p, rfl⟩
    · by_cases hd : c = '.'
      · exact ⟨.dot, hread _ (.dot hd fun e => (hstart e).1 hd), p, by rw [hd]⟩
      · have hs1 : c ≠ '/' := fun e => h.slashless.1 (e ▸ hmem)
        have hs2 : c ≠ '\\' := fun e => h.slashless.2 (e ▸ hmem)
        exact ⟨.base, hread _ (.base hk hd hs1 hs2), p, c, rfl, hk, hd⟩
    · -- A mark: the rules leave only a base or a mark to follow.
      cases t with
      | start => exact absurd hm (hstart rfl).2.2
      | base =>
        exact ⟨.mark 1, hread _ (.first hm), p, [c], rfl, rfl, Nat.one_pos, by simpa using hm⟩
      | dot =>
        obtain ⟨r, rfl⟩ := he
        have := h.based r '.' c q (by simpa using hs) hm
        simp at this
      | space =>
        obtain ⟨r, rfl⟩ := he
        have := h.based r ' ' c q (by simpa using hs) hm
        simp at this
      | mark n =>
        obtain ⟨r, m, rfl, rfl, -, hall⟩ := he
        have hall' : ∀ d ∈ m ++ [c], classify d = .combining := by
          intro d hd
          rcases List.mem_append.mp hd with hd | hd
          · exact hall d hd
          · obtain rfl := List.mem_singleton.mp hd
            exact hm
        have hlt := h.runs r (m ++ [c]) q (by simpa using hs) hall'
        refine ⟨.mark (m.length + 1), hread _ (.more hm (by simp at hlt; omega)), r, m ++ [c],
          by simp, by simp, by omega, hall'⟩

theorem Safe.accepted {s : Str} (h : Safe s) : Accepted s := by
  obtain ⟨t, ht, -⟩ := h.read_isPrefix s [] (List.append_nil s).symm
  refine ⟨t, ht, Tail.final_of_last ht h.nonempty fun c hc => ?_⟩
  simpa [dotOrSpace] using h.last c hc

/-- A name the automaton accepts, of the right length, meets the rules. -/
theorem Safe.of_accepted {s : Str} (h : Accepted s) (hlen : len s ≤ maxNameBytes) : Safe s := by
  obtain ⟨t, hr, hf⟩ := h
  have hmem : ∀ c ∈ s, c ≠ '/' ∧ c ≠ '\\' ∧
      (c = ' ' ∨ classify c = .keep ∨ classify c = .combining) := by
    intro c hc
    obtain ⟨a, b, rfl⟩ := List.append_of_mem hc
    obtain ⟨u, u', -, hn, -⟩ := Tail.read_cut hr
    cases hn with
    | base hk _ h1 h2 => exact ⟨h1, h2, Or.inr (Or.inl hk)⟩
    | dot he => simp [he]
    | space he => simp [he]
    | first hm | more hm =>
      refine ⟨?_, ?_, Or.inr (Or.inr hm)⟩ <;> rintro rfl <;> simp at hm
  refine ⟨?_, hlen, ⟨fun hc => (hmem _ hc).1 rfl, fun hc => (hmem _ hc).2.1 rfl⟩,
    fun c hc => (hmem c hc).2.2, ?_, ?_, ?_, ?_, ?_⟩
  · rintro rfl
    obtain rfl : Tail.start = t := Option.some.inj hr
    exact hf
  · intro c hc
    obtain ⟨hk, hd⟩ := Tail.head_of_read hr hc
    exact ⟨hd, by rintro rfl; simp at hk, by simp [hk]⟩
  · intro c hc
    simpa [dotOrSpace] using Tail.last_of_final hr hf hc
  · rintro a b rfl
    obtain ⟨u, u', -, hn, h'⟩ := Tail.read_cut hr
    obtain ⟨v, hn', -⟩ := Tail.read_cons_iff.mp h'
    cases hn with
    | base hk => simp at hk
    | dot he => simp at he
    | first hm | more hm => simp at hm
    | space =>
      cases hn' with
      | base hk => simp at hk
      | dot he => simp at he
      | space _ _ hne => exact hne rfl
  · rintro a c d b rfl hd
    obtain ⟨u, u', -, hn, h'⟩ := Tail.read_cut hr
    obtain ⟨v, hn', -⟩ := Tail.read_cons_iff.mp h'
    cases hn' with
    | base hk => simp [hk] at hd
    | dot he => simp [he] at hd
    | space he => simp [he] at hd
    | first =>
      cases hn with
      | base hk hd' => exact Or.inl ⟨hk, hd'⟩
    | more =>
      cases hn with
      | first hm | more hm => exact Or.inr hm
  · rintro a r b rfl hall
    rcases eq_or_ne r [] with rfl | hne
    · exact Nat.zero_le _
    obtain ⟨u, hu, -⟩ := Tail.read_append_iff.mp hr
    obtain ⟨u₀, -, hu⟩ := Tail.read_append_iff.mp hu
    obtain ⟨k, -, hle, hk⟩ := Tail.read_marks hu hne hall
    exact hle.trans hk

theorem safe_iff_accepted {s : Str} : Safe s ↔ Accepted s ∧ len s ≤ maxNameBytes :=
  ⟨fun h => ⟨h.accepted, h.short⟩, fun h => .of_accepted h.1 h.2⟩

end Sukkula.Name
