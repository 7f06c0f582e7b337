import Sukkula.Name.Safe

/-! # What `sanitize` yields and what it keeps

The scan keeps its output readable by the automaton, and the later steps only
cut prefixes or replace the part before an extension, so every result is a safe
name. On a safe name no step changes anything.
-/

namespace Sukkula.Name

open Str Text

variable {s last : Str} {st : Scan} {t t' : Tail} {c : Char}

/-- What the variables of the loop say about the tail of the output. -/
def Scan.Ends (st : Scan) : Tail → Prop
  | .start => st.cleaned = []
  | .base => st.combining = 0
  | .dot => st.cleaned.getLast? = some '.'
  | .space => False
  | .mark n => st.combining = n

/-- The output can be read, and the variables agree with its tail. -/
def Scan.Readable (st : Scan) : Prop := ∃ t, Tail.start.read st.cleaned = some t ∧ st.Ends t

theorem Scan.readable_keep (hst : st.Readable) (hc : classify c = .keep) (h1 : c ≠ '/')
    (h2 : c ≠ '\\') (hd : ¬ (c = '.' ∧ st.cleaned = [])) : (st.push c).Readable := by
  obtain ⟨t, ht, he⟩ := hst
  have hpush : st.push c = ⟨(if st.pendingSpace ∧ st.cleaned ≠ [] then st.cleaned ++ [' ']
      else st.cleaned) ++ [c], false, 0⟩ := by simp only [Scan.push, hc, if_neg hd]
  -- The space that was pending is written first, and only after something.
  obtain ⟨u, hu, hus⟩ : ∃ u, Tail.start.read (if st.pendingSpace ∧ st.cleaned ≠ [] then
      st.cleaned ++ [' '] else st.cleaned) = some u ∧ (u = .start → st.cleaned = []) := by
    split_ifs with hp
    · refine ⟨.space, Tail.read_concat_iff.mpr ⟨t, ht, .space rfl ?_ ?_⟩, nofun⟩
      · rintro rfl
        exact hp.2 he
      · rintro rfl
        exact he
    · exact ⟨t, ht, by rintro rfl; exact he⟩
  rw [hpush]
  by_cases hdot : c = '.'
  · refine ⟨.dot, Tail.read_concat_iff.mpr ⟨u, hu, .dot hdot fun h => hd ⟨hdot, hus h⟩⟩, ?_⟩
    simp [Scan.Ends, hdot]
  · exact ⟨.base, Tail.read_concat_iff.mpr ⟨u, hu, .base hc hdot h1 h2⟩, rfl⟩

theorem Scan.readable_combining (hst : st.Readable) (hc : classify c = .combining) :
    (st.push c).Readable := by
  simp only [Scan.push, hc]
  split_ifs with h
  · obtain ⟨hne, hdot, hlt⟩ := h
    obtain ⟨t, ht, he⟩ := hst
    cases t with
    | start => exact absurd he hne
    | base =>
      exact ⟨.mark 1, Tail.read_concat_iff.mpr ⟨_, ht, .first hc⟩, congrArg (· + 1) he⟩
    | dot => exact absurd he hdot
    | space => exact he.elim
    | mark n =>
      obtain rfl : st.combining = n := he
      exact ⟨.mark (st.combining + 1), Tail.read_concat_iff.mpr ⟨_, ht, .more hc hlt⟩, rfl⟩
  · exact hst

theorem Scan.readable_push (hst : st.Readable) (h1 : c ≠ '/') (h2 : c ≠ '\\') :
    (st.push c).Readable := by
  cases hc : classify c with
  | drop => simpa only [Scan.push, hc] using hst
  | space | newline =>
    obtain ⟨t, ht, he⟩ := hst
    simp only [Scan.push, hc]
    exact ⟨t, ht, by cases t <;> exact he⟩
  | combining => exact readable_combining hst hc
  | keep =>
    by_cases hd : c = '.' ∧ st.cleaned = []
    · simpa only [Scan.push, hc, if_pos hd] using hst
    · exact readable_keep hst hc h1 h2 hd

theorem Scan.readable_run (hst : st.Readable) (hs : '/' ∉ s ∧ '\\' ∉ s) :
    (Scan.run st s).1.Readable := by
  induction s generalizing st with
  | nil => exact hst
  | cons c s ih =>
    simp only [List.mem_cons, not_or] at hs
    unfold Scan.run
    split
    · exact hst
    · exact ih (readable_push hst (Ne.symm hs.1.1) (Ne.symm hs.2.1)) ⟨hs.1.2, hs.2.2⟩

theorem Tail.read_keep (ht : t ≠ .start) (hs : ∀ c ∈ s, classify c = .keep ∧ c ≠ '/' ∧ c ≠ '\\') :
    ∃ u, t.read s = some u := by
  induction s generalizing t with
  | nil => exact ⟨t, rfl⟩
  | cons c s ih =>
    obtain ⟨hk, h1, h2⟩ := hs c (by simp)
    have hs' := fun d hd => hs d (List.mem_cons_of_mem c hd)
    by_cases hd : c = '.'
    · obtain ⟨u, hu⟩ := ih (t := .dot) nofun hs'
      exact ⟨u, read_cons_iff.mpr ⟨_, .dot hd ht, hu⟩⟩
    · obtain ⟨u, hu⟩ := ih (t := .base) nofun hs'
      exact ⟨u, read_cons_iff.mpr ⟨_, .base hk hd h1 h2, hu⟩⟩

theorem capExtension_isPrefix (used : ℕ) (s : Str) : capExtension used s <+: s := by
  induction s generalizing used with
  | nil => exact List.prefix_rfl
  | cons c s ih =>
    unfold capExtension
    split
    · exact List.cons_prefix_cons.mpr ⟨rfl, ih _⟩
    · exact List.nil_prefix

theorem mem_sanitizeExtension (hc : c ∈ sanitizeExtension s) : c ∈ s ∧ classify c = .keep := by
  have h := (capExtension_isPrefix _ _).subset hc
  simpa using List.mem_of_mem_take h

/-- What `split_extension` finds: the last dot, neither first nor last in the name. -/
theorem splitExtension_some {stem ext : Str} (h : splitExtension s = (stem, some ext)) :
    s = stem ++ '.' :: ext ∧ stem ≠ [] ∧ ext ≠ [] ∧ '.' ∉ ext ∧ ' ' ∉ ext ∧
      len ext ≤ maxExtensionBytes := by
  unfold splitExtension at h
  split at h
  · cases h
  · cases h
  · rename_i i hne hi
    obtain ⟨hs, hdot⟩ := rfind_eq_some hi
    dsimp only at h
    split_ifs at h with hcond
    · cases h
    obtain ⟨rfl, rfl⟩ : s.take i = stem ∧ s.drop (i + 1) = ext := by simpa using h
    obtain ⟨h1, h2, h3⟩ := by simpa only [not_or] using hcond
    refine ⟨hs, ?_, h1, hdot, h3, Nat.le_of_not_lt h2⟩
    intro h0
    rcases List.take_eq_nil_iff.mp h0 with rfl | rfl
    · exact hne rfl
    · cases hi

theorem Scan.cut_run {st' : Scan} (h : Scan.run st s = (st', true)) : st'.cleaned ≠ [] := by
  induction s generalizing st with
  | nil => cases h
  | cons c s ih =>
    unfold Scan.run at h
    split_ifs at h with hlen
    · obtain rfl : st = st' := by simpa using h
      rintro h0
      simp [h0] at hlen
    · exact ih h

/-- A dot and an extension may follow any output that is not empty. -/
theorem readable_dot (hr : Tail.start.read s = some t) (hs : s ≠ []) :
    Tail.start.read (s ++ ['.']) = some .dot := by
  refine Tail.read_concat_iff.mpr ⟨t, hr, .dot rfl ?_⟩
  rintro rfl
  rw [← List.dropLast_append_getLast hs] at hr
  obtain ⟨u, -, hn⟩ := Tail.read_concat_iff.mp hr
  cases hn

theorem readable_scanned (hs : '/' ∉ last ∧ '\\' ∉ last) :
    ∃ t, Tail.start.read (scanned last) = some t := by
  have hstart : (⟨[], false, 0⟩ : Scan).Readable := ⟨.start, rfl, rfl⟩
  obtain ⟨t, ht, he⟩ := Scan.readable_run hstart hs
  unfold scanned
  split
  · rename_i hrun
    exact ⟨t, by simpa only [hrun] using ht⟩
  · rename_i st hrun
    simp only [hrun] at ht
    split
    · rename_i ext hext
      obtain ⟨hlast, -⟩ := splitExtension_some hext
      split_ifs with hnil
      · exact ⟨t, ht⟩
      · have hdot := readable_dot ht (Scan.cut_run hrun)
        obtain ⟨u, hu⟩ :=
          Tail.read_keep (s := sanitizeExtension ext) (t := .dot) nofun fun c hc => by
          obtain ⟨hmem, hk⟩ := mem_sanitizeExtension hc
          have hc' : c ∈ last := by rw [hlast]; simp [hmem]
          exact ⟨hk, by rintro rfl; exact hs.1 hc', by rintro rfl; exact hs.2 hc'⟩
        refine ⟨u, ?_⟩
        rw [← List.singleton_append, ← List.append_assoc]
        exact Tail.read_append_iff.mpr ⟨_, hdot, hu⟩
    · exact ⟨t, ht⟩

/-- Shortening keeps a name readable: it cuts a prefix, and may put the extension back. -/
theorem readable_shorten (h : ∃ t, Tail.start.read s = some t) :
    ∃ t, Tail.start.read (shorten s) = some t := by
  obtain ⟨t, hr⟩ := h
  unfold shorten
  split
  · exact ⟨t, hr⟩
  split
  · rename_i stem ext hext
    obtain ⟨rfl, -⟩ := splitExtension_some hext
    dsimp only
    split_ifs with hnil
    · exact Tail.read_isPrefix (truncateBytes_isPrefix _ _) hr
    · obtain ⟨u, u', hu, hn, hext⟩ := Tail.read_cut hr
      obtain rfl : u' = .dot := by cases hn <;> simp_all
      have hpre :
          (truncateBytes stem (maxNameBytes - (len ext + 1))).rdropWhile dotOrSpace <+: stem :=
        (List.rdropWhile_prefix _ _).trans (truncateBytes_isPrefix _ _)
      obtain ⟨v, hv⟩ := Tail.read_isPrefix hpre hu
      refine ⟨t, ?_⟩
      rw [← List.singleton_append, ← List.append_assoc]
      exact Tail.read_append_iff.mpr ⟨_, readable_dot hv hnil, hext⟩
  · exact Tail.read_isPrefix (truncateBytes_isPrefix _ _) hr

theorem len_shorten_le (s : Str) : len (shorten s) ≤ maxNameBytes := by
  unfold shorten
  split
  · assumption
  split
  · rename_i stem ext hext
    obtain ⟨-, -, -, -, -, hlen⟩ := splitExtension_some hext
    dsimp only
    split_ifs
    · exact len_truncateBytes_le _ _
    · have h1 := len_le_of_isPrefix (List.rdropWhile_prefix dotOrSpace
        (truncateBytes stem (maxNameBytes - (len ext + 1))))
      have h2 := len_truncateBytes_le stem (maxNameBytes - (len ext + 1))
      have h3 : '.'.utf8Size = 1 := by decide
      simp only [len_append, len_cons, h3]
      simp only [maxNameBytes, maxExtensionBytes] at *
      omega
  · exact len_truncateBytes_le _ _

theorem accepted_fallbackName : Accepted fallbackName := by
  refine ⟨.base, ?_, trivial⟩
  decide +kernel

theorem dropWhile_readable (hr : Tail.start.read s = some t) : s.dropWhile dotOrSpace = s := by
  cases s with
  | nil => rfl
  | cons c s =>
    obtain ⟨hk, hd⟩ := Tail.head_of_read hr rfl
    have hsp : c ≠ ' ' := by rintro rfl; simp at hk
    simp [dotOrSpace, hd, hsp]

theorem lastSegment_slashless (raw : Str) : '/' ∉ lastSegment raw ∧ '\\' ∉ lastSegment raw := by
  constructor <;> intro h <;> simpa using List.mem_rtakeWhile_imp h

theorem safe_sanitize (raw : Str) : Safe (sanitize raw) := by
  obtain ⟨t, ht⟩ := readable_scanned (lastSegment_slashless raw)
  have htrim := Tail.read_isPrefix (List.rdropWhile_prefix dotOrSpace _) ht
  unfold sanitize finish
  simp only [dropWhile_readable ht]
  obtain ⟨u, hu⟩ := readable_shorten htrim
  split_ifs with hnil
  · exact .of_accepted accepted_fallbackName (by decide)
  · obtain ⟨v, hv⟩ := Tail.read_isPrefix (List.rdropWhile_prefix dotOrSpace _) hu
    refine .of_accepted ⟨v, hv, Tail.final_of_last hv hnil fun c hc => ?_⟩ ?_
    · rw [List.getLast?_eq_some_getLast hnil] at hc
      obtain rfl := Option.some.inj hc
      exact List.rdropWhile_last_not _ _ hnil
    · exact (len_le_of_isPrefix (List.rdropWhile_prefix dotOrSpace _)).trans (len_shorten_le _)

/-- On a name that meets the rules, the scan has copied what it read, bar a space it still owes. -/
def Scan.Mirrors (st : Scan) (p : Str) : Tail → Prop
  | .start => p = [] ∧ st = ⟨[], false, 0⟩
  | .base | .dot => st = ⟨p, false, 0⟩
  | .space => p = st.cleaned ++ [' '] ∧ st.pendingSpace = true ∧ st.cleaned ≠ []
  | .mark n => st = ⟨p, false, n⟩

theorem Scan.Mirrors.len_le {p : Str} (h : st.Mirrors p t) : len st.cleaned ≤ len p := by
  cases t with
  | start => simp [h.2]
  | base | dot | mark => simp [show st = _ from h]
  | space => simp [h.1]

theorem Scan.Mirrors.flush {p : Str} (h : st.Mirrors p t) :
    (if st.pendingSpace ∧ st.cleaned ≠ [] then st.cleaned ++ [' '] else st.cleaned) = p := by
  cases t with
  | start => simp [h.1, h.2]
  | base | dot | mark => simp [show st = _ from h]
  | space => simp [h.1, h.2.1, h.2.2]

theorem Scan.Mirrors.nonempty {p : Str} (h : st.Mirrors p t) (hp : Tail.start.read p = some t)
    (ht : t ≠ .start) : st.cleaned ≠ [] := by
  intro h0
  obtain rfl : [] = p := by simpa [h0] using h.flush
  exact ht (Option.some.inj hp).symm

theorem Scan.push_mark {p : Str} {n : ℕ} (hp : Tail.start.read p = some t) (ht : t ≠ .start)
    (hf : t.Final) (hc : classify c = .combining) (hn : n < maxCombiningRun) :
    Scan.push ⟨p, false, n⟩ c = ⟨p ++ [c], false, n + 1⟩ := by
  have hne : p ≠ [] := by
    rintro rfl
    exact ht (Option.some.inj hp).symm
  have hdot : p.getLast? ≠ some '.' := fun h => Tail.last_of_final hp hf h rfl
  simp [Scan.push, hc, hne, hdot, hn]

theorem Scan.Mirrors.push {p : Str} (h : st.Mirrors p t) (hp : Tail.start.read p = some t)
    (hn : Tail.Next c t t') : (st.push c).Mirrors (p ++ [c]) t' := by
  cases hn with
  | base hk hd => simp [Scan.push, hk, hd, h.flush, Scan.Mirrors]
  | dot hd ht =>
    have hne := h.nonempty hp ht
    have hfl := h.flush
    simp only [Scan.push, hd, classify_dot, hne, and_false, if_false, hfl]
    rfl
  | space he ht hsp =>
    have hne := h.nonempty hp ht
    have hcl : st.cleaned = p := by
      cases t with
      | start => exact absurd rfl ht
      | space => exact absurd rfl hsp
      | base | dot | mark => rw [show st = _ from h]
    subst he
    simp [Scan.push, Scan.Mirrors, hcl, hcl ▸ hne]
  | first hm =>
    obtain rfl : st = ⟨p, false, 0⟩ := h
    exact push_mark hp nofun trivial hm (by decide)
  | more hm hlt =>
    obtain rfl : st = ⟨p, false, _⟩ := h
    exact push_mark hp nofun trivial hm hlt

theorem Scan.Mirrors.run {p : Str} (h : st.Mirrors p t) (hp : Tail.start.read p = some t)
    (hs : t.read s = some t') (hlen : len (p ++ s) ≤ scanBytes) :
    ∃ st', Scan.run st s = (st', false) ∧ st'.Mirrors (p ++ s) t' := by
  induction s generalizing p st t with
  | nil =>
    obtain rfl := Option.some.inj hs
    exact ⟨st, rfl, by simpa using h⟩
  | cons c s ih =>
    obtain ⟨u, hn, hu⟩ := Tail.read_cons_iff.mp hs
    have hle : ¬ scanBytes < len st.cleaned := by
      have := h.len_le
      simp at hlen
      omega
    obtain ⟨st', hrun, hst⟩ := ih (h.push hp hn) (Tail.read_concat_iff.mpr ⟨t, hp, hn⟩) hu
      (by simpa using hlen)
    refine ⟨st', ?_, by simpa using hst⟩
    rw [Scan.run, if_neg hle, hrun]

theorem Scan.Mirrors.cleaned_eq {p : Str} (h : st.Mirrors p t) (hf : t.Final) : st.cleaned = p := by
  cases t with
  | start | dot | space => exact hf.elim
  | base | mark => rw [show st = _ from h]

theorem lastSegment_eq (h : '/' ∉ s ∧ '\\' ∉ s) : lastSegment s = s := by
  refine List.rtakeWhile_eq_self_iff.mpr fun c hc => ?_
  have h1 : c ≠ '/' := by rintro rfl; exact h.1 hc
  have h2 : c ≠ '\\' := by rintro rfl; exact h.2 hc
  simp [h1, h2]

theorem sanitize_safe (h : Safe s) : sanitize s = s := by
  obtain ⟨t, ht, hf⟩ := h.accepted
  have hlen : len s ≤ scanBytes := h.short.trans (by decide)
  have hstart : (⟨[], false, 0⟩ : Scan).Mirrors [] .start := ⟨rfl, rfl⟩
  obtain ⟨st, hrun, hst⟩ := hstart.run rfl ht hlen
  have hscan : scanned s = s := by
    simpa [scanned, hrun] using hst.cleaned_eq hf
  have htrim : s.rdropWhile dotOrSpace = s :=
    List.rdropWhile_eq_self_iff.mpr fun hs =>
      Tail.last_of_final ht hf (List.getLast?_eq_some_getLast hs)
  have hshort : shorten s = s := if_pos h.short
  simp [sanitize, finish, lastSegment_eq h.slashless, hscan, dropWhile_readable ht, htrim, hshort,
    h.nonempty]

/-- `is_safe` decides the rules, and `sanitize` enforces them, so it is idempotent. -/
theorem isSafe_iff_and_sanitize_safe :
    (∀ s, isSafe s = true ↔ Safe s) ∧
      ∀ raw, Safe (sanitize raw) ∧ sanitize (sanitize raw) = sanitize raw := by
  refine ⟨fun s => ⟨fun h => ?_, fun h => ?_⟩, fun raw => ?_⟩
  · have hs : sanitize s = s := by simpa [isSafe] using h
    exact hs ▸ safe_sanitize s
  · simpa [isSafe] using sanitize_safe h
  · exact ⟨safe_sanitize raw, sanitize_safe (safe_sanitize raw)⟩

end Sukkula.Name
