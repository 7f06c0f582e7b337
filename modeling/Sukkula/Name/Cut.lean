import Sukkula.Name.Extension

/-! # The cut on huge names

The scan of a name stops after `SCAN_BYTES` of output, and the extension is
then taken from the raw tail. Either way the result is the start of the cleaned
name with the extension that shortening keeps, so the cut shows exactly where
the two extensions differ and that can be seen in what is left of the name.
-/

namespace Sukkula.Name

open Str Text

variable {s t last : Str} {st st' : Scan} {c : Char}

def cleanedWhole (last : Str) : Str := (last.foldl Scan.push ⟨[], false, 0⟩).cleaned

/-- `sanitize` without the cut: no extension is taken from the raw tail. -/
def sanitizeFull (raw : Str) : Str := finish (cleanedWhole (lastSegment raw))

/-- The extension that shortening keeps; a name that is short enough is not taken apart. -/
def keptExtension (cleaned : Str) : Option Str :=
  let trimmed := cleaned.rdropWhile dotOrSpace
  if len trimmed ≤ maxNameBytes then none else (splitExtension trimmed).2

/-- The start of a name that leaves room for the extension, and the extension. -/
def shortTo (cleaned : Str) (ext : Option Str) : Str :=
  (truncateBytes cleaned (maxNameBytes - len (dotted ext))).rdropWhile dotOrSpace ++ dotted ext

theorem Scan.run_false (h : Scan.run st s = (st', false)) : st' = s.foldl Scan.push st := by
  induction s generalizing st with
  | nil => exact (Prod.mk.inj h).1.symm
  | cons c s ih =>
    rw [Scan.run] at h
    split_ifs at h
    · cases h
    · exact ih h

theorem Scan.run_true (h : Scan.run st s = (st', true)) :
    scanBytes < len st'.cleaned ∧ ∃ p q, s = p ++ q ∧ st' = p.foldl Scan.push st := by
  induction s generalizing st with
  | nil => cases h
  | cons c s ih =>
    rw [Scan.run] at h
    split_ifs at h with hlen
    · obtain ⟨rfl, -⟩ := Prod.mk.inj h
      exact ⟨hlen, [], c :: s, rfl, rfl⟩
    · obtain ⟨hlt, p, q, rfl, rfl⟩ := ih h
      exact ⟨hlt, c :: p, q, rfl, rfl⟩

theorem Scan.isPrefix_push (st : Scan) (c : Char) : st.cleaned <+: (st.push c).cleaned := by
  unfold Scan.push
  split
  · exact List.prefix_rfl
  · exact List.prefix_rfl
  · exact List.prefix_rfl
  · split_ifs
    · exact List.prefix_append _ _
    · exact List.prefix_rfl
  · split_ifs
    · exact List.prefix_rfl
    · exact (List.prefix_append _ _).trans (List.prefix_append _ _)
    · exact List.prefix_append _ _

theorem Scan.isPrefix_foldl (st : Scan) (s : Str) :
    st.cleaned <+: (s.foldl Scan.push st).cleaned := by
  induction s generalizing st with
  | nil => exact List.prefix_rfl
  | cons c s ih => exact (st.isPrefix_push c).trans (ih (st.push c))

theorem readable_cleanedWhole (hs : '/' ∉ last ∧ '\\' ∉ last) :
    ∃ t, Tail.start.read (cleanedWhole last) = some t := by
  suffices h : ∀ st : Scan, st.Readable → (last.foldl Scan.push st).Readable by
    obtain ⟨t, ht, -⟩ := h ⟨[], false, 0⟩ ⟨.start, rfl, rfl⟩
    exact ⟨t, ht⟩
  induction last with
  | nil => exact fun st hst => hst
  | cons c s ih =>
    simp only [List.mem_cons, not_or] at hs
    exact fun st hst => ih ⟨hs.1.2, hs.2.2⟩ _
      (Scan.readable_push hst (Ne.symm hs.1.1) (Ne.symm hs.2.1))

theorem rdropWhile_truncateBytes_ne_nil (hr : ∃ t, Tail.start.read s = some t)
    (hs : s ≠ []) {room : ℕ} (hroom : 4 ≤ room) :
    (truncateBytes s room).rdropWhile dotOrSpace ≠ [] := by
  obtain ⟨t, ht⟩ := hr
  cases s with
  | nil => exact absurd rfl hs
  | cons c s =>
    have hc : ¬ dotOrSpace c := by
      intro hc
      have := dropWhile_readable ht
      rw [List.dropWhile_cons_of_pos hc] at this
      exact absurd (congrArg List.length this)
        (Nat.ne_of_lt (Nat.lt_succ_of_le (List.dropWhile_sublist _).length_le))
    have hpre : [c] <+: (truncateBytes (c :: s) room).rdropWhile dotOrSpace := by
      rw [truncateBytes, if_pos ((Char.utf8Size_le_four c).trans hroom)]
      exact isPrefix_rdropWhile (a := []) hc
    intro h
    rw [h] at hpre
    simp at hpre

theorem maxNameBytes_sub_len_dotted (s : Str) :
    4 ≤ maxNameBytes - len (dotted (splitExtension s).2) := by
  have := len_dotted_le s
  simp only [maxNameBytes, maxExtensionBytes] at *
  omega

/-- A cut of at most the length of a name is a cut of what it starts with. -/
theorem truncateBytes_isPrefix_eq (h : s <+: t) {max : ℕ} (hmax : max ≤ len s) :
    truncateBytes t max = truncateBytes s max := by
  obtain ⟨r, rfl⟩ := h
  exact truncateBytes_append_of_le hmax r

/-- What is dropped from the end of a name is dropped from every part of it that is long enough. -/
theorem rdropWhile_truncateBytes {max : ℕ} (h : len (s.rdropWhile dotOrSpace) ≤ max) :
    (truncateBytes s max).rdropWhile dotOrSpace = s.rdropWhile dotOrSpace := by
  obtain ⟨junk, hjunk⟩ := List.rdropWhile_prefix dotOrSpace s
  have hdrop : ∀ p : Str, p <+: junk → (s.rdropWhile dotOrSpace ++ p).rdropWhile dotOrSpace =
      s.rdropWhile dotOrSpace := by
    intro p hp
    have hall : ∀ c ∈ p, dotOrSpace c := by
      intro c hc
      have hjunk' : junk = s.rtakeWhile dotOrSpace := by
        have heq : s.rdropWhile dotOrSpace ++ junk =
            s.rdropWhile dotOrSpace ++ s.rtakeWhile dotOrSpace := by
          rw [hjunk, List.rdropWhile_append_rtakeWhile]
        exact List.append_cancel_left heq
      exact List.mem_rtakeWhile_imp (hjunk' ▸ hp.subset hc)
    clear hp
    induction p using List.reverseRecOn with
    | nil => rw [List.append_nil, List.rdropWhile_idempotent]
    | append_singleton p c ih =>
      rw [← List.append_assoc, List.rdropWhile_concat_pos _ _ _ (hall c (by simp))]
      exact ih fun d hd => hall d (by simp [hd])
  conv_lhs => rw [← hjunk, truncateBytes_append h]
  exact hdrop _ (truncateBytes_isPrefix _ _)

theorem shorten_trimmed (hr : ∃ t, Tail.start.read s = some t) (hs : s ≠ []) :
    (shorten (s.rdropWhile dotOrSpace)).rdropWhile dotOrSpace = shortTo s (keptExtension s) := by
  have hpre := List.rdropWhile_prefix dotOrSpace s
  by_cases hlen : len (s.rdropWhile dotOrSpace) ≤ maxNameBytes
  · have hkept : keptExtension s = none := if_pos hlen
    rw [hkept, shortTo, shorten, if_pos hlen, dotted, List.append_nil, len_nil, Nat.sub_zero,
      rdropWhile_truncateBytes hlen, List.rdropWhile_idempotent]
  have hkept : keptExtension s = (splitExtension (s.rdropWhile dotOrSpace)).2 := if_neg hlen
  rw [shorten, if_neg hlen, hkept]
  split
  · rename_i stem ext hext
    obtain ⟨hstem, -, hne, hdot, hspace, -⟩ := splitExtension_some hext
    have hroom : maxNameBytes - (len ext + 1) ≤ len stem := by
      have hbytes := congrArg len hstem
      have hone : '.'.utf8Size = 1 := by decide
      rw [len_append, len_cons, hone] at hbytes
      omega
    have hcut : truncateBytes stem (maxNameBytes - (len ext + 1)) =
        truncateBytes s (maxNameBytes - (len ext + 1)) :=
      (truncateBytes_isPrefix_eq (by rw [hstem] at hpre; exact (List.prefix_append _ _).trans hpre)
        hroom).symm
    have hdotted : len (dotted (some ext)) = len ext + 1 := by
      have hone : '.'.utf8Size = 1 := by decide
      rw [dotted, len_cons, hone, Nat.add_comm]
    have hsome := maxNameBytes_sub_len_dotted (s.rdropWhile dotOrSpace)
    simp only [hext, hdotted] at hsome
    dsimp only
    rw [hcut, if_neg (rdropWhile_truncateBytes_ne_nil hr hs hsome), hext, shortTo, hdotted, dotted]
    -- An extension ends in neither a dot nor a space.
    rw [List.rdropWhile_eq_self_iff]
    intro hnil
    rw [List.getLast_append_of_ne_nil _ (by simp), List.getLast_cons hne]
    have hmem := List.getLast_mem hne
    intro hc
    rcases by simpa [dotOrSpace] using hc with hc | hc
    · exact hdot (hc ▸ hmem)
    · exact hspace (hc ▸ hmem)
  · rename_i hext
    rw [hext, shortTo, dotted, List.append_nil, len_nil, Nat.sub_zero,
      truncateBytes_isPrefix_eq hpre (Nat.le_of_not_le hlen)]

theorem shortTo_ne_nil (hr : ∃ t, Tail.start.read s = some t) (hs : s ≠ []) :
    shortTo s (keptExtension s) ≠ [] := by
  have hroom : 4 ≤ maxNameBytes - len (dotted (keptExtension s)) := by
    unfold keptExtension
    dsimp only
    split_ifs
    · decide
    · exact maxNameBytes_sub_len_dotted _
  exact List.append_ne_nil_of_left_ne_nil (rdropWhile_truncateBytes_ne_nil hr hs hroom) _

/-- The last steps leave the start of the name, with the extension that shortening keeps. -/
theorem finish_eq (hr : ∃ t, Tail.start.read s = some t) (hs : s ≠ []) :
    finish s = shortTo s (keptExtension s) := by
  have hshort := shorten_trimmed hr hs
  have hne := shortTo_ne_nil hr hs
  obtain ⟨t, ht⟩ := hr
  simp only [finish, dropWhile_readable ht, hshort, if_neg hne]

/-- The extension of the whole cleaned name that shortening keeps. -/
def wholeExtension (last : Str) : Option Str := keptExtension (cleanedWhole last)

/-- The extension that `sanitize` keeps: of a name that was cut, the shown characters of the raw
tail, and where these are none, what the part before the cut ends in. -/
def tailExtension (last : Str) : Option Str :=
  match Scan.run ⟨[], false, 0⟩ last with
  | (st, false) => keptExtension st.cleaned
  | (st, true) =>
    match (splitExtension last).2.map sanitizeExtension with
    | none | some [] => keptExtension st.cleaned
    | some ext => some ext

theorem len_capExtension_le {used : ℕ} (h : used ≤ maxExtensionBytes) (s : Str) :
    used + len (capExtension used s) ≤ maxExtensionBytes := by
  induction s generalizing used with
  | nil => simpa [capExtension] using h
  | cons c s ih =>
    rw [capExtension]
    split_ifs with hc
    · have := ih hc
      rw [len_cons]
      omega
    · simpa using h

theorem keptExtension_append {ext : Str} (hs : scanBytes < len s) (hne : sanitizeExtension ext ≠ [])
    (hdot : '.' ∉ ext) :
    keptExtension (s ++ '.' :: sanitizeExtension ext) = some (sanitizeExtension ext) := by
  have hshown : ∀ c ∈ sanitizeExtension ext, c ≠ '.' ∧ c ≠ ' ' := by
    intro c hc
    obtain ⟨hmem, hk⟩ := mem_sanitizeExtension hc
    exact ⟨fun h => hdot (h ▸ hmem), by rintro rfl; simp at hk⟩
  have htrim : (s ++ '.' :: sanitizeExtension ext).rdropWhile dotOrSpace =
      s ++ '.' :: sanitizeExtension ext := by
    rw [List.rdropWhile_eq_self_iff]
    intro hnil
    rw [List.getLast_append_of_ne_nil _ (by simp), List.getLast_cons hne]
    obtain ⟨h₁, h₂⟩ := hshown _ (List.getLast_mem hne)
    simp [dotOrSpace, h₁, h₂]
  have hlong : ¬ len (s ++ '.' :: sanitizeExtension ext) ≤ maxNameBytes := by
    rw [len_append]
    simp only [scanBytes, maxNameBytes] at *
    omega
  have hstem : s ≠ [] := by
    rintro rfl
    simp at hs
  have hcap := len_capExtension_le (Nat.zero_le maxExtensionBytes)
    ((ext.filter fun c => classify c = .keep).take maxExtensionBytes)
  rw [Nat.zero_add] at hcap
  unfold keptExtension
  simp only [htrim, if_neg hlong]
  rw [splitExtension_eq_some.mpr ⟨rfl, hstem, hne, fun h => (hshown _ h).1 rfl,
    fun h => (hshown _ h).2 rfl, hcap⟩]

/-- What `sanitize` makes of a segment starts as the whole cleaned name does. -/
theorem scanned_spec (last : Str) : keptExtension (scanned last) = tailExtension last ∧
    (scanned last = cleanedWhole last ∨
      ∃ p, scanBytes < len p ∧ p <+: scanned last ∧ p <+: cleanedWhole last) := by
  unfold scanned tailExtension
  rcases hrun : Scan.run ⟨[], false, 0⟩ last with ⟨st, _ | _⟩
  · exact ⟨rfl, Or.inl (congrArg Scan.cleaned (Scan.run_false hrun))⟩
  obtain ⟨hlen, p, q, hlast, hst⟩ := Scan.run_true hrun
  have hwhole : st.cleaned <+: cleanedWhole last := by
    rw [cleanedWhole, hlast, List.foldl_append, ← hst]
    exact Scan.isPrefix_foldl st q
  have hpart : ∀ s : Str, st.cleaned <+: s →
      s = cleanedWhole last ∨ ∃ p, scanBytes < len p ∧ p <+: s ∧ p <+: cleanedWhole last :=
    fun s h => Or.inr ⟨st.cleaned, hlen, h, hwhole⟩
  dsimp only
  rcases hext : splitExtension last with ⟨stem, _ | ext⟩
  · exact ⟨rfl, hpart _ List.prefix_rfl⟩
  have hdot := (splitExtension_some hext).2.2.2.1
  by_cases hnil : sanitizeExtension ext = []
  · simp only [Option.map_some, hnil, if_true]
    exact ⟨trivial, hpart _ List.prefix_rfl⟩
  · simp only [Option.map_some, if_neg hnil]
    refine ⟨?_, hpart _ (List.prefix_append _ _)⟩
    rw [keptExtension_append hlen hnil hdot]

/-- The start of the name ends in this extension as it is, with no room for the dot and the first
character of it once more. -/
def Spells (cleaned ext : Str) : Prop :=
  ∃ stem, (truncateBytes cleaned maxNameBytes).rdropWhile dotOrSpace = stem ++ '.' :: ext ∧
    (∀ c ∈ stem.getLast?, ¬ dotOrSpace c) ∧
    ∀ c ∈ ext.head?, maxNameBytes - 1 < len (stem ++ '.' :: ext) + c.utf8Size

theorem isPrefix_of_start {p : Str} (h : (truncateBytes s maxNameBytes).rdropWhile dotOrSpace = p) :
    p <+: s ∧ len p ≤ maxNameBytes := by
  have hpre := List.rdropWhile_prefix dotOrSpace (truncateBytes s maxNameBytes)
  rw [h] at hpre
  exact ⟨hpre.trans (truncateBytes_isPrefix _ _),
    (len_le_of_isPrefix hpre).trans (len_truncateBytes_le _ _)⟩

/-- Where the name spells the extension itself, leaving room for it drops just that much. -/
theorem rdropWhile_of_spells {stem ext : Str} {c : Char} (hs : stem ++ '.' :: c :: ext <+: s)
    (hlast : ∀ c ∈ stem.getLast?, ¬ dotOrSpace c) {room : ℕ} (hroom : len stem ≤ room)
    (hfull : room < len stem + 1 + c.utf8Size) :
    (truncateBytes s room).rdropWhile dotOrSpace = stem := by
  have htrim : stem.rdropWhile dotOrSpace = stem := by
    rw [List.rdropWhile_eq_self_iff]
    exact fun h => hlast _ (List.getLast_mem_getLast? h)
  obtain ⟨r, rfl⟩ := hs
  rw [List.append_assoc, truncateBytes_append hroom]
  rcases Nat.eq_zero_or_pos (room - len stem) with h | h
  · have hnil : truncateBytes ('.' :: c :: ext ++ r) 0 = [] := if_neg (by decide)
    rw [h, hnil, List.append_nil, htrim]
  · have hdot : truncateBytes ('.' :: c :: ext ++ r) (room - len stem) = ['.'] := by
      have hone : '.'.utf8Size = 1 := by decide
      rw [List.cons_append, List.cons_append, truncateBytes, if_pos (by omega), truncateBytes,
        if_neg (by omega)]
    rw [hdot, List.rdropWhile_concat_pos _ _ _ rfl, htrim]

theorem shortTo_none_eq_some {ext : Str} (hne : ext ≠ []) (hshown : ∀ c ∈ ext, ¬ dotOrSpace c) :
    shortTo s none = shortTo s (some ext) ↔ Spells s ext := by
  have hone : '.'.utf8Size = 1 := by decide
  obtain ⟨c, ext, rfl⟩ := List.exists_cons_of_ne_nil hne
  have hlen : ∀ stem : Str, len (stem ++ '.' :: c :: ext) =
      len stem + 1 + c.utf8Size + len ext := by
    intro stem
    rw [len_append, len_cons, len_cons, hone]
    omega
  have hroom : maxNameBytes - len (dotted (some (c :: ext))) =
      maxNameBytes - (1 + c.utf8Size + len ext) := by
    rw [dotted, len_cons, len_cons, hone, Nat.add_assoc]
  have hnone : shortTo s none = (truncateBytes s maxNameBytes).rdropWhile dotOrSpace := by
    rw [shortTo, dotted, List.append_nil, len_nil, Nat.sub_zero]
  rw [hnone, shortTo, hroom, dotted]
  constructor
  · intro h
    refine ⟨_, h, ?_, ?_⟩
    · intro d hd hdot
      obtain ⟨hnil, rfl⟩ := List.mem_getLast?_eq_getLast hd
      exact List.rdropWhile_last_not dotOrSpace _ hnil hdot
    · -- Otherwise the cut would keep the dot and the first character.
      generalize hstem : (truncateBytes s (maxNameBytes - (1 + c.utf8Size + len ext))).rdropWhile
        dotOrSpace = stem at h ⊢
      obtain ⟨⟨r, hr⟩, -⟩ := isPrefix_of_start h
      intro d hd
      obtain rfl : c = d := by simpa using hd
      rw [hlen]
      by_contra hle
      have hfit : len (stem ++ ['.'] ++ [c]) ≤ maxNameBytes - (1 + c.utf8Size + len ext) := by
        simp only [len_append, len_cons, len_nil, hone]
        omega
      have hs : s = stem ++ ['.'] ++ [c] ++ (ext ++ r) := by
        rw [← hr]
        simp
      have hpre : stem ++ ['.'] ++ [c] <+: (truncateBytes s
          (maxNameBytes - (1 + c.utf8Size + len ext))).rdropWhile dotOrSpace := by
        rw [hs, truncateBytes_append hfit]
        exact isPrefix_rdropWhile (hshown c List.mem_cons_self)
      rw [hstem] at hpre
      have := hpre.length_le
      simp only [List.length_append, List.length_singleton] at this
      omega
  · rintro ⟨stem, h, hlast, hfull⟩
    obtain ⟨hs, hmax⟩ := isPrefix_of_start h
    have hc := hfull c rfl
    rw [hlen] at hmax hc
    rw [h, rdropWhile_of_spells hs hlast (by omega) (by omega)]

/-- The two extensions are the same, or only one is there and the name spells it anyway. -/
def Agrees (last : Str) : Prop :=
  tailExtension last = wholeExtension last ∨
    (tailExtension last = none ∧ ∃ ext ∈ wholeExtension last, Spells (cleanedWhole last) ext) ∨
    (wholeExtension last = none ∧ ∃ ext ∈ tailExtension last, Spells (cleanedWhole last) ext)

theorem keptExtension_some {ext : Str} (h : keptExtension s = some ext) :
    ext ≠ [] ∧ ∀ c ∈ ext, ¬ dotOrSpace c := by
  unfold keptExtension at h
  dsimp only at h
  split_ifs at h
  obtain ⟨-, -, hne, hdot, hspace, -⟩ := splitExtension_snd h
  refine ⟨hne, fun c hc => ?_⟩
  have h₁ : c ≠ '.' := fun he => hdot (he ▸ hc)
  have h₂ : c ≠ ' ' := fun he => hspace (he ▸ hc)
  simp [dotOrSpace, h₁, h₂]

/-- A name shortened with one extension is the same as with another only if they agree. -/
theorem shortTo_eq_iff {e e' : Option Str} (he : ∀ ext ∈ e, ext ≠ [] ∧ ∀ c ∈ ext, ¬ dotOrSpace c)
    (he' : ∀ ext ∈ e', ext ≠ [] ∧ ∀ c ∈ ext, ¬ dotOrSpace c) :
    shortTo s e = shortTo s e' ↔
      e = e' ∨ (e = none ∧ ∃ ext ∈ e', Spells s ext) ∨ (e' = none ∧ ∃ ext ∈ e, Spells s ext) := by
  have hdot : ∀ ext : Str, (∀ c ∈ ext, ¬ dotOrSpace c) → '.' ∉ ext := fun ext h hc => h _ hc rfl
  cases e with
  | none =>
    cases e' with
    | none => simp
    | some ext' =>
      obtain ⟨hne, hshown⟩ := he' ext' rfl
      simp [shortTo_none_eq_some hne hshown]
  | some ext =>
    obtain ⟨hne, hshown⟩ := he ext rfl
    cases e' with
    | none => simp [eq_comm (a := shortTo s (some ext)), shortTo_none_eq_some hne hshown]
    | some ext' =>
      obtain ⟨-, hshown'⟩ := he' ext' rfl
      simp only [reduceCtorEq, false_and, or_false]
      constructor
      · intro h
        exact congrArg some (append_cons_inj (hdot ext hshown) (hdot ext' hshown') h).2
      · intro h
        rw [h]

/-- A name is sanitised as if all of it had been scanned, exactly where the extension of the raw
tail agrees with that of the cleaned name. -/
theorem sanitize_eq_full_iff (raw : Str) :
    sanitize raw = sanitizeFull raw ↔ Agrees (lastSegment raw) := by
  have hr := readable_scanned (lastSegment_slashless raw)
  have hr' := readable_cleanedWhole (lastSegment_slashless raw)
  obtain ⟨hkept, hsame | ⟨p, hlen, hp, hp'⟩⟩ := scanned_spec (lastSegment raw)
  · constructor
    · intro _
      exact Or.inl (by rw [← hkept, hsame]; rfl)
    · intro _
      rw [sanitize, sanitizeFull, hsame]
  have hpos : p ≠ [] := by
    rintro rfl
    simp at hlen
  have hne : ∀ s : Str, p <+: s → s ≠ [] := by
    rintro s h rfl
    exact hpos (List.prefix_nil.mp h)
  have hshort : ∀ e, shortTo (scanned (lastSegment raw)) e =
      shortTo (cleanedWhole (lastSegment raw)) e := by
    intro e
    have hmax : maxNameBytes - len (dotted e) ≤ len p := by
      simp only [scanBytes, maxNameBytes] at *
      omega
    rw [shortTo, shortTo, truncateBytes_isPrefix_eq hp hmax, truncateBytes_isPrefix_eq hp' hmax]
  rw [sanitize, sanitizeFull, finish_eq hr (hne _ hp), finish_eq hr' (hne _ hp'), hshort,
    shortTo_eq_iff (fun ext h => keptExtension_some h) (fun ext h => keptExtension_some h), hkept]
  rfl

def spacedName : Str := List.replicate 801 'a' ++ ".txt ".toList

theorem sanitize_ne_full : ¬ ∀ raw, sanitize raw = sanitizeFull raw := by
  intro h
  have hne : sanitize spacedName ≠ sanitizeFull spacedName := by decide +kernel
  exact hne (h spacedName)

end Sukkula.Name
